import Jack.Cbor.Item

/-!
Contract: reading CBOR.

Owns: the reading of one well-formed item that fills a text exactly, within limits
on nesting and on the number of elements.

Does not own: whether text is well-formed UTF-8, and what items stand for.

Heads may be longer than needed, and lengths may be open, with a break byte at the
end.
-/

set_option autoImplicit false

namespace Jack.Cbor

/-- How many arrays, maps and inner tags may stand in each other. -/
def maxLevels : Nat := 32

/-- How many elements an array may have, and how many entries a map. -/
def maxElements : Nat := 131072

/-- The byte that ends an item of open length. -/
def breakByte : UInt8 := 0xFF

/-- The first bytes of a text, exactly `count` of them, and the rest. -/
def take? (count : Nat) (input : Bytes) : Option (Bytes × Bytes) :=
  let taken := input.take count
  if taken.length = count then some (taken, input.drop count) else none

/-- The number that bytes spell, the most significant first. -/
def numberOf (bytes : Bytes) : Nat :=
  bytes.foldl (fun value byte => value * 256 + byte.toNat) 0

/-- A head. `info` tells how the argument was given; 31 marks an open length. -/
structure Head where
  major : Nat
  info : Nat
  argument : Nat
deriving DecidableEq, Repr

def Head.isOpen (head : Head) : Bool :=
  head.info == 31

/-- How many bytes the argument takes behind the first byte. -/
def argumentWidth? (info : Nat) : Option Nat :=
  if info < 24 then some 0
  else
    match info with
    | 24 => some 1
    | 25 => some 2
    | 26 => some 4
    | 27 => some 8
    | _ => none

/-- Reads a head. Numbers and tags have no open form, a break is no head, and a
simple value in a second byte is 32 or more. -/
def head? : Bytes → Option (Head × Bytes)
  | [] => none
  | first :: rest =>
      let major := first.toNat / 32
      let info := first.toNat % 32
      if info = 31 then
        if 2 ≤ major ∧ major ≤ 5 then some ({ major, info, argument := 0 }, rest)
        else none
      else
        match argumentWidth? info with
        | none => none
        | some 0 => some ({ major, info, argument := info }, rest)
        | some width =>
            match take? width rest with
            | none => none
            | some (bytes, rest) =>
                let argument := numberOf bytes
                if major = 7 ∧ info = 24 ∧ argument < 32 then none
                else some ({ major, info, argument }, rest)

/-- Reads the chunks of a string up to the break. Each is a string of known length
and of the same major type. `fuel` bounds the number of chunks. -/
def chunks? (major : Nat) (done : List Bytes) : (fuel : Nat) → Bytes →
    Option (List Bytes × Bytes)
  | 0, _ => none
  | fuel + 1, input =>
      if input.head? = some breakByte then some (done.reverse, input.drop 1)
      else
        match head? input with
        | none => none
        | some (head, rest) =>
            if head.major ≠ major ∨ head.isOpen then none
            else
              match take? head.argument rest with
              | none => none
              | some (chunk, rest) => chunks? major (chunk :: done) fuel rest

def string? (head : Head) (rest : Bytes) : Option (List Bytes × Bytes) :=
  if head.isOpen then chunks? head.major [] (rest.length + 1) rest
  else (take? head.argument rest).map fun (chunk, rest) => ([chunk], rest)

def primitive (head : Head) (input : Bytes) : Item :=
  match head.info with
  | 25 => .float (input.take 3 |>.drop 1)
  | 26 => .float (input.take 5 |>.drop 1)
  | 27 => .float (input.take 9 |>.drop 1)
  | _ => .simple head.argument

def startsTag (input : Bytes) : Bool :=
  input.head?.any fun first => first.toNat / 32 == 6

mutual

/-- Reads one item. `levels` is how many more items may stand around each other.
`fuel` bounds the recursion: every step but the last uses up a byte. -/
def item? : (fuel : Nat) → (levels : Nat) → Bytes → Option (Item × Bytes)
  | 0, _, _ => none
  | fuel + 1, levels, input =>
      match head? input with
      | none => none
      | some (head, rest) =>
          match head.major with
          | 0 => some (.unsigned head.argument, rest)
          | 1 => some (.negative head.argument, rest)
          | 2 => (string? head rest).map fun (chunks, rest) => (.bytes chunks, rest)
          | 3 => (string? head rest).map fun (chunks, rest) => (.text chunks, rest)
          | 4 =>
              if levels = 0 then none
              else if head.isOpen then openArray? fuel (levels - 1) [] rest
              else if maxElements < head.argument then none
              else array? fuel (levels - 1) head.argument [] rest
          | 5 =>
              if levels = 0 then none
              else if head.isOpen then openMap? fuel (levels - 1) [] rest
              else if maxElements < head.argument then none
              else map? fuel (levels - 1) head.argument [] rest
          | 6 =>
              if startsTag rest && levels == 0 then none
              else
                let inner := if startsTag rest then levels - 1 else levels
                match item? fuel inner rest with
                | none => none
                | some (content, rest) => some (.tag head.argument content, rest)
          | _ => some (primitive head input, rest)

/-- Reads `count` more elements, behind those read (latest first). -/
def array? : (fuel : Nat) → (levels count : Nat) → (done : List Item) → Bytes →
    Option (Item × Bytes)
  | 0, _, _, _, _ => none
  | _ + 1, _, 0, done, input => some (.array done.reverse, input)
  | fuel + 1, levels, count + 1, done, input =>
      match item? fuel levels input with
      | none => none
      | some (item, rest) => array? fuel levels count (item :: done) rest

def openArray? : (fuel : Nat) → (levels : Nat) → (done : List Item) → Bytes →
    Option (Item × Bytes)
  | 0, _, _, _ => none
  | fuel + 1, levels, done, input =>
      if input.head? = some breakByte then
        if maxElements < done.length then none
        else some (.array done.reverse, input.drop 1)
      else
        match item? fuel levels input with
        | none => none
        | some (item, rest) => openArray? fuel levels (item :: done) rest

/-- Reads `count` more entries, behind those read (latest first). -/
def map? : (fuel : Nat) → (levels count : Nat) → (done : List (Item × Item)) →
    Bytes → Option (Item × Bytes)
  | 0, _, _, _, _ => none
  | _ + 1, _, 0, done, input => some (.map done.reverse, input)
  | fuel + 1, levels, count + 1, done, input =>
      match item? fuel levels input with
      | none => none
      | some (key, rest) =>
          match item? fuel levels rest with
          | none => none
          | some (value, rest) => map? fuel levels count ((key, value) :: done) rest

def openMap? : (fuel : Nat) → (levels : Nat) → (done : List (Item × Item)) → Bytes →
    Option (Item × Bytes)
  | 0, _, _, _ => none
  | fuel + 1, levels, done, input =>
      if input.head? = some breakByte then
        if maxElements < done.length then none
        else some (.map done.reverse, input.drop 1)
      else
        match item? fuel levels input with
        | none => none
        | some (key, rest) =>
            match item? fuel levels rest with
            | none => none
            | some (value, rest) => openMap? fuel levels ((key, value) :: done) rest

end

/-- The item that a text holds, when it holds one and nothing else. -/
def decode? (input : Bytes) : Option Item :=
  match item? (2 * input.length + 2) maxLevels input with
  | some (item, []) => some item
  | _ => none

end Jack.Cbor
