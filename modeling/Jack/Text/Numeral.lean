import Jack.Text.Bytes

/-!
Contract: numbers as text.

Owns: decimal and hexadecimal writing; the reading of plain decimal integers and
of integer literals with a base mark, both within 64 bits.

Does not own: where a number may stand in a text.
-/

set_option autoImplicit false

namespace Jack.Numeral

/-- The byte of one digit. Digits from ten on are lower case letters. -/
def digit (value : Nat) : UInt8 :=
  if value < 10 then UInt8.ofNat (48 + value) else UInt8.ofNat (87 + value)

/-- The decimal digits of a number, without leading zeros. -/
def decimal (number : Nat) : Bytes :=
  if number < 10 then [digit number]
  else decimal (number / 10) ++ [digit (number % 10)]

/-- The decimal text of an integer: digits, after a minus when it is negative. -/
def signed : Int → Bytes
  | .ofNat number => decimal number
  | .negSucc number => ascii '-' :: decimal (number + 1)

/-- The last `width` hexadecimal digits of a number, with leading zeros. -/
def hexadecimal : Nat → Nat → Bytes
  | 0, _ => []
  | width + 1, number => hexadecimal width (number / 16) ++ [digit (number % 16)]

def isDigit (byte : UInt8) : Bool :=
  ascii '0' ≤ byte && byte ≤ ascii '9'

/-- The number that a run of decimal digits denotes. -/
def valueOf (digits : Bytes) : Nat :=
  digits.foldl (fun value byte => value * 10 + (byte.toNat - 48)) 0

/-- The integers that a machine word of 64 bits holds. -/
def InWord (number : Int) : Prop :=
  -0x8000000000000000 ≤ number ∧ number < 0x8000000000000000

instance (number : Int) : Decidable (InWord number) :=
  inferInstanceAs (Decidable (_ ∧ _))

/-- Splits a sign off: whether the number is negative, and what follows. -/
def takeSign : Bytes → Bool × Bytes
  | [] => (false, [])
  | byte :: rest =>
      if byte = ascii '-' then (true, rest)
      else if byte = ascii '+' then (false, rest)
      else (false, byte :: rest)

/-- The integer with the given sign and magnitude. -/
def withSign (negative : Bool) (magnitude : Nat) : Int :=
  if negative then -(magnitude : Int) else magnitude

/-- Reads a decimal integer: an optional sign, then digits and nothing else,
within 64 bits. -/
def readInteger? (text : Bytes) : Option Int :=
  let (negative, digits) := takeSign text
  if digits.isEmpty || !digits.all isDigit then none
  else
    let number := withSign negative (valueOf digits)
    if InWord number then some number else none

/-! ## Literals with a base mark -/

/-- Why a text is no integer literal. -/
inductive LiteralFault where
  | malformed
  | outOfRange
deriving DecidableEq, Repr

/-- The value of a digit in the largest base in use, thirty-six. -/
def digitValue? (byte : UInt8) : Option Nat :=
  if isDigit byte then some (byte.toNat - 48)
  else if ascii 'a' ≤ byte && byte ≤ ascii 'z' then some (byte.toNat - 87)
  else if ascii 'A' ≤ byte && byte ≤ ascii 'Z' then some (byte.toNat - 55)
  else none

/-- Reads digits of `base` from the left, skipping underscores. Of two faults the
one further left counts: a byte that is no digit of the base, or a value that no
longer fits in 64 bits. -/
def magnitude (base : Nat) (value : Nat) : Bytes → Except LiteralFault Nat
  | [] => .ok value
  | byte :: rest =>
      if byte = ascii '_' then magnitude base value rest
      else
        match digitValue? byte with
        | none => .error .malformed
        | some next =>
            if base ≤ next then .error .malformed
            else if 0x10000000000000000 ≤ value * base + next then .error .outOfRange
            else magnitude base (value * base + next) rest

/-- The base that a mark names, and the digits behind the mark. A zero alone in
front marks base eight. -/
def takeBase : Bytes → Nat × Bytes
  | first :: second :: third :: rest =>
      if first = ascii '0' then
        if second = ascii 'b' || second = ascii 'B' then (2, third :: rest)
        else if second = ascii 'o' || second = ascii 'O' then (8, third :: rest)
        else if second = ascii 'x' || second = ascii 'X' then (16, third :: rest)
        else (8, second :: third :: rest)
      else (10, first :: second :: third :: rest)
  | first :: rest =>
      if first = ascii '0' then (8, rest) else (10, first :: rest)
  | [] => (10, [])

def hasMark : Bytes → Bool
  | first :: second :: _ =>
      first = ascii '0' &&
        (second = ascii 'b' || second = ascii 'B' || second = ascii 'o' ||
          second = ascii 'O' || second = ascii 'x' || second = ascii 'X')
  | _ => false

/-- Whether every underscore stands right behind a digit and right in front of
one. `afterDigit` tells whether the byte before the text is a digit. -/
def underscoresSeparate (afterDigit : Bool) : Bytes → Bool
  | [] => true
  | [byte] => byte != ascii '_'
  | byte :: next :: rest =>
      if byte = ascii '_' then
        afterDigit && next != ascii '_' && underscoresSeparate false (next :: rest)
      else underscoresSeparate true (next :: rest)

/-- Reads an integer literal: an optional sign, an optional base mark (`0b`, `0o`,
`0x`, or a zero for base eight), digits, and underscores between digits or behind
the mark. -/
def readLiteral (text : Bytes) : Except LiteralFault Int :=
  let (negative, unsigned) := takeSign text
  if unsigned.isEmpty then .error .malformed
  else
    let (base, digits) := takeBase unsigned
    match magnitude base 0 digits with
    | .error fault => .error fault
    | .ok value =>
        let separated :=
          if hasMark unsigned then underscoresSeparate true digits
          else underscoresSeparate false unsigned
        if !separated then .error .malformed
        else
          let number := withSign negative value
          if InWord number then .ok number else .error .outOfRange

end Jack.Numeral
