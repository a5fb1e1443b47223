import Jack.Cbor.Decoder
import Mathlib.Tactic.Common

/-!
Contract: an item reads back from its bytes as long as it is within the limits of reading.

Owns: the items that have a written form, the limits on nesting and on the number of
elements as a test of an item, and the outcome of reading the bytes of an item.

Does not own: bytes that were written by others.

Writing knows no limits and reading does, so reading the bytes of an item has two outcomes.
The limits decide between them, and nothing that stands behind the item does.
-/

set_option autoImplicit false

namespace Jack.Cbor

/-! ## Numbers -/

/-- How many numbers can be told apart with this many bytes. -/
def capacity : Nat → Nat
  | 0 => 1
  | width + 1 => capacity width * 256

theorem length_bigEndian (width value : Nat) : (bigEndian width value).length = width := by
  induction width generalizing value with
  | zero => rfl
  | succ width inductionHypothesis =>
      rw [bigEndian, List.length_append, inductionHypothesis]
      rfl

/-- Big-endian bytes are digits in base 256, the last one for units. -/
theorem numberOf_append_single (bytes : Bytes) (byte : UInt8) :
    numberOf (bytes ++ [byte]) = numberOf bytes * 256 + byte.toNat :=
  List.foldl_append

/-- A number is spelled by its bytes if there are enough of them. -/
theorem numberOf_bigEndian {width value : Nat} (small : value < capacity width) :
    numberOf (bigEndian width value) = value := by
  induction width generalizing value with
  | zero =>
      rw [capacity] at small
      show 0 = value
      omega
  | succ width inductionHypothesis =>
      rw [capacity] at small
      have low : (UInt8.ofNat (value % 256)).toNat = value % 256 :=
        UInt8.toNat_ofNat_of_lt' (Nat.mod_lt _ (by decide))
      rw [bigEndian, numberOf_append_single, low,
        inductionHypothesis (Nat.div_lt_of_lt_mul (Nat.mul_comm _ _ ▸ small))]
      omega

theorem take?_append {count : Nat} {front : Bytes} (length : front.length = count)
    (back : Bytes) : take? count (front ++ back) = some (front, back) := by
  subst length
  simp [take?]

/-! ## Heads -/

/-- The number of values of a head's argument, which takes eight bytes at most. -/
def maxArgument : Nat := 0x10000000000000000

def infoOf (argument : Nat) : Nat :=
  if argument < 24 then argument
  else if argument < 0x100 then 24
  else if argument < 0x10000 then 25
  else if argument < 0x100000000 then 26
  else 27

/-- The written forms of a head never use the reserved values, nor the one for an open length. -/
theorem infoOf_lt (argument : Nat) : infoOf argument < 28 := by
  unfold infoOf
  split_ifs <;> omega

theorem length_head_pos (major argument : Nat) : 0 < (head major argument).length := by
  unfold head
  dsimp only
  split_ifs <;> exact Nat.succ_pos _

/-- A head has one byte, and eight more at most. -/
theorem length_head_le (major argument : Nat) : (head major argument).length ≤ 9 := by
  unfold head
  dsimp only
  split_ifs <;> simp [length_bigEndian]

section Heads

variable {major info : Nat} {rest : Bytes}

/-- Major type and additional information share a byte, three bits for the one and five for the
other. -/
theorem toNat_initial (majorSmall : major < 8) (infoSmall : info < 32) :
    (UInt8.ofNat (major * 32 + info)).toNat = major * 32 + info :=
  UInt8.toNat_ofNat_of_lt' (by show _ < 256; omega)

/-- An argument below 24 is in the first byte itself. -/
theorem head?_short (majorSmall : major < 8) (infoSmall : info < 24) (rest : Bytes) :
    head? (UInt8.ofNat (major * 32 + info) :: rest) = some (⟨major, info, info⟩, rest) := by
  have majorPart : (major * 32 + info) / 32 = major := by omega
  have infoPart : (major * 32 + info) % 32 = info := by omega
  have known : info ≠ 31 := by omega
  simp only [head?, toNat_initial majorSmall (Nat.lt_trans infoSmall (by decide)), majorPart,
    infoPart, argumentWidth?, if_neg known, if_pos infoSmall]

/-- The argument stands in the bytes behind the first one. -/
theorem head?_long {width : Nat} {bytes : Bytes} (majorSmall : major < 8) (infoSmall : info < 31)
    (wide : argumentWidth? info = some (width + 1)) (length : bytes.length = width + 1)
    (unreserved : ¬ (major = 7 ∧ info = 24 ∧ numberOf bytes < 32)) (rest : Bytes) :
    head? (UInt8.ofNat (major * 32 + info) :: (bytes ++ rest)) =
      some (⟨major, info, numberOf bytes⟩, rest) := by
  have majorPart : (major * 32 + info) / 32 = major := by omega
  have infoPart : (major * 32 + info) % 32 = info := by omega
  simp only [head?, toNat_initial majorSmall (Nat.lt_succ_of_lt infoSmall), majorPart, infoPart,
    wide, if_neg (Nat.ne_of_lt infoSmall), take?_append length, if_neg unreserved]

/-- A head reads back, but for the simple values that are reserved. -/
theorem head?_head {argument : Nat} (majorSmall : major < 8) (held : argument < maxArgument)
    (unreserved : ¬ (major = 7 ∧ 24 ≤ argument ∧ argument < 32)) (rest : Bytes) :
    head? (head major argument ++ rest) =
      some (⟨major, infoOf argument, argument⟩, rest) := by
  have long {info width : Nat} (infoSmall : 24 ≤ info ∧ info < 31)
      (wide : argumentWidth? info = some (width + 1)) (fits : argument < capacity (width + 1))
      (written : infoOf argument = info) (reached : 24 ≤ argument) :
      head? (UInt8.ofNat (major * 32 + info) :: (bigEndian (width + 1) argument ++ rest)) =
        some (⟨major, infoOf argument, argument⟩, rest) := by
    have number := numberOf_bigEndian fits
    rw [head?_long majorSmall infoSmall.2 wide (length_bigEndian _ _) (by omega) rest, number,
      written]
  unfold head
  dsimp only
  by_cases tiny : argument < 24
  · rw [if_pos tiny]
    have written : infoOf argument = argument := if_pos tiny
    rw [written]
    exact head?_short majorSmall tiny rest
  · have reached : 24 ≤ argument := Nat.le_of_not_lt tiny
    rw [if_neg tiny]
    by_cases ofOne : argument < 0x100
    · rw [if_pos ofOne]
      exact long (by decide) rfl ofOne (by simp [infoOf, tiny, ofOne]) reached
    · rw [if_neg ofOne]
      by_cases ofTwo : argument < 0x10000
      · rw [if_pos ofTwo]
        exact long (by decide) rfl ofTwo (by simp [infoOf, tiny, ofOne, ofTwo]) reached
      · rw [if_neg ofTwo]
        by_cases ofFour : argument < 0x100000000
        · rw [if_pos ofFour]
          exact long (by decide) rfl ofFour (by simp [infoOf, tiny, ofOne, ofTwo, ofFour]) reached
        · rw [if_neg ofFour]
          exact long (by decide) rfl held (by simp [infoOf, tiny, ofOne, ofTwo, ofFour]) reached

/-- A head that is written is read back with its argument. -/
theorem head?_head_of_lt {argument : Nat} (majorSmall : major < 7) (held : argument < maxArgument)
    (rest : Bytes) :
    head? (head major argument ++ rest) =
      some (⟨major, infoOf argument, argument⟩, rest) :=
  head?_head (by omega) held (by omega) rest

theorem startsTag_initial (majorSmall : major < 8) (infoSmall : info < 32) (rest : Bytes) :
    startsTag (UInt8.ofNat (major * 32 + info) :: rest) = (major == 6) := by
  have majorPart : (major * 32 + info) / 32 = major := by omega
  simp only [startsTag, List.head?_cons, Option.any_some, toNat_initial majorSmall infoSmall,
    majorPart]

theorem startsTag_head (majorSmall : major < 8) (argument : Nat) (rest : Bytes) :
    startsTag (head major argument ++ rest) = (major == 6) := by
  unfold head
  dsimp only
  split_ifs with tiny
  · exact startsTag_initial majorSmall (Nat.lt_trans tiny (by decide)) rest
  all_goals exact startsTag_initial majorSmall (by decide) _

end Heads

/-! ## Items -/

namespace Item

mutual

/-- Whether an item has a written form: strings are in one chunk, and numbers and simple
values are among those that there are. -/
def isPlain : Item → Bool
  | .unsigned value | .negative value => value < maxArgument
  | .bytes chunks | .text chunks => chunks.length == 1
  | .array items => allPlain items
  | .map entries => entriesPlain entries
  | .tag number content => number < maxArgument && content.isPlain
  | .simple value => value < 24 || (32 ≤ value && value < 0x100)
  | .float bits => bits.length == 2 || bits.length == 4 || bits.length == 8

def allPlain : List Item → Bool
  | [] => true
  | item :: items => item.isPlain && allPlain items

def entriesPlain : List (Item × Item) → Bool
  | [] => true
  | (key, value) :: entries => key.isPlain && value.isPlain && entriesPlain entries

end

def isTag : Item → Bool
  | .tag _ _ => true
  | _ => false

mutual

/-- Whether an item is within the limits where `levels` more items may stand around each
other. A tag counts as one if it is inside another. -/
def fits (levels : Nat) : Item → Bool
  | .unsigned _ | .negative _ | .bytes _ | .text _ | .simple _ | .float _ => true
  | .array items => levels != 0 && items.length ≤ maxElements && allFit (levels - 1) items
  | .map entries =>
      levels != 0 && entries.length ≤ maxElements && entriesFit (levels - 1) entries
  | .tag _ content =>
      if content.isTag then levels != 0 && content.fits (levels - 1) else content.fits levels

def allFit (levels : Nat) : List Item → Bool
  | [] => true
  | item :: items => item.fits levels && allFit levels items

def entriesFit (levels : Nat) : List (Item × Item) → Bool
  | [] => true
  | (key, value) :: entries =>
      key.fits levels && value.fits levels && entriesFit levels entries

end

theorem allPlain_eq_all (items : List Item) : allPlain items = items.all isPlain := by
  induction items with
  | nil => rfl
  | cons item items inductionHypothesis => rw [allPlain, inductionHypothesis, List.all_cons]

theorem allFit_eq_all (levels : Nat) (items : List Item) :
    allFit levels items = items.all (fits levels) := by
  induction items with
  | nil => rfl
  | cons item items inductionHypothesis => rw [allFit, inductionHypothesis, List.all_cons]

/-- Only the first byte tells whether an item is a tag. -/
theorem startsTag_encode (item : Item) (rest : Bytes) :
    startsTag (item.encode ++ rest) = item.isTag := by
  cases item with
  | unsigned | negative | simple => exact startsTag_head (by decide) _ _
  | bytes | text | array | map | tag =>
      rw [encode, List.append_assoc]
      exact startsTag_head (by decide) _ _
  | float bits =>
      rw [encode]
      split_ifs <;> exact startsTag_initial (by decide) (by decide) _

theorem length_encode_pos (item : Item) : 0 < item.encode.length := by
  cases item with
  | unsigned | negative | simple => exact length_head_pos _ _
  | bytes | text | array | map | tag =>
      rw [encode, List.length_append]
      exact Nat.add_pos_left (length_head_pos _ _) _
  | float bits => exact Nat.succ_pos _

/-- Every item takes a byte at least. So a length that is read is never larger than what is left. -/
theorem length_le_encodeItems (items : List Item) :
    items.length ≤ (encodeItems items).length := by
  induction items with
  | nil => exact Nat.zero_le _
  | cons item items inductionHypothesis =>
      have positive := item.length_encode_pos
      rw [encodeItems, List.length_append, List.length_cons]
      omega

theorem length_encodeItems_le {bound : Nat} {items : List Item}
    (each : ∀ item ∈ items, item.encode.length ≤ bound) :
    (encodeItems items).length ≤ items.length * bound := by
  induction items with
  | nil => exact Nat.zero_le _
  | cons item items inductionHypothesis =>
      obtain ⟨first, others⟩ := List.forall_mem_cons.mp each
      have rest := inductionHypothesis others
      rw [encodeItems, List.length_append, List.length_cons, Nat.succ_mul]
      omega

theorem length_le_encodeEntries (entries : List (Item × Item)) :
    entries.length ≤ (encodeEntries entries).length := by
  induction entries with
  | nil => exact Nat.zero_le _
  | cons entry entries inductionHypothesis =>
      have positive := entry.1.length_encode_pos
      rw [encodeEntries, List.length_append, List.length_append, List.length_cons]
      omega

end Item

/-! ## Reading what was written -/

theorem isOpen_infoOf (major argument : Nat) :
    (⟨major, infoOf argument, argument⟩ : Head).isOpen = false := by
  have small := infoOf_lt argument
  have other : infoOf argument ≠ 31 := by omega
  simp [Head.isOpen, other]

/-- A string of known length is read as its one chunk. -/
theorem string?_of_length (major : Nat) (chunk rest : Bytes) :
    string? ⟨major, infoOf chunk.length, chunk.length⟩ (chunk ++ rest) =
      some ([chunk], rest) := by
  rw [string?, isOpen_infoOf, if_neg (by decide), take?_append rfl]
  rfl

theorem primitive_of_lt {head : Head} (noFloat : head.info < 25) (input : Bytes) :
    primitive head input = .simple head.argument := by
  unfold primitive
  split
  · omega
  · omega
  · omega
  · rfl

theorem item?_simple {value : Nat} (plain : (Item.simple value).isPlain = true)
    (fuel levels : Nat) (rest : Bytes) :
    item? (fuel + 1) levels ((Item.simple value).encode ++ rest) = some (.simple value, rest) := by
  simp only [Item.isPlain, Bool.or_eq_true, Bool.and_eq_true, decide_eq_true_eq] at plain
  have held : value < maxArgument := by
    rw [maxArgument]
    omega
  have noFloat : infoOf value < 25 := by
    unfold infoOf
    split_ifs <;> omega
  rw [Item.encode, item?, head?_head (by decide) held (by omega) rest]
  show some (primitive _ _, rest) = _
  rw [primitive_of_lt noFloat]

/-- A float is read from the bytes behind the first one. -/
theorem item?_float {bits : Bytes} (plain : (Item.float bits).isPlain = true) (fuel levels : Nat)
    (rest : Bytes) :
    item? (fuel + 1) levels ((Item.float bits).encode ++ rest) = some (.float bits, rest) := by
  simp only [Item.isPlain, Bool.or_eq_true, beq_iff_eq, or_assoc] at plain
  have read {info width : Nat} (wide : argumentWidth? info = some (width + 1))
      (infoSmall : 24 < info ∧ info < 31) (length : bits.length = width + 1) :
      head? (UInt8.ofNat (7 * 32 + info) :: (bits ++ rest)) =
        some (⟨7, info, numberOf bits⟩, rest) :=
    head?_long (by decide) infoSmall.2 wide length (by omega) rest
  rw [Item.encode]
  rcases plain with ofTwo | ofFour | ofEight
  · rw [if_pos ofTwo, List.cons_append, item?, read rfl (by decide) ofTwo]
    simp [primitive, ← ofTwo]
  · rw [if_neg (by omega), if_pos ofFour, List.cons_append, item?, read rfl (by decide) ofFour]
    simp [primitive, ← ofFour]
  · rw [if_neg (by omega), if_neg (by omega), List.cons_append, item?,
      read rfl (by decide) ofEight]
    simp [primitive, ← ofEight]

/-- The two limits, one after the other, are one test. -/
theorem limited_eq {Result : Type} (levels count : Nat) (inside : Bool) (result : Result) :
    (if levels = 0 then none
      else if maxElements < count then none
      else if inside = true then some result else none) =
      if (levels != 0 && count ≤ maxElements && inside) = true then some result else none := by
  by_cases nested : levels = 0
  · simp [nested]
  · by_cases many : maxElements < count
    · simp [nested, many, Nat.not_le.mpr many]
    · simp [nested, many, Nat.le_of_not_lt many]

mutual

/-- Reading the bytes of an item gives the item, if it is within the limits, and fails
otherwise. There is enough fuel for two steps per byte. -/
theorem item?_encode : (item : Item) → item.isPlain = true → (fuel levels : Nat) →
    2 * item.encode.length ≤ fuel → item.encode.length < maxArgument → (rest : Bytes) →
    item? fuel levels (item.encode ++ rest) =
      if item.fits levels = true then some (item, rest) else none
  | item, plain, 0, levels, enough, _, rest => by
      have positive := item.length_encode_pos
      omega
  | .unsigned value, plain, fuel + 1, levels, _, _, rest => by
      have held : value < maxArgument := by simpa [Item.isPlain] using plain
      rw [Item.encode, item?, head?_head_of_lt (by decide) held rest]
      rfl
  | .negative value, plain, fuel + 1, levels, _, _, rest => by
      have held : value < maxArgument := by simpa [Item.isPlain] using plain
      rw [Item.encode, item?, head?_head_of_lt (by decide) held rest]
      rfl
  | .simple value, plain, fuel + 1, levels, _, _, rest => item?_simple plain fuel levels rest
  | .float bits, plain, fuel + 1, levels, _, _, rest => item?_float plain fuel levels rest
  | .bytes chunks, plain, fuel + 1, levels, _, held, rest => by
      obtain ⟨chunk, rfl⟩ := List.length_eq_one_iff.mp (by simpa [Item.isPlain] using plain)
      rw [Item.encode, List.flatten_singleton, List.length_append] at held
      rw [Item.encode, List.flatten_singleton, List.append_assoc, item?,
        head?_head_of_lt (by decide) (by omega)]
      simp only [string?_of_length]
      rfl
  | .text chunks, plain, fuel + 1, levels, _, held, rest => by
      obtain ⟨chunk, rfl⟩ := List.length_eq_one_iff.mp (by simpa [Item.isPlain] using plain)
      rw [Item.encode, List.flatten_singleton, List.length_append] at held
      rw [Item.encode, List.flatten_singleton, List.append_assoc, item?,
        head?_head_of_lt (by decide) (by omega)]
      simp only [string?_of_length]
      rfl
  | .array items, plain, fuel + 1, levels, enough, held, rest => by
      have few := Item.length_le_encodeItems items
      have positive := length_head_pos 4 items.length
      rw [Item.encode, List.length_append] at enough held
      have elements := array?_encodeItems items plain fuel (levels - 1) (by omega) (by omega)
        [] rest
      rw [Item.encode, List.append_assoc, item?, head?_head_of_lt (by decide) (by omega)]
      simp only [isOpen_infoOf, elements, Item.fits]
      exact limited_eq levels items.length _ _
  | .map entries, plain, fuel + 1, levels, enough, held, rest => by
      have few := Item.length_le_encodeEntries entries
      have positive := length_head_pos 5 entries.length
      rw [Item.encode, List.length_append] at enough held
      have elements := map?_encodeEntries entries plain fuel (levels - 1) (by omega) (by omega)
        [] rest
      rw [Item.encode, List.append_assoc, item?, head?_head_of_lt (by decide) (by omega)]
      simp only [isOpen_infoOf, elements, Item.fits]
      exact limited_eq levels entries.length _ _
  | .tag number content, plain, fuel + 1, levels, enough, held, rest => by
      have positive := length_head_pos 6 number
      simp only [Item.isPlain, Bool.and_eq_true, decide_eq_true_eq] at plain
      rw [Item.encode, List.length_append] at enough held
      have inner (inside : Nat) := item?_encode content plain.2 fuel inside (by omega) (by omega)
        rest
      rw [Item.encode, List.append_assoc, item?, head?_head_of_lt (by decide) plain.1]
      simp only [content.startsTag_encode, inner, Item.fits]
      by_cases isTag : content.isTag = true
      · by_cases nested : levels = 0
        · simp [isTag, nested]
        · by_cases fits : content.fits (levels - 1) = true
          · simp [isTag, nested, fits]
          · simp [isTag, nested, fits]
      · by_cases fits : content.fits levels = true
        · simp [isTag, fits]
        · simp [isTag, fits]

/-- The items of a list are read back one by one, behind those that are done. -/
theorem array?_encodeItems : (items : List Item) → Item.allPlain items = true →
    (fuel levels : Nat) → 2 * (Item.encodeItems items).length < fuel →
    (Item.encodeItems items).length < maxArgument → (done : List Item) → (rest : Bytes) →
    array? fuel levels items.length done (Item.encodeItems items ++ rest) =
      if Item.allFit levels items = true then some (.array (done.reverse ++ items), rest)
      else none
  | _, _, 0, _, enough, _, _, _ => absurd enough (Nat.not_lt_zero _)
  | [], _, fuel + 1, levels, _, _, done, rest => by
      simp [Item.encodeItems, array?, Item.allFit]
  | item :: items, plain, fuel + 1, levels, enough, held, done, rest => by
      have positive := item.length_encode_pos
      rw [Item.allPlain, Bool.and_eq_true] at plain
      rw [Item.encodeItems, List.length_append] at enough held
      have first := item?_encode item plain.1 fuel levels (by omega) (by omega)
        (Item.encodeItems items ++ rest)
      have others := array?_encodeItems items plain.2 fuel levels (by omega) (by omega)
        (item :: done) rest
      rw [Item.encodeItems, List.length_cons, List.append_assoc, array?, first, Item.allFit]
      by_cases fits : item.fits levels = true
      · simp [fits, others]
      · simp [fits]

theorem map?_encodeEntries : (entries : List (Item × Item)) → Item.entriesPlain entries = true →
    (fuel levels : Nat) → 2 * (Item.encodeEntries entries).length < fuel →
    (Item.encodeEntries entries).length < maxArgument → (done : List (Item × Item)) →
    (rest : Bytes) →
    map? fuel levels entries.length done (Item.encodeEntries entries ++ rest) =
      if Item.entriesFit levels entries = true then some (.map (done.reverse ++ entries), rest)
      else none
  | _, _, 0, _, enough, _, _, _ => absurd enough (Nat.not_lt_zero _)
  | [], _, fuel + 1, levels, _, _, done, rest => by
      simp [Item.encodeEntries, map?, Item.entriesFit]
  | (key, value) :: entries, plain, fuel + 1, levels, enough, held, done, rest => by
      have positive := key.length_encode_pos
      simp only [Item.entriesPlain, Bool.and_eq_true] at plain
      rw [Item.encodeEntries, List.length_append, List.length_append] at enough held
      have first := item?_encode key plain.1.1 fuel levels (by omega) (by omega)
        (value.encode ++ (Item.encodeEntries entries ++ rest))
      have second := item?_encode value plain.1.2 fuel levels (by omega) (by omega)
        (Item.encodeEntries entries ++ rest)
      have others := map?_encodeEntries entries plain.2 fuel levels (by omega) (by omega)
        ((key, value) :: done) rest
      rw [Item.encodeEntries, List.length_cons, List.append_assoc, List.append_assoc, map?, first,
        Item.entriesFit]
      by_cases keyFits : key.fits levels = true
      · by_cases valueFits : value.fits levels = true
        · simp [keyFits, valueFits, second, others]
        · simp [keyFits, valueFits, second]
      · simp [keyFits]

end

/-- The bytes of an item hold the item, if it is within the limits, and nothing otherwise. -/
theorem decode?_encode {item : Item} (plain : item.isPlain = true)
    (held : item.encode.length < maxArgument) :
    decode? item.encode = if item.fits maxLevels = true then some item else none := by
  have read := item?_encode item plain (2 * item.encode.length + 2) maxLevels (by omega) held []
  rw [List.append_nil] at read
  rw [decode?, read]
  by_cases fits : item.fits maxLevels = true
  · simp [fits]
  · simp [fits]

end Jack.Cbor
