/-!
Contract: byte strings, the one text type of the compiler.

Owns: literals, the search for a marker, cutting at a marker and at a separator
byte, trimming a byte at the end.

Does not own: any reading of bytes as characters or as numbers.
-/

set_option autoImplicit false

namespace Jack

/-- Text as the file system and the machine see it: any bytes in any order.
Nothing promises that they spell characters. -/
abbrev Bytes := List UInt8

/-- The bytes of a literal. -/
def utf8 (text : String) : Bytes :=
  text.toList.flatMap String.utf8EncodeChar

abbrev ascii (character : Char) : UInt8 :=
  character.toUInt8

namespace Bytes

/-- The offset of the first occurrence of `marker`, when the text itself starts
at `offset`. -/
def offsetFrom? (marker : Bytes) (offset : Nat) : Bytes → Option Nat
  | [] => if marker.isEmpty then some offset else none
  | byte :: rest =>
      if marker.isPrefixOf (byte :: rest) then some offset
      else offsetFrom? marker (offset + 1) rest

/-- The offset of the first occurrence of `marker`. -/
def offsetOf? (marker text : Bytes) : Option Nat :=
  offsetFrom? marker 0 text

/-- The text up to the first occurrence of `marker`, all of it when there is
none. -/
def before (marker text : Bytes) : Bytes :=
  match offsetOf? marker text with
  | some offset => text.take offset
  | none => text

/-- The pieces between the separators. There is one piece more than there are
separators, so the empty text is one empty piece. -/
def split (separator : UInt8) (text : Bytes) : List Bytes :=
  text.foldr
    (fun byte pieces =>
      if byte = separator then [] :: pieces
      else
        match pieces with
        | [] => [[byte]]
        | piece :: others => (byte :: piece) :: others)
    [[]]

def lineBreak : UInt8 := 10

def lines (text : Bytes) : List Bytes :=
  split lineBreak text

def lineBreaks (text : Bytes) : Nat :=
  text.count lineBreak

/-- The text without the run of `unwanted` bytes at its end. -/
def trimEnd (unwanted : UInt8) (text : Bytes) : Bytes :=
  (text.reverse.dropWhile (· == unwanted)).reverse

/-- Dropping from the front never adds bytes. -/
theorem length_dropWhile_le (accepts : UInt8 → Bool) (text : Bytes) :
    (text.dropWhile accepts).length ≤ text.length :=
  (List.dropWhile_suffix accepts).length_le

/-- Trimming never adds bytes. -/
theorem length_trimEnd_le (unwanted : UInt8) (text : Bytes) :
    (trimEnd unwanted text).length ≤ text.length := by
  simpa [trimEnd] using length_dropWhile_le (· == unwanted) text.reverse

def endsWith (ending text : Bytes) : Bool :=
  ending.isSuffixOf text

/-- The text without `ending` at its end, unchanged when it ends otherwise. -/
def dropEnding (ending text : Bytes) : Bytes :=
  if endsWith ending text then text.take (text.length - ending.length) else text

end Bytes

end Jack
