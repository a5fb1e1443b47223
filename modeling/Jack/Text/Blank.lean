import Jack.Text.Utf8

/-!
Contract: white space of texts.

Owns: the six ASCII blanks, the blanks of Unicode, and trimming at both ends.

Does not own: where a text is split into words; that is a matter of each format.
-/

set_option autoImplicit false

namespace Jack.Text

/-- The ASCII white space bytes: tab, the four line controls and the space. -/
def isAsciiBlank (byte : UInt8) : Bool :=
  byte == 32 || (9 ≤ byte && byte ≤ 13)

/-- The characters with the white space property. -/
def isBlank (character : Char) : Bool :=
  let code := character.toNat
  (9 ≤ code && code ≤ 13) || code == 0x20 || code == 0x85 || code == 0xA0 ||
    code == 0x1680 || (0x2000 ≤ code && code ≤ 0x200A) || code == 0x2028 ||
    code == 0x2029 || code == 0x202F || code == 0x205F || code == 0x3000

/-- A stray byte is never blank. -/
def isBlankPiece : Utf8.Piece → Bool
  | .character value => isBlank value
  | .stray _ => false

/-- The text without the blank characters at its two ends. -/
def trim (text : Bytes) : Bytes :=
  let started := (Utf8.pieces text).dropWhile isBlankPiece
  let ended := (started.reverse.dropWhile isBlankPiece).reverse
  ended.flatMap Utf8.Piece.bytes

end Jack.Text
