import Jack.Text.Numeral

/-!
Contract: the classes of bytes that programs are written with, and the keywords.

Owns: digits, letters, word bytes, white space, symbols, and the table of words
that are keywords. All of them are ASCII; a byte from 128 on is in no class.
-/

set_option autoImplicit false

namespace Jack.Alphabet

def isDigit (byte : UInt8) : Bool :=
  Numeral.isDigit byte

def isUnderscore (byte : UInt8) : Bool :=
  byte == ascii '_'

def isLetter (byte : UInt8) : Bool :=
  (ascii 'a' ≤ byte && byte ≤ ascii 'z') || (ascii 'A' ≤ byte && byte ≤ ascii 'Z')

def startsWord (byte : UInt8) : Bool :=
  isLetter byte || isUnderscore byte

def continuesWord (byte : UInt8) : Bool :=
  isLetter byte || isUnderscore byte || isDigit byte

/-- The bytes that only separate tokens. -/
def isSpace (byte : UInt8) : Bool :=
  byte == ascii ' ' || byte == ascii '\t' || byte == ascii '\n' ||
    byte == ascii '\r' || byte == 12 || byte == 11

/-- The symbols, each a token of one byte. -/
def symbols : Bytes :=
  utf8 "\x7b\x7d()[].,;+-*/&|<>=~"

def isSymbol (byte : UInt8) : Bool :=
  symbols.contains byte

/-- The words that are no identifiers. -/
def keywords : List Bytes :=
  ["class", "constructor", "function", "method", "field", "static", "var", "int",
    "char", "boolean", "void", "true", "false", "null", "this", "let", "do", "if",
    "else", "while", "return"].map utf8

def isKeyword (word : Bytes) : Bool :=
  keywords.contains word

end Jack.Alphabet
