import Jack.Text.Numeral
import Jack.Text.Printable
import Jack.Text.Utf8

/-!
Contract: texts and characters in quotes, for messages.

Owns: the escapes. A backslash and the quote in use are escaped by a backslash;
the seven named controls have letters; other ASCII controls and stray bytes are
written as two hexadecimal digits; other characters that are not printable as four
or eight. All else stands for itself.
-/

set_option autoImplicit false

namespace Jack.Text

/-- The letter that names a control character behind a backslash. -/
def controlLetter? (code : Nat) : Option Char :=
  match code with
  | 7 => some 'a'
  | 8 => some 'b'
  | 9 => some 't'
  | 10 => some 'n'
  | 11 => some 'v'
  | 12 => some 'f'
  | 13 => some 'r'
  | _ => none

/-- Two hexadecimal digits behind `\x`. -/
def byteEscape (code : Nat) : Bytes :=
  utf8 "\\x" ++ Numeral.hexadecimal 2 code

/-- A character as it stands between quotes. -/
def escape (quote value : Char) : Bytes :=
  let code := value.toNat
  if value = quote || value = '\\' then ascii '\\' :: String.utf8EncodeChar value
  else if isPrintable value then String.utf8EncodeChar value
  else
    match controlLetter? code with
    | some letter => [ascii '\\', ascii letter]
    | none =>
        if code < 0x20 || code = 0x7F then byteEscape code
        else if code < 0x10000 then utf8 "\\u" ++ Numeral.hexadecimal 4 code
        else utf8 "\\U" ++ Numeral.hexadecimal 8 code

def quoted (text : Bytes) : Bytes :=
  let inner := (Utf8.pieces text).flatMap fun
    | .character value => escape '"' value
    | .stray byte => byteEscape byte.toNat
  ascii '"' :: inner ++ [ascii '"']

/-- A byte in single quotes, as the character whose code it is. -/
def quotedByte (byte : UInt8) : Bytes :=
  ascii '\'' :: escape '\'' (Char.ofNat byte.toNat) ++ [ascii '\'']

end Jack.Text
