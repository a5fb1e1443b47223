import Jack.Text.Utf8

/-!
Contract: letter case, as far as names made of ASCII letters can tell.

Owns: the capital form and the fold form of a text.

Two characters outside ASCII have an ASCII capital (the long s and the dotless
i), and two fold to an ASCII letter (the long s and the kelvin sign). Every other
character outside ASCII stays as it is: no case change makes an ASCII letter of
it, so it never helps a text to equal an ASCII name.
-/

set_option autoImplicit false

namespace Jack.Text

/-- The capital of a character, when that is an ASCII letter. -/
def capital (character : Char) : Char :=
  if character = '\u017f' then 'S'
  else if character = '\u0131' then 'I'
  else character.toUpper

/-- The small letter that a character folds to, when that is an ASCII letter. -/
def folded (character : Char) : Char :=
  if character = '\u017f' then 's'
  else if character = '\u212a' then 'k'
  else character.toLower

def mapCharacters (map : Char → Char) (text : Bytes) : Bytes :=
  (Utf8.pieces text).flatMap fun
    | .character value => String.utf8EncodeChar (map value)
    | .stray byte => [byte]

def capitals (text : Bytes) : Bytes :=
  mapCharacters capital text

/-- Whether two texts are the same but for case. -/
def sameFolded (left right : Bytes) : Bool :=
  mapCharacters folded left == mapCharacters folded right

end Jack.Text
