import Jack.Text.Numeral

/-!
Contract: quoted strings of TOML.

Owns: strings in double quotes, which know escapes, and in single quotes, which do
not, both on one line and on several.

Does not own: which bytes a text may hold at all; control characters are sorted out
before.
-/

set_option autoImplicit false

namespace Jack.Toml

inductive Quote where
  | double
  | single
deriving DecidableEq, Repr

def Quote.byte : Quote → UInt8
  | double => ascii '"'
  | single => ascii '\''

/-- The kind of quote that a byte opens. -/
def quote? (byte : UInt8) : Option Quote :=
  if byte = Quote.double.byte then some .double
  else if byte = Quote.single.byte then some .single
  else none

/-- Where the reading of a string stands. -/
inductive StringState where
  /-- Between characters. -/
  | plain
  /-- Behind a backslash. -/
  | escape
  /-- In the digits of a character, with those that are left and the value so far. -/
  | code (left value : Nat)
  /-- Behind a backslash and blanks: the line has to end. -/
  | lineEnd
  /-- Behind a backslash and a line break: blanks and line breaks do not count. -/
  | skipping
deriving DecidableEq, Repr

/-- The bytes of the character with a code, unless there is none. -/
def character? (code : Nat) : Option Bytes :=
  if code.isValidChar then some (String.utf8EncodeChar (Char.ofNat code)) else none

/-- Whether a byte is a blank within a line; a carriage return only ever stands in
front of a line break. -/
def isInnerBlank (byte : UInt8) : Bool :=
  byte == ascii ' ' || byte == ascii '\t' || byte == ascii '\r'

/-- What stands behind a backslash. -/
def escaped? (byte : UInt8) : Option (StringState × Bytes) :=
  if byte = ascii 'b' then some (.plain, [8])
  else if byte = ascii 't' then some (.plain, [9])
  else if byte = ascii 'n' then some (.plain, [10])
  else if byte = ascii 'f' then some (.plain, [12])
  else if byte = ascii 'r' then some (.plain, [13])
  else if byte = ascii 'e' then some (.plain, [27])
  else if byte = ascii '"' || byte = ascii '\\' then some (.plain, [byte])
  else if byte = ascii 'x' then some (.code 2 0, [])
  else if byte = ascii 'u' then some (.code 4 0, [])
  else if byte = ascii 'U' then some (.code 8 0, [])
  else if isInnerBlank byte then some (.lineEnd, [])
  else if byte = Bytes.lineBreak then some (.skipping, [])
  else none

def plainByte (quote : Quote) (byte : UInt8) : StringState × Bytes :=
  if byte = ascii '\\' && quote == .double then (.escape, []) else (.plain, [byte])

namespace StringState

/-- The next state, and the bytes that the string gains. -/
def next? (quote : Quote) (state : StringState) (byte : UInt8) :
    Option (StringState × Bytes) :=
  match state with
  | plain => some (plainByte quote byte)
  | escape => escaped? byte
  | code left value =>
      match Numeral.digitValue? byte with
      | none => none
      | some digit =>
          if 16 ≤ digit then none
          else if left ≤ 1 then (character? (value * 16 + digit)).map (.plain, ·)
          else some (.code (left - 1) (value * 16 + digit), [])
  | lineEnd =>
      if isInnerBlank byte then some (.lineEnd, [])
      else if byte = Bytes.lineBreak then some (.skipping, [])
      else none
  | skipping =>
      if isInnerBlank byte || byte = Bytes.lineBreak then some (.skipping, [])
      else some (plainByte quote byte)

/-- Whether a quote can end the string here. -/
def mayEnd : StringState → Bool
  | plain => true
  | skipping => true
  | _ => false

end StringState

/-- Reads a string on one line up to its closing quote. `gained` is what it holds so
far, the last byte first. -/
def stringOnLine? (quote : Quote) (state : StringState) (gained : Bytes) :
    Bytes → Option (Bytes × Bytes)
  | [] => none
  | byte :: rest =>
      if state.mayEnd && byte == quote.byte then some (gained.reverse, rest)
      else if byte = Bytes.lineBreak || byte = ascii '\r' then none
      else
        match state.next? quote byte with
        | none => none
        | some (state, bytes) => stringOnLine? quote state (bytes.reverse ++ gained) rest

/-- How many quotes may stand together behind a byte of a string on several lines: the
three that close it and two that belong to it, and one more behind a backslash that is
escaped. -/
def mostQuotes (quote : Quote) (byte : UInt8) : Nat :=
  if quote = .double ∧ byte = ascii '\\' then 6 else 5

/-- The string that a run of closing quotes ends. Three of them close it; those in front
of these belong to it. -/
def closed? (quote : Quote) (quotes most : Nat) (gained : Bytes) : Option Bytes :=
  if 3 ≤ quotes ∧ quotes ≤ most then
    some ((List.replicate (quotes - 3) quote.byte ++ gained).reverse)
  else none

/-- Reads a string on several lines up to its closing quotes. `quotes` is the number
of quotes directly in front, and `most` how many there may be. -/
def stringOnLines? (quote : Quote) (quotes most : Nat) (state : StringState)
    (gained : Bytes) : Bytes → Option (Bytes × Bytes)
  | [] => (closed? quote quotes most gained).map (·, [])
  | byte :: rest =>
      if state.mayEnd && byte == quote.byte then
        stringOnLines? quote (quotes + 1) most .plain gained rest
      else if 3 ≤ quotes then (closed? quote quotes most gained).map (·, byte :: rest)
      else
        match state.next? quote byte with
        | none => none
        | some (state, bytes) =>
            stringOnLines? quote 0 (mostQuotes quote byte) state
              (bytes.reverse ++ List.replicate quotes quote.byte ++ gained) rest

/-- The text without a line break in front. -/
def dropLineBreak (text : Bytes) : Bytes :=
  if (utf8 "\n").isPrefixOf text then text.drop 1
  else if (utf8 "\r\n").isPrefixOf text then text.drop 2
  else text

/-- Reads what follows an opening quote. Two more quotes open a string on several
lines; a line break right behind them does not count. -/
def quoted? (quote : Quote) (text : Bytes) : Option (Bytes × Bytes) :=
  if [quote.byte, quote.byte].isPrefixOf text then
    stringOnLines? quote 0 5 .plain [] (dropLineBreak (text.drop 2))
  else stringOnLine? quote .plain [] text

end Jack.Toml
