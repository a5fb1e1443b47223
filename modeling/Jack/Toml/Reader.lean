import Jack.Text.Utf8
import Jack.Toml.Quoted
import Jack.Toml.Scalar

/-!
Contract: reading a TOML text.

Owns: the bytes that a text may hold, blanks and comments, keys, values, headers, and
the list of entries of a text.

Does not own: what the entries make together.

Every reader takes something from the front of a text and gives the rest.
-/

set_option autoImplicit false

namespace Jack.Toml

/-! ## Bytes -/

/-- Whether control characters stand only where they may: tabs anywhere, line breaks,
and carriage returns right in front of line breaks. -/
def hasPlainControls : Bytes → Bool
  | [] => true
  | byte :: rest =>
      let allowed :=
        if byte = ascii '\r' then rest.head? == some Bytes.lineBreak
        else byte == ascii '\t' || byte == Bytes.lineBreak || (32 ≤ byte && byte != 127)
      allowed && hasPlainControls rest

/-- The text without a mark of its byte order. -/
def dropOrderMark (text : Bytes) : Bytes :=
  if [0xFF, 0xFE].isPrefixOf text || [0xFE, 0xFF].isPrefixOf text then text.drop 2
  else if [0xEF, 0xBB, 0xBF].isPrefixOf text then text.drop 3
  else text

/-! ## Blanks and comments -/

def isBlank (byte : UInt8) : Bool :=
  byte == ascii ' ' || byte == ascii '\t'

def skipBlanks (text : Bytes) : Bytes :=
  text.dropWhile isBlank

/-- Skips blanks, line breaks and comments. -/
def skipLines (inComment : Bool) : Bytes → Bytes
  | [] => []
  | byte :: rest =>
      if byte = Bytes.lineBreak then skipLines false rest
      else if inComment || isBlank byte || byte = ascii '\r' then skipLines inComment rest
      else if byte = ascii '#' then skipLines true rest
      else byte :: rest

/-- Whether a line ends here, but for blanks and a comment. -/
def endsLine (text : Bytes) : Bool :=
  match skipBlanks text with
  | [] => true
  | byte :: _ => byte = Bytes.lineBreak || byte = ascii '\r' || byte = ascii '#'

/-! ## Keys -/

def isBareKey (byte : UInt8) : Bool :=
  (Numeral.digitValue? byte).isSome || byte == ascii '_' || byte == ascii '-'

def keyName? (text : Bytes) : Option (Bytes × Bytes) :=
  match text.head?.bind quote? with
  | some quote => stringOnLine? quote .plain [] (text.drop 1)
  | none =>
      let name := text.takeWhile isBareKey
      if name.isEmpty then none else some (name, text.dropWhile isBareKey)

/-- Takes a dotted key and the blanks around its names. -/
def keyPath? : (fuel : Nat) → Bytes → Option (KeyPath × Bytes)
  | 0, _ => none
  | fuel + 1, text => do
      let (name, rest) ← keyName? (skipBlanks text)
      let rest := skipBlanks rest
      match mark? '.' rest with
      | none => return ([name], rest)
      | some rest =>
          let (names, rest) ← keyPath? fuel rest
          return (name :: names, rest)

/-! ## Values -/

/-- Whether a byte can stand in a scalar without quotes. -/
def isLiteralByte (byte : UInt8) : Bool :=
  isBareKey byte || byte == ascii '+' || byte == ascii '.' || byte == ascii ':'

/-- Takes a scalar without quotes. A single blank may stand between a day and a time
of day. -/
def bareScalar? (text : Bytes) : Option (Scalar × Bytes) := do
  let literal := text.takeWhile isLiteralByte
  let rest := text.dropWhile isLiteralByte
  match date? literal, rest with
  | some [], blank :: digit :: _ =>
      if blank = ascii ' ' && Numeral.isDigit digit then
        let time := (rest.drop 1).takeWhile isLiteralByte
        let scalar ← scalar? (literal ++ blank :: time)
        return (scalar, (rest.drop 1).dropWhile isLiteralByte)
      else
        return (← scalar? literal, rest)
  | _, _ => return (← scalar? literal, rest)

mutual

/-- Takes a value. `fuel` bounds the recursion: every step but the last uses up a
byte. -/
def value? : (fuel : Nat) → Bytes → Option (Written × Bytes)
  | 0, _ => none
  | fuel + 1, text =>
      match text.head?.bind quote?, mark? '[' text, mark? '\x7b' text with
      | some quote, _, _ =>
          (quoted? quote (text.drop 1)).map fun (string, rest) =>
            (.scalar (.string string), rest)
      | none, some rest, _ => elements? fuel [] (skipLines false rest)
      | none, none, some rest => pairs? fuel [] (skipLines false rest)
      | none, none, none =>
          (bareScalar? text).map fun (scalar, rest) => (.scalar scalar, rest)

/-- Takes the elements of an array up to its end, behind those taken (latest first). -/
def elements? : (fuel : Nat) → (done : List Written) → Bytes → Option (Written × Bytes)
  | 0, _, _ => none
  | fuel + 1, done, text =>
      match mark? ']' text with
      | some rest => some (.array done.reverse, rest)
      | none =>
          match value? fuel text with
          | none => none
          | some (element, rest) =>
              let rest := skipLines false rest
              match mark? ',' rest with
              | some rest => elements? fuel (element :: done) (skipLines false rest)
              | none => (mark? ']' rest).map (.array (element :: done).reverse, ·)

/-- Takes the pairs of an inline table up to its end, behind those taken (latest
first). -/
def pairs? : (fuel : Nat) → (done : List (KeyPath × Written)) → Bytes →
    Option (Written × Bytes)
  | 0, _, _ => none
  | fuel + 1, done, text =>
      match mark? '\x7d' text with
      | some rest => some (.inlineTable done.reverse, rest)
      | none =>
          match assignment? fuel text with
          | none => none
          | some (pair, rest) =>
              let rest := skipLines false rest
              match mark? ',' rest with
              | some rest => pairs? fuel (pair :: done) (skipLines false rest)
              | none => (mark? '\x7d' rest).map (.inlineTable (pair :: done).reverse, ·)

def assignment? : (fuel : Nat) → Bytes → Option ((KeyPath × Written) × Bytes)
  | 0, _ => none
  | fuel + 1, text =>
      match keyPath? text.length text with
      | none => none
      | some (path, rest) =>
          match mark? '=' rest with
          | none => none
          | some rest =>
              (value? fuel (skipBlanks rest)).map fun (value, rest) => ((path, value), rest)

end

/-! ## Entries -/

def entry? (text : Bytes) : Option (Entry × Bytes) :=
  match mark? '[' text with
  | none =>
      (assignment? (2 * text.length + 2) text).map fun ((path, value), rest) =>
        (.assignment path value, rest)
  | some inner =>
      match mark? '[' inner with
      | none => do
          let (path, rest) ← keyPath? inner.length inner
          return (.table path, ← mark? ']' rest)
      | some inner => do
          let (path, rest) ← keyPath? inner.length inner
          return (.tableInArray path, ← mark? ']' (← mark? ']' rest))

/-- Takes entries up to the end of the text, behind those taken (latest first). Each
entry fills its line. `fuel` bounds the number of entries. -/
def entriesFrom? : (fuel : Nat) → (done : List Entry) → Bytes → Option (List Entry)
  | 0, _, _ => none
  | fuel + 1, done, text =>
      if text.isEmpty then some done.reverse
      else
        match entry? text with
        | none => none
        | some (entry, rest) =>
            if endsLine rest then entriesFrom? fuel (entry :: done) (skipLines false rest)
            else none

def entries? (text : Bytes) : Option (List Entry) :=
  let text := dropOrderMark text
  if Utf8.isWellFormed text && hasPlainControls text then
    entriesFrom? (text.length + 1) [] (skipLines false text)
  else none

end Jack.Toml
