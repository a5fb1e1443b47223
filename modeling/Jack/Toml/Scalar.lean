import Jack.Text.Numeral
import Jack.Toml.Entry

/-!
Contract: scalars of TOML that are written without quotes.

Owns: integers, numbers with a fraction or an exponent, booleans, and moments in
time.

Does not own: where a scalar ends.
-/

set_option autoImplicit false

namespace Jack.Toml

/-! ## Integers -/

/-- Whether the digits may stand where they do: no zero in front of other digits, no
sign in front of a base mark, marks in small letters, and a digit right behind a
mark. -/
def hasPlainDigits (signed : Bool) : Bytes → Bool
  | first :: mark :: rest =>
      first != ascii '0' ||
        (!signed && [ascii 'x', ascii 'o', ascii 'b'].contains mark &&
          rest.head? != some (ascii '_'))
  | _ => true

def integer? (literal : Bytes) : Option Int :=
  let unsigned := (Numeral.takeSign literal).2
  let signed := unsigned.length < literal.length
  if hasPlainDigits signed unsigned then (Numeral.readLiteral literal).toOption else none

/-! ## Numbers with a fraction or an exponent -/

/-- Whether a byte can stand in a run of digits. -/
def isWholePart (byte : UInt8) : Bool :=
  Numeral.isDigit byte || byte == ascii '_'

/-- Takes digits, with single underscores between them, from the front. Underscores
are left out of the digits. -/
def digits? (text : Bytes) : Option (Bytes × Bytes) :=
  let taken := text.takeWhile isWholePart
  if taken.isEmpty || !Numeral.underscoresSeparate false taken then none
  else some (taken.filter Numeral.isDigit, text.dropWhile isWholePart)

/-- Takes what follows a point; nothing when there is no point. -/
def fraction? : Bytes → Option (Bytes × Bytes)
  | [] => some ([], [])
  | byte :: rest =>
      if byte = ascii '.' then digits? rest else some ([], byte :: rest)

/-- Takes an exponent; zero when there is none. -/
def exponent? : Bytes → Option (Int × Bytes)
  | [] => some (0, [])
  | byte :: rest =>
      if byte = ascii 'e' || byte = ascii 'E' then
        let (negative, unsigned) := Numeral.takeSign rest
        (digits? unsigned).map fun (digits, rest) =>
          (Numeral.withSign negative (Numeral.valueOf digits), rest)
      else some (0, byte :: rest)

/-- Whether `mantissa` times ten to the `exponent` rounds to a number of double
precision. The first that does not lies half a unit above the largest one. -/
def isRepresentable (mantissa : Nat) (exponent : Int) : Bool :=
  let magnitude := (Numeral.decimal mantissa).length + exponent
  let limit := Nat.pow 2 1024 - Nat.pow 2 970
  if mantissa = 0 ∨ magnitude < 300 then true
  else if 320 < magnitude then false
  else if 0 ≤ exponent then mantissa * Nat.pow 10 exponent.toNat < limit
  else mantissa < limit * Nat.pow 10 (-exponent).toNat

/-- Whether a text is a number with a fraction, an exponent or both. -/
def isFloat (literal : Bytes) : Bool :=
  let unsigned := (Numeral.takeSign literal).2
  if unsigned = utf8 "inf" ∨ unsigned = utf8 "nan" then true
  else
    let read := do
      let (whole, rest) ← digits? unsigned
      let (fraction, rest) ← fraction? rest
      let (exponent, rest) ← exponent? rest
      return (whole, fraction, exponent, rest)
    match read with
    | some (whole, fraction, exponent, []) =>
        !unsigned.all isWholePart &&
          (whole.length == 1 || whole.head? != some (ascii '0')) &&
          isRepresentable (Numeral.valueOf (whole ++ fraction)) (exponent - fraction.length)
    | _ => false

/-! ## Moments -/

/-- Takes exactly `width` digits, the number of which lies between two bounds. -/
def field? (width low high : Nat) (text : Bytes) : Option (Nat × Bytes) :=
  let digits := text.take width
  let value := Numeral.valueOf digits
  if digits.length = width && digits.all Numeral.isDigit && low ≤ value && value ≤ high then
    some (value, text.drop width)
  else none

/-- Takes one given byte. -/
def mark? (expected : Char) : Bytes → Option Bytes
  | [] => none
  | byte :: rest => if byte = ascii expected then some rest else none

def daysIn (year month : Nat) : Nat :=
  let isLeap := year % 4 = 0 ∧ (year % 100 ≠ 0 ∨ year % 400 = 0)
  if month = 2 then if isLeap then 29 else 28
  else if month = 4 ∨ month = 6 ∨ month = 9 ∨ month = 11 then 30
  else 31

def date? (text : Bytes) : Option Bytes := do
  let (year, rest) ← field? 4 0 9999 text
  let (month, rest) ← field? 2 1 12 (← mark? '-' rest)
  let (_, rest) ← field? 2 1 (daysIn year month) (← mark? '-' rest)
  return rest

/-- Takes parts of a second; nothing when there is no point with a digit behind it. -/
def subsecond (text : Bytes) : Bytes :=
  match text with
  | point :: digit :: rest =>
      if point = ascii '.' && Numeral.isDigit digit then rest.dropWhile Numeral.isDigit
      else text
  | _ => text

/-- Takes a time of day. Seconds may be left out. -/
def time? (text : Bytes) : Option Bytes := do
  let (_, rest) ← field? 2 0 23 text
  let (_, rest) ← field? 2 0 59 (← mark? ':' rest)
  match mark? ':' rest with
  | none => return rest
  | some rest =>
      let (_, rest) ← field? 2 0 59 rest
      return subsecond rest

/-- Takes a distance from universal time; nothing when there is none. -/
def zone? : Bytes → Option Bytes
  | [] => some []
  | byte :: rest =>
      if byte = ascii 'Z' || byte = ascii 'z' then some rest
      else if byte = ascii '+' || byte = ascii '-' then do
        let (_, rest) ← field? 2 0 24 rest
        let (_, rest) ← field? 2 0 60 (← mark? ':' rest)
        return rest
      else none

/-- Takes what follows a day: nothing, or a time of day and a zone. -/
def timeOfDay? : Bytes → Option Bytes
  | [] => some []
  | byte :: rest =>
      if byte = ascii 'T' || byte = ascii 't' || byte = ascii ' ' then do
        zone? (← time? rest)
      else none

/-- Whether a text is a day, a time of day, or both with or without a zone. -/
def isMoment (literal : Bytes) : Bool :=
  (date? literal).bind timeOfDay? == some [] || time? literal == some []

/-- The scalar that a text without quotes stands for. -/
def scalar? (literal : Bytes) : Option Scalar :=
  if literal = utf8 "true" then some (.boolean true)
  else if literal = utf8 "false" then some (.boolean false)
  else
    match integer? literal with
    | some number => some (.integer number)
    | none =>
        if isFloat literal then some (.float literal)
        else if isMoment literal then some (.moment literal)
        else none

end Jack.Toml
