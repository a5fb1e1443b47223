import Jack.Diagnostic
import Jack.Token.Alphabet

/-!
Contract: cutting a source into tokens.

Owns: the attempt at one lexeme, and the scanner, which keeps the tokens read so
far and can be asked to go on after a fault.

Does not own: what tokens make up a program.

The first byte decides what a lexeme is, the second one too for comments. A number
that directly precedes letters is a token of its own.
-/

set_option autoImplicit false

namespace Jack

/-- One attempt at a lexeme: the token or the fault, and where reading stands
afterwards. -/
structure Attempt where
  outcome : Except LexicalFault Token
  line : Nat
  rest : Bytes

namespace Attempt

/-- A token on the current line, with the bytes behind it. -/
def token (kind : Token.Kind) (content : Bytes) (line : Nat) (rest : Bytes) : Attempt :=
  { outcome := .ok ⟨kind, content, line⟩, line, rest }

/-- A fault on the current line, with the bytes that reading goes on from. -/
def fault (cause : LexicalFault) (line : Nat) (rest : Bytes) : Attempt :=
  { outcome := .error cause, line, rest }

/-- The longest run of digits, if its number is in range. -/
def integer (line : Nat) (first : UInt8) (tail : Bytes) : Attempt :=
  let digits := first :: tail.takeWhile Alphabet.isDigit
  let rest := tail.dropWhile Alphabet.isDigit
  if maxInteger < Numeral.valueOf digits then
    fault (.integerTooLarge digits) line rest
  else token .integer digits line rest

/-- Up to the line break, which is not part of the comment; nor are carriage
returns in front of it. -/
def lineComment (line : Nat) (first : UInt8) (tail : Bytes) : Attempt :=
  let text := first :: tail.takeWhile (· != Bytes.lineBreak)
  token .comment (Bytes.trimEnd (ascii '\r') text) line
    (tail.dropWhile (· != Bytes.lineBreak))

/-- Up to the first closing mark behind the two bytes of the opening mark. -/
def blockComment (line : Nat) (first : UInt8) (tail : Bytes) : Attempt :=
  match Bytes.offsetOf? (utf8 "*/") (tail.drop 1) with
  | none => fault .unterminatedComment line (first :: tail)
  | some offset =>
      let content := first :: tail.take (offset + 3)
      { outcome := .ok ⟨.comment, content, line⟩
        line := line + Bytes.lineBreaks content
        rest := tail.drop (offset + 3) }

def inString (byte : UInt8) : Bool :=
  byte != ascii '"' && byte != ascii '\n' && byte != ascii '\r'

/-- Up to the closing quote, which has to be on the same line. -/
def string (line : Nat) (tail : Bytes) : Attempt :=
  let content := tail.takeWhile inString
  match tail.dropWhile inString with
  | [] => fault .unterminatedString line []
  | byte :: rest =>
      if byte = ascii '"' then token .string content line rest
      else fault .lineBreakInString line (byte :: rest)

/-- The longest run of word bytes. -/
def word (line : Nat) (first : UInt8) (tail : Bytes) : Attempt :=
  let content := first :: tail.takeWhile Alphabet.continuesWord
  let kind := if Alphabet.isKeyword content then .keyword else .identifier
  token kind content line (tail.dropWhile Alphabet.continuesWord)

/-- The attempt at the lexeme that starts with the byte `first`. -/
def start (line : Nat) (first : UInt8) (tail : Bytes) : Attempt :=
  if Alphabet.isDigit first then integer line first tail
  else if (utf8 "//").isPrefixOf (first :: tail) then lineComment line first tail
  else if (utf8 "/*").isPrefixOf (first :: tail) then blockComment line first tail
  else if first = ascii '"' then string line tail
  else if Alphabet.startsWord first then word line first tail
  else if Alphabet.isSymbol first then token .symbol [first] line tail
  else fault (.unexpectedByte first) line (first :: tail)

/-- A token takes at least its first byte. -/
theorem rest_length_le_of_start_ok {line : Nat} {first : UInt8} {tail : Bytes}
    {token : Token} (read : (start line first tail).outcome = .ok token) :
    (start line first tail).rest.length ≤ tail.length := by
  unfold start at read ⊢
  split
  · unfold integer
    dsimp only
    split <;> exact Bytes.length_dropWhile_le _ _
  split
  · exact Bytes.length_dropWhile_le _ _
  split
  · rename_i notDigit notLine isBlock
    rw [if_neg notDigit, if_neg notLine, if_pos isBlock] at read
    unfold blockComment at read ⊢
    split
    · simp_all [fault]
    · simp only [List.length_drop]
      omega
  split
  · unfold string
    have shorter := Bytes.length_dropWhile_le inString tail
    dsimp only
    split
    · exact Nat.zero_le _
    · rename_i remaining
      rw [remaining] at shorter
      simp only [List.length_cons] at shorter
      split
      · exact Nat.le_of_succ_le shorter
      · exact shorter
  split
  · exact Bytes.length_dropWhile_le _ _
  split
  · exact Nat.le_refl _
  · simp_all [fault]

end Attempt

/-- A scanner: the source, what of it is still to be read, the current line, and
the tokens kept so far. -/
structure Scanner where
  source : Bytes
  rest : Bytes
  line : Nat
  kept : Array Token

namespace Scanner

def ofSource (source : Bytes) : Scanner :=
  { source, rest := source, line := 1, kept := #[] }

def position (scanner : Scanner) : Nat :=
  scanner.source.length - scanner.rest.length

/-- Back to the start, with no tokens kept. -/
def reset (scanner : Scanner) : Scanner :=
  ofSource scanner.source

def lookingAt (scanner : Scanner) (text : Bytes) : Bool :=
  text.isPrefixOf scanner.rest

/-- Skips white space and counts the line breaks in it. -/
def skipSpace (scanner : Scanner) : Scanner :=
  { scanner with
    rest := scanner.rest.dropWhile Alphabet.isSpace
    line := scanner.line + Bytes.lineBreaks (scanner.rest.takeWhile Alphabet.isSpace) }

/-- Skipping never adds to what is still to be read. -/
theorem skipSpace_rest_length_le (scanner : Scanner) :
    scanner.skipSpace.rest.length ≤ scanner.rest.length :=
  Bytes.length_dropWhile_le Alphabet.isSpace scanner.rest

def after (scanner : Scanner) (attempt : Attempt) : Scanner :=
  { scanner with rest := attempt.rest, line := attempt.line }

/-- A fault, at the line on which the lexeme starts. -/
def diagnostic (scanner : Scanner) (cause : LexicalFault) : Diagnostic :=
  { cause := .lexical cause, line := scanner.line }

/-- Reads the lexeme that comes next without keeping it; nothing at the end of the
source. White space in front is not skipped. -/
def next (scanner : Scanner) : Option (Except Diagnostic Token) × Scanner :=
  match scanner.rest with
  | [] => (none, scanner)
  | first :: tail =>
      let attempt := Attempt.start scanner.line first tail
      (some (attempt.outcome.mapError scanner.diagnostic), scanner.after attempt)

/-- Reads and keeps tokens up to the end of the source or the first fault, and
answers with all tokens kept. -/
def run (scanner : Scanner) : Except Diagnostic (Array Token) × Scanner :=
  let spaced := scanner.skipSpace
  match _ : spaced.rest with
  | [] => (.ok spaced.kept, spaced)
  | first :: tail =>
      let attempt := Attempt.start spaced.line first tail
      match _ : attempt.outcome with
      | .error cause => (.error (spaced.diagnostic cause), spaced.after attempt)
      | .ok token =>
          run { spaced.after attempt with kept := spaced.kept.push token }
termination_by scanner.rest.length
decreasing_by
  have taken := Attempt.rest_length_le_of_start_ok ‹attempt.outcome = .ok token›
  have skipped := skipSpace_rest_length_le scanner
  have unread : scanner.skipSpace.rest.length = tail.length + 1 := by
    rw [‹spaced.rest = first :: tail›]
    rfl
  show (Attempt.start spaced.line first tail).rest.length < scanner.rest.length
  omega

end Scanner

/-- The tokens of a source, comments included. -/
def tokenize (source : Bytes) : Except Diagnostic (Array Token) :=
  (Scanner.ofSource source).run.1

def withoutComments (tokens : Array Token) : Array Token :=
  tokens.filter Token.isCode

end Jack
