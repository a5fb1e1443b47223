import Jack.Machine.Instruction
import Jack.Text.Blank
import Jack.Text.LetterCase

/-!
Contract: machine code as text, one instruction on a line.

Owns: writing a listing; reading one line; the reader, which counts lines and
gathers instructions over several texts.

Does not own: files.

Everything behind `//` is a comment. Words are separated by ASCII blanks, and at the
ends of what is left of a line any blank character is dropped. Commands and segments
may be written in any letter case.
-/

set_option autoImplicit false

namespace Jack.Machine

def lines (code : List Instruction) : List Bytes :=
  code.map Instruction.text

/-- Lines as a text, each with a line break. -/
def joinLines (lines : List Bytes) : Bytes :=
  lines.flatMap fun line => line ++ [Bytes.lineBreak]

def listing (code : List Instruction) : Bytes :=
  joinLines (lines code)

inductive LineFault where
  | unexpected (word : Bytes)
  | invalid (instruction : Instruction) (flaw : Flaw)
deriving DecidableEq, Repr

/-- What is wrong with a listing, and on which line. -/
structure ListingFault where
  line : Nat
  fault : LineFault
deriving DecidableEq, Repr

def ListingFault.message (listing : ListingFault) : Bytes :=
  match listing.fault with
  | .unexpected word =>
      utf8 "vmcode: syntax error near " ++ Text.quoted word ++ utf8 " at line " ++
        Numeral.decimal listing.line
  | .invalid instruction flaw =>
      utf8 "line " ++ Numeral.decimal listing.line ++ utf8 ": " ++
        instruction.flawMessage flaw

namespace Line

def inWord (byte : UInt8) : Bool :=
  !Text.isAsciiBlank byte

/-- The first word of a line and what follows it. The word is empty when the line is
blank. -/
def takeWord (line : Bytes) : Bytes × Bytes :=
  let trimmed := Text.trim line
  (trimmed.takeWhile inWord, trimmed.dropWhile inWord)

/-- The member whose name a word spells, in any letter case. -/
def named? {Member : Type} (members : List Member) (name : Member → String)
    (word : Bytes) : Option Member :=
  members.find? fun candidate =>
    Text.capitals (utf8 (name candidate)) == Text.capitals word

def command? (word : Bytes) : Option Command :=
  named? Command.all Command.name word

def segment? (word : Bytes) : Option Segment :=
  named? Segment.all Segment.name word

/-- The next word, as something that it has to spell. -/
def operand {Value : Type} (read? : Bytes → Option Value) (line : Bytes) :
    Except LineFault (Value × Bytes) :=
  let (word, rest) := takeWord line
  match read? word with
  | some value => .ok (value, rest)
  | none => .error (.unexpected word)

/-- A name is any word. -/
def name? (word : Bytes) : Option Bytes :=
  if word.isEmpty then none else some word

/-- The instruction of a command with the operands that follow it. -/
def operands (command : Command) (line : Bytes) :
    Except LineFault (Instruction × Bytes) := do
  match command with
  | .push =>
      let (segment, line) ← operand segment? line
      let (index, line) ← operand Numeral.readInteger? line
      return (.push segment index, line)
  | .pop =>
      let (segment, line) ← operand segment? line
      let (index, line) ← operand Numeral.readInteger? line
      return (.pop segment index, line)
  | .arithmetic operation => return (.arithmetic operation, line)
  | .label =>
      let (name, line) ← operand name? line
      return (.label name, line)
  | .goto =>
      let (name, line) ← operand name? line
      return (.goto name, line)
  | .ifGoto =>
      let (name, line) ← operand name? line
      return (.ifGoto name, line)
  | .function =>
      let (name, line) ← operand name? line
      let (count, line) ← operand Numeral.readInteger? line
      return (.function name count, line)
  | .call =>
      let (name, line) ← operand name? line
      let (count, line) ← operand Numeral.readInteger? line
      return (.call name count, line)
  | .ret => return (.ret, line)

/-- The instruction on a line, if the line is not blank. -/
def read (line : Bytes) : Except LineFault (Option Instruction) := do
  let (word, rest) := takeWord (Bytes.before (utf8 "//") line)
  if word.isEmpty then return none
  let some command := command? word
    | throw (.unexpected word)
  let (instruction, rest) ← operands command rest
  let (extra, _) := takeWord rest
  if !extra.isEmpty then throw (.unexpected extra)
  match instruction.flaw? with
  | some flaw => throw (.invalid instruction flaw)
  | none => return some instruction

end Line

/-- A reader of listings: how many lines it has seen, and the instructions on them. -/
structure Reader where
  line : Nat := 0
  code : Array Instruction := #[]

namespace Reader

/-- Reads lines up to the first one that is wrong. That line still counts. -/
def takeLines (reader : Reader) : List Bytes → Except ListingFault Unit × Reader
  | [] => (.ok (), reader)
  | line :: rest =>
      let counted := { reader with line := reader.line + 1 }
      match Line.read line with
      | .error fault => (.error { line := counted.line, fault }, counted)
      | .ok none => counted.takeLines rest
      | .ok (some instruction) =>
          { counted with code := counted.code.push instruction }.takeLines rest

/-- Reads a text and answers with all instructions so far. -/
def read (reader : Reader) (text : Bytes) :
    Except ListingFault (List Instruction) × Reader :=
  let (outcome, after) := reader.takeLines (Bytes.lines text)
  (outcome.map fun _ => after.code.toList, after)

end Reader

def readListing (text : Bytes) : Except ListingFault (List Instruction) :=
  (({} : Reader).read text).1

end Jack.Machine
