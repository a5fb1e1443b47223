import Jack.Proofs.Machine.Listing
import Mathlib.Data.List.Forall2

/-!
Contract: a listing is accepted exactly if each of its lines is a phrase of a plain grammar.

Owns: the words of a line, the words that spell an instruction, and that reading decides this:
what it accepts, which code it gives, and which line it names in an error.

Does not own: blank characters outside ASCII, which reading drops at the ends of a line but
does not split words at.

Reading trims what is left of a line again whenever it takes a word. Where ASCII has all the
blanks, trimming drops no part of a word, and the words that are taken one by one are those
between the blanks of the whole line.
-/

set_option autoImplicit false

namespace Jack.Machine

namespace Line

/-! ## Words -/

/-- The words of a text: all that stands between blanks of ASCII. -/
def wordsOf (text : Bytes) : List Bytes :=
  (text.splitOnP Text.isAsciiBlank).filter (!·.isEmpty)

/-- The words of a line, up to its comment. -/
def words (line : Bytes) : List Bytes :=
  wordsOf (Bytes.before (utf8 "//") line)

section Words

variable {text front back word rest line : Bytes} {byte : UInt8}

theorem wordsOf_nil : wordsOf [] = [] := rfl

theorem wordsOf_of_unbroken (nonempty : word ≠ [])
    (unbroken : ∀ byte ∈ word, Text.isAsciiBlank byte = false) : wordsOf word = [word] := by
  rw [wordsOf, List.splitOnP_eq_singleton unbroken]
  simp [nonempty]

/-- A blank cuts the words in front of it from those behind it. -/
theorem wordsOf_append_cons (blank : Text.isAsciiBlank byte = true) (front back : Bytes) :
    wordsOf (front ++ byte :: back) = wordsOf front ++ wordsOf back := by
  rw [wordsOf, List.splitOnP_append_cons front back blank, List.filter_append]
  rfl

theorem wordsOf_cons (blank : Text.isAsciiBlank byte = true) (text : Bytes) :
    wordsOf (byte :: text) = wordsOf text :=
  wordsOf_append_cons blank [] text

/-- Words do not go on over a blank. -/
theorem wordsOf_append (boundary : ∀ byte ∈ back.head?, Text.isAsciiBlank byte = true) :
    wordsOf (front ++ back) = wordsOf front ++ wordsOf back := by
  cases back with
  | nil => rw [wordsOf_nil, List.append_nil, List.append_nil]
  | cons byte rest =>
      have blank := boundary byte rfl
      rw [wordsOf_append_cons blank, wordsOf_cons blank]

theorem wordsOf_blanks_append (blanks : ∀ byte ∈ front, Text.isAsciiBlank byte = true)
    (text : Bytes) : wordsOf (front ++ text) = wordsOf text := by
  induction front with
  | nil => rfl
  | cons byte rest inductionHypothesis =>
      obtain ⟨blank, restBlank⟩ := List.forall_mem_cons.mp blanks
      rw [List.cons_append, wordsOf_cons blank, inductionHypothesis restBlank]

theorem wordsOf_append_blanks (blanks : ∀ byte ∈ back, Text.isAsciiBlank byte = true)
    (text : Bytes) : wordsOf (text ++ back) = wordsOf text := by
  have none := wordsOf_blanks_append blanks []
  rw [List.append_nil, wordsOf_nil] at none
  rw [wordsOf_append fun byte first => blanks byte (List.mem_of_head? first), none,
    List.append_nil]

/-- Trimming drops no part of a word where all blanks are of ASCII. -/
theorem wordsOf_trim (blanks : Text.BlanksAreAscii text) :
    wordsOf (Text.trim text) = wordsOf text := by
  obtain ⟨front, back, parts, frontBlank, backBlank⟩ := blanks.exists_trim
  conv_rhs => rw [parts]
  rw [wordsOf_blanks_append frontBlank, wordsOf_append_blanks backBlank]

/-- Taking a word from a line takes the first of its words. Other blanks than those of ASCII would
be trimmed but would not end a word. -/
theorem TakesWord.wordsOf_eq_cons (taken : TakesWord line word rest)
    (blanks : Text.BlanksAreAscii line) (nonempty : word ≠ []) :
    wordsOf line = word :: wordsOf rest := by
  rw [← wordsOf_trim blanks, taken.trimmed, wordsOf_append taken.boundary,
    wordsOf_of_unbroken nonempty taken.unbroken, List.singleton_append]

/-- No word can be taken from a line only if there is none. -/
theorem TakesWord.wordsOf_eq_nil_iff (taken : TakesWord line word rest)
    (blanks : Text.BlanksAreAscii line) : wordsOf line = [] ↔ word = [] := by
  constructor
  · intro none
    by_contra nonempty
    rw [taken.wordsOf_eq_cons blanks nonempty] at none
    cases none
  · intro empty
    rw [← wordsOf_trim blanks, taken.trimmed, empty, taken.blank empty]
    rfl

end Words

/-! ## Phrases -/

/-- Whether a word spells a name, in any letter case. -/
def IsSpelling (name : String) (word : Bytes) : Prop :=
  Text.capitals word = Text.capitals (utf8 name)

/-- The words that a command has behind it, and the instruction that they make. -/
inductive Operands : Command → List Bytes → Instruction → Prop where
  | push {word numeral : Bytes} {segment : Segment} {index : Int}
      (isSegment : IsSpelling segment.name word) (isIndex : Numeral.Denotes numeral index) :
      Operands .push [word, numeral] (.push segment index)
  | pop {word numeral : Bytes} {segment : Segment} {index : Int}
      (isSegment : IsSpelling segment.name word) (isIndex : Numeral.Denotes numeral index) :
      Operands .pop [word, numeral] (.pop segment index)
  | arithmetic (operation : Operation) :
      Operands (.arithmetic operation) [] (.arithmetic operation)
  | label (name : Bytes) : Operands .label [name] (.label name)
  | goto (name : Bytes) : Operands .goto [name] (.goto name)
  | ifGoto (name : Bytes) : Operands .ifGoto [name] (.ifGoto name)
  | function (name : Bytes) {numeral : Bytes} {count : Int}
      (isCount : Numeral.Denotes numeral count) :
      Operands .function [name, numeral] (.function name count)
  | call (name : Bytes) {numeral : Bytes} {count : Int}
      (isCount : Numeral.Denotes numeral count) :
      Operands .call [name, numeral] (.call name count)
  | ret : Operands .ret [] .ret

/-- A line that spells an instruction, which has no flaw. -/
inductive Spells (line : Bytes) (instruction : Instruction) : Prop where
  | mk {word : Bytes} {operands : List Bytes} {command : Command}
      (split : words line = word :: operands) (isCommand : IsSpelling command.name word)
      (spelled : Operands command operands instruction) (sound : instruction.flaw? = none)

/-- A line that is blank or spells an instruction. -/
def IsPhrase (line : Bytes) : Prop :=
  words line = [] ∨ ∃ instruction, Spells line instruction

/-! ## Reading a phrase -/

theorem named?_eq_some_iff {Member : Type} {members : List Member} {name : Member → String}
    {member : Member} (itself : named? members name (utf8 (name member)) = some member)
    {word : Bytes} :
    named? members name word = some member ↔ IsSpelling (name member) word := by
  constructor
  · intro found
    have same := List.find?_some found
    exact (beq_iff_eq.mp same).symm
  · intro spelling
    rw [← itself, named?, named?, spelling]

/-- A command is known by its name, in any letter case. -/
theorem command?_eq_some_iff {command : Command} {word : Bytes} :
    command? word = some command ↔ IsSpelling command.name word :=
  named?_eq_some_iff (command?_name command)

theorem segment?_eq_some_iff {segment : Segment} {word : Bytes} :
    segment? word = some segment ↔ IsSpelling segment.name word :=
  named?_eq_some_iff (segment?_name segment)

variable {line rest : Bytes}

/-- The first word of a line is the one that is taken. -/
theorem takeWord_of_wordsOf {word : Bytes} {others : List Bytes} (blanks : Text.BlanksAreAscii line)
    (split : wordsOf line = word :: others) :
    ∃ rest, takeWord line = (word, rest) ∧ word ≠ [] ∧ wordsOf rest = others ∧
      Text.BlanksAreAscii rest := by
  rcases taken : takeWord line with ⟨first, rest⟩
  have takes := takesWord_of_takeWord taken
  have nonempty : first ≠ [] := by
    intro empty
    rw [(takes.wordsOf_eq_nil_iff blanks).mpr empty] at split
    cases split
  rw [takes.wordsOf_eq_cons blanks nonempty] at split
  obtain ⟨rfl, rfl⟩ := List.cons.inj split
  exact ⟨rest, rfl, nonempty, rfl, blanks.of_within takes.rest_within⟩

section Operand

variable {Value : Type} {read? : Bytes → Option Value} {value : Value}

/-- An operand is the next word of a line. -/
theorem wordsOf_of_operand (blanks : Text.BlanksAreAscii line) (nothing : read? [] = none)
    (taken : operand read? line = .ok (value, rest)) :
    ∃ word, wordsOf line = word :: wordsOf rest ∧ read? word = some value ∧
      Text.BlanksAreAscii rest := by
  obtain ⟨word, takes, spelled⟩ := operand_eq_ok_iff.mp taken
  have takes := takesWord_of_takeWord takes
  have nonempty : word ≠ [] := by
    rintro rfl
    rw [nothing] at spelled
    cases spelled
  exact ⟨word, takes.wordsOf_eq_cons blanks nonempty, spelled, blanks.of_within takes.rest_within⟩

theorem operand_of_wordsOf {word : Bytes} {others : List Bytes} (blanks : Text.BlanksAreAscii line)
    (split : wordsOf line = word :: others) (spelled : read? word = some value) :
    ∃ rest, operand read? line = .ok (value, rest) ∧ wordsOf rest = others ∧
      Text.BlanksAreAscii rest := by
  obtain ⟨rest, taken, -, restWords, restBlanks⟩ := takeWord_of_wordsOf blanks split
  exact ⟨rest, operand_eq_ok_iff.mpr ⟨word, taken, spelled⟩, restWords, restBlanks⟩

end Operand

theorem takeWord_eq_nil_iff (blanks : Text.BlanksAreAscii line) :
    (takeWord line).1 = [] ↔ wordsOf line = [] :=
  ((takesWord_takeWord line).wordsOf_eq_nil_iff blanks).symm

/-- What is taken behind a command are all the words there. -/
theorem TakesOperands.operands {command : Command} {instruction : Instruction}
    (taken : TakesOperands command line instruction rest) (blanks : Text.BlanksAreAscii line)
    (ended : (takeWord rest).1 = []) : Operands command (wordsOf line) instruction := by
  cases taken with
  | push first second | pop first second =>
      obtain ⟨word, split, isSegment, blanks⟩ :=
        wordsOf_of_operand blanks (by decide +kernel) first
      obtain ⟨numeral, behind, isIndex, blanks⟩ := wordsOf_of_operand blanks rfl second
      rw [split, behind, (takeWord_eq_nil_iff blanks).mp ended]
      constructor
      · exact segment?_eq_some_iff.mp isSegment
      · exact Numeral.readInteger?_eq_some_iff.mp isIndex
  | label only | goto only | ifGoto only =>
      obtain ⟨word, split, isName, blanks⟩ := wordsOf_of_operand blanks rfl only
      obtain ⟨-, rfl⟩ := name?_eq_some_iff.mp isName
      rw [split, (takeWord_eq_nil_iff blanks).mp ended]
      constructor
  | function first second | call first second =>
      obtain ⟨word, split, isName, blanks⟩ := wordsOf_of_operand blanks rfl first
      obtain ⟨-, rfl⟩ := name?_eq_some_iff.mp isName
      obtain ⟨numeral, behind, isCount, blanks⟩ := wordsOf_of_operand blanks rfl second
      rw [split, behind, (takeWord_eq_nil_iff blanks).mp ended]
      constructor
      exact Numeral.readInteger?_eq_some_iff.mp isCount
  | arithmetic operation =>
      rw [(takeWord_eq_nil_iff blanks).mp ended]
      exact .arithmetic operation
  | ret =>
      rw [(takeWord_eq_nil_iff blanks).mp ended]
      exact .ret

/-- All the words behind a command are taken one by one. -/
theorem Operands.takesOperands {command : Command} {instruction : Instruction}
    (spelled : Operands command (wordsOf line) instruction) (blanks : Text.BlanksAreAscii line) :
    ∃ rest, TakesOperands command line instruction rest ∧ (takeWord rest).1 = [] := by
  have named {word : Bytes} {others : List Bytes} (split : wordsOf line = word :: others) :
      name? word = some word := by
    obtain ⟨_, _, nonempty, _⟩ := takeWord_of_wordsOf blanks split
    exact name?_eq_some_iff.mpr ⟨nonempty, rfl⟩
  generalize split : wordsOf line = found at spelled
  cases spelled with
  | push isSegment isIndex | pop isSegment isIndex =>
      obtain ⟨middle, first, behind, blanks⟩ :=
        operand_of_wordsOf blanks split (segment?_eq_some_iff.mpr isSegment)
      obtain ⟨rest, second, ended, blanks⟩ :=
        operand_of_wordsOf blanks behind (Numeral.readInteger?_eq_some_iff.mpr isIndex)
      refine ⟨rest, ?_, (takeWord_eq_nil_iff blanks).mpr ended⟩
      constructor <;> assumption
  | label name | goto name | ifGoto name =>
      obtain ⟨rest, only, ended, blanks⟩ := operand_of_wordsOf blanks split (named split)
      refine ⟨rest, ?_, (takeWord_eq_nil_iff blanks).mpr ended⟩
      constructor
      assumption
  | function name isCount | call name isCount =>
      obtain ⟨middle, first, behind, blanks⟩ := operand_of_wordsOf blanks split (named split)
      obtain ⟨rest, second, ended, blanks⟩ :=
        operand_of_wordsOf blanks behind (Numeral.readInteger?_eq_some_iff.mpr isCount)
      refine ⟨rest, ?_, (takeWord_eq_nil_iff blanks).mpr ended⟩
      constructor <;> assumption
  | arithmetic operation =>
      exact ⟨line, .arithmetic operation line, (takeWord_eq_nil_iff blanks).mpr split⟩
  | ret => exact ⟨line, .ret line, (takeWord_eq_nil_iff blanks).mpr split⟩

theorem blanksAreAscii_before (blanks : Text.BlanksAreAscii line) :
    Text.BlanksAreAscii (Bytes.before (utf8 "//") line) :=
  blanks.of_within (Bytes.before_starts _ _).isInfix

/-- Reading finds an instruction on a line exactly if the line spells it. -/
theorem read_eq_ok_some_iff_spells (blanks : Text.BlanksAreAscii line) {instruction : Instruction} :
    read line = .ok (some instruction) ↔ Spells line instruction := by
  have blanks := blanksAreAscii_before blanks
  rw [read_eq_ok_some_iff]
  constructor
  · rintro ⟨taken, nonempty, named, operands, ended, sound⟩
    have takes := takesWord_of_takeWord taken
    exact ⟨takes.wordsOf_eq_cons blanks nonempty, command?_eq_some_iff.mp named,
      operands.operands (blanks.of_within takes.rest_within) ended, sound⟩
  · rintro ⟨split, isCommand, spelled, sound⟩
    obtain ⟨rest, taken, nonempty, rfl, restBlanks⟩ := takeWord_of_wordsOf blanks split
    obtain ⟨left, operands, ended⟩ := spelled.takesOperands restBlanks
    exact ⟨taken, nonempty, command?_eq_some_iff.mpr isCommand, operands, ended, sound⟩

/-- A line is skipped if it has no words in front of its comment. -/
theorem read_eq_ok_none_iff_words (blanks : Text.BlanksAreAscii line) :
    read line = .ok none ↔ words line = [] :=
  read_eq_ok_none_iff.trans (takeWord_eq_nil_iff (blanksAreAscii_before blanks))

/-- The phrases are the lines that are read without a fault. -/
theorem isPhrase_iff_read (blanks : Text.BlanksAreAscii line) :
    IsPhrase line ↔ ∃ outcome, read line = .ok outcome := by
  rw [IsPhrase, ← read_eq_ok_none_iff_words blanks]
  simp only [← read_eq_ok_some_iff_spells blanks]
  constructor
  · rintro (none | ⟨instruction, found⟩)
    · exact ⟨_, none⟩
    · exact ⟨_, found⟩
  · rintro ⟨outcome, read⟩
    cases outcome with
    | none => exact .inl read
    | some instruction => exact .inr ⟨instruction, read⟩

end Line

/-! ## Listings -/

/-- Every line of a listing that is read is a phrase. -/
theorem Transcribes.isPhrase {lines : List Bytes} {code : List Instruction}
    (transcribes : Transcribes lines code) (blanks : ∀ line ∈ lines, Text.BlanksAreAscii line) :
    ∀ line ∈ lines, Line.IsPhrase line := by
  induction transcribes with
  | nil => simp
  | blank read _ inductionHypothesis | instruction read _ inductionHypothesis =>
      obtain ⟨lineBlanks, blanks⟩ := List.forall_mem_cons.mp blanks
      exact List.forall_mem_cons.mpr
        ⟨(Line.isPhrase_iff_read lineBlanks).mpr ⟨_, read⟩, inductionHypothesis blanks⟩

def spelledLines (lines : List Bytes) : List Bytes :=
  lines.filter fun line => !(Line.words line).isEmpty

theorem spelledLines_cons_of_blank {line : Bytes} (blank : Line.words line = [])
    (rest : List Bytes) : spelledLines (line :: rest) = spelledLines rest :=
  List.filter_cons_of_neg (by simp [blank])

theorem spelledLines_cons {line : Bytes} (nonblank : Line.words line ≠ []) (rest : List Bytes) :
    spelledLines (line :: rest) = line :: spelledLines rest :=
  List.filter_cons_of_pos (by simp [nonblank])

theorem Line.Spells.nonblank {line : Bytes} {instruction : Instruction}
    (spells : Line.Spells line instruction) : Line.words line ≠ [] := by
  obtain ⟨split, -, -, -⟩ := spells
  rw [split]
  exact List.cons_ne_nil _ _

/-- Lines stand for one instruction each, but for blank lines. -/
theorem transcribes_iff_spells {lines : List Bytes} {code : List Instruction}
    (blanks : ∀ line ∈ lines, Text.BlanksAreAscii line) :
    Transcribes lines code ↔ List.Forall₂ Line.Spells (spelledLines lines) code := by
  constructor
  · intro transcribes
    induction transcribes with
    | nil => exact .nil
    | blank read _ inductionHypothesis =>
        obtain ⟨lineBlanks, blanks⟩ := List.forall_mem_cons.mp blanks
        rw [spelledLines_cons_of_blank ((Line.read_eq_ok_none_iff_words lineBlanks).mp read)]
        exact inductionHypothesis blanks
    | instruction read _ inductionHypothesis =>
        obtain ⟨lineBlanks, blanks⟩ := List.forall_mem_cons.mp blanks
        have spells := (Line.read_eq_ok_some_iff_spells lineBlanks).mp read
        rw [spelledLines_cons spells.nonblank]
        exact .cons spells (inductionHypothesis blanks)
  · intro spelled
    induction lines generalizing code with
    | nil =>
        cases spelled
        exact .nil
    | cons line rest inductionHypothesis =>
        obtain ⟨lineBlanks, blanks⟩ := List.forall_mem_cons.mp blanks
        by_cases blank : Line.words line = []
        · rw [spelledLines_cons_of_blank blank] at spelled
          exact .blank ((Line.read_eq_ok_none_iff_words lineBlanks).mpr blank)
            (inductionHypothesis blanks spelled)
        · rw [spelledLines_cons blank] at spelled
          cases spelled with
          | cons spells behind =>
              exact .instruction ((Line.read_eq_ok_some_iff_spells lineBlanks).mpr spells)
                (inductionHypothesis blanks behind)

/-- Whether an error message names a line. -/
def NamesLine (message : Bytes) (line : Nat) : Prop :=
  utf8 " at line " ++ Numeral.decimal line <:+ message ∨
    utf8 "line " ++ Numeral.decimal line ++ utf8 ": " <+: message

/-- A fault in a listing names the line where it is. -/
theorem ListingFault.namesLine_message (fault : ListingFault) :
    NamesLine fault.message fault.line := by
  obtain ⟨line, wrong⟩ := fault
  cases wrong with
  | unexpected word => exact .inl ⟨_, (List.append_assoc _ _ _).symm⟩
  | invalid instruction flaw => exact .inr (List.prefix_append _ _)

/-- A text without blanks outside ASCII is accepted exactly if each line is blank or spells an
instruction that has no flaw. The code is what the lines spell, in their order. Otherwise the
error names the first line that is not of this kind, counted from 1. -/
theorem listing_accepted_iff_phrases {text : Bytes} (blanks : Text.BlanksAreAscii text) :
    ((∃ code, readListing text = .ok code) ↔ ∀ line ∈ Bytes.lines text, Line.IsPhrase line) ∧
    (∀ code, readListing text = .ok code ↔
      List.Forall₂ Line.Spells (spelledLines (Bytes.lines text)) code) ∧
    ∀ fault, readListing text = .error fault →
      ∃ front line back, Bytes.lines text = front ++ line :: back ∧
        (∀ earlier ∈ front, Line.IsPhrase earlier) ∧ ¬ Line.IsPhrase line ∧
        fault.line = front.length + 1 ∧ NamesLine fault.message fault.line := by
  have lineBlanks : ∀ line ∈ Bytes.lines text, Text.BlanksAreAscii line :=
    fun line member => blanks.of_within (Bytes.infix_of_mem_split member)
  have stops {fault : ListingFault} (refused : readListing text = .error fault) :
      ∃ front line back, Bytes.lines text = front ++ line :: back ∧
        (∀ earlier ∈ front, Line.IsPhrase earlier) ∧ ¬ Line.IsPhrase line ∧
        fault.line = front.length + 1 := by
    obtain ⟨front, line, back, code, parts, transcribes, wrong, position⟩ :=
      stops_of_readListing refused
    simp only [parts, List.forall_mem_append, List.forall_mem_cons] at lineBlanks
    obtain ⟨frontBlanks, blanks, -⟩ := lineBlanks
    refine ⟨front, line, back, parts, transcribes.isPhrase frontBlanks, ?_, position⟩
    rw [Line.isPhrase_iff_read blanks, wrong]
    simp
  refine ⟨⟨?_, ?_⟩, ?_, ?_⟩
  · rintro ⟨code, accepted⟩
    exact (readListing_eq_ok_iff.mp accepted).isPhrase lineBlanks
  · intro phrases
    cases outcome : readListing text with
    | ok code => exact ⟨code, rfl⟩
    | error fault =>
        obtain ⟨front, line, back, parts, -, wrong, -⟩ := stops outcome
        exact absurd (phrases line (by simp [parts])) wrong
  · intro code
    exact readListing_eq_ok_iff.trans (transcribes_iff_spells lineBlanks)
  · intro fault refused
    obtain ⟨front, line, back, parts, right, wrong, position⟩ := stops refused
    exact ⟨front, line, back, parts, right, wrong, position, fault.namesLine_message⟩

/-- Letters of any case, a sign, zeros in front, a name that is not all of ASCII, and comments. -/
def accentedText : Bytes :=
  utf8 "PUSH Local +007 // seven\n\n\tif-goto café\r\nCall a/b -0// none"

/-- A third line with a flaw. -/
def overflowingText : Bytes :=
  utf8 "add\n\npop temp 8 // too far\nadd add"

/-- A listing with odd spellings and one with a number that is too large. -/
theorem accented_accepted_overflowing_refused :
    Text.BlanksAreAscii accentedText ∧
    List.Forall₂ Line.Spells (spelledLines (Bytes.lines accentedText))
      [.push .local 7, .ifGoto (utf8 "café"), .call (utf8 "a/b") 0] ∧
    Text.BlanksAreAscii overflowingText ∧
    readListing overflowingText = .error ⟨3, .invalid (.pop .temp 8) .noSuchTemp⟩ ∧
    ∃ front line back, Bytes.lines overflowingText = front ++ line :: back ∧
      (∀ earlier ∈ front, Line.IsPhrase earlier) ∧ ¬ Line.IsPhrase line ∧
      3 = front.length + 1 ∧
      NamesLine (ListingFault.message ⟨3, .invalid (.pop .temp 8) .noSuchTemp⟩) 3 := by
  have blanks : Text.BlanksAreAscii accentedText := by decide +kernel
  have otherBlanks : Text.BlanksAreAscii overflowingText := by decide +kernel
  have accepted : readListing accentedText =
      .ok [.push .local 7, .ifGoto (utf8 "café"), .call (utf8 "a/b") 0] := by
    decide +kernel
  have refused : readListing overflowingText =
      .error ⟨3, .invalid (.pop .temp 8) .noSuchTemp⟩ := by
    decide +kernel
  exact ⟨blanks, ((listing_accepted_iff_phrases blanks).2.1 _).mp accepted, otherBlanks, refused,
    (listing_accepted_iff_phrases otherBlanks).2.2 _ refused⟩

end Jack.Machine
