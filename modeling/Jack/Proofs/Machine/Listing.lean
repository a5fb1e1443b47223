import Jack.Proofs.Machine.Reading
import Jack.Proofs.Text.Numeral

/-!
Contract: a listing reads back as the code that it was written for.

Owns: the words that a line can be made of, taking them apart again, the instructions that
can be written so that they can be read, and the round trip of a line and of a listing.

Does not own: listings that were written by hand.

A line is its words with a space between any two of them. All that reading does to a line
besides taking words, it does not do to such a line: there is no comment to cut off, and
nothing to trim but the space in front of the next word. A word that others follow may even
end in a blank character, for trimming reaches the end of the line only.
-/

set_option autoImplicit false

namespace Jack.Machine

/-! ## Words -/

/-- A text that reading a line takes as one word. -/
structure IsWord (word : Bytes) : Prop where
  nonempty : word ≠ []
  tight : Text.IsTight word
  unbroken : ∀ byte ∈ word, Text.isAsciiBlank byte = false
  uncommented : ¬ utf8 "//" <:+: word

/-- A text that reading a line takes as one word if another one follows. -/
structure IsStem (word : Bytes) : Prop where
  nonempty : word ≠ []
  starts : Text.StartsVisible word
  unbroken : ∀ byte ∈ word, Text.isAsciiBlank byte = false
  uncommented : ¬ utf8 "//" <:+: word

theorem IsWord.isStem {word : Bytes} (isWord : IsWord word) : IsStem word :=
  ⟨isWord.nonempty, isWord.tight.starts, isWord.unbroken, isWord.uncommented⟩

/-- Texts that reading takes as the words of one line. -/
structure AreWords (words : List Bytes) : Prop where
  stems : ∀ word ∈ words, IsStem word
  ends : ∀ word ∈ words.getLast?, Text.EndsVisible word

theorem areWords_of_isWord {words : List Bytes} (all : ∀ word ∈ words, IsWord word) :
    AreWords words where
  stems := fun word member => (all word member).isStem
  ends := fun word last => (all word (List.mem_of_getLast? last)).tight.ends

/-- Only the last word of a line must not end in a blank character that is not ASCII. -/
theorem areWords_cons_iff {word next : Bytes} {words : List Bytes} :
    AreWords (word :: next :: words) ↔ IsStem word ∧ AreWords (next :: words) := by
  constructor
  · rintro ⟨stems, ends⟩
    obtain ⟨stem, stems⟩ := List.forall_mem_cons.mp stems
    exact ⟨stem, stems, by rwa [List.getLast?_cons_cons] at ends⟩
  · rintro ⟨stem, stems, ends⟩
    exact ⟨List.forall_mem_cons.mpr ⟨stem, stems⟩, by rwa [List.getLast?_cons_cons]⟩

def spaced (words : List Bytes) : Bytes :=
  words.flatMap fun word => ascii ' ' :: word

theorem spaced_cons (word : Bytes) (words : List Bytes) :
    spaced (word :: words) = ascii ' ' :: (word ++ spaced words) :=
  List.flatMap_cons

/-- What words on a line have in common with a word. -/
structure IsLine (line : Bytes) : Prop where
  nonempty : line ≠ []
  tight : Text.IsTight line
  uncommented : ¬ utf8 "//" <:+: line

/-- Words with spaces between them make a line. -/
theorem isLine_words {word : Bytes} {words : List Bytes} (areWords : AreWords (word :: words)) :
    IsLine (word ++ spaced words) := by
  induction words generalizing word with
  | nil =>
      have stem := areWords.stems word (by simp)
      rw [spaced, List.flatMap_nil, List.append_nil]
      exact ⟨stem.nonempty, ⟨stem.starts, areWords.ends word (by simp)⟩, stem.uncommented⟩
  | cons next rest inductionHypothesis =>
      obtain ⟨stem, restAreWords⟩ := areWords_cons_iff.mp areWords
      have behind := inductionHypothesis restAreWords
      rw [spaced_cons]
      refine ⟨by simp, ?_, ?_⟩
      · exact Text.isTight_append_cons stem.starts behind.tight.ends stem.nonempty
          behind.nonempty (by decide)
      · intro commented
        rcases Bytes.infix_or_of_infix_append_cons (by decide) commented with inWord | inRest
        · exact stem.uncommented inWord
        · exact behind.uncommented inRest

/-- Visible ASCII other than the slash. -/
def isPlain (byte : UInt8) : Bool :=
  33 ≤ byte && byte < 0x80 && byte != ascii '/'

theorem isPlain_iff {byte : UInt8} :
    isPlain byte = true ↔ 33 ≤ byte.toNat ∧ byte.toNat < 0x80 ∧ byte.toNat ≠ 47 := by
  simp only [isPlain, Bool.and_eq_true, decide_eq_true_eq, bne_iff_ne, ne_eq, ← UInt8.toNat_inj,
    UInt8.le_iff_toNat_le, UInt8.lt_iff_toNat_lt, UInt8.reduceToNat, and_assoc]
  rfl

theorem not_isAsciiBlank {byte : UInt8} (plain : isPlain byte = true) :
    Text.isAsciiBlank byte = false := by
  rw [isPlain_iff] at plain
  rw [← Bool.not_eq_true]
  simp only [Text.isAsciiBlank, Bool.or_eq_true, Bool.and_eq_true, decide_eq_true_eq,
    beq_iff_eq, ← UInt8.toNat_inj, UInt8.le_iff_toNat_le, UInt8.reduceToNat]
  omega

structure IsPlainWord (word : Bytes) : Prop where
  nonempty : word ≠ []
  allPlain : word.all isPlain = true

theorem IsPlainWord.plain {word : Bytes} (isPlainWord : IsPlainWord word) :
    ∀ byte ∈ word, isPlain byte = true :=
  List.all_eq_true.mp isPlainWord.allPlain

/-- A plain word is read as one word, whatever comes behind it. -/
theorem IsPlainWord.isWord {word : Bytes} (isPlainWord : IsPlainWord word) : IsWord word where
  nonempty := isPlainWord.nonempty
  tight := by
    refine Text.isTight_of_ascii (fun byte member => ?_) (fun byte member => ?_)
    · exact (isPlain_iff.mp (isPlainWord.plain byte member)).2.1
    · exact not_isAsciiBlank (isPlainWord.plain byte member)
  unbroken := fun byte member => not_isAsciiBlank (isPlainWord.plain byte member)
  uncommented := by
    intro commented
    have slash : ascii '/' ∈ word := commented.subset (by decide)
    exact absurd (isPlainWord.plain _ slash) (by decide)

theorem isPlain_of_isDigit {byte : UInt8} (digit : Numeral.isDigit byte = true) :
    isPlain byte = true := by
  simp only [Numeral.isDigit, Bool.and_eq_true, decide_eq_true_eq, UInt8.le_iff_toNat_le] at digit
  change 48 ≤ byte.toNat ∧ byte.toNat ≤ 57 at digit
  rw [isPlain_iff]
  omega

theorem isPlainWord_signed (number : Int) : IsPlainWord (Numeral.signed number) := by
  refine ⟨Numeral.signed_ne_nil number, List.all_eq_true.mpr ?_⟩
  intro byte member
  rcases Numeral.mem_signed member with digit | rfl
  · exact isPlain_of_isDigit digit
  · decide

theorem isPlainWord_commandName (command : Command) : IsPlainWord (utf8 command.name) := by
  cases command with
  | arithmetic operation => cases operation <;> exact ⟨by decide, by decide⟩
  | push | pop | label | goto | ifGoto | function | call | ret => exact ⟨by decide, by decide⟩

theorem isPlainWord_segmentName (segment : Segment) : IsPlainWord (utf8 segment.name) := by
  cases segment <;> exact ⟨by decide, by decide⟩

namespace Line

variable {word : Bytes} {words : List Bytes}

theorem takeWord_nil : takeWord [] = ([], []) := by
  rw [takeWord, Text.trim, Utf8.pieces_nil]
  rfl

/-- The first word is taken up to the space behind it. -/
theorem takeWord_append_spaced (areWords : AreWords (word :: words)) :
    takeWord (word ++ spaced words) = (word, spaced words) := by
  have stem := areWords.stems word (by simp)
  have inside : ∀ byte ∈ word, inWord byte = true := by
    intro byte member
    rw [inWord, stem.unbroken byte member]
    rfl
  have boundary : ∀ byte ∈ (spaced words).head?, inWord byte = false := by
    cases words with
    | nil => simp [spaced]
    | cons next rest =>
        rw [spaced_cons]
        simp only [List.head?_cons, Option.mem_def, Option.some.injEq, forall_eq']
        decide
  rw [takeWord, Text.trim_of_isTight (isLine_words areWords).tight]
  exact Prod.ext (Bytes.takeWhile_append_of_boundary inside boundary)
    (Bytes.dropWhile_append_of_boundary inside boundary)

theorem takeWord_spaced (areWords : AreWords (word :: words)) :
    takeWord (spaced (word :: words)) = (word, spaced words) := by
  rw [← takeWord_append_spaced areWords, spaced_cons, takeWord, takeWord,
    Text.trim_blank_cons (by decide)]

/-- An operand is read from the word that stands next. -/
theorem operand_spaced {Value : Type} {read? : Bytes → Option Value} {value : Value}
    (areWords : AreWords (word :: words)) (spells : read? word = some value) :
    operand read? (spaced (word :: words)) = .ok (value, spaced words) :=
  operand_eq_ok_iff.mpr ⟨word, takeWord_spaced areWords, spells⟩

theorem command?_name (command : Command) : command? (utf8 command.name) = some command := by
  have all : ∀ member ∈ Command.all, command? (utf8 member.name) = some member := by
    decide +kernel
  apply all
  cases command with
  | arithmetic operation => cases operation <;> decide
  | push | pop | label | goto | ifGoto | function | call | ret => decide

theorem segment?_name (segment : Segment) : segment? (utf8 segment.name) = some segment := by
  have all : ∀ member ∈ Segment.all, segment? (utf8 member.name) = some member := by
    decide +kernel
  exact all segment (by cases segment <;> decide)

/-- A name is any word that is not empty. -/
theorem name?_of_isStem (stem : IsStem word) : name? word = some word :=
  name?_eq_some_iff.mpr ⟨stem.nonempty, rfl⟩

end Line

/-! ## Instructions -/

namespace Instruction

/-- Whether all of an instruction is in its written form: names are words, numbers are of a
machine word, and what is not written is 0. -/
def IsWritable : Instruction → Prop
  | push _ index | pop _ index => Numeral.InWord index
  | label name count | goto name count | ifGoto name count => IsWord name ∧ count = 0
  | function name count | call name count => IsWord name ∧ Numeral.InWord count
  | arithmetic _ | ret => True

/-- The name that an instruction is written with. -/
def name? : Instruction → Option Bytes
  | label name _ | goto name _ | ifGoto name _ | function name _ | call name _ => some name
  | push .. | pop .. | arithmetic _ | ret => none

variable {instruction : Instruction}

/-- Whether an instruction is told by its written form. A name that a number follows may end in
a blank character. -/
def IsTold : Instruction → Prop
  | push _ index | pop _ index => Numeral.InWord index
  | label name count | goto name count | ifGoto name count => IsWord name ∧ count = 0
  | function name count | call name count => IsStem name ∧ Numeral.InWord count
  | arithmetic _ | ret => True

theorem IsWritable.isTold (writable : instruction.IsWritable) : instruction.IsTold := by
  cases instruction with
  | function | call => exact ⟨writable.1.isStem, writable.2⟩
  | push | pop | label | goto | ifGoto | arithmetic | ret => exact writable

/-- The words of an instruction are the words of its line. -/
theorem IsTold.areWords (told : instruction.IsTold) :
    AreWords (utf8 instruction.command.name :: instruction.operands) := by
  have isCommand := (isPlainWord_commandName instruction.command).isWord
  cases instruction with
  | push segment index | pop segment index =>
      have isSegment := (isPlainWord_segmentName segment).isWord
      have isNumber := (isPlainWord_signed index).isWord
      exact areWords_of_isWord (by simpa [operands] using ⟨isCommand, isSegment, isNumber⟩)
  | label name count | goto name count | ifGoto name count =>
      exact areWords_of_isWord (by simpa [operands] using ⟨isCommand, told.1⟩)
  | function name count | call name count =>
      have isNumber := (isPlainWord_signed count).isWord
      have areNumber : AreWords [Numeral.signed count] :=
        areWords_of_isWord (by simpa using isNumber)
      exact areWords_cons_iff.mpr ⟨isCommand.isStem, areWords_cons_iff.mpr ⟨told.1, areNumber⟩⟩
  | arithmetic | ret => exact areWords_of_isWord (by simpa [operands] using isCommand)

/-- The operands of an instruction are read from its own ones. -/
theorem IsTold.takesOperands (told : instruction.IsTold) :
    Line.TakesOperands instruction.command (spaced instruction.operands) instruction [] := by
  have areWords := told.areWords
  cases instruction with
  | push segment index | pop segment index =>
      have areOperands := (areWords_cons_iff.mp areWords).2
      have first := Line.operand_spaced areOperands (Line.segment?_name segment)
      have second := Line.operand_spaced (areWords_cons_iff.mp areOperands).2
        (Numeral.readInteger?_signed told)
      constructor <;> assumption
  | label name count | goto name count | ifGoto name count =>
      obtain ⟨isWord, rfl⟩ := told
      have areOperands := (areWords_cons_iff.mp areWords).2
      have only := Line.operand_spaced areOperands (Line.name?_of_isStem isWord.isStem)
      constructor
      assumption
  | function name count | call name count =>
      have areOperands := (areWords_cons_iff.mp areWords).2
      have first := Line.operand_spaced areOperands (Line.name?_of_isStem told.1)
      have second := Line.operand_spaced (areWords_cons_iff.mp areOperands).2
        (Numeral.readInteger?_signed told.2)
      constructor <;> assumption
  | arithmetic operation => exact .arithmetic operation []
  | ret => exact .ret []

/-- The line of an instruction is read as the instruction. -/
theorem IsTold.read_text (told : instruction.IsTold) (sound : instruction.flaw? = none) :
    Line.read instruction.text = .ok (some instruction) := by
  have areWords := told.areWords
  have text_eq : instruction.text =
      utf8 instruction.command.name ++ spaced instruction.operands := rfl
  have whole := Bytes.before_of_absent (isLine_words areWords).uncommented
  have taken := Line.takeWord_append_spaced areWords
  rw [← whole, ← text_eq] at taken
  have nonempty := (isPlainWord_commandName instruction.command).nonempty
  have ended : (Line.takeWord []).1 = [] := by rw [Line.takeWord_nil]
  exact Line.read_eq_ok_some_iff.mpr
    ⟨taken, nonempty, Line.command?_name _, told.takesOperands, ended, sound⟩

/-- A line break would be a blank in a word. -/
theorem IsTold.lineBreak_not_mem_text (told : instruction.IsTold) :
    Bytes.lineBreak ∉ instruction.text := by
  have unbroken {word : Bytes} (stem : IsStem word) : Bytes.lineBreak ∉ word := by
    intro member
    exact absurd (stem.unbroken _ member) (by decide)
  obtain ⟨isCommand, areOperands⟩ := List.forall_mem_cons.mp told.areWords.stems
  simp only [text, List.mem_append, List.mem_flatMap, List.mem_cons, not_or, not_exists, not_and]
  refine ⟨unbroken isCommand, fun word member => ⟨by decide, ?_⟩⟩
  exact unbroken (areOperands word member)

/-- An instruction that is written so that it can be read, and has no flaw. -/
structure ReadsBack (instruction : Instruction) : Prop where
  writable : instruction.IsWritable
  sound : instruction.flaw? = none

/-- An instruction that reads back and is all of visible ASCII. -/
structure IsPlain (instruction : Instruction) : Prop extends ReadsBack instruction where
  named : ∀ name ∈ instruction.name?, IsPlainWord name

theorem ReadsBack.isPlain_of_unnamed (readsBack : instruction.ReadsBack)
    (unnamed : instruction.name? = none) : instruction.IsPlain :=
  ⟨readsBack, by simp [unnamed]⟩

/-- To be plain, an instruction that reads back needs a plain name and nothing else. -/
theorem ReadsBack.isPlain_of_named {name : Bytes} (readsBack : instruction.ReadsBack)
    (isName : instruction.name? = some name) (plain : IsPlainWord name) : instruction.IsPlain :=
  ⟨readsBack, by simpa [isName] using plain⟩

theorem IsPlain.isPlainWord_of_mem_operands (plain : instruction.IsPlain) :
    ∀ word ∈ instruction.operands, IsPlainWord word := by
  have named := plain.named
  cases instruction with
  | push segment index | pop segment index =>
      simp [operands, isPlainWord_segmentName, isPlainWord_signed]
  | label name count | goto name count | ifGoto name count => simpa [operands] using named name rfl
  | function name count | call name count =>
      simpa [operands, isPlainWord_signed] using named name rfl
  | arithmetic operation => simp [operands]
  | ret => simp [operands]

/-- The text of a plain instruction is ASCII. -/
theorem IsPlain.ascii_text (plain : instruction.IsPlain) :
    ∀ byte ∈ instruction.text, byte.toNat < 0x80 := by
  have ascii {word : Bytes} (isPlainWord : IsPlainWord word) : ∀ byte ∈ word, byte.toNat < 0x80 :=
    fun byte member => (isPlain_iff.mp (isPlainWord.plain byte member)).2.1
  have areWords := plain.isPlainWord_of_mem_operands
  intro byte member
  simp only [text, List.mem_append, List.mem_flatMap, List.mem_cons] at member
  rcases member with inCommand | ⟨word, inOperands, rfl | inWord⟩
  · exact ascii (isPlainWord_commandName _) byte inCommand
  · decide
  · exact ascii (areWords word inOperands) byte inWord

end Instruction

/-! ## Listings -/

theorem read_blank_line : Line.read [] = .ok none := by
  have nothing : Bytes.before (utf8 "//") [] = [] := by decide
  rw [Line.read_eq_ok_none_iff, nothing, Line.takeWord_nil]

/-- The lines of a listing are those of its instructions, and a blank one behind the last
line break. -/
theorem lines_listing {code : List Instruction}
    (told : ∀ instruction ∈ code, instruction.IsTold) :
    Bytes.lines (listing code) = lines code ++ [[]] := by
  induction code with
  | nil => rfl
  | cons instruction rest inductionHypothesis =>
      obtain ⟨firstTold, restTold⟩ := List.forall_mem_cons.mp told
      have behind := inductionHypothesis restTold
      have unbroken := firstTold.lineBreak_not_mem_text
      have listing_eq : listing (instruction :: rest) =
          instruction.text ++ Bytes.lineBreak :: listing rest := by
        simp [listing, lines, joinLines]
      rw [Bytes.lines] at behind ⊢
      rw [listing_eq, Bytes.split_append_cons, Bytes.split_of_not_mem unbroken, behind]
      rfl

/-- Reading a listing gives the code back that it was written for, if the code is told by it. -/
theorem readListing_listing_of_isTold {code : List Instruction}
    (told : ∀ instruction ∈ code, instruction.IsTold)
    (sound : ∀ instruction ∈ code, instruction.flaw? = none) :
    readListing (listing code) = .ok code := by
  rw [readListing_eq_ok_iff, lines_listing told]
  induction code with
  | nil => exact .blank read_blank_line .nil
  | cons instruction rest inductionHypothesis =>
      obtain ⟨firstTold, restTold⟩ := List.forall_mem_cons.mp told
      obtain ⟨firstSound, restSound⟩ := List.forall_mem_cons.mp sound
      exact .instruction (firstTold.read_text firstSound) (inductionHypothesis restTold restSound)

/-- Reading a listing gives the code back that it was written for. -/
theorem readListing_listing {code : List Instruction}
    (readsBack : ∀ instruction ∈ code, instruction.ReadsBack) :
    readListing (listing code) = .ok code :=
  readListing_listing_of_isTold
    (fun instruction member => (readsBack instruction member).writable.isTold)
    fun instruction member => (readsBack instruction member).sound

/-! ## Legible code -/

/-- A name, empty or not, that has nothing in it or at its ends that a line takes for something
else. Any other bytes will do, whether they spell characters or not. -/
structure IsName (name : Bytes) : Prop where
  unbroken : ∀ byte ∈ name, Text.isAsciiBlank byte = false
  uncommented : ¬ utf8 "//" <:+: name
  visible : ∀ character, Text.isBlank character = true →
    ¬ String.utf8EncodeChar character <+: name ∧ ¬ String.utf8EncodeChar character <:+ name

/-- A name that can be told from what is around it: no ASCII blank, no comment mark, and tight. -/
theorem isName_iff {name : Bytes} :
    IsName name ↔ name.all (!Text.isAsciiBlank ·) = true ∧
      Bytes.offsetOf? (utf8 "//") name = none ∧ Text.IsTight name := by
  rw [Bytes.offsetOf?_eq_none_iff, Text.isTight_iff]
  constructor
  · intro isName
    exact ⟨by simpa using isName.unbroken, isName.uncommented, isName.visible⟩
  · rintro ⟨unbroken, uncommented, visible⟩
    exact ⟨by simpa using unbroken, uncommented, visible⟩

instance (name : Bytes) : Decidable (IsName name) :=
  decidable_of_iff _ isName_iff.symm

theorem IsName.isWord {name : Bytes} (isName : IsName name) (nonempty : name ≠ []) :
    IsWord name where
  nonempty := nonempty
  tight := Text.isTight_iff.mpr isName.visible
  unbroken := isName.unbroken
  uncommented := isName.uncommented

namespace Instruction

def number : Instruction → Int
  | push _ number | pop _ number | label _ number | goto _ number | ifGoto _ number
  | function _ number | call _ number => number
  | arithmetic _ | ret => 0

/-- The part of an instruction that is not written. -/
def unwritten : Instruction → Int
  | label _ count | goto _ count | ifGoto _ count => count
  | push .. | pop .. | arithmetic _ | function .. | call .. | ret => 0

/-- A valid instruction of which the written form tells everything. -/
structure IsLegible (instruction : Instruction) : Prop where
  sound : instruction.flaw? = none
  unused : instruction.unwritten = 0
  inWord : Numeral.InWord instruction.number
  named : ∀ name ∈ instruction.name?, IsName name

instance (instruction : Instruction) : Decidable instruction.IsLegible :=
  decidable_of_iff
    (instruction.flaw? = none ∧ instruction.unwritten = 0 ∧
      Numeral.InWord instruction.number ∧ ∀ name ∈ instruction.name?, IsName name)
    ⟨fun parts => ⟨parts.1, parts.2.1, parts.2.2.1, parts.2.2.2⟩,
      fun legible => ⟨legible.sound, legible.unused, legible.inWord, legible.named⟩⟩

variable {instruction : Instruction}

theorem nonempty_of_nameFlaw? {name : Bytes} {count : Int} (sound : nameFlaw? name count = none) :
    name ≠ [] := by
  intro empty
  simp [nameFlaw?, empty] at sound

/-- The conditions on legible instructions are enough to read them back. -/
theorem IsLegible.readsBack (legible : instruction.IsLegible) : instruction.ReadsBack := by
  refine ⟨?_, legible.sound⟩
  have sound := legible.sound
  have named := legible.named
  cases instruction with
  | push | pop => exact legible.inWord
  | label name count | goto name count | ifGoto name count =>
      exact ⟨(named name rfl).isWord (nonempty_of_nameFlaw? sound), legible.unused⟩
  | function name count | call name count =>
      exact ⟨(named name rfl).isWord (nonempty_of_nameFlaw? sound), legible.inWord⟩
  | arithmetic | ret => trivial

end Instruction

/-- Code that is valid and legible is what its listing reads back as. -/
theorem legible_code_reads_back {code : List Instruction}
    (legible : ∀ instruction ∈ code, instruction.IsLegible) :
    readListing (listing code) = .ok code := by
  apply readListing_listing
  intro instruction member
  exact (legible instruction member).readsBack

/-- Names that spell a command or a number, that hold a slash at each end, a blank character
or stray bytes; and the largest numbers. -/
def oddCode : List Instruction :=
  [.push .constant 32767, .pop .local 9223372036854775807, .label (utf8 "push"),
    .goto (utf8 "/a/"), .ifGoto [0xC2, 0xFF], .function (utf8 "-0") 0,
    .call (utf8 "x\u00a0y") 9223372036854775807, .arithmetic .not, .ret]

/-- Instructions with odd names and extreme indexes. -/
theorem odd_code_reads_back :
    (∀ instruction ∈ oddCode, instruction.IsLegible) ∧
      readListing (listing oddCode) = .ok oddCode := by
  have legible : ∀ instruction ∈ oddCode, instruction.IsLegible := by
    decide +kernel
  exact ⟨legible, legible_code_reads_back legible⟩

end Jack.Machine
