import Jack.Machine.Listing
import Jack.Proofs.Text.Blank
import Jack.Proofs.Text.Bytes

/-!
Contract: how a reader goes through lines.

Owns: what taking a word from a line gives, how an instruction stands on a line that is read,
that the line break behind a line does not matter, which code lines stand for, the runs of a
reader up to the first line that is wrong, and reading a text in pieces.

Does not own: which words there are on a line, and lines that were written for an instruction.

A run over lines that can all be read adds their code and counts them, so it goes on over
further lines from there. Every run is of this kind up to its end or to a line that is wrong.
-/

set_option autoImplicit false

namespace Jack.Machine

/-! ## Lines -/

namespace Line

variable {line word rest : Bytes}

/-- Taking a word: what trimming leaves of the line is the word and the rest. The word is as
long as it can be, and it is empty on a blank line only. -/
structure TakesWord (line word rest : Bytes) : Prop where
  trimmed : Text.trim line = word ++ rest
  unbroken : ∀ byte ∈ word, Text.isAsciiBlank byte = false
  boundary : ∀ byte ∈ rest.head?, Text.isAsciiBlank byte = true
  blank : word = [] → rest = []

/-- What is taken from a line, said without how it is found. -/
theorem takesWord_of_takeWord (taken : takeWord line = (word, rest)) :
    TakesWord line word rest := by
  have outside {byte : UInt8} : inWord byte = !Text.isAsciiBlank byte := rfl
  rw [takeWord, Prod.mk.injEq] at taken
  obtain ⟨rfl, rfl⟩ := taken
  have boundary : ∀ byte ∈ ((Text.trim line).dropWhile inWord).head?,
      Text.isAsciiBlank byte = true := by
    intro byte first
    simpa [outside] using Bytes.not_accepts_head_dropWhile inWord (Text.trim line) byte first
  refine ⟨List.takeWhile_append_dropWhile.symm, ?_, boundary, ?_⟩
  · intro byte member
    simpa [outside] using List.mem_takeWhile_imp member
  · intro empty
    -- A rest would start with a blank, but it would be all of a text that is tight.
    have whole : (Text.trim line).dropWhile inWord = Text.trim line := by
      have parts := List.takeWhile_append_dropWhile (p := inWord) (l := Text.trim line)
      rwa [empty, List.nil_append] at parts
    rw [whole] at boundary ⊢
    have visible := (Text.isTight_trim line).not_isAsciiBlank_head
    cases trimmed : Text.trim line with
    | nil => rfl
    | cons byte others =>
        rw [trimmed] at boundary visible
        exact absurd (boundary byte rfl) (by simp [visible byte rfl])

theorem takesWord_takeWord (line : Bytes) :
    TakesWord line (takeWord line).1 (takeWord line).2 :=
  takesWord_of_takeWord rfl

theorem TakesWord.word_within (taken : TakesWord line word rest) : word <:+: line :=
  (List.prefix_append word rest).isInfix.trans (taken.trimmed ▸ Text.trim_within line)

theorem TakesWord.rest_within (taken : TakesWord line word rest) : rest <:+: line :=
  (List.suffix_append word rest).isInfix.trans (taken.trimmed ▸ Text.trim_within line)

/-! ## What is read from a line -/

section Results

variable {Value Other : Type}

/-- A line is read step by step, and each step has to succeed. -/
theorem bind_eq_ok_iff {first : Except LineFault Value} {next : Value → Except LineFault Other}
    {other : Other} :
    first >>= next = .ok other ↔ ∃ value, first = .ok value ∧ next value = .ok other := by
  cases first with
  | error fault => simp [bind, Except.bind]
  | ok value => simp [bind, Except.bind]

theorem operand_eq_ok_iff {read? : Bytes → Option Value} {value : Value} :
    operand read? line = .ok (value, rest) ↔
      ∃ word, takeWord line = (word, rest) ∧ read? word = some value := by
  rw [operand]
  obtain ⟨word, left⟩ := takeWord line
  cases spelled : read? word with
  | none =>
      refine iff_of_false (by simp [spelled]) ?_
      rintro ⟨other, same, found⟩
      obtain ⟨rfl, rfl⟩ := Prod.mk.inj same
      rw [spelled] at found
      cases found
  | some found =>
      simp only [spelled, Except.ok.injEq, Prod.mk.injEq]
      constructor
      · rintro ⟨rfl, rfl⟩
        exact ⟨word, ⟨rfl, rfl⟩, spelled⟩
      · rintro ⟨_, ⟨rfl, rfl⟩, same⟩
        rw [spelled, Option.some.injEq] at same
        exact ⟨same, rfl⟩

end Results

theorem name?_eq_some_iff {name : Bytes} : name? word = some name ↔ word ≠ [] ∧ word = name := by
  rw [name?, Option.ite_none_left_eq_some, Option.some.injEq, List.isEmpty_iff]

/-- The operands that a command takes from a line, one behind the other. -/
inductive TakesOperands : Command → Bytes → Instruction → Bytes → Prop where
  | push {line middle rest : Bytes} {segment : Segment} {index : Int}
      (first : operand segment? line = .ok (segment, middle))
      (second : operand Numeral.readInteger? middle = .ok (index, rest)) :
      TakesOperands .push line (.push segment index) rest
  | pop {line middle rest : Bytes} {segment : Segment} {index : Int}
      (first : operand segment? line = .ok (segment, middle))
      (second : operand Numeral.readInteger? middle = .ok (index, rest)) :
      TakesOperands .pop line (.pop segment index) rest
  | arithmetic (operation : Operation) (line : Bytes) :
      TakesOperands (.arithmetic operation) line (.arithmetic operation) line
  | label {line rest name : Bytes} (only : operand name? line = .ok (name, rest)) :
      TakesOperands .label line (.label name) rest
  | goto {line rest name : Bytes} (only : operand name? line = .ok (name, rest)) :
      TakesOperands .goto line (.goto name) rest
  | ifGoto {line rest name : Bytes} (only : operand name? line = .ok (name, rest)) :
      TakesOperands .ifGoto line (.ifGoto name) rest
  | function {line middle rest name : Bytes} {count : Int}
      (first : operand name? line = .ok (name, middle))
      (second : operand Numeral.readInteger? middle = .ok (count, rest)) :
      TakesOperands .function line (.function name count) rest
  | call {line middle rest name : Bytes} {count : Int}
      (first : operand name? line = .ok (name, middle))
      (second : operand Numeral.readInteger? middle = .ok (count, rest)) :
      TakesOperands .call line (.call name count) rest
  | ret (line : Bytes) : TakesOperands .ret line .ret line

/-- What the operands of a command are, for each form of instruction. -/
theorem operands_eq_ok_iff {command : Command} {instruction : Instruction} :
    operands command line = .ok (instruction, rest) ↔
      TakesOperands command line instruction rest := by
  constructor
  · intro taken
    cases command with
    | push | pop | function | call =>
        simp only [operands, bind_eq_ok_iff, Prod.exists] at taken
        obtain ⟨_, _, first, _, _, second, same⟩ := taken
        cases same
        constructor <;> assumption
    | label | goto | ifGoto =>
        simp only [operands, bind_eq_ok_iff, Prod.exists] at taken
        obtain ⟨_, _, only, same⟩ := taken
        cases same
        constructor
        assumption
    | arithmetic operation =>
        cases taken
        exact .arithmetic operation line
    | ret =>
        cases taken
        exact .ret line
  · intro taken
    cases taken with
    | push first second | pop first second | function first second | call first second =>
        simp only [operands, first, second, bind, Except.bind]
        rfl
    | label only | goto only | ifGoto only =>
        simp only [operands, only, bind, Except.bind]
        rfl
    | arithmetic | ret => rfl

/-- What is made of an instruction in front of the rest of its line: nothing may follow it. -/
def complete (instruction : Instruction) (rest : Bytes) :
    Except LineFault (Option Instruction) :=
  if (takeWord rest).1 = [] then
    match instruction.flaw? with
    | some flaw => .error (.invalid instruction flaw)
    | none => .ok (some instruction)
  else .error (.unexpected (takeWord rest).1)

/-- Behind its operands, an instruction must have no more words and no flaw. -/
theorem complete_eq_ok_iff {instruction : Instruction} {outcome : Option Instruction} :
    complete instruction rest = .ok outcome ↔
      (takeWord rest).1 = [] ∧ instruction.flaw? = none ∧ outcome = some instruction := by
  rw [complete]
  split_ifs with ended
  · cases instruction.flaw? with
    | some flaw => simp
    | none => simp [ended, eq_comm]
  · simp [ended]

section Cases

variable (taken : takeWord (Bytes.before (utf8 "//") line) = (word, rest))

include taken

theorem read_of_blank (blank : word = []) : read line = .ok none := by
  rw [read, taken, blank]
  rfl

theorem read_of_unknown (nonempty : word ≠ []) (unknown : command? word = none) :
    read line = .error (.unexpected word) := by
  have isWord : word.isEmpty = false := by simpa using nonempty
  rw [read, taken]
  simp only [isWord, Bool.false_eq_true, if_false, unknown]
  rfl

theorem read_of_command {command : Command} (nonempty : word ≠ [])
    (named : command? word = some command) :
    read line = operands command rest >>= fun result => complete result.1 result.2 := by
  have isWord : word.isEmpty = false := by simpa using nonempty
  rw [read, taken]
  simp only [isWord, Bool.false_eq_true, if_false, named]
  refine congrArg (operands command rest >>= ·) (funext fun result => ?_)
  obtain ⟨instruction, left⟩ := result
  rw [complete]
  by_cases ended : (takeWord left).1 = []
  · simp only [ended, List.isEmpty_nil, Bool.not_true, Bool.false_eq_true, if_false, if_true]
    rfl
  · have goesOn : (takeWord left).1.isEmpty = false := by simpa using ended
    simp only [goesOn, Bool.not_false, if_true, if_neg ended]
    rfl

end Cases

/-- How an instruction stands on a line. -/
inductive Carries (line : Bytes) (instruction : Instruction) : Prop where
  | mk {word rest left : Bytes} {command : Command}
      (taken : takeWord (Bytes.before (utf8 "//") line) = (word, rest))
      (nonempty : word ≠ []) (named : command? word = some command)
      (operands : TakesOperands command rest instruction left)
      (ended : (takeWord left).1 = []) (sound : instruction.flaw? = none)

/-- A line carries an instruction: its words say so, and they are all it has. -/
theorem read_eq_ok_some_iff {instruction : Instruction} :
    read line = .ok (some instruction) ↔ Carries line instruction := by
  constructor
  · intro accepted
    rcases taken : takeWord (Bytes.before (utf8 "//") line) with ⟨word, rest⟩
    by_cases blank : word = []
    · rw [read_of_blank taken blank] at accepted
      cases accepted
    · cases named : command? word with
      | none =>
          rw [read_of_unknown taken blank named] at accepted
          cases accepted
      | some command =>
          simp only [read_of_command taken blank named, bind_eq_ok_iff, Prod.exists,
            operands_eq_ok_iff, complete_eq_ok_iff, Option.some.injEq] at accepted
          obtain ⟨_, left, operands, ended, sound, rfl⟩ := accepted
          exact ⟨taken, blank, named, operands, ended, sound⟩
  · rintro ⟨taken, nonempty, named, operands, ended, sound⟩
    rw [read_of_command taken nonempty named, bind_eq_ok_iff]
    exact ⟨_, operands_eq_ok_iff.mpr operands, complete_eq_ok_iff.mpr ⟨ended, sound, rfl⟩⟩

/-- A line is skipped if nothing but blanks stands in front of its comment. -/
theorem read_eq_ok_none_iff :
    read line = .ok none ↔ (takeWord (Bytes.before (utf8 "//") line)).1 = [] := by
  rcases taken : takeWord (Bytes.before (utf8 "//") line) with ⟨word, rest⟩
  refine ⟨fun accepted => ?_, read_of_blank taken⟩
  by_contra nonempty
  cases named : command? word with
  | none =>
      rw [read_of_unknown taken nonempty named] at accepted
      cases accepted
  | some command =>
      simp only [read_of_command taken nonempty named, bind_eq_ok_iff, complete_eq_ok_iff,
        reduceCtorEq, and_false, exists_false] at accepted

/-- The line break that ends a line is a blank at its end, or in its comment. -/
theorem read_append_lineBreak (line : Bytes) :
    read (line ++ [Bytes.lineBreak]) = read line := by
  have words : takeWord (Bytes.before (utf8 "//") (line ++ [Bytes.lineBreak])) =
      takeWord (Bytes.before (utf8 "//") line) := by
    by_cases commented : utf8 "//" <:+: line
    · rw [((Bytes.isBefore_of_occurs commented).append _).before_eq]
    · have uncommented : ¬ utf8 "//" <:+: line ++ [Bytes.lineBreak] := by
        intro occurs
        rcases Bytes.infix_or_of_infix_append_cons (by decide) occurs with inLine | behind
        · exact commented inLine
        · exact absurd (List.infix_nil.mp behind) (by decide)
      rw [Bytes.before_of_absent uncommented, Bytes.before_of_absent commented, takeWord,
        takeWord, Text.trim_append_blank (by decide)]
  rw [read, read, words]

end Line

/-! ## Runs -/

/-- The code that lines stand for, all of which can be read. -/
inductive Transcribes : List Bytes → List Instruction → Prop where
  | nil : Transcribes [] []
  | blank {line : Bytes} {rest : List Bytes} {code : List Instruction}
      (read : Line.read line = .ok none) (behind : Transcribes rest code) :
      Transcribes (line :: rest) code
  | instruction {line : Bytes} {rest : List Bytes} {instruction : Instruction}
      {code : List Instruction} (read : Line.read line = .ok (some instruction))
      (behind : Transcribes rest code) : Transcribes (line :: rest) (instruction :: code)

/-- Either all lines can be read, or there is a first one that is wrong. -/
theorem transcribes_or_stops (lines : List Bytes) :
    (∃ code, Transcribes lines code) ∨
      ∃ front line back code fault, lines = front ++ line :: back ∧ Transcribes front code ∧
        Line.read line = .error fault := by
  induction lines with
  | nil => exact .inl ⟨[], .nil⟩
  | cons line rest inductionHypothesis =>
      cases outcome : Line.read line with
      | error fault => exact .inr ⟨[], line, rest, [], fault, rfl, .nil, outcome⟩
      | ok read =>
          have extended {lines : List Bytes} {code : List Instruction}
              (behind : Transcribes lines code) : ∃ code, Transcribes (line :: lines) code := by
            cases read with
            | none => exact ⟨code, .blank outcome behind⟩
            | some instruction => exact ⟨instruction :: code, .instruction outcome behind⟩
          rcases inductionHypothesis with ⟨code, behind⟩ |
            ⟨front, wrongLine, back, code, fault, rfl, sound, wrong⟩
          · exact .inl (extended behind)
          · obtain ⟨longer, sound⟩ := extended sound
            exact .inr ⟨line :: front, wrongLine, back, longer, fault, rfl, sound, wrong⟩

namespace Reader

variable {front : List Bytes} {code : List Instruction}

/-- The reader behind lines that can be read. -/
def behind (reader : Reader) (lines : List Bytes) (code : List Instruction) : Reader :=
  { line := reader.line + lines.length, code := reader.code ++ code }

/-- A run over lines that can be read goes on behind them. -/
theorem takeLines_append (transcribes : Transcribes front code) (reader : Reader)
    (back : List Bytes) :
    reader.takeLines (front ++ back) = (reader.behind front code).takeLines back := by
  induction transcribes generalizing reader with
  | nil => simp [behind]
  | blank read _ inductionHypothesis =>
      rw [List.cons_append, takeLines]
      simp only [read]
      rw [inductionHypothesis]
      simp [behind, Nat.add_assoc, Nat.add_comm 1]
  | instruction read _ inductionHypothesis =>
      rw [List.cons_append, takeLines]
      simp only [read]
      rw [inductionHypothesis]
      simp [behind, Nat.add_assoc, Nat.add_comm 1]

/-- Lines that are all in order are read to the end, and the reader counts them. -/
theorem takeLines_transcribed (transcribes : Transcribes front code) (reader : Reader) :
    reader.takeLines front = (.ok (), reader.behind front code) := by
  have run := takeLines_append transcribes reader []
  rwa [List.append_nil, takeLines] at run

/-- A run ends at the first line that is wrong, whatever follows. -/
theorem takeLines_stopped {line : Bytes} {fault : LineFault}
    (transcribes : Transcribes front code) (wrong : Line.read line = .error fault)
    (reader : Reader) (back : List Bytes) :
    reader.takeLines (front ++ line :: back) =
      (.error ⟨reader.line + front.length + 1, fault⟩,
        { reader.behind front code with line := reader.line + front.length + 1 }) := by
  rw [takeLines_append transcribes, takeLines]
  simp only [wrong]
  rfl

/-- Reading a text in pieces that are cut at a line break is reading it at once: the same code
or fault, and the same state behind. After a fault in the first piece nothing else is read.
The line break may as well stay at the end of its line. -/
theorem read_in_pieces (reader : Reader) (one other : Bytes) :
    let first := reader.read one
    let joined := reader.read (one ++ Bytes.lineBreak :: other)
    (∀ code, first.1 = .ok code → joined = first.2.read other) ∧
    (∀ fault, first.1 = .error fault → joined = first) ∧
    ∀ line, Line.read (line ++ [Bytes.lineBreak]) = Line.read line := by
  intro first joined
  have lines : Bytes.lines (one ++ Bytes.lineBreak :: other) =
      Bytes.lines one ++ Bytes.lines other := Bytes.split_append_cons _ one other
  rcases transcribes_or_stops (Bytes.lines one) with ⟨code, transcribes⟩ |
    ⟨front, line, back, code, fault, parts, transcribes, wrong⟩
  · have firstEq : first =
        (.ok (reader.behind (Bytes.lines one) code).code.toList,
          reader.behind (Bytes.lines one) code) := by
      change reader.read one = _
      rw [read, takeLines_transcribed transcribes]
      rfl
    refine ⟨fun _ _ => ?_, fun fault failed => ?_, Line.read_append_lineBreak⟩
    · change reader.read (one ++ Bytes.lineBreak :: other) = first.2.read other
      rw [firstEq, read, lines, takeLines_append transcribes]
      rfl
    · rw [firstEq] at failed
      cases failed
  · have stopped := takeLines_stopped transcribes wrong reader
    have joinedEq : joined = first := by
      change reader.read (one ++ Bytes.lineBreak :: other) = reader.read one
      rw [read, read, lines, parts, List.append_assoc, List.cons_append, stopped, stopped]
    have firstEq : first.1 = .error ⟨reader.line + front.length + 1, fault⟩ := by
      change (reader.read one).1 = _
      rw [read, parts, stopped]
      rfl
    refine ⟨fun code succeeded => ?_, fun _ _ => joinedEq, Line.read_append_lineBreak⟩
    rw [firstEq] at succeeded
    cases succeeded

def started : Reader where
  line := 7
  code := #[.ret]

/-- A piece that ends in a comment, and one that is wrong on its second line. -/
theorem started_in_pieces :
    (started.read (utf8 "push constant 1 // one")).1 = .ok [.ret, .push .constant 1] ∧
    started.read (utf8 "push constant 1 // one" ++ Bytes.lineBreak :: utf8 "not\nno") =
      (started.read (utf8 "push constant 1 // one")).2.read (utf8 "not\nno") ∧
    (started.read (utf8 "not\nno")).1 = .error ⟨9, .unexpected (utf8 "no")⟩ ∧
    started.read (utf8 "not\nno" ++ Bytes.lineBreak :: utf8 "push constant 1 // one") =
      started.read (utf8 "not\nno") := by
  have accepted : (started.read (utf8 "push constant 1 // one")).1 =
      .ok [.ret, .push .constant 1] := by decide +kernel
  have refused : (started.read (utf8 "not\nno")).1 = .error ⟨9, .unexpected (utf8 "no")⟩ := by
    decide +kernel
  exact ⟨accepted, (read_in_pieces started _ _).1 _ accepted, refused,
    (read_in_pieces started _ _).2.1 _ refused⟩

end Reader

/-- The code that a text is read as. -/
theorem readListing_eq_ok_iff {text : Bytes} {code : List Instruction} :
    readListing text = .ok code ↔ Transcribes (Bytes.lines text) code := by
  have reads {code : List Instruction} (transcribes : Transcribes (Bytes.lines text) code) :
      readListing text = .ok code := by
    rw [readListing, Reader.read, Reader.takeLines_transcribed transcribes]
    simp [Except.map, Reader.behind]
  refine ⟨fun accepted => ?_, reads⟩
  rcases transcribes_or_stops (Bytes.lines text) with ⟨other, transcribes⟩ |
    ⟨front, line, back, _, fault, parts, transcribes, wrong⟩
  · rw [reads transcribes, Except.ok.injEq] at accepted
    exact accepted ▸ transcribes
  · rw [readListing, Reader.read, parts, Reader.takeLines_stopped transcribes wrong] at accepted
    cases accepted

/-- The fault of a text is that of its first line that is wrong. -/
theorem stops_of_readListing {text : Bytes} {fault : ListingFault}
    (refused : readListing text = .error fault) :
    ∃ front line back code, Bytes.lines text = front ++ line :: back ∧
      Transcribes front code ∧ Line.read line = .error fault.fault ∧
      fault.line = front.length + 1 := by
  rcases transcribes_or_stops (Bytes.lines text) with ⟨code, transcribes⟩ |
    ⟨front, line, back, code, wrong, parts, transcribes, isWrong⟩
  · rw [readListing_eq_ok_iff.mpr transcribes] at refused
    cases refused
  · rw [readListing, Reader.read, parts, Reader.takeLines_stopped transcribes isWrong] at refused
    obtain rfl := Except.error.inj refused
    exact ⟨front, line, back, code, parts, transcribes, isWrong, by simp⟩

end Jack.Machine
