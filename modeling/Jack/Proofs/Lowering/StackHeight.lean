import Jack.Proofs.Lowering.Blocks

/-!
Contract: lowered code keeps the discipline of the stack on every path.

Owns: how many values each instruction takes and gives, what it means that heights of
the stack can be given to all points of a block, and that every block of a class has
such heights.

Does not own: what the values are.

Heights never have to be reconciled between paths: every label and every end of a jump
stands where the stack of the block is empty. So it is enough to follow the code from
one instruction to the next, also behind a return or a jump.
-/

set_option autoImplicit false

namespace Jack.Machine.Instruction

def takes : Instruction → Nat
  | pop .. | ifGoto .. | ret => 1
  | arithmetic .neg | arithmetic .not => 1
  | arithmetic _ => 2
  | call _ count => count.toNat
  | push .. | label .. | goto .. | function .. => 0

def gives : Instruction → Nat
  | push .. | arithmetic _ | call .. => 1
  | pop .. | ifGoto .. | ret | label .. | goto .. | function .. => 0

/-- Whether the next instruction can come right after. -/
def fallsThrough : Instruction → Bool
  | goto .. | ret => false
  | _ => true

def jumpTarget? : Instruction → Option Bytes
  | goto name _ | ifGoto name _ => some name
  | _ => none

theorem jumpTarget?_of_isStraight {instruction : Instruction}
    (straight : instruction.isStraight = true) : instruction.jumpTarget? = none := by
  cases instruction with
  | goto | ifGoto => cases straight
  | push | pop | arithmetic | label | function | call | ret => rfl

end Jack.Machine.Instruction

namespace Jack.Lowering

open Machine (Instruction)

/-- Heights of the stack for the points of a block. Point `i` is in front of
instruction `i`; the last point is the end of the block. -/
structure RespectsHeights (block : List Instruction) (height : Nat → Nat) : Prop where
  start : height 0 = 0
  supply : ∀ point instruction, block[point]? = some instruction →
    instruction.takes ≤ height point
  fall : ∀ point instruction, block[point]? = some instruction →
    instruction.fallsThrough = true →
    height (point + 1) = height point - instruction.takes + instruction.gives
  jump : ∀ point instruction target, block[point]? = some instruction →
    instruction.jumpTarget? = some target → ∀ goal count,
    block[goal]? = some (.label target count) →
    height goal = height point - instruction.takes + instruction.gives
  atLabel : ∀ point name count, block[point]? = some (.label name count) →
    height point = 0
  atReturn : ∀ point, block[point]? = some .ret → height point = 1
  finish : height block.length = 0

/-- Following code from one instruction to the next leads from one height to another.
Labels stand at height 0; behind a jump or a return the height is 0 again. -/
inductive Settles : Nat → List Instruction → Nat → Prop where
  | nil (height : Nat) : Settles height [] height
  | straight {height finish : Nat} {instruction : Instruction} {rest : List Instruction}
      (straight : instruction.isStraight = true) (supply : instruction.takes ≤ height)
      (behind : Settles (height - instruction.takes + instruction.gives) rest finish) :
      Settles height (instruction :: rest) finish
  | label {finish : Nat} {rest : List Instruction} (name : Bytes) (count : Int)
      (behind : Settles 0 rest finish) : Settles 0 (.label name count :: rest) finish
  | goto {finish : Nat} {rest : List Instruction} (name : Bytes) (count : Int)
      (behind : Settles 0 rest finish) : Settles 0 (.goto name count :: rest) finish
  | ifGoto {finish : Nat} {rest : List Instruction} (name : Bytes) (count : Int)
      (behind : Settles 0 rest finish) : Settles 1 (.ifGoto name count :: rest) finish
  | ret {finish : Nat} {rest : List Instruction}
      (behind : Settles 0 rest finish) : Settles 1 (.ret :: rest) finish

namespace Settles

variable {start middle finish : Nat} {front back : List Instruction}

theorem append (first : Settles start front middle) (second : Settles middle back finish) :
    Settles start (front ++ back) finish := by
  induction first with
  | nil => exact second
  | straight straight supply _ inductionHypothesis =>
      exact .straight straight supply (inductionHypothesis second)
  | label name count _ inductionHypothesis =>
      exact .label name count (inductionHypothesis second)
  | goto name count _ inductionHypothesis =>
      exact .goto name count (inductionHypothesis second)
  | ifGoto name count _ inductionHypothesis =>
      exact .ifGoto name count (inductionHypothesis second)
  | ret _ inductionHypothesis => exact .ret (inductionHypothesis second)

/-- One straight instruction. -/
theorem single {instruction : Instruction} (straight : instruction.isStraight = true)
    (supply : instruction.takes ≤ start) :
    Settles start [instruction] (start - instruction.takes + instruction.gives) :=
  .straight straight supply (.nil _)

end Settles

/-! ## Expressions leave one value -/

section Emitted

variable {setting : Setting} {label next : Nat} {code : List Instruction}

private theorem settles_push (segment : Machine.Segment) (index : Int) (height : Nat) :
    Settles height [.push segment index] (height + 1) :=
  .single rfl (Nat.zero_le _)

private theorem settles_pop (segment : Machine.Segment) (index : Int) (height : Nat) :
    Settles (height + 1) [.pop segment index] height :=
  .single rfl (Nat.le_add_left 1 height)

private theorem settles_keywordCode? {word : Bytes} (known : keywordCode? word = some code)
    (height : Nat) : Settles height code (height + 1) := by
  have complement : Settles (height + 1) [.arithmetic .not] (height + 1) :=
    .single rfl (Nat.le_add_left 1 height)
  unfold keywordCode? at known
  split_ifs at known <;> cases known
  · exact (settles_push _ _ height).append complement
  · exact settles_push _ _ height
  · exact settles_push _ _ height

/-- Each byte is pushed and taken again by the call that appends it. -/
private theorem settles_stringCode (value : Bytes) (height : Nat) :
    Settles height (stringCode value) (height + 1) := by
  have created : Settles (height + 1) [.call (utf8 "String.new") 1] (height + 1) :=
    .single rfl (Nat.le_add_left 1 height)
  have bytes : Settles (height + 1)
      (value.flatMap fun byte => [.push .constant byte.toNat,
        .call (utf8 "String.appendChar") 2]) (height + 1) := by
    induction value with
    | nil => exact .nil _
    | cons byte rest inductionHypothesis =>
        have appended : Settles (height + 2) [.call (utf8 "String.appendChar") 2]
            (height + 1) := .single rfl (Nat.le_add_left 2 height)
        exact ((settles_push _ _ (height + 1)).append appended).append inductionHypothesis
  exact (settles_push _ _ height).append (created.append bytes)

private theorem settles_unaryInstruction? {symbol : Bytes} {instruction : Instruction}
    (known : unaryInstruction? symbol = some instruction) (height : Nat) :
    Settles (height + 1) [instruction] (height + 1) := by
  unfold unaryInstruction? at known
  split_ifs at known <;> cases known <;> exact .single rfl (Nat.le_add_left 1 height)

private theorem settles_binaryInstruction? {symbol : Bytes} {instruction : Instruction}
    (known : binaryInstruction? symbol = some instruction) (height : Nat) :
    Settles (height + 2) [instruction] (height + 1) := by
  cases binaryCode_of_known known <;> exact .single rfl (Nat.le_add_left 2 height)

private theorem settles_call (target : Bytes) (count height : Nat) :
    Settles (height + count) [.call target (count : Int)] (height + 1) := by
  have single : Settles (height + count) [.call target (count : Int)]
      (height + count - count + 1) := .single rfl (Nat.le_add_left count height)
  rwa [Nat.add_sub_cancel] at single

/-- A receiver is pushed exactly when it is counted. -/
theorem Receives.settles {qualifier : Option Bytes} {name target : Bytes}
    (receives : Receives setting name qualifier code target) (height : Nat) :
    Settles height code (height + code.length) := by
  cases receives with
  | ownMethod => exact settles_push _ _ height
  | ownFunction => exact .nil height
  | ofClass => exact .nil height
  | ofVariable => exact settles_push _ _ height

mutual

/-- The code of a term leaves one value on the stack, whatever lies below. -/
theorem settles_of_emits_term : (tree : Term) → {label next : Nat} →
    {code : List Instruction} → Emits (term tree) setting label code next () →
    ∀ height, Settles height code (height + 1)
  | .integer value line, _, _, _, emitted, height => by
      obtain ⟨-, rfl, -⟩ := emits_integer_iff.mp emitted
      exact settles_push _ _ height
  | .string value line, _, _, _, emitted, height => by
      obtain ⟨-, rfl, -⟩ := emits_string_iff.mp emitted
      exact settles_stringCode value height
  | .keyword word line, _, _, _, emitted, height =>
      settles_keywordCode? (emits_keyword_iff.mp emitted).1 height
  | .name name line, _, _, _, emitted, height => by
      obtain ⟨binding, -, rfl, -⟩ := emits_name_iff.mp emitted
      exact settles_push _ _ height
  | .element array index line, _, _, _, emitted, height => by
      obtain ⟨base, indexCode, -, indexEmits, rfl⟩ := emits_element_iff.mp emitted
      have added : Settles (height + 2) [.arithmetic .add] (height + 1) :=
        .single rfl (Nat.le_add_left 2 height)
      exact (settles_of_emits_expression index indexEmits height).append
        ((settles_push _ _ (height + 1)).append (added.append
          ((settles_pop _ _ height).append (settles_push _ _ height))))
  | .call called, _, _, _, emitted, height =>
      settles_of_emits_call called (emits_callTerm_iff.mp emitted) height
  | .group inner line, _, _, _, emitted, height =>
      settles_of_emits_expression inner (emits_group_iff.mp emitted) height
  | .unary operator operand line, _, _, _, emitted, height => by
      obtain ⟨operandCode, applied, operandEmits, known, rfl⟩ := emits_unary_iff.mp emitted
      exact (settles_of_emits_term operand operandEmits height).append
        (settles_unaryInstruction? known height)

theorem settles_of_emits_expression : (tree : Expression) → {label next : Nat} →
    {code : List Instruction} → Emits (expression tree) setting label code next () →
    ∀ height, Settles height code (height + 1)
  | .mk head tail, _, _, _, emitted, height => by
      obtain ⟨headCode, middle, tailCode, headEmits, tailEmits, rfl⟩ :=
        emits_expression_iff.mp emitted
      exact (settles_of_emits_term head headEmits height).append
        (settles_of_emits_operations tail tailEmits height)

/-- Each operation takes the value so far and its operand, and leaves one value. -/
theorem settles_of_emits_operations : (tail : List (Operator × Term)) →
    {label next : Nat} → {code : List Instruction} →
    Emits (operations tail) setting label code next () →
    ∀ height, Settles (height + 1) code (height + 1)
  | [], _, _, _, emitted, height => by
      obtain ⟨rfl, -⟩ := emits_operations_nil_iff.mp emitted
      exact .nil _
  | (operator, operand) :: rest, _, _, _, emitted, height => by
      obtain ⟨operandCode, middle, applied, restCode, operandEmits, known, restEmits, rfl⟩ :=
        emits_operations_cons_iff.mp emitted
      exact (settles_of_emits_term operand operandEmits (height + 1)).append
        ((settles_binaryInstruction? known height).append
          (settles_of_emits_operations rest restEmits height))

/-- The receiver and the arguments are as many values as the call takes. -/
theorem settles_of_emits_call : (tree : Call) → {label next : Nat} →
    {code : List Instruction} → Emits (call tree) setting label code next () →
    ∀ height, Settles height code (height + 1)
  | .mk qualifier name arguments line, _, _, _, emitted, height => by
      obtain ⟨receiverCode, target, argumentsCode, receives, argumentsEmit, rfl⟩ :=
        emits_call_iff.mp emitted
      have supplied := settles_of_emits_expressions arguments argumentsEmit
        (height + receiverCode.length)
      rw [Nat.add_assoc, Nat.add_comm receiverCode.length] at supplied
      exact (receives.settles height).append
        (supplied.append (settles_call target _ height))

/-- One value for each argument. -/
theorem settles_of_emits_expressions : (arguments : List Expression) →
    {label next : Nat} → {code : List Instruction} →
    Emits (expressions arguments) setting label code next () →
    ∀ height, Settles height code (height + arguments.length)
  | [], _, _, _, emitted, height => by
      obtain ⟨rfl, -⟩ := emits_expressions_nil_iff.mp emitted
      exact .nil _
  | argument :: rest, _, _, _, emitted, height => by
      obtain ⟨argumentCode, middle, restCode, argumentEmits, restEmits, rfl⟩ :=
        emits_expressions_cons_iff.mp emitted
      have supplied := settles_of_emits_expressions rest restEmits (height + 1)
      rw [show height + 1 + rest.length = height + (argument :: rest).length by
        simp only [List.length_cons]; omega] at supplied
      exact (settles_of_emits_expression argument argumentEmits height).append supplied

end

/-! ## Statements leave nothing -/

/-- An element has two values on the stack at a time, and both are gone afterwards. -/
private theorem settles_of_emits_letTo {target : Term} {value : Expression} {line : Int}
    (emitted : Emits (statement (.letTo target value line)) setting label code next ()) :
    Settles 0 code 0 := by
  rcases target_of_emits_letTo emitted with
    ⟨name, targetLine, rfl⟩ | ⟨array, index, targetLine, rfl⟩
  · obtain ⟨binding, valueCode, -, valueEmits, rfl⟩ := emits_letName_iff.mp emitted
    exact (settles_of_emits_expression value valueEmits 0).append (settles_pop _ _ 0)
  · obtain ⟨base, indexCode, middle, valueCode, -, indexEmits, valueEmits, rfl⟩ :=
      emits_letElement_iff.mp emitted
    have added : Settles 2 [.arithmetic .add] 1 := .single rfl (Nat.le_refl 2)
    have stored : Settles 2 storeCode 0 :=
      (settles_pop _ _ 1).append ((settles_pop _ _ 0).append
        ((settles_push _ _ 0).append (settles_pop _ _ 0)))
    exact (settles_of_emits_expression index indexEmits 0).append
      ((settles_push _ _ 1).append (added.append
        ((settles_of_emits_expression value valueEmits 1).append stored)))

mutual

/-- A statement starts and ends with an empty stack. So do its labels, which is why jumps between
them are safe. -/
theorem settles_of_emits_statement : (tree : Statement) → {label next : Nat} →
    {code : List Instruction} → Emits (statement tree) setting label code next () →
    Settles 0 code 0
  | .letTo target value line, _, _, _, emitted => settles_of_emits_letTo emitted
  | .ifElse condition whenTrue otherwise line, _, _, _, emitted => by
      obtain ⟨conditionCode, number, otherwiseCode, middle, whenTrueCode, conditionEmits,
        otherwiseEmits, whenTrueEmits, rfl⟩ := emits_ifElse_iff.mp emitted
      have behindTrue := (settles_of_emits_statements whenTrue whenTrueEmits).append
        (.label (numbered "IF_END" (number + 1)) 0 (.nil 0))
      have behindElse := (settles_of_emits_alternative otherwise otherwiseEmits).append
        (.goto (numbered "IF_END" (number + 1)) 0
          (.label (numbered "IF_TRUE" number) 0 behindTrue))
      exact (settles_of_emits_expression condition conditionEmits 0).append
        (.ifGoto (numbered "IF_TRUE" number) 0 behindElse)
  | .whileDo condition body line, label, _, _, emitted => by
      obtain ⟨conditionCode, middle, bodyCode, conditionEmits, bodyEmits, rfl⟩ :=
        emits_whileDo_iff.mp emitted
      have complement : Settles 1 [.arithmetic .not] 1 := .single rfl (Nat.le_refl 1)
      have behindBody := (settles_of_emits_statements body bodyEmits).append
        (.goto (numbered "WHILE_EXP" label) 0
          (.label (numbered "WHILE_END" (label + 1)) 0 (.nil 0)))
      exact .label (numbered "WHILE_EXP" label) 0
        ((settles_of_emits_expression condition conditionEmits 0).append
          (complement.append (.ifGoto (numbered "WHILE_END" (label + 1)) 0 behindBody)))
  | .doCall called line, _, _, _, emitted => by
      obtain ⟨callCode, callEmits, rfl⟩ := emits_doCall_iff.mp emitted
      exact (settles_of_emits_call called callEmits 0).append (settles_pop _ _ 0)
  | .giveBack none line, _, _, _, emitted => by
      obtain ⟨rfl, -⟩ := emits_giveBack_none_iff.mp emitted
      exact (settles_push _ _ 0).append (.ret (.nil 0))
  | .giveBack (some value) line, _, _, _, emitted => by
      obtain ⟨valueCode, valueEmits, rfl⟩ := emits_giveBack_some_iff.mp emitted
      exact (settles_of_emits_expression value valueEmits 0).append (.ret (.nil 0))

theorem settles_of_emits_statements : (trees : List Statement) → {label next : Nat} →
    {code : List Instruction} → Emits (statements trees) setting label code next () →
    Settles 0 code 0
  | [], _, _, _, emitted => by
      obtain ⟨rfl, -⟩ := emits_statements_nil_iff.mp emitted
      exact .nil 0
  | first :: rest, _, _, _, emitted => by
      obtain ⟨firstCode, middle, restCode, firstEmits, restEmits, rfl⟩ :=
        emits_statements_cons_iff.mp emitted
      exact (settles_of_emits_statement first firstEmits).append
        (settles_of_emits_statements rest restEmits)

theorem settles_of_emits_alternative : (otherwise : Option (List Statement)) →
    {label next : Nat} → {code : List Instruction} →
    Emits (alternative otherwise) setting label code next () → Settles 0 code 0
  | none, _, _, _, emitted => by
      obtain ⟨rfl, -⟩ := emits_statements_nil_iff.mp (emits_alternative_iff.mp emitted)
      exact .nil 0
  | some body, _, _, _, emitted =>
      settles_of_emits_statements body (emits_alternative_iff.mp emitted)

end

end Emitted

private theorem settles_prologueCode (kind : SubroutineKind) (fields : Nat) :
    Settles 0 (prologueCode kind fields) 0 := by
  cases kind with
  | constructor =>
      exact (settles_push _ _ 0).append
        ((settles_call (utf8 "Memory.alloc") 1 0).append (settles_pop _ _ 0))
  | method => exact (settles_push _ _ 0).append (settles_pop _ _ 0)
  | function => exact .nil 0

/-- Along a whole function, heights lead from 0 to 0. -/
theorem IsCodeOf.settles {tree : Subroutine} {setting : Setting} {function : FunctionCode}
    (isCode : IsCodeOf tree setting function) : Settles 0 function.block 0 := by
  obtain ⟨bodyCode, next, emitted, same⟩ := isCode.block_eq
  rw [same]
  exact (settles_prologueCode _ _).append (settles_of_emits_statements _ emitted)

/-! ## Heights of all points -/

/-- What an instruction demands of the heights in front of it and behind it. Where it
can jump, or be jumped to, the stack of the block is empty at the far end. -/
structure Fits (instruction : Instruction) (front behind : Nat) : Prop where
  supply : instruction.takes ≤ front
  fall : instruction.fallsThrough = true →
    behind = front - instruction.takes + instruction.gives
  jump : ∀ target, instruction.jumpTarget? = some target →
    front - instruction.takes + instruction.gives = 0
  atLabel : ∀ name count, instruction = .label name count → front = 0
  atReturn : instruction = .ret → front = 1

/-- Code that settles has heights at all its points. -/
theorem Settles.exists_heights {start finish : Nat} {code : List Instruction}
    (settles : Settles start code finish) :
    ∃ height : Nat → Nat, height 0 = start ∧ height code.length = finish ∧
      ∀ point instruction, code[point]? = some instruction →
        Fits instruction (height point) (height (point + 1)) := by
  -- The heights of the rest, moved on by one point, with the first height in front.
  have extend {first second last : Nat} {instruction : Instruction}
      {rest : List Instruction} (fits : Fits instruction first second)
      (heights : ∃ height : Nat → Nat, height 0 = second ∧ height rest.length = last ∧
        ∀ point instruction, rest[point]? = some instruction →
          Fits instruction (height point) (height (point + 1))) :
      ∃ height : Nat → Nat, height 0 = first ∧
        height (instruction :: rest).length = last ∧
        ∀ point other, (instruction :: rest)[point]? = some other →
          Fits other (height point) (height (point + 1)) := by
    obtain ⟨height, atStart, atEnd, fitsRest⟩ := heights
    refine ⟨fun point => point.casesOn first height, rfl, atEnd, ?_⟩
    intro point other found
    cases point with
    | zero =>
        obtain rfl : instruction = other := by simpa using found
        change Fits instruction first (height 0)
        rwa [atStart]
    | succ point => exact fitsRest point other (by simpa using found)
  induction settles with
  | nil height => exact ⟨fun _ => height, rfl, rfl, by simp⟩
  | @straight height finish instruction rest straight supply _ inductionHypothesis =>
      refine extend ⟨supply, fun _ => rfl, ?_, ?_, ?_⟩ inductionHypothesis
      · intro target jumps
        rw [Instruction.jumpTarget?_of_isStraight straight] at jumps
        cases jumps
      · rintro name count rfl
        cases straight
      · rintro rfl
        cases straight
  | label name count _ inductionHypothesis =>
      exact extend ⟨Nat.le_refl 0, fun _ => rfl, nofun, fun _ _ _ => rfl, nofun⟩
        inductionHypothesis
  | goto name count _ inductionHypothesis =>
      exact extend ⟨Nat.le_refl 0, nofun, fun _ _ => rfl, nofun, nofun⟩ inductionHypothesis
  | ifGoto name count _ inductionHypothesis =>
      exact extend ⟨Nat.le_refl 1, fun _ => rfl, fun _ _ => rfl, nofun, nofun⟩
        inductionHypothesis
  | ret _ inductionHypothesis =>
      exact extend ⟨Nat.le_refl 1, nofun, nofun, nofun, fun _ => rfl⟩ inductionHypothesis

/-- From heights along the code to heights at all points, jumps included. -/
theorem Settles.exists_respectsHeights {block : List Instruction}
    (settles : Settles 0 block 0) : ∃ height, RespectsHeights block height := by
  obtain ⟨height, atStart, atEnd, fits⟩ := settles.exists_heights
  refine ⟨height, ?_⟩
  exact {
    start := atStart
    supply := fun point instruction found => (fits point instruction found).supply
    fall := fun point instruction found => (fits point instruction found).fall
    jump := by
      intro point instruction target found jumps goal count labelled
      rw [(fits point instruction found).jump target jumps]
      exact (fits goal _ labelled).atLabel target count rfl
    atLabel := fun point name count found => (fits point _ found).atLabel name count rfl
    atReturn := fun point found => (fits point _ found).atReturn rfl
    finish := atEnd }

/-- Every block that a class adds has heights at all its points, and all code that it
adds stands in blocks. -/
theorem lowered_blocks_respect_heights {context final : Context} {tree : ClassTree}
    (accepted : context.addClass tree = (.ok (), final)) :
    ∃ emitted, final.code = context.code ++ emitted ∧
      (∀ first ∈ emitted.head?, first.isFunction = true) ∧
      ∀ name locals block, IsBlock emitted name locals block →
        ∃ height, RespectsHeights block height := by
  obtain ⟨emitted, finalCode, starts, blocks⟩ := Context.blocks_of_addClass accepted
  refine ⟨emitted, finalCode, starts, ?_⟩
  intro name locals block isBlock
  obtain ⟨_, _, _, isCode⟩ := blocks name locals block isBlock
  exact isCode.settles.exists_respectsHeights

/-- A method with a loop, two branches, an array element and a return within the
loop. -/
def search : ClassTree :=
  { name := utf8 "Search"
    declarations := [⟨.field, utf8 "Array", [utf8 "items"], 1⟩]
    subroutines :=
      [{ kind := .method
         result := utf8 "int"
         name := utf8 "next"
         parameters := [⟨utf8 "int", utf8 "from"⟩]
         body :=
          { locals := []
            statements :=
              [.whileDo (.mk (.keyword (utf8 "true") 2) [])
                [.ifElse (.mk (.element (utf8 "items") (.mk (.name (utf8 "from") 3) []) 3) [])
                  [.giveBack (some (.mk (.name (utf8 "from") 4) [])) 4]
                  (some [.letTo (.element (utf8 "items") (.mk (.name (utf8 "from") 5) []) 5)
                    (.mk (.integer 1 5) []) 5]) 3,
                  .doCall (.mk none (utf8 "skip") [] 6) 6] 2,
                .giveBack none 7] }
         line := 2 }]
    line := 1 }

/-- The class is accepted, and its one block has heights. -/
theorem search_blocks_respect_heights :
    ({} : Context).addClass search = (.ok (), (({} : Context).addClass search).2) ∧
      ∃ emitted, (({} : Context).addClass search).2.code = ({} : Context).code ++ emitted ∧
        (∀ first ∈ emitted.head?, first.isFunction = true) ∧
        ∀ name locals block, IsBlock emitted name locals block →
          ∃ height, RespectsHeights block height := by
  have accepted :
      ({} : Context).addClass search = (.ok (), (({} : Context).addClass search).2) := rfl
  exact ⟨accepted, lowered_blocks_respect_heights accepted⟩

end Jack.Lowering
