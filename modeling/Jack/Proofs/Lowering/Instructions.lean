import Jack.Proofs.Lowering.Emits

/-!
Contract: the instructions that lowered code is made of.

Owns: which instructions compute the value of an expression, which ones make up the
code of a statement, and that nothing else is ever emitted for them.

Does not own: in which order instructions stand.

The code of an expression holds no label and no jump, and takes no label number.
-/

set_option autoImplicit false

namespace Jack.Machine.Instruction

/-- Whether the instruction is neither a jump, nor the target of one, nor an end. -/
def isStraight : Instruction → Bool
  | push .. | pop .. | arithmetic _ | call .. => true
  | _ => false

end Jack.Machine.Instruction

namespace Jack.Lowering

open Machine (Instruction Segment Operation)

/-- The instructions that compute a value in a setting. -/
inductive Computing (setting : Setting) : Instruction → Prop where
  | constant {value : Int} (natural : 0 ≤ value) (fits : value ≤ Machine.maxConstant) :
      Computing setting (.push .constant value)
  | receiver : Computing setting (.push .pointer 0)
  | variableRead {name : Bytes} {binding : Binding}
      (bound : setting.bindings.resolve? name = some binding) :
      Computing setting (.push binding.storage.segment binding.index)
  | elementPointer : Computing setting (.pop .pointer 1)
  | elementRead : Computing setting (.push .that 0)
  | arithmetic (operation : Operation) : Computing setting (.arithmetic operation)
  | call {target : Bytes} (named : target ≠ []) (count : Nat) :
      Computing setting (.call target count)

/-- The instructions of statements: those that compute, that put a value away, and that
lead from one statement to another. -/
inductive Emittable (setting : Setting) : Instruction → Prop where
  | computing {instruction : Instruction} (computing : Computing setting instruction) :
      Emittable setting instruction
  | variableWrite {name : Bytes} {binding : Binding}
      (bound : setting.bindings.resolve? name = some binding) :
      Emittable setting (.pop binding.storage.segment binding.index)
  | elementWrite : Emittable setting (.pop .that 0)
  | waitingRead : Emittable setting (.push .temp 0)
  | waitingWrite : Emittable setting (.pop .temp 0)
  | label (stem : String) (number : Nat) : Emittable setting (.label (numbered stem number))
  | goto (stem : String) (number : Nat) : Emittable setting (.goto (numbered stem number))
  | ifGoto (stem : String) (number : Nat) :
      Emittable setting (.ifGoto (numbered stem number))
  | ret : Emittable setting .ret

section Emitted

variable {setting : Setting} {label next : Nat} {code : List Instruction}

/-- Nothing that computes a value leads to another place in the code. -/
theorem Computing.isStraight {instruction : Instruction}
    (computing : Computing setting instruction) : instruction.isStraight = true := by
  cases computing <;> rfl

/-! ## Expressions -/

private theorem computing_of_keywordCode? {word : Bytes}
    (known : keywordCode? word = some code) :
    ∀ instruction ∈ code, Computing setting instruction := by
  have zero : Computing setting (.push .constant 0) := .constant (by decide) (by decide)
  unfold keywordCode? at known
  split_ifs at known <;> cases known <;>
    simp [zero, Computing.arithmetic, Computing.receiver]

private theorem computing_of_unaryInstruction? {symbol : Bytes} {instruction : Instruction}
    (known : unaryInstruction? symbol = some instruction) :
    Computing setting instruction := by
  unfold unaryInstruction? at known
  split_ifs at known <;> cases known <;> exact .arithmetic _

/-- Products and quotients are calls, all other operations instructions of their own. -/
theorem computing_of_binaryInstruction? {symbol : Bytes} {instruction : Instruction}
    (known : binaryInstruction? symbol = some instruction) :
    Computing setting instruction := by
  cases binaryCode_of_known known with
  | product | quotient => exact .call (by decide) 2
  | _ => exact .arithmetic _

/-- A string of a constant's length is made by a call, and each of its bytes by a constant and
another call. A byte is always small enough for a constant. -/
private theorem computing_stringCode {value : Bytes}
    (fits : (value.length : Int) ≤ Machine.maxConstant) :
    ∀ instruction ∈ stringCode value, Computing setting instruction := by
  intro instruction member
  simp only [stringCode, List.mem_cons, List.mem_flatMap, List.not_mem_nil, or_false]
    at member
  rcases member with rfl | rfl | ⟨byte, -, rfl | rfl⟩
  · exact .constant (Int.natCast_nonneg _) fits
  · exact .call (by decide) 1
  · refine .constant (Int.natCast_nonneg _) ?_
    have small := byte.toNat_lt
    simp only [Machine.maxConstant]
    omega
  · exact .call (by decide) 2

/-- The receiver of a call is pushed as any value is. The name called is never empty, since it
holds a dot. -/
theorem Receives.computing {qualifier : Option Bytes} {name target : Bytes}
    (receives : Receives setting name qualifier code target) :
    (∀ instruction ∈ code, Computing setting instruction) ∧ target ≠ [] := by
  cases receives with
  | ownMethod => exact ⟨by simp [Computing.receiver], qualified_ne_nil _ _⟩
  | ownFunction => exact ⟨by simp, qualified_ne_nil _ _⟩
  | ofClass => exact ⟨by simp, qualified_ne_nil _ _⟩
  | ofVariable bound => exact ⟨by simp [Computing.variableRead bound], qualified_ne_nil _ _⟩

/-- Code that computes a value takes no label number. -/
structure Computes (setting : Setting) (label : Nat) (code : List Instruction)
    (next : Nat) : Prop where
  next_eq : next = label
  computing : ∀ instruction ∈ code, Computing setting instruction

theorem Computes.append {middle : Nat} {front back : List Instruction}
    (first : Computes setting label front middle)
    (second : Computes setting middle back next) :
    Computes setting label (front ++ back) next where
  next_eq := second.next_eq.trans first.next_eq
  computing := by
    intro instruction member
    rcases List.mem_append.mp member with member | member
    · exact first.computing instruction member
    · exact second.computing instruction member

mutual

/-- The code of a term, and with it that of every expression inside, only computes. One case per
form of term; the instructions of its parts come by recursion, its own are listed. -/
theorem computes_of_emits_term : (tree : Term) → {label next : Nat} →
    {code : List Instruction} → Emits (term tree) setting label code next () →
    Computes setting label code next
  | .integer value line, _, _, _, emitted => by
      obtain ⟨⟨natural, fits⟩, rfl, same⟩ := emits_integer_iff.mp emitted
      exact ⟨same, by simp [Computing.constant natural fits]⟩
  | .string value line, _, _, _, emitted => by
      obtain ⟨fits, rfl, same⟩ := emits_string_iff.mp emitted
      exact ⟨same, computing_stringCode fits⟩
  | .keyword word line, _, _, _, emitted => by
      obtain ⟨known, same⟩ := emits_keyword_iff.mp emitted
      exact ⟨same, computing_of_keywordCode? known⟩
  | .name name line, _, _, _, emitted => by
      obtain ⟨binding, bound, rfl, same⟩ := emits_name_iff.mp emitted
      exact ⟨same, by simp [Computing.variableRead bound]⟩
  | .element array index line, _, _, _, emitted => by
      obtain ⟨base, indexCode, bound, indexEmits, rfl⟩ := emits_element_iff.mp emitted
      refine (computes_of_emits_expression index indexEmits).append ⟨rfl, ?_⟩
      simp [Computing.variableRead bound, Computing.arithmetic, Computing.elementPointer,
        Computing.elementRead]
  | .call called, _, _, _, emitted =>
      computes_of_emits_call called (emits_callTerm_iff.mp emitted)
  | .group inner line, _, _, _, emitted =>
      computes_of_emits_expression inner (emits_group_iff.mp emitted)
  | .unary operator operand line, _, _, _, emitted => by
      obtain ⟨operandCode, applied, operandEmits, known, rfl⟩ := emits_unary_iff.mp emitted
      refine (computes_of_emits_term operand operandEmits).append ⟨rfl, ?_⟩
      simp [computing_of_unaryInstruction? known]

theorem computes_of_emits_expression : (tree : Expression) → {label next : Nat} →
    {code : List Instruction} → Emits (expression tree) setting label code next () →
    Computes setting label code next
  | .mk head tail, _, _, _, emitted => by
      obtain ⟨headCode, middle, tailCode, headEmits, tailEmits, rfl⟩ :=
        emits_expression_iff.mp emitted
      exact (computes_of_emits_term head headEmits).append
        (computes_of_emits_operations tail tailEmits)

theorem computes_of_emits_operations : (tail : List (Operator × Term)) →
    {label next : Nat} → {code : List Instruction} →
    Emits (operations tail) setting label code next () → Computes setting label code next
  | [], _, _, _, emitted => by
      obtain ⟨rfl, same⟩ := emits_operations_nil_iff.mp emitted
      exact ⟨same, by simp⟩
  | (operator, operand) :: rest, _, _, _, emitted => by
      obtain ⟨operandCode, middle, applied, restCode, operandEmits, known, restEmits, rfl⟩ :=
        emits_operations_cons_iff.mp emitted
      have operation : Computes setting middle [applied] middle :=
        ⟨rfl, by simp [computing_of_binaryInstruction? known]⟩
      exact (computes_of_emits_term operand operandEmits).append
        (operation.append (computes_of_emits_operations rest restEmits))

theorem computes_of_emits_call : (tree : Call) → {label next : Nat} →
    {code : List Instruction} → Emits (call tree) setting label code next () →
    Computes setting label code next
  | .mk qualifier name arguments line, label, next, _, emitted => by
      obtain ⟨receiverCode, target, argumentsCode, receives, argumentsEmit, rfl⟩ :=
        emits_call_iff.mp emitted
      have received : Computes setting label receiverCode label :=
        ⟨rfl, receives.computing.1⟩
      have called : Computes setting next
          [.call target ((arguments.length + receiverCode.length : Nat) : Int)] next :=
        ⟨rfl, List.forall_mem_singleton.mpr (.call receives.computing.2 _)⟩
      exact received.append
        ((computes_of_emits_expressions arguments argumentsEmit).append called)

theorem computes_of_emits_expressions : (arguments : List Expression) →
    {label next : Nat} → {code : List Instruction} →
    Emits (expressions arguments) setting label code next () →
    Computes setting label code next
  | [], _, _, _, emitted => by
      obtain ⟨rfl, same⟩ := emits_expressions_nil_iff.mp emitted
      exact ⟨same, by simp⟩
  | argument :: rest, _, _, _, emitted => by
      obtain ⟨argumentCode, middle, restCode, argumentEmits, restEmits, rfl⟩ :=
        emits_expressions_cons_iff.mp emitted
      exact (computes_of_emits_expression argument argumentEmits).append
        (computes_of_emits_expressions rest restEmits)

end

/-! ## Statements -/

theorem Computes.emittable (computes : Computes setting label code next) :
    ∀ instruction ∈ code, Emittable setting instruction :=
  fun instruction member => .computing (computes.computing instruction member)

/-- An assignment computes its value, and the address of an element before it. Only the element
needs a cell to wait in. -/
private theorem emittable_of_emits_letTo {target : Term} {value : Expression} {line : Int}
    (emitted : Emits (statement (.letTo target value line)) setting label code next ()) :
    ∀ instruction ∈ code, Emittable setting instruction := by
  intro instruction member
  rcases target_of_emits_letTo emitted with
    ⟨name, targetLine, rfl⟩ | ⟨array, index, targetLine, rfl⟩
  · obtain ⟨binding, valueCode, bound, valueEmits, rfl⟩ := emits_letName_iff.mp emitted
    simp only [List.mem_append, List.mem_singleton] at member
    rcases member with member | rfl
    · exact (computes_of_emits_expression value valueEmits).emittable instruction member
    · exact .variableWrite bound
  · obtain ⟨base, indexCode, middle, valueCode, bound, indexEmits, valueEmits, rfl⟩ :=
      emits_letElement_iff.mp emitted
    simp only [storeCode, List.mem_append, List.mem_cons, List.not_mem_nil, or_false]
      at member
    rcases member with member | rfl | rfl | member | rfl | rfl | rfl | rfl
    · exact (computes_of_emits_expression index indexEmits).emittable instruction member
    · exact .computing (.variableRead bound)
    · exact .computing (.arithmetic _)
    · exact (computes_of_emits_expression value valueEmits).emittable instruction member
    · exact .waitingWrite
    · exact .computing .elementPointer
    · exact .waitingRead
    · exact .elementWrite

mutual

/-- Statements bring in labels and jumps, and nothing else that expressions do not have but the
instructions that put a value away. -/
theorem emittable_of_emits_statement : (tree : Statement) → {label next : Nat} →
    {code : List Instruction} → Emits (statement tree) setting label code next () →
    ∀ instruction ∈ code, Emittable setting instruction
  | .letTo target value line, _, _, _, emitted => emittable_of_emits_letTo emitted
  | .ifElse condition whenTrue otherwise line, _, _, _, emitted => by
      obtain ⟨conditionCode, number, otherwiseCode, middle, whenTrueCode, conditionEmits,
        otherwiseEmits, whenTrueEmits, rfl⟩ := emits_ifElse_iff.mp emitted
      intro instruction member
      simp only [List.mem_append, List.mem_cons, List.not_mem_nil, or_false] at member
      rcases member with member | rfl | member | rfl | rfl | member | rfl
      · exact (computes_of_emits_expression condition conditionEmits).emittable instruction member
      · exact .ifGoto _ _
      · exact emittable_of_emits_alternative otherwise otherwiseEmits instruction member
      · exact .goto _ _
      · exact .label _ _
      · exact emittable_of_emits_statements whenTrue whenTrueEmits instruction member
      · exact .label _ _
  | .whileDo condition body line, _, _, _, emitted => by
      obtain ⟨conditionCode, middle, bodyCode, conditionEmits, bodyEmits, rfl⟩ :=
        emits_whileDo_iff.mp emitted
      intro instruction member
      simp only [List.mem_append, List.mem_cons, List.not_mem_nil, or_false] at member
      rcases member with rfl | member | rfl | rfl | member | rfl | rfl
      · exact .label _ _
      · exact (computes_of_emits_expression condition conditionEmits).emittable instruction member
      · exact .computing (.arithmetic _)
      · exact .ifGoto _ _
      · exact emittable_of_emits_statements body bodyEmits instruction member
      · exact .goto _ _
      · exact .label _ _
  | .doCall called line, _, _, _, emitted => by
      obtain ⟨callCode, callEmits, rfl⟩ := emits_doCall_iff.mp emitted
      intro instruction member
      simp only [List.mem_append, List.mem_singleton] at member
      rcases member with member | rfl
      · exact (computes_of_emits_call called callEmits).emittable instruction member
      · exact .waitingWrite
  | .giveBack none line, _, _, _, emitted => by
      obtain ⟨rfl, -⟩ := emits_giveBack_none_iff.mp emitted
      have zero : Emittable setting (.push .constant 0) :=
        .computing (.constant (by decide) (by decide))
      simp [zero, Emittable.ret]
  | .giveBack (some value) line, _, _, _, emitted => by
      obtain ⟨valueCode, valueEmits, rfl⟩ := emits_giveBack_some_iff.mp emitted
      intro instruction member
      simp only [List.mem_append, List.mem_singleton] at member
      rcases member with member | rfl
      · exact (computes_of_emits_expression value valueEmits).emittable instruction member
      · exact .ret

theorem emittable_of_emits_statements : (trees : List Statement) → {label next : Nat} →
    {code : List Instruction} → Emits (statements trees) setting label code next () →
    ∀ instruction ∈ code, Emittable setting instruction
  | [], _, _, _, emitted => by
      obtain ⟨rfl, -⟩ := emits_statements_nil_iff.mp emitted
      simp
  | first :: rest, _, _, _, emitted => by
      obtain ⟨firstCode, middle, restCode, firstEmits, restEmits, rfl⟩ :=
        emits_statements_cons_iff.mp emitted
      intro instruction member
      rcases List.mem_append.mp member with member | member
      · exact emittable_of_emits_statement first firstEmits instruction member
      · exact emittable_of_emits_statements rest restEmits instruction member

theorem emittable_of_emits_alternative : (otherwise : Option (List Statement)) →
    {label next : Nat} → {code : List Instruction} →
    Emits (alternative otherwise) setting label code next () →
    ∀ instruction ∈ code, Emittable setting instruction
  | none, _, _, _, emitted => by
      obtain ⟨rfl, -⟩ := emits_statements_nil_iff.mp (emits_alternative_iff.mp emitted)
      simp
  | some body, _, _, _, emitted =>
      emittable_of_emits_statements body (emits_alternative_iff.mp emitted)

end

end Emitted

end Jack.Lowering
