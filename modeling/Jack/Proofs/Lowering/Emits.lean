import Jack.Lowering.Context
import Mathlib.Tactic.Common

/-!
Contract: what an emission that succeeds has added, construct by construct.

Owns: the relation between a step and the code, the next label number and the value
of its success; one equivalence for each basic step, and one for each construct,
that says what its code consists of.

Does not own: what running the code does, and when an emission fails.

Every later proof about emitted code starts from these equivalences. None of them
has to open a step again.
-/

set_option autoImplicit false

namespace Jack.Lowering

open Machine (Instruction Segment Flaw)

/-- The step succeeds from the label number `label` on: it adds `code`, leaves `next`
as the next free label number, and answers with `value`. -/
def Emits {Value : Type} (step : Emit Value) (setting : Setting) (label : Nat)
    (code : List Instruction) (next : Nat) (value : Value) : Prop :=
  step setting label = { code, nextLabel := next, result := .ok value }

/-- A step whose result is a value emits what it lists. -/
theorem emits_of_result {Value : Type} {step : Emit Value} {setting : Setting} {label : Nat}
    {value : Value} (succeeded : (step setting label).result = .ok value) :
    Emits step setting label (step setting label).code (step setting label).nextLabel value := by
  unfold Emits
  rw [← succeeded]

section Steps

variable {Value Other : Type} {setting : Setting} {label next : Nat}
  {code : List Instruction} {line : Int}

@[simp] theorem emits_pure_iff {value result : Value} :
    Emits (pure value) setting label code next result ↔
      code = [] ∧ next = label ∧ result = value := by
  change Emit.succeed value setting label = _ ↔ _
  simp only [Emit.succeed, Emission.mk.injEq, Except.ok.injEq]
  constructor
  · rintro ⟨rfl, rfl, rfl⟩
    exact ⟨rfl, rfl, rfl⟩
  · rintro ⟨rfl, rfl, rfl⟩
    exact ⟨rfl, rfl, rfl⟩

/-- Code of steps in sequence is the code of the first and then that of the second, with the label
numbers handed on. -/
@[simp] theorem emits_bind_iff {first : Emit Value} {second : Value → Emit Other}
    {result : Other} :
    Emits (first >>= second) setting label code next result ↔
      ∃ value front middle back, Emits first setting label front middle value ∧
        Emits (second value) setting middle back next result ∧ code = front ++ back := by
  change Emit.andThen first second setting label = _ ↔ _
  constructor
  · intro combined
    unfold Emit.andThen at combined
    rcases before : first setting label with ⟨front, middle, outcome⟩
    rw [before] at combined
    cases outcome with
    | error diagnostic => simp at combined
    | ok value =>
        rcases behind : second value setting middle with ⟨back, last, final⟩
        simp only [behind, Emission.mk.injEq] at combined
        obtain ⟨rfl, rfl, rfl⟩ := combined
        exact ⟨value, front, middle, back, before, behind, rfl⟩
  · rintro ⟨value, front, middle, back, before, behind, rfl⟩
    unfold Emits at before behind
    unfold Emit.andThen
    simp only [before, behind]

@[simp] theorem emits_append_iff {instructions : List Instruction} {done : Unit} :
    Emits (Emit.append instructions) setting label code next done ↔
      code = instructions ∧ next = label := by
  simp only [Emits, Emit.append, Emission.mk.injEq, and_true]
  exact ⟨fun ⟨same, number⟩ => ⟨same.symm, number.symm⟩,
    fun ⟨same, number⟩ => ⟨same.symm, number.symm⟩⟩

@[simp] theorem not_emits_fail {fault : CodegenFault} {value : Value} :
    ¬ Emits (Emit.fail fault line) setting label code next value := by
  simp [Emits, Emit.fail]

@[simp] theorem emits_setting_iff {found : Setting} :
    Emits Emit.setting setting label code next found ↔
      code = [] ∧ next = label ∧ found = setting := by
  simp only [Emits, Emit.setting, Emission.mk.injEq, Except.ok.injEq]
  constructor
  · rintro ⟨rfl, rfl, rfl⟩
    exact ⟨rfl, rfl, rfl⟩
  · rintro ⟨rfl, rfl, rfl⟩
    exact ⟨rfl, rfl, rfl⟩

/-- A checked instruction is emitted if it has no flaw, and nothing else is. -/
@[simp] theorem emits_checked_iff {instruction : Instruction} {done : Unit} :
    Emits (Emit.checked instruction line) setting label code next done ↔
      instruction.flaw? = none ∧ code = [instruction] ∧ next = label := by
  unfold Emit.checked
  cases instruction.flaw? <;> simp

/-- The two labels of a construct that takes the numbers `label` and `label + 1`. -/
@[simp] theorem emits_labels_iff {first second : Bytes} {names : Bytes × Bytes} :
    Emits (Emit.labels first second) setting label code next names ↔
      code = [] ∧ next = label + 2 ∧
        names = (first ++ Numeral.decimal label,
          second ++ Numeral.decimal (label + 1)) := by
  simp only [Emits, Emit.labels, Emission.mk.injEq, Except.ok.injEq]
  constructor
  · rintro ⟨rfl, rfl, rfl⟩
    exact ⟨rfl, rfl, rfl⟩
  · rintro ⟨rfl, rfl, rfl⟩
    exact ⟨rfl, rfl, rfl⟩

@[simp] theorem emits_resolve_iff {name : Bytes} {binding : Binding} :
    Emits (Emit.resolve name line) setting label code next binding ↔
      setting.bindings.resolve? name = some binding ∧ code = [] ∧ next = label := by
  unfold Emit.resolve
  cases found : setting.bindings.resolve? name with
  | none => simp [found]
  | some other =>
      simp only [emits_bind_iff, emits_setting_iff, Option.some.injEq]
      constructor
      · rintro ⟨_, _, _, _, ⟨rfl, rfl, rfl⟩, behind, rfl⟩
        simp only [found, emits_pure_iff] at behind
        obtain ⟨rfl, rfl, rfl⟩ := behind
        exact ⟨rfl, rfl, rfl⟩
      · rintro ⟨rfl, rfl, rfl⟩
        exact ⟨setting, [], _, [], ⟨rfl, rfl, rfl⟩, by simp [found], rfl⟩

/-- The constants that can be pushed. -/
theorem push_constant_flaw?_eq_none_iff {value : Int} :
    (Instruction.push .constant value).flaw? = none ↔
      0 ≤ value ∧ value ≤ Machine.maxConstant := by
  simp only [Instruction.flaw?, Instruction.indexFlaw?, Bool.false_eq_true, if_false]
  split_ifs with negative large
  · simp only [false_iff]
    omega
  · simp only [false_iff]
    omega
  · simp only [true_iff]
    omega

/-- A name that is there and a count that is not negative. -/
theorem nameFlaw?_eq_none {name : Bytes} {count : Int} (named : name ≠ []) (natural : 0 ≤ count) :
    Instruction.nameFlaw? name count = none := by
  rw [Instruction.nameFlaw?, if_neg (by simpa using named), if_neg (Int.not_lt.mpr natural)]

/-- A variable's slot can always be pushed. -/
@[simp] theorem emits_pushBinding_iff {binding : Binding} {done : Unit} :
    Emits (Emit.pushBinding binding line) setting label code next done ↔
      code = [.push binding.storage.segment binding.index] ∧ next = label := by
  have sound : (Instruction.push binding.storage.segment binding.index).flaw? = none := by
    cases storage : binding.storage <;>
      simp [Instruction.flaw?, Instruction.indexFlaw?, Storage.segment]
  simp [Emit.pushBinding, Emit.push, sound]

/-- A variable's slot can always be popped to. -/
@[simp] theorem emits_popBinding_iff {binding : Binding} {done : Unit} :
    Emits (Emit.popBinding binding line) setting label code next done ↔
      code = [.pop binding.storage.segment binding.index] ∧ next = label := by
  have sound : (Instruction.pop binding.storage.segment binding.index).flaw? = none := by
    cases storage : binding.storage <;>
      simp [Instruction.flaw?, Instruction.indexFlaw?, Storage.segment]
  simp [Emit.popBinding, Emit.pop, sound]

end Steps

section Constructs

variable {setting : Setting} {label next : Nat} {code : List Instruction} {line : Int}

/-! ## Terms -/

theorem emits_integer_iff {value : Int} :
    Emits (term (.integer value line)) setting label code next () ↔
      (0 ≤ value ∧ value ≤ Machine.maxConstant) ∧ code = [.push .constant value] ∧
        next = label := by
  simp only [term, Emit.push, emits_checked_iff, push_constant_flaw?_eq_none_iff]

/-- The bytes of a string are appended one by one to a new one of that capacity. -/
def stringCode (value : Bytes) : List Instruction :=
  .push .constant value.length :: .call (utf8 "String.new") 1 ::
    value.flatMap fun byte =>
      [.push .constant byte.toNat, .call (utf8 "String.appendChar") 2]

/-- The length of a string is pushed as a constant, so it has to fit. -/
theorem emits_string_iff {value : Bytes} :
    Emits (term (.string value line)) setting label code next () ↔
      (value.length : Int) ≤ Machine.maxConstant ∧ code = stringCode value ∧
        next = label := by
  have natural : (0 : Int) ≤ value.length := Int.natCast_nonneg _
  simp only [term, string, Emit.push, emits_bind_iff, emits_checked_iff,
    push_constant_flaw?_eq_none_iff, natural, true_and, emits_append_iff, stringCode]
  constructor
  · rintro ⟨_, _, _, _, ⟨fits, rfl, rfl⟩, ⟨_, _, _, _, ⟨rfl, rfl⟩, ⟨rfl, rfl⟩, rfl⟩, rfl⟩
    exact ⟨fits, rfl, rfl⟩
  · rintro ⟨fits, rfl, rfl⟩
    exact ⟨(), _, _, _, ⟨fits, rfl, rfl⟩, ⟨(), _, _, _, ⟨rfl, rfl⟩, ⟨rfl, rfl⟩, rfl⟩, rfl⟩

/-- The code of a keyword constant, for the keywords that are constants. -/
def keywordCode? (word : Bytes) : Option (List Instruction) :=
  if word = utf8 "true" then some [.push .constant 0, .arithmetic .not]
  else if word = utf8 "false" ∨ word = utf8 "null" then some [.push .constant 0]
  else if word = utf8 "this" then some [.push .pointer 0]
  else none

theorem emits_keyword_iff {word : Bytes} :
    Emits (term (.keyword word line)) setting label code next () ↔
      keywordCode? word = some code ∧ next = label := by
  have zero : (Instruction.push .constant 0).flaw? = none := by decide
  have pointer : (Instruction.push .pointer 0).flaw? = none := by decide
  simp only [term, keyword, keywordCode?, Bool.or_eq_true, decide_eq_true_eq, Emit.push]
  split_ifs with isTrue isZero isThis
  · simp only [emits_bind_iff, emits_checked_iff, zero, emits_append_iff,
      Option.some.injEq, true_and]
    constructor
    · rintro ⟨_, _, _, _, ⟨rfl, rfl⟩, ⟨rfl, rfl⟩, rfl⟩
      exact ⟨rfl, rfl⟩
    · rintro ⟨rfl, rfl⟩
      exact ⟨(), _, _, _, ⟨rfl, rfl⟩, ⟨rfl, rfl⟩, rfl⟩
  · simp [zero, eq_comm]
  · simp [pointer, eq_comm]
  · simp

theorem emits_name_iff {name : Bytes} :
    Emits (term (.name name line)) setting label code next () ↔
      ∃ binding, setting.bindings.resolve? name = some binding ∧
        code = [.push binding.storage.segment binding.index] ∧ next = label := by
  simp only [term, emits_bind_iff, emits_resolve_iff, emits_pushBinding_iff]
  constructor
  · rintro ⟨binding, _, _, _, ⟨found, rfl, rfl⟩, ⟨rfl, rfl⟩, rfl⟩
    exact ⟨binding, found, rfl, rfl⟩
  · rintro ⟨binding, found, rfl, rfl⟩
    exact ⟨binding, [], _, _, ⟨found, rfl, rfl⟩, ⟨rfl, rfl⟩, rfl⟩

/-- The address of an array element: the code of the index, then the base is added. -/
theorem emits_elementAddress_iff {array : Bytes} {index : Emit Unit} {done : Unit} :
    Emits (elementAddress array index line) setting label code next done ↔
      ∃ base indexCode, setting.bindings.resolve? array = some base ∧
        Emits index setting label indexCode next () ∧
        code = indexCode ++
          [.push base.storage.segment base.index, .arithmetic .add] := by
  simp only [elementAddress, emits_bind_iff, emits_resolve_iff, emits_pushBinding_iff,
    emits_append_iff]
  constructor
  · rintro ⟨base, _, _, _, ⟨found, rfl, rfl⟩,
      ⟨_, indexCode, _, _, offset, ⟨_, _, _, _, ⟨rfl, rfl⟩, ⟨rfl, rfl⟩, rfl⟩, rfl⟩, rfl⟩
    exact ⟨base, indexCode, found, offset, rfl⟩
  · rintro ⟨base, indexCode, found, offset, rfl⟩
    exact ⟨base, [], _, _, ⟨found, rfl, rfl⟩, ⟨(), indexCode, _, _, offset,
      ⟨(), _, _, _, ⟨rfl, rfl⟩, ⟨rfl, rfl⟩, rfl⟩, rfl⟩, rfl⟩

/-- The index comes first, then the array; their sum is the address. -/
theorem emits_element_iff {array : Bytes} {index : Expression} :
    Emits (term (.element array index line)) setting label code next () ↔
      ∃ base indexCode, setting.bindings.resolve? array = some base ∧
        Emits (expression index) setting label indexCode next () ∧
        code = indexCode ++ [.push base.storage.segment base.index, .arithmetic .add,
          .pop .pointer 1, .push .that 0] := by
  have pointer : (Instruction.pop .pointer 1).flaw? = none := by decide
  have that : (Instruction.push .that 0).flaw? = none := by decide
  simp only [term, Emit.push, Emit.pop, emits_bind_iff, emits_elementAddress_iff,
    emits_checked_iff, pointer, that, true_and]
  constructor
  · rintro ⟨_, _, _, _, ⟨base, indexCode, found, offset, rfl⟩,
      ⟨_, _, _, _, ⟨rfl, rfl⟩, ⟨rfl, rfl⟩, rfl⟩, rfl⟩
    exact ⟨base, indexCode, found, offset, by simp⟩
  · rintro ⟨base, indexCode, found, offset, rfl⟩
    exact ⟨(), _, _, _, ⟨base, indexCode, found, offset, rfl⟩,
      ⟨(), _, _, _, ⟨rfl, rfl⟩, ⟨rfl, rfl⟩, rfl⟩, by simp⟩

theorem emits_group_iff {inner : Expression} :
    Emits (term (.group inner line)) setting label code next () ↔
      Emits (expression inner) setting label code next () := by
  rw [term]

theorem emits_callTerm_iff {called : Call} :
    Emits (term (.call called)) setting label code next () ↔
      Emits (call called) setting label code next () := by
  rw [term]

def unaryInstruction? (symbol : Bytes) : Option Instruction :=
  if symbol = utf8 "-" then some (.arithmetic .neg)
  else if symbol = utf8 "~" then some (.arithmetic .not)
  else none

theorem emits_unary_iff {operator : Operator} {operand : Term} :
    Emits (term (.unary operator operand line)) setting label code next () ↔
      ∃ operandCode instruction, Emits (term operand) setting label operandCode next () ∧
        unaryInstruction? operator.symbol = some instruction ∧
        code = operandCode ++ [instruction] := by
  have step {middle : Nat} {back : List Instruction} :
      Emits (unary operator) setting middle back next () ↔
        ∃ instruction, unaryInstruction? operator.symbol = some instruction ∧
          back = [instruction] ∧ next = middle := by
    unfold unary unaryInstruction?
    split_ifs <;> simp
  simp only [term, emits_bind_iff, step]
  constructor
  · rintro ⟨_, operandCode, _, _, operandEmits, ⟨instruction, known, rfl, rfl⟩, rfl⟩
    exact ⟨operandCode, instruction, operandEmits, known, rfl⟩
  · rintro ⟨operandCode, instruction, operandEmits, known, rfl⟩
    exact ⟨(), operandCode, _, _, operandEmits, ⟨instruction, known, rfl, rfl⟩, rfl⟩

/-! ## Expressions and calls -/

theorem emits_expression_iff {head : Term} {tail : List (Operator × Term)} :
    Emits (expression (.mk head tail)) setting label code next () ↔
      ∃ headCode middle tailCode, Emits (term head) setting label headCode middle () ∧
        Emits (operations tail) setting middle tailCode next () ∧
        code = headCode ++ tailCode := by
  simp only [expression, emits_bind_iff]
  constructor
  · rintro ⟨_, headCode, middle, tailCode, headEmits, tailEmits, rfl⟩
    exact ⟨headCode, middle, tailCode, headEmits, tailEmits, rfl⟩
  · rintro ⟨headCode, middle, tailCode, headEmits, tailEmits, rfl⟩
    exact ⟨(), headCode, middle, tailCode, headEmits, tailEmits, rfl⟩

theorem emits_operations_nil_iff :
    Emits (operations []) setting label code next () ↔ code = [] ∧ next = label := by
  simp [operations]

/-- The binary operators, each with its instruction. -/
inductive BinaryCode : Bytes → Instruction → Prop where
  | sum : BinaryCode (utf8 "+") (.arithmetic .add)
  | difference : BinaryCode (utf8 "-") (.arithmetic .sub)
  | conjunction : BinaryCode (utf8 "&") (.arithmetic .and)
  | disjunction : BinaryCode (utf8 "|") (.arithmetic .or)
  | less : BinaryCode (utf8 "<") (.arithmetic .lt)
  | greater : BinaryCode (utf8 ">") (.arithmetic .gt)
  | equal : BinaryCode (utf8 "=") (.arithmetic .eq)
  | product : BinaryCode (utf8 "*") (.call (utf8 "Math.multiply") 2)
  | quotient : BinaryCode (utf8 "/") (.call (utf8 "Math.divide") 2)

/-- The binary operators are these nine and no others. -/
theorem binaryCode_of_known {symbol : Bytes} {instruction : Instruction}
    (known : binaryInstruction? symbol = some instruction) : BinaryCode symbol instruction := by
  unfold binaryInstruction? at known
  split_ifs at known <;> subst symbol <;> obtain rfl := Option.some.inj known
  exacts [.sum, .difference, .conjunction, .disjunction, .less, .greater, .equal, .product,
    .quotient]

/-- Operations are applied from left to right: the operand, its operator, then the rest. -/
theorem emits_operations_cons_iff {operator : Operator} {operand : Term}
    {rest : List (Operator × Term)} :
    Emits (operations ((operator, operand) :: rest)) setting label code next () ↔
      ∃ operandCode middle instruction restCode,
        Emits (term operand) setting label operandCode middle () ∧
        binaryInstruction? operator.symbol = some instruction ∧
        Emits (operations rest) setting middle restCode next () ∧
        code = operandCode ++ instruction :: restCode := by
  have step {first last : Nat} {back : List Instruction} :
      Emits (binary operator) setting first back last () ↔
        ∃ instruction, binaryInstruction? operator.symbol = some instruction ∧
          back = [instruction] ∧ last = first := by
    unfold binary
    cases binaryInstruction? operator.symbol <;> simp
  simp only [operations, emits_bind_iff, step]
  constructor
  · rintro ⟨_, operandCode, middle, _, operandEmits,
      ⟨_, _, _, restCode, ⟨instruction, known, rfl, rfl⟩, restEmits, rfl⟩, rfl⟩
    exact ⟨operandCode, _, instruction, restCode, operandEmits, known, restEmits, rfl⟩
  · rintro ⟨operandCode, middle, instruction, restCode, operandEmits, known, restEmits, rfl⟩
    exact ⟨(), operandCode, middle, _, operandEmits,
      ⟨(), _, middle, restCode, ⟨instruction, known, rfl, rfl⟩, restEmits, rfl⟩, rfl⟩

theorem qualified_ne_nil (className name : Bytes) : qualified className name ≠ [] := by
  simp [qualified, utf8]

/-- A call pushes a receiver or it does not: `receiverCode` is that push, and `target`
is the function called. -/
inductive Receives (setting : Setting) (name : Bytes) :
    Option Bytes → List Instruction → Bytes → Prop where
  | ownMethod (receiver : setting.hasReceiver = true) :
      Receives setting name none [.push .pointer 0] (qualified setting.className name)
  | ownFunction (receiver : setting.hasReceiver = false) :
      Receives setting name none [] (qualified setting.className name)
  | ofClass {qualifier : Bytes} (free : setting.bindings.resolve? qualifier = none) :
      Receives setting name (some qualifier) [] (qualified qualifier name)
  | ofVariable {qualifier : Bytes} {binding : Binding}
      (bound : setting.bindings.resolve? qualifier = some binding) :
      Receives setting name (some qualifier)
        [.push binding.storage.segment binding.index] (qualified binding.type name)

/-- The receiver counts as an argument if one was pushed. -/
theorem emits_receiver_iff {qualifier : Option Bytes} {name : Bytes}
    {answer : Bytes × Nat} :
    Emits (receiver qualifier name line) setting label code next answer ↔
      Receives setting name qualifier code answer.1 ∧ answer.2 = code.length ∧
        next = label := by
  have pointer : (Instruction.push .pointer 0).flaw? = none := by decide
  obtain ⟨target, received⟩ := answer
  simp only [receiver, emits_bind_iff, emits_setting_iff]
  constructor
  · rintro ⟨current, _, _, _, ⟨rfl, rfl, same⟩, behind, rfl⟩
    subst current
    cases qualifier with
    | none =>
        dsimp only at behind
        split_ifs at behind with method
        · simp only [Emit.push, emits_bind_iff, emits_checked_iff, pointer,
            emits_pure_iff, true_and, Prod.mk.injEq] at behind
          obtain ⟨_, _, _, _, ⟨rfl, rfl⟩, ⟨rfl, rfl, rfl, rfl⟩, rfl⟩ := behind
          exact ⟨.ownMethod method, rfl, rfl⟩
        · simp only [emits_pure_iff, Prod.mk.injEq] at behind
          obtain ⟨rfl, rfl, rfl, rfl⟩ := behind
          exact ⟨.ownFunction (by simpa using method), rfl, rfl⟩
    | some qualifier =>
        cases bound : setting.bindings.resolve? qualifier with
        | none =>
            simp only [bound, emits_pure_iff, Prod.mk.injEq] at behind
            obtain ⟨rfl, rfl, rfl, rfl⟩ := behind
            exact ⟨.ofClass bound, rfl, rfl⟩
        | some binding =>
            simp only [bound, emits_bind_iff, emits_pushBinding_iff, emits_pure_iff,
              Prod.mk.injEq] at behind
            obtain ⟨_, _, _, _, ⟨rfl, rfl⟩, ⟨rfl, rfl, rfl, rfl⟩, rfl⟩ := behind
            exact ⟨.ofVariable bound, rfl, rfl⟩
  · rintro ⟨received, rfl, rfl⟩
    refine ⟨setting, [], _, code, ⟨rfl, rfl, rfl⟩, ?_, rfl⟩
    cases received with
    | ownMethod method => simp [method, Emit.push, pointer]
    | ownFunction function => simp [function]
    | ofClass free => simp [free]
    | ofVariable bound => simp [bound]

/-- The receiver goes first, and counts as an argument. -/
theorem emits_call_iff {qualifier : Option Bytes} {name : Bytes}
    {arguments : List Expression} :
    Emits (call (.mk qualifier name arguments line)) setting label code next () ↔
      ∃ receiverCode target argumentsCode, Receives setting name qualifier receiverCode target ∧
        Emits (expressions arguments) setting label argumentsCode next () ∧
        code = receiverCode ++ (argumentsCode ++
          [.call target ((arguments.length + receiverCode.length : Nat) : Int)]) := by
  simp only [call, emits_bind_iff, emits_receiver_iff]
  constructor
  · rintro ⟨⟨target, received⟩, receiverCode, _, _, ⟨receives, rfl, rfl⟩,
      ⟨_, argumentsCode, _, _, argumentsEmit, behind, rfl⟩, rfl⟩
    obtain ⟨rfl, rfl⟩ := emits_append_iff.mp behind
    exact ⟨receiverCode, target, argumentsCode, receives, argumentsEmit, rfl⟩
  · rintro ⟨receiverCode, target, argumentsCode, receives, argumentsEmit, rfl⟩
    exact ⟨(target, receiverCode.length), receiverCode, _, _, ⟨receives, rfl, rfl⟩,
      ⟨(), argumentsCode, _, _, argumentsEmit, emits_append_iff.mpr ⟨rfl, rfl⟩, rfl⟩, rfl⟩

theorem emits_expressions_nil_iff :
    Emits (expressions []) setting label code next () ↔ code = [] ∧ next = label := by
  simp [expressions]

theorem emits_expressions_cons_iff {argument : Expression} {rest : List Expression} :
    Emits (expressions (argument :: rest)) setting label code next () ↔
      ∃ argumentCode middle restCode,
        Emits (expression argument) setting label argumentCode middle () ∧
        Emits (expressions rest) setting middle restCode next () ∧
        code = argumentCode ++ restCode := by
  simp only [expressions, emits_bind_iff]
  constructor
  · rintro ⟨_, argumentCode, middle, restCode, argumentEmits, restEmits, rfl⟩
    exact ⟨argumentCode, middle, restCode, argumentEmits, restEmits, rfl⟩
  · rintro ⟨argumentCode, middle, restCode, argumentEmits, restEmits, rfl⟩
    exact ⟨(), argumentCode, middle, restCode, argumentEmits, restEmits, rfl⟩

/-! ## Statements -/

/-- Assigning to a variable pops the value into its cell. -/
theorem emits_letName_iff {name : Bytes} {value : Expression} {targetLine : Int} :
    Emits (statement (.letTo (.name name targetLine) value line)) setting label code next ()
      ↔ ∃ binding valueCode, setting.bindings.resolve? name = some binding ∧
        Emits (expression value) setting label valueCode next () ∧
        code = valueCode ++ [.pop binding.storage.segment binding.index] := by
  simp only [statement, assignment, emits_bind_iff, emits_resolve_iff,
    emits_popBinding_iff]
  constructor
  · rintro ⟨binding, _, _, _, ⟨found, rfl, rfl⟩,
      ⟨_, valueCode, _, _, valueEmits, ⟨rfl, rfl⟩, rfl⟩, rfl⟩
    exact ⟨binding, valueCode, found, valueEmits, rfl⟩
  · rintro ⟨binding, valueCode, found, valueEmits, rfl⟩
    exact ⟨binding, [], _, _, ⟨found, rfl, rfl⟩,
      ⟨(), valueCode, _, _, valueEmits, ⟨rfl, rfl⟩, rfl⟩, rfl⟩

/-- What stores the value on top at the address below it. -/
def storeCode : List Instruction :=
  [.pop .temp 0, .pop .pointer 1, .push .temp 0, .pop .that 0]

/-- Assigning to an element computes the address before the value. -/
theorem emits_letElement_iff {array : Bytes} {index value : Expression}
    {targetLine : Int} :
    Emits (statement (.letTo (.element array index targetLine) value line)) setting label
        code next ()
      ↔ ∃ base indexCode middle valueCode, setting.bindings.resolve? array = some base ∧
        Emits (expression index) setting label indexCode middle () ∧
        Emits (expression value) setting middle valueCode next () ∧
        code = indexCode ++ .push base.storage.segment base.index :: .arithmetic .add ::
          (valueCode ++ storeCode) := by
  have popTemp : (Instruction.pop .temp 0).flaw? = none := by decide
  have popPointer : (Instruction.pop .pointer 1).flaw? = none := by decide
  have pushTemp : (Instruction.push .temp 0).flaw? = none := by decide
  have popThat : (Instruction.pop .that 0).flaw? = none := by decide
  simp only [statement, assignment, Emit.push, Emit.pop, emits_bind_iff,
    emits_elementAddress_iff, emits_checked_iff, popTemp, popPointer, pushTemp, popThat,
    true_and, storeCode]
  constructor
  · rintro ⟨_, _, middle, _, ⟨base, indexCode, found, indexEmits, rfl⟩,
      ⟨_, valueCode, _, _, valueEmits, ⟨_, _, _, _, ⟨rfl, rfl⟩, ⟨_, _, _, _, ⟨rfl, rfl⟩,
        ⟨_, _, _, _, ⟨rfl, rfl⟩, ⟨rfl, rfl⟩, rfl⟩, rfl⟩, rfl⟩, rfl⟩, rfl⟩
    exact ⟨base, indexCode, middle, valueCode, found, indexEmits, valueEmits, by simp⟩
  · rintro ⟨base, indexCode, middle, valueCode, found, indexEmits, valueEmits, rfl⟩
    exact ⟨(), _, middle, _, ⟨base, indexCode, found, indexEmits, rfl⟩,
      ⟨(), valueCode, _, _, valueEmits, ⟨(), _, _, _, ⟨rfl, rfl⟩, ⟨(), _, _, _, ⟨rfl, rfl⟩,
        ⟨(), _, _, _, ⟨rfl, rfl⟩, ⟨rfl, rfl⟩, rfl⟩, rfl⟩, rfl⟩, rfl⟩, by simp⟩

/-- Only a variable or an array element can be assigned to. -/
theorem target_of_emits_letTo {target : Term} {value : Expression}
    (emitted : Emits (statement (.letTo target value line)) setting label code next ()) :
    (∃ name targetLine, target = .name name targetLine) ∨
      ∃ array index targetLine, target = .element array index targetLine := by
  cases target with
  | name name targetLine => exact .inl ⟨name, targetLine, rfl⟩
  | element array index targetLine => exact .inr ⟨array, index, targetLine, rfl⟩
  | _ => simp [statement, assignment] at emitted

/-- A label: its stem with its number. -/
def numbered (stem : String) (number : Nat) : Bytes :=
  utf8 stem ++ Numeral.decimal number

/-- The labels are taken behind the condition; the code for an else stands in front. -/
theorem emits_ifElse_iff {condition : Expression} {whenTrue : List Statement}
    {otherwise : Option (List Statement)} :
    Emits (statement (.ifElse condition whenTrue otherwise line)) setting label code next ()
      ↔ ∃ conditionCode number otherwiseCode middle whenTrueCode,
        Emits (expression condition) setting label conditionCode number () ∧
        Emits (alternative otherwise) setting (number + 2) otherwiseCode middle () ∧
        Emits (statements whenTrue) setting middle whenTrueCode next () ∧
        code = conditionCode ++ .ifGoto (numbered "IF_TRUE" number) ::
          (otherwiseCode ++ .goto (numbered "IF_END" (number + 1)) ::
            .label (numbered "IF_TRUE" number) ::
            (whenTrueCode ++ [.label (numbered "IF_END" (number + 1))])) := by
  simp only [statement, emits_bind_iff, emits_labels_iff, numbered]
  constructor
  · rintro ⟨_, conditionCode, number, _, conditionEmits, ⟨⟨_, _⟩, _, _, _, ⟨rfl, rfl, same⟩,
      labelled, rfl⟩, rfl⟩
    obtain ⟨rfl, rfl⟩ := Prod.mk.inj same
    simp only [emits_append_iff] at labelled
    obtain ⟨_, _, _, _, ⟨rfl, rfl⟩, ⟨_, otherwiseCode, middle, _, otherwiseEmits,
      ⟨_, _, _, _, ⟨rfl, rfl⟩, ⟨_, whenTrueCode, _, _, whenTrueEmits, ⟨rfl, rfl⟩, rfl⟩, rfl⟩,
      rfl⟩, rfl⟩ := labelled
    exact ⟨conditionCode, number, otherwiseCode, _, whenTrueCode, conditionEmits,
      otherwiseEmits, whenTrueEmits, by simp⟩
  · rintro ⟨conditionCode, number, otherwiseCode, middle, whenTrueCode, conditionEmits,
      otherwiseEmits, whenTrueEmits, rfl⟩
    refine ⟨(), conditionCode, number, _, conditionEmits, ⟨(_, _), [], _, _, ⟨rfl, rfl, rfl⟩,
      ?_, rfl⟩, rfl⟩
    simp only [emits_append_iff]
    exact ⟨(), _, _, _, ⟨rfl, rfl⟩, ⟨(), otherwiseCode, middle, _, otherwiseEmits,
      ⟨(), _, _, _, ⟨rfl, rfl⟩, ⟨(), whenTrueCode, _, _, whenTrueEmits, ⟨rfl, rfl⟩, rfl⟩, rfl⟩,
      rfl⟩, by simp⟩

/-- The labels are taken in front of the condition. -/
theorem emits_whileDo_iff {condition : Expression} {body : List Statement} :
    Emits (statement (.whileDo condition body line)) setting label code next ()
      ↔ ∃ conditionCode middle bodyCode,
        Emits (expression condition) setting (label + 2) conditionCode middle () ∧
        Emits (statements body) setting middle bodyCode next () ∧
        code = .label (numbered "WHILE_EXP" label) ::
          (conditionCode ++ .arithmetic .not ::
            .ifGoto (numbered "WHILE_END" (label + 1)) ::
            (bodyCode ++ [.goto (numbered "WHILE_EXP" label),
              .label (numbered "WHILE_END" (label + 1))])) := by
  simp only [statement, emits_bind_iff, emits_labels_iff, numbered]
  constructor
  · rintro ⟨⟨_, _⟩, _, _, _, ⟨rfl, rfl, same⟩, labelled, rfl⟩
    obtain ⟨rfl, rfl⟩ := Prod.mk.inj same
    simp only [emits_append_iff] at labelled
    obtain ⟨_, _, _, _, ⟨rfl, rfl⟩, ⟨_, conditionCode, _, _, conditionEmits,
      ⟨_, _, _, _, ⟨rfl, rfl⟩, ⟨_, bodyCode, _, _, bodyEmits, ⟨rfl, rfl⟩, rfl⟩, rfl⟩, rfl⟩,
      rfl⟩ := labelled
    exact ⟨conditionCode, _, bodyCode, conditionEmits, bodyEmits, by simp⟩
  · rintro ⟨conditionCode, middle, bodyCode, conditionEmits, bodyEmits, rfl⟩
    refine ⟨(_, _), [], _, _, ⟨rfl, rfl, rfl⟩, ?_, rfl⟩
    simp only [emits_append_iff]
    exact ⟨(), _, _, _, ⟨rfl, rfl⟩, ⟨(), conditionCode, _, _, conditionEmits,
      ⟨(), _, _, _, ⟨rfl, rfl⟩, ⟨(), bodyCode, _, _, bodyEmits, ⟨rfl, rfl⟩, rfl⟩, rfl⟩, rfl⟩,
      by simp⟩

/-- The result of a call as a statement is dropped. -/
theorem emits_doCall_iff {called : Call} :
    Emits (statement (.doCall called line)) setting label code next () ↔
      ∃ callCode, Emits (call called) setting label callCode next () ∧
        code = callCode ++ [.pop .temp 0] := by
  have popTemp : (Instruction.pop .temp 0).flaw? = none := by decide
  simp only [statement, Emit.pop, emits_bind_iff, emits_checked_iff, popTemp, true_and]
  constructor
  · rintro ⟨_, callCode, _, _, callEmits, ⟨rfl, rfl⟩, rfl⟩
    exact ⟨callCode, callEmits, rfl⟩
  · rintro ⟨callCode, callEmits, rfl⟩
    exact ⟨(), callCode, _, _, callEmits, ⟨rfl, rfl⟩, rfl⟩

/-- Without a value, 0 is given back. -/
theorem emits_giveBack_none_iff :
    Emits (statement (.giveBack none line)) setting label code next () ↔
      code = [.push .constant 0, .ret] ∧ next = label := by
  have zero : (Instruction.push .constant 0).flaw? = none := by decide
  simp only [statement, Emit.push, emits_bind_iff, emits_checked_iff, zero, true_and,
    emits_append_iff]
  constructor
  · rintro ⟨_, _, _, _, ⟨rfl, rfl⟩, ⟨rfl, rfl⟩, rfl⟩
    exact ⟨rfl, rfl⟩
  · rintro ⟨rfl, rfl⟩
    exact ⟨(), _, _, _, ⟨rfl, rfl⟩, ⟨rfl, rfl⟩, rfl⟩

theorem emits_giveBack_some_iff {value : Expression} :
    Emits (statement (.giveBack (some value) line)) setting label code next () ↔
      ∃ valueCode, Emits (expression value) setting label valueCode next () ∧
        code = valueCode ++ [.ret] := by
  simp only [statement, emits_bind_iff, emits_append_iff]
  constructor
  · rintro ⟨_, valueCode, _, _, valueEmits, ⟨rfl, rfl⟩, rfl⟩
    exact ⟨valueCode, valueEmits, rfl⟩
  · rintro ⟨valueCode, valueEmits, rfl⟩
    exact ⟨(), valueCode, _, _, valueEmits, ⟨rfl, rfl⟩, rfl⟩

theorem emits_statements_nil_iff :
    Emits (statements []) setting label code next () ↔ code = [] ∧ next = label := by
  simp [statements]

theorem emits_statements_cons_iff {first : Statement} {rest : List Statement} :
    Emits (statements (first :: rest)) setting label code next () ↔
      ∃ firstCode middle restCode,
        Emits (statement first) setting label firstCode middle () ∧
        Emits (statements rest) setting middle restCode next () ∧
        code = firstCode ++ restCode := by
  simp only [statements, emits_bind_iff]
  constructor
  · rintro ⟨_, firstCode, middle, restCode, firstEmits, restEmits, rfl⟩
    exact ⟨firstCode, middle, restCode, firstEmits, restEmits, rfl⟩
  · rintro ⟨firstCode, middle, restCode, firstEmits, restEmits, rfl⟩
    exact ⟨(), firstCode, middle, restCode, firstEmits, restEmits, rfl⟩

/-- Code for a missing else is the code of no statements. -/
theorem emits_alternative_iff {otherwise : Option (List Statement)} :
    Emits (alternative otherwise) setting label code next () ↔
      Emits (statements (otherwise.getD [])) setting label code next () := by
  cases otherwise with
  | none => simp [alternative, statements]
  | some body => rw [alternative, Option.getD_some]

/-! ## Subroutines -/

def prologueCode (kind : SubroutineKind) (fields : Nat) : List Instruction :=
  match kind with
  | .constructor =>
      [.push .constant fields, .call (utf8 "Memory.alloc") 1, .pop .pointer 0]
  | .method => [.push .argument 0, .pop .pointer 0]
  | .function => []

/-- A constructor needs a count of fields that can be pushed. -/
theorem emits_prologue_iff {kind : SubroutineKind} {done : Unit} :
    Emits (prologue kind line) setting label code next done ↔
      (kind = .constructor →
        (setting.bindings.count .field : Int) ≤ Machine.maxConstant) ∧
      code = prologueCode kind (setting.bindings.count .field) ∧ next = label := by
  have popPointer : (Instruction.pop .pointer 0).flaw? = none := by decide
  have pushArgument : (Instruction.push .argument 0).flaw? = none := by decide
  cases kind with
  | constructor =>
      simp only [prologue, prologueCode, Emit.push, Emit.pop, emits_bind_iff,
        emits_setting_iff, emits_checked_iff, emits_append_iff, popPointer, true_and,
        push_constant_flaw?_eq_none_iff, Int.natCast_nonneg, forall_const]
      constructor
      · rintro ⟨current, _, _, _, ⟨rfl, rfl, same⟩, ⟨_, _, _, _, ⟨fits, rfl, rfl⟩,
          ⟨_, _, _, _, ⟨rfl, rfl⟩, ⟨rfl, rfl⟩, rfl⟩, rfl⟩, rfl⟩
        subst current
        exact ⟨fits, rfl, rfl⟩
      · rintro ⟨fits, rfl, rfl⟩
        exact ⟨setting, [], _, _, ⟨rfl, rfl, rfl⟩, ⟨(), _, _, _, ⟨fits, rfl, rfl⟩,
          ⟨(), _, _, _, ⟨rfl, rfl⟩, ⟨rfl, rfl⟩, rfl⟩, rfl⟩, rfl⟩
  | method =>
      simp only [prologue, prologueCode, Emit.push, Emit.pop, emits_bind_iff,
        emits_checked_iff, popPointer, pushArgument, true_and]
      constructor
      · rintro ⟨_, _, _, _, ⟨rfl, rfl⟩, ⟨rfl, rfl⟩, rfl⟩
        exact ⟨by simp, rfl, rfl⟩
      · rintro ⟨-, rfl, rfl⟩
        exact ⟨(), _, _, _, ⟨rfl, rfl⟩, ⟨rfl, rfl⟩, rfl⟩
  | function => simp [prologue, prologueCode]

theorem function_flaw?_eq_none (className name : Bytes) (locals : Nat) :
    (Instruction.function (qualified className name) locals).flaw? = none :=
  nameFlaw?_eq_none (qualified_ne_nil className name) (Int.natCast_nonneg locals)

/-- A subroutine is a function with its prologue and its statements. Only a constructor can be
refused before them, for the number of its fields. -/
theorem emits_subroutine_iff {tree : Subroutine} :
    Emits (subroutine tree) setting label code next () ↔
      (tree.kind = .constructor →
        (setting.bindings.count .field : Int) ≤ Machine.maxConstant) ∧
      ∃ bodyCode, Emits (statements tree.body.statements) setting label bodyCode next () ∧
        code = .function (qualified setting.className tree.name) (localCount tree.body) ::
          (prologueCode tree.kind (setting.bindings.count .field) ++ bodyCode) := by
  have sound : (Instruction.function (qualified setting.className tree.name)
      (localCount tree.body)).flaw? = none := function_flaw?_eq_none ..
  simp only [subroutine, emits_bind_iff, emits_setting_iff, emits_prologue_iff,
    emits_checked_iff]
  constructor
  · rintro ⟨current, _, _, _, ⟨rfl, rfl, same⟩, ⟨_, _, _, _, ⟨-, rfl, rfl⟩,
      ⟨_, _, _, bodyCode, ⟨fits, rfl, rfl⟩, bodyEmits, rfl⟩, rfl⟩, rfl⟩
    subst current
    exact ⟨fits, bodyCode, bodyEmits, rfl⟩
  · rintro ⟨fits, bodyCode, bodyEmits, rfl⟩
    exact ⟨setting, [], _, _, ⟨rfl, rfl, rfl⟩, ⟨(), _, _, _, ⟨sound, rfl, rfl⟩,
      ⟨(), _, _, bodyCode, ⟨fits, rfl, rfl⟩, bodyEmits, rfl⟩, rfl⟩, rfl⟩

end Constructs

end Jack.Lowering
