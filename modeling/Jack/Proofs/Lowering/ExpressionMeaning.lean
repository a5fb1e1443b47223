import Jack.Proofs.Lowering.Emits
import Jack.Proofs.Tree.Evaluation

/-!
Contract: the code of an expression computes its value.

Owns: that running the code of a term, an expression, a call or arguments pushes the
values that evaluation gives, and leaves the store that evaluation leaves.

Does not own: statements and jumps.

The code may move `pointer 1` and the temporaries on the way; nothing is said about
them afterwards. Evaluation always gives a value where code was emitted.
-/

set_option autoImplicit false

namespace Jack.Lowering

open Machine (Instruction Oracle Slots State Store Word perform performAll
  performAll_append performAll_cons truth)

/-! ## Variables -/

/-- A variable's slot holds its value. -/
theorem load?_binding (state : State) (binding : Binding) :
    state.load? binding.storage.segment binding.index =
      some (Meaning.read state.store binding) := by
  unfold Meaning.read
  cases binding.storage <;>
    simp [State.load?, Storage.segment, Meaning.fieldAddress, BitVec.ofInt_natCast]

/-- Putting a value into a variable's slot is writing the variable. -/
theorem save?_binding (state : State) (binding : Binding) (value : Word) :
    state.save? binding.storage.segment binding.index value =
      some { state with store := Meaning.write state.store binding value } := by
  unfold Meaning.write
  cases binding.storage <;>
    simp [State.save?, Storage.segment, Meaning.fieldAddress, BitVec.ofInt_natCast]

/-! ## Running straight code -/

/-- Run from its first instruction to its last, `code` takes the values `taken` from
the top of the stack and leaves `given` in their place, and leads from `store` to
`after`. What is below stays. -/
def Transforms (oracle : Oracle) (code : List Instruction) (taken : List Word)
    (store : Store) (given : List Word) (after : Store) : Prop :=
  ∀ below element temps, ∃ lastElement lastTemps,
    performAll oracle ⟨taken ++ below, store, element, temps⟩ code =
      some ⟨given ++ below, after, lastElement, lastTemps⟩

section Transforms

variable {oracle : Oracle} {code front back : List Instruction}
  {taken middle given : List Word} {store between after : Store}

theorem Transforms.append (first : Transforms oracle front taken store middle between)
    (second : Transforms oracle back middle between given after) :
    Transforms oracle (front ++ back) taken store given after := by
  intro below element temps
  obtain ⟨middleElement, middleTemps, performedFront⟩ := first below element temps
  obtain ⟨lastElement, lastTemps, performedBack⟩ := second below middleElement middleTemps
  refine ⟨lastElement, lastTemps, ?_⟩
  rw [performAll_append, performedFront, Option.bind_some, performedBack]

/-- Values that are not taken may lie in between. -/
theorem Transforms.above (transformed : Transforms oracle code taken store given after)
    (kept : List Word) : Transforms oracle code (taken ++ kept) store (given ++ kept) after := by
  intro below element temps
  rw [List.append_assoc, List.append_assoc]
  exact transformed (kept ++ below) element temps

theorem transforms_nil (taken : List Word) (store : Store) :
    Transforms oracle [] taken store taken store :=
  fun _ element temps => ⟨element, temps, rfl⟩

theorem transforms_push_constant (oracle : Oracle) (value : Int) (store : Store) :
    Transforms oracle [.push .constant value] [] store [BitVec.ofInt 16 value] store :=
  fun _ element temps => ⟨element, temps, rfl⟩

theorem transforms_push_binding (binding : Binding) (store : Store) :
    Transforms oracle [.push binding.storage.segment binding.index] [] store
      [Meaning.read store binding] store := by
  intro below element temps
  refine ⟨element, temps, ?_⟩
  rw [performAll_cons, perform, load?_binding]
  rfl

theorem transforms_push_receiver (store : Store) :
    Transforms oracle [.push .pointer 0] [] store [store.receiver] store :=
  fun _ element temps => ⟨element, temps, rfl⟩

theorem transforms_arithmetic {operation : Machine.Operation} (store : Store)
    (applied : ∀ below, operation.onStack (taken ++ below) = some (given ++ below)) :
    Transforms oracle [.arithmetic operation] taken store given store := by
  intro below element temps
  refine ⟨element, temps, ?_⟩
  rw [performAll_cons, perform, applied]
  rfl

/-- The last argument of a call is on top. -/
theorem transforms_call (oracle : Oracle) (function : Bytes) (arguments : List Word)
    (store : Store) :
    Transforms oracle [.call function (arguments.length : Int)] arguments.reverse store
      [(oracle.call function arguments store).1] (oracle.call function arguments store).2 := by
  intro below element temps
  have enough : arguments.length ≤ (arguments.reverse ++ below).length := by simp
  have found : ((arguments.reverse ++ below).take arguments.length).reverse = arguments := by
    rw [List.take_left' (by simp), List.reverse_reverse]
  have left : (arguments.reverse ++ below).drop arguments.length = below :=
    List.drop_left' (by simp)
  refine ⟨element, oracle.overwrite function arguments store.heap store.statics temps, ?_⟩
  rw [performAll_cons, perform, State.call?, Int.toNat_natCast, if_pos enough, found, left]
  rfl

/-- An index becomes the address of its element. -/
theorem transforms_address (base : Binding) (offset : Word) (store : Store) :
    Transforms oracle [.push base.storage.segment base.index, .arithmetic .add] [offset]
      store [Meaning.read store base + offset] store := by
  refine ((transforms_push_binding base store).above [offset]).append
    (transforms_arithmetic store ?_)
  intro below
  rw [BitVec.add_comm]
  rfl

/-- An address becomes the value that is kept there. -/
theorem transforms_element (address : Word) (store : Store) :
    Transforms oracle [.pop .pointer 1, .push .that 0] [address] store
      [store.heap address] store := by
  intro below element temps
  refine ⟨address, temps, ?_⟩
  simp [performAll, perform, State.save?, State.load?]

/-- Each keyword constant has a value, and its code pushes that value. -/
theorem transforms_keyword {word : Bytes} (known : keywordCode? word = some code)
    (store : Store) :
    ∃ value, Meaning.keyword? word store = some value ∧
      Transforms oracle code [] store [value] store := by
  unfold keywordCode? at known
  unfold Meaning.keyword?
  split_ifs at known with isTrue isZero isThis
  · obtain rfl := Option.some.inj known
    exact ⟨truth true, if_pos isTrue, fun _ element temps => ⟨element, temps, rfl⟩⟩
  · obtain rfl := Option.some.inj known
    refine ⟨0, ?_, transforms_push_constant oracle 0 store⟩
    rcases isZero with rfl | rfl <;> rfl
  · obtain rfl := Option.some.inj known
    subst isThis
    exact ⟨store.receiver, rfl, transforms_push_receiver store⟩

theorem transforms_unary {symbol : Bytes} {instruction : Instruction}
    (known : unaryInstruction? symbol = some instruction) (value : Word) (store : Store) :
    ∃ result, Meaning.unary? symbol value = some result ∧
      Transforms oracle [instruction] [value] store [result] store := by
  unfold unaryInstruction? at known
  unfold Meaning.unary?
  split_ifs at known ⊢ with isNegation isComplement
  · obtain rfl := Option.some.inj known
    exact ⟨-value, rfl, transforms_arithmetic store fun _ => rfl⟩
  · obtain rfl := Option.some.inj known
    exact ⟨~~~value, rfl, transforms_arithmetic store fun _ => rfl⟩

/-- A binary operator means what its instruction does, with products and quotients left to the
oracle. -/
theorem transforms_binary {symbol : Bytes} {instruction : Instruction} (oracle : Oracle)
    (known : binaryInstruction? symbol = some instruction) (left right : Word)
    (store : Store) :
    ∃ value after, Meaning.binary? oracle symbol left right store = some (value, after) ∧
      Transforms oracle [instruction] [right, left] store [value] after := by
  cases binaryCode_of_known known with
  | product | quotient => exact ⟨_, _, rfl, transforms_call oracle _ [left, right] store⟩
  | _ => exact ⟨_, _, rfl, transforms_arithmetic store fun _ => rfl⟩

/-- The bytes of a string are appended to the text on top. -/
theorem transforms_appended (bytes : Bytes) (text : Word × Store) :
    Transforms oracle
      (bytes.flatMap fun byte =>
        [.push .constant byte.toNat, .call (utf8 "String.appendChar") 2])
      [text.1] text.2
      [(bytes.foldl (Meaning.appendByte oracle) text).1]
      (bytes.foldl (Meaning.appendByte oracle) text).2 := by
  induction bytes generalizing text with
  | nil => exact transforms_nil _ _
  | cons byte rest inductionHypothesis =>
      have pushed := (transforms_push_constant oracle byte.toNat text.2).above [text.1]
      have called := transforms_call oracle (utf8 "String.appendChar")
        [text.1, BitVec.ofNat 16 byte.toNat] text.2
      exact (pushed.append called).append (inductionHypothesis _)

/-- The calls that build a string are those of its meaning, byte by byte. -/
theorem transforms_string (value : Bytes) (store : Store) :
    Transforms oracle (stringCode value) [] store [(Meaning.string oracle value store).1]
      (Meaning.string oracle value store).2 := by
  have pushed := transforms_push_constant oracle value.length store
  have made := transforms_call oracle (utf8 "String.new") [BitVec.ofNat 16 value.length]
    store
  exact (pushed.append made).append (transforms_appended value _)

/-- The code of a receiver pushes what the meaning of the call passes first. -/
theorem Receives.transforms {setting : Setting} {name : Bytes} {qualifier : Option Bytes}
    {target : Bytes} (receives : Receives setting name qualifier code target)
    (oracle : Oracle) (store : Store) :
    ∃ received, Meaning.receiver setting qualifier name store = (target, received) ∧
      received.length = code.length ∧
      Transforms oracle code [] store received.reverse store := by
  unfold Meaning.receiver
  cases receives with
  | ownMethod method =>
      exact ⟨[store.receiver], by simp [method], rfl, transforms_push_receiver store⟩
  | ownFunction function => exact ⟨[], by simp [function], rfl, transforms_nil _ store⟩
  | ofClass free => exact ⟨[], by simp [free], rfl, transforms_nil _ store⟩
  | ofVariable bound =>
      exact ⟨[Meaning.read store _], by simp [bound], rfl, transforms_push_binding _ store⟩

end Transforms

/-! ## Expressions -/

section Expressions

variable (oracle : Oracle) {setting : Setting}

mutual

/-- The code of a term computes its value: it pushes the one that evaluation gives, and
leaves the store that evaluation leaves. -/
theorem term_computes : (tree : Term) → {label next : Nat} → {code : List Instruction} →
    Emits (term tree) setting label code next () → (store : Store) →
    ∃ value after, Meaning.term oracle setting tree store = some (value, after) ∧
      Transforms oracle code [] store [value] after
  | .integer value line, _, _, _, emitted, store => by
      obtain ⟨_, rfl, _⟩ := emits_integer_iff.mp emitted
      exact ⟨_, store, by rw [Meaning.term], transforms_push_constant oracle value store⟩
  | .string value line, _, _, _, emitted, store => by
      obtain ⟨_, rfl, _⟩ := emits_string_iff.mp emitted
      exact ⟨_, _, by rw [Meaning.term], transforms_string value store⟩
  | .keyword word line, _, _, _, emitted, store => by
      obtain ⟨known, _⟩ := emits_keyword_iff.mp emitted
      obtain ⟨value, constant, transformed⟩ := transforms_keyword known store
      exact ⟨value, store, by rw [Meaning.term, constant, Option.map_some], transformed⟩
  | .name name line, _, _, _, emitted, store => by
      obtain ⟨binding, bound, rfl, _⟩ := emits_name_iff.mp emitted
      exact ⟨_, store, by rw [Meaning.term, bound, Option.map_some],
        transforms_push_binding binding store⟩
  | .element array index line, _, _, _, emitted, store => by
      obtain ⟨base, indexCode, bound, indexEmits, rfl⟩ := emits_element_iff.mp emitted
      obtain ⟨offset, after, evaluated, transformed⟩ :=
        expression_computes index indexEmits store
      refine ⟨after.heap (Meaning.read after base + offset), after, ?_, ?_⟩
      · simp [Meaning.term, bound, evaluated]
      · exact transformed.append
          ((transforms_address base offset after).append (transforms_element _ after))
  | .call called, _, _, _, emitted, store => by
      rw [Meaning.term]
      exact call_computes called (emits_callTerm_iff.mp emitted) store
  | .group inner line, _, _, _, emitted, store => by
      rw [Meaning.term]
      exact expression_computes inner (emits_group_iff.mp emitted) store
  | .unary operator operand line, _, _, _, emitted, store => by
      obtain ⟨operandCode, applied, operandEmits, known, rfl⟩ := emits_unary_iff.mp emitted
      obtain ⟨value, after, evaluated, transformed⟩ :=
        term_computes operand operandEmits store
      obtain ⟨result, computed, transformedResult⟩ := transforms_unary known value after
      refine ⟨result, after, ?_, transformed.append transformedResult⟩
      simp [Meaning.term, evaluated, computed]

/-- Emitted code always has a meaning: an expression with code has a value, and the code pushes
it. -/
theorem expression_computes : (tree : Expression) → {label next : Nat} →
    {code : List Instruction} → Emits (expression tree) setting label code next () →
    (store : Store) →
    ∃ value after, Meaning.expression oracle setting tree store = some (value, after) ∧
      Transforms oracle code [] store [value] after
  | .mk head tail, _, _, _, emitted, store => by
      obtain ⟨headCode, middle, tailCode, headEmits, tailEmits, rfl⟩ :=
        emits_expression_iff.mp emitted
      obtain ⟨left, between, evaluated, transformed⟩ := term_computes head headEmits store
      obtain ⟨value, after, evaluatedTail, transformedTail⟩ :=
        operations_compute tail tailEmits left between
      refine ⟨value, after, ?_, transformed.append transformedTail⟩
      simp [Meaning.expression, evaluated, evaluatedTail]

/-- The value so far is on top of the stack. -/
theorem operations_compute : (tail : List (Operator × Term)) → {label next : Nat} →
    {code : List Instruction} → Emits (operations tail) setting label code next () →
    (left : Word) → (store : Store) →
    ∃ value after, Meaning.operations oracle setting tail left store = some (value, after) ∧
      Transforms oracle code [left] store [value] after
  | [], _, _, _, emitted, left, store => by
      obtain ⟨rfl, _⟩ := emits_operations_nil_iff.mp emitted
      exact ⟨left, store, by rw [Meaning.operations], transforms_nil _ store⟩
  | (operator, operand) :: rest, _, _, _, emitted, left, store => by
      obtain ⟨operandCode, middle, applied, restCode, operandEmits, known, restEmits, rfl⟩ :=
        emits_operations_cons_iff.mp emitted
      obtain ⟨right, between, evaluated, transformed⟩ :=
        term_computes operand operandEmits store
      obtain ⟨result, computed, appliedTo, transformedResult⟩ :=
        transforms_binary oracle known left right between
      obtain ⟨value, after, evaluatedRest, transformedRest⟩ :=
        operations_compute rest restEmits result computed
      refine ⟨value, after, ?_, ?_⟩
      · simp [Meaning.operations, evaluated, appliedTo, evaluatedRest]
      · exact (transformed.above [left]).append (transformedResult.append transformedRest)

/-- The arguments lie on the stack in reverse when the call takes them. -/
theorem call_computes : (tree : Call) → {label next : Nat} → {code : List Instruction} →
    Emits (call tree) setting label code next () → (store : Store) →
    ∃ value after, Meaning.call oracle setting tree store = some (value, after) ∧
      Transforms oracle code [] store [value] after
  | .mk qualifier name arguments line, _, _, _, emitted, store => by
      obtain ⟨receiverCode, target, argumentsCode, receives, argumentsEmit, rfl⟩ :=
        emits_call_iff.mp emitted
      obtain ⟨received, found, receivedCount, transformed⟩ :=
        receives.transforms oracle store
      obtain ⟨values, between, evaluated, valuesCount, transformedArguments⟩ :=
        expressions_compute arguments argumentsEmit store
      have count : arguments.length + receiverCode.length = (received ++ values).length := by
        rw [List.length_append, receivedCount, valuesCount, Nat.add_comm]
      have called := transforms_call oracle target (received ++ values) between
      rw [← count, List.reverse_append] at called
      refine ⟨(oracle.call target (received ++ values) between).1,
        (oracle.call target (received ++ values) between).2, ?_, transformed.append
        ((transformedArguments.above received.reverse).append called)⟩
      simp [Meaning.call, found, evaluated]

/-- The arguments of a call are pushed one after the other. -/
theorem expressions_compute : (arguments : List Expression) → {label next : Nat} →
    {code : List Instruction} → Emits (expressions arguments) setting label code next () →
    (store : Store) →
    ∃ values after, Meaning.expressions oracle setting arguments store = some (values, after) ∧
      values.length = arguments.length ∧ Transforms oracle code [] store values.reverse after
  | [], _, _, _, emitted, store => by
      obtain ⟨rfl, _⟩ := emits_expressions_nil_iff.mp emitted
      exact ⟨[], store, by rw [Meaning.expressions], rfl, transforms_nil _ store⟩
  | argument :: rest, _, _, _, emitted, store => by
      obtain ⟨argumentCode, middle, restCode, argumentEmits, restEmits, rfl⟩ :=
        emits_expressions_cons_iff.mp emitted
      obtain ⟨value, between, evaluated, transformed⟩ :=
        expression_computes argument argumentEmits store
      obtain ⟨values, after, evaluatedRest, count, transformedRest⟩ :=
        expressions_compute rest restEmits between
      refine ⟨value :: values, after, ?_, by rw [List.length_cons, List.length_cons, count], ?_⟩
      · simp [Meaning.expressions, evaluated, evaluatedRest]
      · rw [List.reverse_cons]
        exact transformed.append (transformedRest.above [value])

end

end Expressions

end Jack.Lowering
