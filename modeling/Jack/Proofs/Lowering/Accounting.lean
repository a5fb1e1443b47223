import Jack.Proofs.Grammar.Sources
import Jack.Proofs.Lowering.Emits
import Jack.Proofs.Tree.Mentions

/-!
Contract: lowering accounts for everything that is mentioned.

Owns: which instructions access variables, which ones a mention asks for, why a mention
can be refused; and that the code of a well-formed tree accesses variables exactly as its
mentions ask for, in their order, and fails exactly if one of them is refused.

Does not own: what the variables of a program are.
-/

set_option autoImplicit false

namespace Jack.Machine

def Segment.holdsVariables : Segment → Bool
  | .argument | .local | .static | .this => true
  | .constant | .that | .pointer | .temp => false

def Instruction.isAccess : Instruction → Bool
  | push segment _ | pop segment _ => segment.holdsVariables
  | _ => false

def accesses (code : List Instruction) : List Instruction :=
  code.filter Instruction.isAccess

theorem accesses_append (front back : List Instruction) :
    accesses (front ++ back) = accesses front ++ accesses back :=
  List.filter_append ..

end Jack.Machine

namespace Jack

open Machine (Instruction Segment accesses accesses_append)

/-- The instruction by which a variable is used. Only a target is written. -/
def Use.instruction (use : Use) (segment : Segment) (index : Int) : Instruction :=
  match use with
  | .target => .pop segment index
  | .value | .base | .qualifier => .push segment index

namespace Mention

/-- The accesses that a mention asks for: one if it names a variable. -/
def accesses (bindings : Bindings) : Mention → List Instruction
  | .name use word =>
      ((bindings.resolve? word).map fun binding =>
        use.instruction binding.storage.segment binding.index).toList
  | .string _ => []

/-- A mention for which there is no code, with the fault. A qualifier is never refused: it
may be the name of a class. -/
inductive Refused (bindings : Bindings) : Mention → CodegenFault → Prop where
  | undeclared {use : Use} {name : Bytes} (isVariable : use ≠ .qualifier)
      (free : bindings.resolve? name = none) :
      Refused bindings (.name use name) (.undeclared name)
  | tooLong {value : Bytes} (long : Machine.maxConstant < value.length) :
      Refused bindings (.string value)
        (.invalidInstruction (.push .constant value.length) .constantTooLarge)

end Mention

namespace Lowering

/-- If the step succeeds, it accesses variables as expected and none of the mentions is
refused; if it fails, one of them is, and that is the fault. -/
structure Accounts {Value : Type} (step : Emit Value) (setting : Setting)
    (expected : List Instruction) (mentions : List Mention) : Prop where
  accepted : ∀ {label code next value}, Emits step setting label code next value →
    accesses code = expected ∧
      ∀ mention ∈ mentions, ∀ fault, ¬ mention.Refused setting.bindings fault
  refused : ∀ {label diagnostic}, (step setting label).result = .error diagnostic →
    ∃ mention ∈ mentions, ∃ fault, mention.Refused setting.bindings fault ∧
      diagnostic.cause = .codegen fault

section Steps

variable {Value Other : Type} {step : Emit Value} {rest : Value → Emit Other}
  {setting : Setting} {expected front back : List Instruction}
  {mentions others : List Mention} {line : Int}

/-- A sequence fails where its first part fails, or behind it. -/
theorem result_bind_eq_error {label : Nat} {diagnostic : Diagnostic}
    (failed : ((step >>= rest) setting label).result = .error diagnostic) :
    (step setting label).result = .error diagnostic ∨
      ∃ code next value, Emits step setting label code next value ∧
        (rest value setting next).result = .error diagnostic := by
  change (Emit.andThen step rest setting label).result = _ at failed
  cases before : (step setting label).result with
  | error other =>
      simp only [Emit.andThen, before] at failed
      exact .inl (congrArg Except.error (Except.error.inj failed))
  | ok value =>
      simp only [Emit.andThen, before] at failed
      exact .inr ⟨_, _, value, emits_of_result before, failed⟩

namespace Accounts

/-- Steps in sequence account for the mentions of both. The second one is only asked to where the
first succeeds, since otherwise nothing of it is emitted. -/
theorem bind (first : Accounts step setting front mentions)
    (second : ∀ {label code next value}, Emits step setting label code next value →
      Accounts (rest value) setting back others) :
    Accounts (step >>= rest) setting (front ++ back) (mentions ++ others) where
  accepted := by
    intro label code next value emitted
    obtain ⟨middleValue, frontCode, middle, backCode, emitsFirst, emitsRest, rfl⟩ :=
      emits_bind_iff.mp emitted
    obtain ⟨frontEq, frontFree⟩ := first.accepted emitsFirst
    obtain ⟨backEq, backFree⟩ := (second emitsFirst).accepted emitsRest
    refine ⟨by rw [accesses_append, frontEq, backEq], ?_⟩
    exact List.forall_mem_append.mpr ⟨frontFree, backFree⟩
  refused := by
    intro label diagnostic failed
    rcases result_bind_eq_error failed with inFirst | ⟨code, next, value, emitted, inRest⟩
    · obtain ⟨mention, member, explained⟩ := first.refused inFirst
      exact ⟨mention, List.mem_append_left _ member, explained⟩
    · obtain ⟨mention, member, explained⟩ := (second emitted).refused inRest
      exact ⟨mention, List.mem_append_right _ member, explained⟩

/-- Only which mentions there are matters, not their order. -/
theorem reorder (accounts : Accounts step setting expected mentions)
    (perm : mentions.Perm others) : Accounts step setting expected others where
  accepted emitted :=
    ⟨(accounts.accepted emitted).1, fun mention member =>
      (accounts.accepted emitted).2 mention (perm.mem_iff.mpr member)⟩
  refused failed := by
    obtain ⟨mention, member, explained⟩ := accounts.refused failed
    exact ⟨mention, perm.mem_iff.mp member, explained⟩

/-- A step that never fails has nothing to explain. -/
theorem of_succeeds
    (succeeds : ∀ label, ∃ code next value, Emits step setting label code next value)
    (accesses_eq : ∀ {label code next value}, Emits step setting label code next value →
      accesses code = expected)
    (free : ∀ mention ∈ mentions, ∀ fault, ¬ mention.Refused setting.bindings fault) :
    Accounts step setting expected mentions where
  accepted emitted := ⟨accesses_eq emitted, free⟩
  refused {label diagnostic} failed := by
    obtain ⟨code, next, value, emitted⟩ := succeeds label
    unfold Emits at emitted
    rw [emitted] at failed
    cases failed

end Accounts

theorem accounts_pure (value : Value) : Accounts (pure value) setting [] [] := by
  refine .of_succeeds (fun label => ⟨[], label, value, emits_pure_iff.mpr ⟨rfl, rfl, rfl⟩⟩) ?_
    (by simp)
  intro label code next result emitted
  rw [(emits_pure_iff.mp emitted).1]
  rfl

/-- Code that touches no variable adds to neither side of the account. -/
theorem accounts_append {code : List Instruction} (plain : accesses code = []) :
    Accounts (Emit.append code) setting [] [] := by
  refine .of_succeeds (fun label => ⟨code, label, (), emits_append_iff.mpr ⟨rfl, rfl⟩⟩) ?_
    (by simp)
  intro label emittedCode next done emitted
  rw [(emits_append_iff.mp emitted).1, plain]

theorem accounts_labels (first second : Bytes) :
    Accounts (Emit.labels first second) setting [] [] := by
  refine .of_succeeds (fun label => ⟨[], _, _, emits_labels_iff.mpr ⟨rfl, rfl, rfl⟩⟩) ?_
    (by simp)
  intro label code next names emitted
  rw [(emits_labels_iff.mp emitted).1]
  rfl

theorem accounts_checked {instruction : Instruction} (sound : instruction.flaw? = none)
    (plain : instruction.isAccess = false) :
    Accounts (Emit.checked instruction line) setting [] [] := by
  refine .of_succeeds
    (fun label => ⟨[instruction], label, (), emits_checked_iff.mpr ⟨sound, rfl, rfl⟩⟩) ?_
    (by simp)
  intro label code next done emitted
  rw [(emits_checked_iff.mp emitted).2.1]
  simp [accesses, plain]

theorem accounts_pushBinding (binding : Binding) :
    Accounts (Emit.pushBinding binding line) setting
      [.push binding.storage.segment binding.index] [] := by
  refine .of_succeeds (fun label => ⟨_, label, (), emits_pushBinding_iff.mpr ⟨rfl, rfl⟩⟩) ?_
    (by simp)
  intro label code next done emitted
  rw [(emits_pushBinding_iff.mp emitted).1]
  cases storage : binding.storage <;> rfl

theorem accounts_popBinding (binding : Binding) :
    Accounts (Emit.popBinding binding line) setting
      [.pop binding.storage.segment binding.index] [] := by
  refine .of_succeeds (fun label => ⟨_, label, (), emits_popBinding_iff.mpr ⟨rfl, rfl⟩⟩) ?_
    (by simp)
  intro label code next done emitted
  rw [(emits_popBinding_iff.mp emitted).1]
  cases storage : binding.storage <;> rfl

/-- Looking a name up is where an unknown name is refused. -/
theorem accounts_resolve {use : Use} (isVariable : use ≠ .qualifier) (name : Bytes) :
    Accounts (Emit.resolve name line) setting [] [.name use name] where
  accepted := by
    intro label code next binding emitted
    obtain ⟨bound, rfl, -⟩ := emits_resolve_iff.mp emitted
    refine ⟨rfl, List.forall_mem_singleton.mpr ?_⟩
    rintro fault ⟨_, free⟩
    rw [bound] at free
    cases free
  refused := by
    intro label diagnostic failed
    cases found : setting.bindings.resolve? name with
    | some binding =>
        have emitted : Emits (Emit.resolve name line) setting label [] label binding :=
          emits_resolve_iff.mpr ⟨found, rfl, rfl⟩
        unfold Emits at emitted
        rw [emitted] at failed
        cases failed
    | none =>
        refine ⟨_, List.mem_singleton.mpr rfl, .undeclared name, .undeclared isVariable found, ?_⟩
        rcases result_bind_eq_error failed with inFirst | ⟨_, _, _, emitted, inRest⟩
        · cases inFirst
        · obtain ⟨-, -, rfl⟩ := emits_setting_iff.mp emitted
          simp only [found] at inRest
          cases inRest
          rfl

/-- A variable that is looked up first and used at the end. -/
theorem Accounts.resolve {use : Use} (isVariable : use ≠ .qualifier) {name : Bytes}
    {inner : Emit Unit} {last : Binding → Emit Unit}
    (before : Accounts inner setting expected mentions)
    (access : ∀ binding, Accounts (last binding) setting
      [use.instruction binding.storage.segment binding.index] []) :
    Accounts (Emit.resolve name line >>= fun binding => inner >>= fun _ => last binding) setting
      (expected ++ (Mention.name use name).accesses setting.bindings)
      (mentions ++ [.name use name]) := by
  have used {binding : Binding} (bound : setting.bindings.resolve? name = some binding) :
      Accounts (inner >>= fun _ => last binding) setting
        (expected ++ (Mention.name use name).accesses setting.bindings) mentions := by
    have inOrder : Accounts (inner >>= fun _ => last binding) setting
        (expected ++ [use.instruction binding.storage.segment binding.index]) (mentions ++ []) :=
      before.bind fun _ => access binding
    simpa [Mention.accesses, bound] using inOrder
  have lookedUp : Accounts (Emit.resolve name line) setting [] [.name use name] :=
    accounts_resolve isVariable name
  have combined := lookedUp.bind fun emitted => used (emits_resolve_iff.mp emitted).1
  exact combined.reorder List.perm_append_comm

end Steps

section Terms

variable {setting : Setting} {line : Int} {expected : List Instruction}
  {mentions : List Mention}

theorem accounts_push_constant {value : Int} (natural : 0 ≤ value)
    (small : value ≤ Machine.maxConstant) :
    Accounts (Emit.push .constant value line) setting [] [] :=
  accounts_checked (push_constant_flaw?_eq_none_iff.mpr ⟨natural, small⟩) rfl

/-- A constant that is too large is refused where it is pushed. -/
theorem push_constant_of_large {value : Int} (large : Machine.maxConstant < value) :
    Emit.push .constant value line =
      Emit.fail (.invalidInstruction (.push .constant value) .constantTooLarge) line := by
  have flaw : (Instruction.push .constant value).flaw? = some .constantTooLarge := by
    have natural : ¬ value < 0 := by
      simp only [Machine.maxConstant] at large
      omega
    simp only [Instruction.flaw?, Instruction.indexFlaw?, Bool.false_eq_true, if_false]
    rw [if_neg natural, if_pos large]
  rw [Emit.push, Emit.checked, flaw]

/-- The length of a string is pushed, which fails for a string that is too long. -/
theorem accounts_push_length (value : Bytes) :
    Accounts (Emit.push .constant value.length line) setting [] [.string value] := by
  by_cases long : Machine.maxConstant < value.length
  · rw [push_constant_of_large long]
    refine ⟨?_, ?_⟩
    · intro label code next done emitted
      exact absurd (congrArg Emission.result emitted) (by simp [Emit.fail])
    · intro label diagnostic failed
      cases failed
      exact ⟨_, List.mem_singleton.mpr rfl, _, .tooLong long, rfl⟩
  · have pushed : Accounts (Emit.push .constant value.length line) setting [] [] :=
      accounts_push_constant (Int.natCast_nonneg _) (not_lt.mp long)
    refine ⟨fun emitted => ⟨(pushed.accepted emitted).1, List.forall_mem_singleton.mpr ?_⟩, ?_⟩
    · intro fault refused
      cases refused with
      | tooLong tooLong => exact long tooLong
    · intro label diagnostic failed
      obtain ⟨_, member, _⟩ := pushed.refused failed
      exact absurd member List.not_mem_nil

theorem accounts_push_that : Accounts (Emit.push .that 0 line) setting [] [] :=
  accounts_checked (by decide) rfl

theorem accounts_pop_temp : Accounts (Emit.pop .temp 0 line) setting [] [] :=
  accounts_checked (by decide) rfl

theorem accounts_pop_pointer (index : Int) (sound : (Instruction.pop .pointer index).flaw? = none) :
    Accounts (Emit.pop .pointer index line) setting [] [] :=
  accounts_checked sound rfl

/-- A value goes to the address below it by way of a register. -/
theorem accounts_store :
    Accounts (do
      Emit.pop .temp 0 line
      Emit.pop .pointer 1 line
      Emit.push .temp 0 line
      Emit.pop .that 0 line) setting [] [] :=
  accounts_pop_temp.bind fun _ => (accounts_pop_pointer 1 (by decide)).bind fun _ =>
    (accounts_checked (by decide) rfl).bind fun _ => accounts_checked (by decide) rfl

/-- A string touches no variable, but it can be too long. -/
theorem accounts_string (value : Bytes) :
    Accounts (string value line) setting [] [.string value] := by
  have bytes : accesses (value.flatMap fun byte =>
      [.push .constant byte.toNat, .call (utf8 "String.appendChar") 2]) = [] := by
    rw [accesses, List.filter_eq_nil_iff]
    intro instruction member
    simp only [List.mem_flatMap, List.mem_cons, List.not_mem_nil, or_false] at member
    rcases member with ⟨byte, -, rfl | rfl⟩ <;> exact Bool.false_ne_true
  exact (accounts_push_length value).bind fun _ =>
    (accounts_append rfl).bind fun _ => accounts_append bytes

/-- A keyword that is a constant has code, so nothing is refused. -/
theorem accounts_keyword {word : Bytes} (known : isAmong keywordConstants word = true) :
    Accounts (keyword word line) setting [] [] := by
  have zero : Accounts (Emit.push .constant 0 line) setting [] [] :=
    accounts_push_constant (by decide) (by decide)
  obtain ⟨literal, member, rfl⟩ := isAmong_iff.mp known
  simp only [keywordConstants, List.mem_cons, List.not_mem_nil, or_false] at member
  rcases member with rfl | rfl | rfl | rfl
  · exact zero.bind fun _ => accounts_append rfl
  · exact zero
  · exact zero
  · exact show Accounts (Emit.checked (.push .pointer 0) line) setting [] [] from
      accounts_checked (by decide) rfl

theorem accounts_unary {operator : Operator}
    (known : isAmong unarySymbols operator.symbol = true) :
    Accounts (unary operator) setting [] [] := by
  obtain ⟨symbol, operatorLine⟩ := operator
  obtain ⟨literal, member, rfl⟩ := isAmong_iff.mp known
  simp only [unarySymbols, List.mem_cons, List.not_mem_nil, or_false] at member
  rcases member with rfl | rfl
  · exact accounts_append rfl
  · exact accounts_append rfl

theorem accounts_binary {operator : Operator}
    (known : isAmong binarySymbols operator.symbol = true) :
    Accounts (binary operator) setting [] [] := by
  obtain ⟨symbol, operatorLine⟩ := operator
  obtain ⟨literal, member, rfl⟩ := isAmong_iff.mp known
  simp only [binarySymbols, List.mem_cons, List.not_mem_nil, or_false] at member
  rcases member with rfl | rfl | rfl | rfl | rfl | rfl | rfl | rfl | rfl <;>
    exact accounts_append rfl

/-- The index comes before the array in the code, as it does among the mentions. -/
theorem accounts_elementAddress {array : Bytes} {index : Emit Unit}
    (before : Accounts index setting expected mentions) :
    Accounts (elementAddress array index line) setting
      (expected ++ (Mention.name .base array).accesses setting.bindings)
      (mentions ++ [.name .base array]) :=
  before.resolve (by decide) fun binding =>
    (accounts_pushBinding binding).bind fun _ => accounts_append rfl

/-- A receiver is pushed if the qualifier is a variable; it is never refused. -/
theorem accounts_receiver (qualifier : Option Bytes) (name : Bytes) :
    Accounts (receiver qualifier name line) setting
      ((qualifier.toList.map (Mention.name .qualifier)).flatMap
        (Mention.accesses setting.bindings))
      (qualifier.toList.map (.name .qualifier)) := by
  have exists_receives : ∃ code target, Receives setting name qualifier code target := by
    cases qualifier with
    | none =>
        cases receiver : setting.hasReceiver with
        | true => exact ⟨_, _, .ownMethod receiver⟩
        | false => exact ⟨_, _, .ownFunction receiver⟩
    | some qualifier =>
        cases found : setting.bindings.resolve? qualifier with
        | none => exact ⟨_, _, .ofClass found⟩
        | some binding => exact ⟨_, _, .ofVariable found⟩
  refine .of_succeeds ?_ ?_ ?_
  · intro label
    obtain ⟨code, target, receives⟩ := exists_receives
    exact ⟨code, label, (target, code.length), emits_receiver_iff.mpr ⟨receives, rfl, rfl⟩⟩
  · intro label code next answer emitted
    obtain ⟨receives, -, -⟩ := emits_receiver_iff.mp emitted
    generalize answer.1 = target at receives
    cases receives with
    | ownMethod => rfl
    | ownFunction => rfl
    | ofClass free => simp [Mention.accesses, free, accesses]
    | @ofVariable _ binding bound =>
        simp only [Option.toList_some, List.map_singleton, List.flatMap_singleton,
          Mention.accesses, bound, Option.map_some]
        cases storage : binding.storage <;> rfl
  · simp only [List.mem_map, Option.mem_toList]
    rintro mention ⟨_, _, rfl⟩ fault ⟨isVariable⟩
    exact isVariable rfl

end Terms

/-! ## Trees -/

/-- The code accesses variables as the mentions ask for, in their order. -/
def AccountsFor {Value : Type} (step : Emit Value) (setting : Setting)
    (mentions : List Mention) : Prop :=
  Accounts step setting (mentions.flatMap (Mention.accesses setting.bindings)) mentions

namespace AccountsFor

variable {Value Other : Type} {step : Emit Value} {rest : Value → Emit Other}
  {setting : Setting} {mentions others : List Mention}

/-- Trees in sequence: the accesses that their mentions ask for come one after the other. -/
theorem bind (first : AccountsFor step setting mentions)
    (second : ∀ value, AccountsFor (rest value) setting others) :
    AccountsFor (step >>= rest) setting (mentions ++ others) := by
  unfold AccountsFor
  rw [List.flatMap_append]
  exact Accounts.bind first fun _ => second _

/-- Behind the code of a tree, instructions that access no variables. -/
theorem bind_plain (first : AccountsFor step setting mentions)
    (second : ∀ value, Accounts (rest value) setting [] []) :
    AccountsFor (step >>= rest) setting mentions := by
  have combined : AccountsFor (step >>= rest) setting (mentions ++ []) := first.bind second
  rwa [List.append_nil] at combined

end AccountsFor

/-- In front of the code of a tree, the same. -/
theorem Accounts.plain_bind {Value Other : Type} {step : Emit Value}
    {rest : Value → Emit Other} {setting : Setting} {mentions : List Mention}
    (first : Accounts step setting [] [])
    (second : ∀ value, AccountsFor (rest value) setting mentions) :
    AccountsFor (step >>= rest) setting mentions :=
  Accounts.bind first fun _ => second _

variable {setting : Setting}

theorem accountsFor_name (name : Bytes) {line : Int} :
    AccountsFor (Emit.resolve name line >>= fun binding => Emit.pushBinding binding line)
      setting [.name .value name] := by
  have isVariable : Use.value ≠ .qualifier := by decide
  unfold AccountsFor
  rw [List.flatMap_singleton]
  exact (accounts_pure ()).resolve isVariable accounts_pushBinding

theorem accountsFor_elementAddress {array : Bytes} {index : Emit Unit} {line : Int}
    {mentions : List Mention} (before : AccountsFor index setting mentions) :
    AccountsFor (elementAddress array index line) setting (mentions ++ [.name .base array]) := by
  have accounts : Accounts (elementAddress array index line) setting _ _ :=
    accounts_elementAddress before
  unfold AccountsFor
  rwa [List.flatMap_append, List.flatMap_singleton]

mutual

/-- A term accesses the variables it mentions, in the order of its code. Each refusal is one of a
mention. -/
theorem accountsFor_term : (tree : Term) → tree.wellFormed = true →
    (∀ piece ∈ tree.spelling, piece.Fits) → AccountsFor (term tree) setting tree.mentions
  | .integer value line, _, fits => by
      simp only [Term.spelling, List.forall_mem_singleton] at fits
      rw [term, Term.mentions]
      exact accounts_push_constant fits.1 fits.2
  | .string value line, _, _ => by
      rw [term, Term.mentions]
      exact accounts_string value
  | .keyword word line, wellFormed, _ => by
      rw [Term.wellFormed] at wellFormed
      rw [term, Term.mentions]
      exact accounts_keyword wellFormed
  | .name name line, _, _ => by
      rw [term, Term.mentions]
      exact accountsFor_name name
  | .element array index line, wellFormed, fits => by
      simp only [Term.wellFormed, Bool.and_eq_true] at wellFormed
      simp only [Term.spelling, List.forall_mem_cons, List.forall_mem_append] at fits
      have ofIndex : AccountsFor (expression index) setting index.mentions :=
        accountsFor_expression index wellFormed.2 fits.2.2.1
      rw [term, Term.mentions]
      refine (accountsFor_elementAddress ofIndex).bind_plain fun _ => ?_
      exact (accounts_pop_pointer 1 (by decide)).bind fun _ => accounts_push_that
  | .call called, wellFormed, fits => by
      rw [Term.wellFormed] at wellFormed
      rw [Term.spelling] at fits
      rw [term, Term.mentions]
      exact accountsFor_call called wellFormed fits
  | .group inner line, wellFormed, fits => by
      rw [Term.wellFormed] at wellFormed
      simp only [Term.spelling, List.forall_mem_cons, List.forall_mem_append] at fits
      rw [term, Term.mentions]
      exact accountsFor_expression inner wellFormed fits.2.1
  | .unary operator operand line, wellFormed, fits => by
      simp only [Term.wellFormed, Bool.and_eq_true] at wellFormed
      simp only [Term.spelling, List.forall_mem_cons] at fits
      have ofOperand : AccountsFor (term operand) setting operand.mentions :=
        accountsFor_term operand wellFormed.2 fits.2
      rw [term, Term.mentions]
      exact ofOperand.bind_plain fun _ => accounts_unary wellFormed.1

theorem accountsFor_expression : (tree : Expression) → tree.wellFormed = true →
    (∀ piece ∈ tree.spelling, piece.Fits) →
      AccountsFor (expression tree) setting tree.mentions
  | .mk head tail, wellFormed, fits => by
      simp only [Expression.wellFormed, Bool.and_eq_true] at wellFormed
      simp only [Expression.spelling, List.forall_mem_append] at fits
      rw [expression, Expression.mentions]
      exact (accountsFor_term head wellFormed.1 fits.1).bind fun _ =>
        accountsFor_operations tail wellFormed.2 fits.2

theorem accountsFor_operations : (tail : List (Operator × Term)) →
    Expression.tailWellFormed tail = true →
    (∀ piece ∈ Expression.tailSpelling tail, piece.Fits) →
      AccountsFor (operations tail) setting (Expression.tailMentions tail)
  | [], _, _ => by
      rw [operations, Expression.tailMentions]
      exact accounts_pure ()
  | (operator, operand) :: rest, wellFormed, fits => by
      simp only [Expression.tailWellFormed, Bool.and_eq_true] at wellFormed
      simp only [Expression.tailSpelling, List.forall_mem_cons, List.forall_mem_append] at fits
      rw [operations, Expression.tailMentions]
      refine (accountsFor_term operand wellFormed.1.2 fits.2.1).bind fun _ => ?_
      exact (accounts_binary wellFormed.1.1).plain_bind fun _ =>
        accountsFor_operations rest wellFormed.2 fits.2.2

/-- The qualifier of a call is mentioned in front of its arguments, as the receiver is pushed before
them. -/
theorem accountsFor_call : (tree : Call) → tree.wellFormed = true →
    (∀ piece ∈ tree.spelling, piece.Fits) → AccountsFor (call tree) setting tree.mentions
  | .mk qualifier name arguments line, wellFormed, fits => by
      simp only [Call.wellFormed, Bool.and_eq_true] at wellFormed
      have argumentsFit : ∀ piece ∈ separated (Expression.spellings arguments), piece.Fits := by
        intro piece member
        apply fits
        cases qualifier <;> simp [Call.spelling, member]
      have ofReceiver : AccountsFor (receiver qualifier name line) setting
          (qualifier.toList.map (.name .qualifier)) := accounts_receiver qualifier name
      rw [call, Call.mentions]
      refine ofReceiver.bind fun target => ?_
      exact (accountsFor_expressions arguments wellFormed.2 argumentsFit).bind_plain
        fun _ => accounts_append rfl

theorem accountsFor_expressions : (trees : List Expression) →
    Expression.allWellFormed trees = true →
    (∀ piece ∈ separated (Expression.spellings trees), piece.Fits) →
      AccountsFor (expressions trees) setting (Expression.allMentions trees)
  | [], _, _ => by
      rw [expressions, Expression.allMentions]
      exact accounts_pure ()
  | first :: rest, wellFormed, fits => by
      simp only [Expression.allWellFormed, Bool.and_eq_true] at wellFormed
      rw [Expression.spellings] at fits
      rw [expressions, Expression.allMentions]
      refine (accountsFor_expression first wellFormed.1 ?_).bind fun _ => ?_
      · intro piece member
        exact fits piece (mem_separated_cons (.inl member))
      · apply accountsFor_expressions rest wellFormed.2
        intro piece member
        exact fits piece (mem_separated_cons (.inr member))

end

/-- The mentions of an assignment follow its code: a variable is written behind its value, while an
element is addressed before it. -/
theorem accountsFor_assignment {target : Term} {value : Expression} {line : Int}
    (isTarget : target.isTarget = true) (targetFormed : target.wellFormed = true)
    (valueFormed : value.wellFormed = true)
    (targetFits : ∀ piece ∈ target.spelling, piece.Fits)
    (valueFits : ∀ piece ∈ value.spelling, piece.Fits) :
    AccountsFor (assignment target value line) setting
      (target.targetMentions value.mentions) := by
  have ofValue : AccountsFor (expression value) setting value.mentions :=
    accountsFor_expression value valueFormed valueFits
  cases target with
  | name name targetLine =>
      have isVariable : Use.target ≠ .qualifier := by decide
      unfold AccountsFor
      rw [Term.targetMentions, List.flatMap_append, List.flatMap_singleton]
      exact ofValue.resolve isVariable accounts_popBinding
  | element array index targetLine =>
      simp only [Term.wellFormed, Bool.and_eq_true] at targetFormed
      simp only [Term.spelling, List.forall_mem_cons, List.forall_mem_append] at targetFits
      have ofIndex : AccountsFor (expression index) setting index.mentions :=
        accountsFor_expression index targetFormed.2 targetFits.2.2.1
      simp only [Term.targetMentions, Term.mentions]
      refine (accountsFor_elementAddress ofIndex).bind fun _ => ofValue.bind_plain fun _ => ?_
      exact accounts_store
  | integer | string | keyword | call | group | unary => cases isTarget

mutual

/-- Statements access what they mention. The else comes in front of the other branch, as its code
does. -/
theorem accountsFor_statement : (tree : Statement) → tree.wellFormed = true →
    (∀ piece ∈ tree.spelling, piece.Fits) → AccountsFor (statement tree) setting tree.mentions
  | .letTo target value line, wellFormed, fits => by
      simp only [Statement.wellFormed, Bool.and_eq_true] at wellFormed
      simp only [Statement.spelling, List.forall_mem_cons, List.forall_mem_append] at fits
      rw [statement, Statement.mentions]
      exact accountsFor_assignment wellFormed.1.1 wellFormed.1.2 wellFormed.2 fits.2.1
        fits.2.2.2.1
  | .ifElse condition whenTrue otherwise line, wellFormed, fits => by
      simp only [Statement.wellFormed, Bool.and_eq_true] at wellFormed
      simp only [Statement.spelling, List.forall_mem_cons, List.forall_mem_append] at fits
      have ofCondition : AccountsFor (expression condition) setting condition.mentions :=
        accountsFor_expression condition wellFormed.1.1.1 fits.2.2.1
      have ofElse : AccountsFor (alternative otherwise) setting
          (Statement.elseMentions otherwise) :=
        accountsFor_alternative otherwise wellFormed.2 fits.2.2.2.2.2.2.2
      have ofTrue : AccountsFor (statements whenTrue) setting
          (Statement.allMentions whenTrue) :=
        accountsFor_statements whenTrue wellFormed.1.2 fits.2.2.2.2.2.1
      rw [statement, Statement.mentions]
      refine ofCondition.bind fun _ => (accounts_labels _ _).plain_bind fun names => ?_
      refine (accounts_append rfl).plain_bind fun _ => ofElse.bind fun _ => ?_
      exact (accounts_append rfl).plain_bind fun _ =>
        ofTrue.bind_plain fun _ => accounts_append rfl
  | .whileDo condition body line, wellFormed, fits => by
      simp only [Statement.wellFormed, Bool.and_eq_true] at wellFormed
      simp only [Statement.spelling, List.forall_mem_cons, List.forall_mem_append] at fits
      have ofCondition : AccountsFor (expression condition) setting condition.mentions :=
        accountsFor_expression condition wellFormed.1.1 fits.2.2.1
      have ofBody : AccountsFor (statements body) setting (Statement.allMentions body) :=
        accountsFor_statements body wellFormed.2 fits.2.2.2.2.2.1
      rw [statement, Statement.mentions]
      refine (accounts_labels _ _).plain_bind fun names => ?_
      refine (accounts_append rfl).plain_bind fun _ => ofCondition.bind fun _ => ?_
      exact (accounts_append rfl).plain_bind fun _ =>
        ofBody.bind_plain fun _ => accounts_append rfl
  | .doCall called line, wellFormed, fits => by
      rw [Statement.wellFormed] at wellFormed
      simp only [Statement.spelling, List.forall_mem_cons, List.forall_mem_append] at fits
      rw [statement, Statement.mentions]
      exact (accountsFor_call called wellFormed fits.2.1).bind_plain fun _ =>
        accounts_pop_temp
  | .giveBack none line, _, _ => by
      rw [statement, Statement.mentions]
      exact (accounts_push_constant (by decide) (by decide)).bind fun _ => accounts_append rfl
  | .giveBack (some value) line, wellFormed, fits => by
      simp only [Statement.wellFormed, Option.all_some] at wellFormed
      simp only [Statement.spelling, List.forall_mem_cons, List.forall_mem_append] at fits
      rw [statement, Statement.mentions]
      exact (accountsFor_expression value wellFormed fits.2.1).bind_plain fun _ =>
        accounts_append rfl

theorem accountsFor_statements : (trees : List Statement) →
    Statement.allWellFormed trees = true →
    (∀ piece ∈ Statement.allSpelling trees, piece.Fits) →
      AccountsFor (statements trees) setting (Statement.allMentions trees)
  | [], _, _ => by
      rw [statements, Statement.allMentions]
      exact accounts_pure ()
  | first :: rest, wellFormed, fits => by
      simp only [Statement.allWellFormed, Bool.and_eq_true] at wellFormed
      simp only [Statement.allSpelling, List.forall_mem_append] at fits
      rw [statements, Statement.allMentions]
      exact (accountsFor_statement first wellFormed.1 fits.1).bind fun _ =>
        accountsFor_statements rest wellFormed.2 fits.2

theorem accountsFor_alternative : (otherwise : Option (List Statement)) →
    Statement.elseWellFormed otherwise = true →
    (∀ piece ∈ Statement.elseSpelling otherwise, piece.Fits) →
      AccountsFor (alternative otherwise) setting (Statement.elseMentions otherwise)
  | none, _, _ => by
      rw [alternative, Statement.elseMentions]
      exact accounts_pure ()
  | some body, wellFormed, fits => by
      simp only [Statement.elseWellFormed, Bool.and_eq_true] at wellFormed
      simp only [Statement.elseSpelling, List.forall_mem_cons, List.forall_mem_append] at fits
      rw [alternative, Statement.elseMentions]
      exact accountsFor_statements body wellFormed.2 fits.2.2.1

end

end Lowering

end Jack
