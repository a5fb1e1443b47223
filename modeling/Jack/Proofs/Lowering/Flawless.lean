import Jack.Proofs.Lowering.Instructions
import Jack.Proofs.Lowering.Settings

/-!
Contract: lowering adds only instructions without a flaw, and only at the end.

Owns: that every step emits instructions without a flaw, up to the point where it fails if it
does, and what this means for the code of a context.

Does not own: which instructions a step emits.

Only some instructions are checked before they are added. The others have no flaw for what they
are made of: no function and no label has an empty name, and all counts are lengths. The trees
can be any, so this depends on nothing that a parser would see to.
-/

set_option autoImplicit false

namespace Jack.Lowering

open Machine (Instruction Segment)

/-- What the step adds has no flaw, also where the step fails. -/
def Flawless {Value : Type} (step : Emit Value) (setting : Setting) : Prop :=
  ∀ label, ∀ instruction ∈ (step setting label).code, instruction.flaw? = none

/-! ## Steps -/

section Steps

variable {Value Other : Type} {setting : Setting} {line : Int}

/-- The second step is only looked at behind a first that succeeds. If that one fails, its code is
all there is. -/
theorem Flawless.bind {step : Emit Value} {rest : Value → Emit Other}
    (flawless : Flawless step setting)
    (flawlessThen : ∀ {label code next value}, Emits step setting label code next value →
      Flawless (rest value) setting) :
    Flawless (step >>= rest) setting := by
  intro label
  change ∀ instruction ∈ (Emit.andThen step rest setting label).code, _
  cases outcome : (step setting label).result with
  | error diagnostic =>
      simp only [Emit.andThen, outcome]
      exact flawless label
  | ok value =>
      simp only [Emit.andThen, outcome]
      exact List.forall_mem_append.mpr
        ⟨flawless label, flawlessThen (emits_of_result outcome) _⟩

theorem Flawless.ite {condition : Prop} [Decidable condition] {step other : Emit Value}
    (flawless : Flawless step setting) (otherFlawless : Flawless other setting) :
    Flawless (if condition then step else other) setting := by
  split_ifs
  · exact flawless
  · exact otherFlawless

/-- A step that adds nothing. -/
theorem flawless_of_no_code {step : Emit Value}
    (silent : ∀ label, (step setting label).code = []) : Flawless step setting := by
  intro label
  rw [silent]
  exact List.forall_mem_nil _

theorem flawless_pure (value : Value) : Flawless (pure value) setting :=
  flawless_of_no_code fun _ => rfl

theorem flawless_fail (fault : CodegenFault) :
    Flawless (Emit.fail fault line : Emit Value) setting :=
  flawless_of_no_code fun _ => rfl

theorem flawless_setting : Flawless Emit.setting setting :=
  flawless_of_no_code fun _ => rfl

theorem flawless_labels (first second : Bytes) : Flawless (Emit.labels first second) setting :=
  flawless_of_no_code fun _ => rfl

/-- The numbers only add to the stems. -/
theorem nameFlaw?_of_emits_labels {first second : Bytes} (firstNamed : first ≠ [])
    (secondNamed : second ≠ []) {label next : Nat} {code : List Instruction}
    {names : Bytes × Bytes}
    (emitted : Emits (Emit.labels first second) setting label code next names) :
    Instruction.nameFlaw? names.1 0 = none ∧ Instruction.nameFlaw? names.2 0 = none := by
  obtain ⟨-, -, rfl⟩ := emits_labels_iff.mp emitted
  exact ⟨nameFlaw?_eq_none (List.append_ne_nil_of_left_ne_nil firstNamed _) (Int.le_refl 0),
    nameFlaw?_eq_none (List.append_ne_nil_of_left_ne_nil secondNamed _) (Int.le_refl 0)⟩

/-- Code that is appended unchecked has to be shown to be sound. -/
theorem flawless_append {code : List Instruction}
    (sound : ∀ instruction ∈ code, instruction.flaw? = none) :
    Flawless (Emit.append code) setting :=
  fun _ => sound

/-- A checked instruction with a flaw is not emitted. -/
theorem flawless_checked (instruction : Instruction) :
    Flawless (Emit.checked instruction line) setting := by
  unfold Emit.checked
  cases sound : instruction.flaw? with
  | none => exact flawless_append (List.forall_mem_singleton.mpr sound)
  | some flaw => exact flawless_fail _

theorem flawless_push (segment : Segment) (index : Int) :
    Flawless (Emit.push segment index line) setting :=
  flawless_checked _

theorem flawless_pop (segment : Segment) (index : Int) :
    Flawless (Emit.pop segment index line) setting :=
  flawless_checked _

/-- An instruction that computes has no flaw. -/
theorem Computing.flaw?_eq_none {instruction : Instruction}
    (computing : Computing setting instruction) : instruction.flaw? = none := by
  cases computing with
  | constant natural fits => exact push_constant_flaw?_eq_none_iff.mpr ⟨natural, fits⟩
  | @variableRead _ binding _ =>
      cases storage : binding.storage <;>
        simp [Storage.segment, Instruction.flaw?, Instruction.indexFlaw?]
  | call named count => exact nameFlaw?_eq_none named (Int.natCast_nonneg count)
  | receiver | elementPointer | elementRead | arithmetic => rfl

/-- What computes a value has no flaw, whatever the setting. -/
theorem Computing.flawless {instruction : Instruction}
    (computing : Computing setting instruction) :
    Flawless (Emit.append [instruction]) setting :=
  flawless_append (List.forall_mem_singleton.mpr computing.flaw?_eq_none)

theorem flawless_append_arithmetic (operation : Machine.Operation) :
    Flawless (Emit.append [.arithmetic operation]) setting :=
  (Computing.arithmetic operation).flawless

theorem flawless_append_call {target : Bytes} (named : target ≠ []) (count : Nat) :
    Flawless (Emit.append [.call target count]) setting :=
  (Computing.call named count).flawless

theorem flawless_append_ret : Flawless (Emit.append [.ret]) setting :=
  flawless_append (List.forall_mem_singleton.mpr rfl)

theorem flawless_resolve (name : Bytes) : Flawless (Emit.resolve name line) setting := by
  refine flawless_setting.bind fun {_ _ _ found} _ => ?_
  cases found.bindings.resolve? name with
  | none => exact flawless_fail _
  | some binding => exact flawless_pure binding

/-! ## Parts of expressions -/

theorem flawless_binary (operator : Operator) : Flawless (binary operator) setting := by
  unfold binary
  cases known : binaryInstruction? operator.symbol with
  | none => exact flawless_fail _
  | some instruction =>
      have computing : Computing setting instruction := computing_of_binaryInstruction? known
      exact computing.flawless

theorem flawless_unary (operator : Operator) : Flawless (unary operator) setting :=
  .ite (flawless_append_arithmetic .neg)
    (.ite (flawless_append_arithmetic .not) (flawless_fail _))

theorem flawless_keyword (word : Bytes) : Flawless (keyword word line) setting :=
  .ite ((flawless_push _ _).bind fun _ => flawless_append_arithmetic .not)
    (.ite (flawless_push _ _) (.ite (flawless_push _ _) (flawless_fail _)))

theorem flawless_string (value : Bytes) : Flawless (string value line) setting := by
  have pushed (byte : UInt8) : (Instruction.push .constant byte.toNat).flaw? = none := by
    have small := byte.toNat_lt
    rw [push_constant_flaw?_eq_none_iff]
    simp only [Machine.maxConstant]
    omega
  refine (flawless_push _ _).bind fun _ => (flawless_append_call (by decide) 1).bind fun _ => ?_
  refine flawless_append fun instruction member => ?_
  simp only [List.mem_flatMap, List.mem_cons, List.not_mem_nil, or_false] at member
  rcases member with ⟨byte, -, rfl | rfl⟩
  · exact pushed byte
  · decide

theorem flawless_elementAddress {array : Bytes} {index : Emit Unit}
    (inside : Flawless index setting) : Flawless (elementAddress array index line) setting :=
  (flawless_resolve array).bind fun _ => inside.bind fun _ =>
    (flawless_push _ _).bind fun _ => flawless_append_arithmetic .add

/-- The name of a function is a class and a subroutine with a dot in between, and so not empty. -/
theorem flawless_receiver (qualifier : Option Bytes) (name : Bytes) :
    Flawless (receiver qualifier name line) setting := by
  refine flawless_setting.bind fun {_ _ _ found} _ => ?_
  cases qualifier with
  | none => exact .ite ((flawless_push _ _).bind fun _ => flawless_pure _) (flawless_pure _)
  | some qualifier =>
      dsimp only
      cases found.bindings.resolve? qualifier with
      | none => exact flawless_pure _
      | some binding => exact (flawless_push _ _).bind fun _ => flawless_pure _

end Steps

/-! ## Trees -/

section Trees

variable {setting : Setting}

mutual

/-- No tree is too odd: also a term that the grammar does not have leads to sound code, or to a
refusal. -/
theorem flawless_term : (tree : Term) → Flawless (term tree) setting
  | .integer value line => by
      rw [term]
      exact flawless_push _ _
  | .string value line => by
      rw [term]
      exact flawless_string value
  | .keyword word line => by
      rw [term]
      exact flawless_keyword word
  | .name name line => by
      rw [term]
      exact (flawless_resolve name).bind fun _ => flawless_push _ _
  | .element array index line => by
      rw [term]
      exact (flawless_elementAddress (flawless_expression index)).bind fun _ =>
        (flawless_pop _ _).bind fun _ => flawless_push _ _
  | .call called => by
      rw [term]
      exact flawless_call called
  | .group inner line => by
      rw [term]
      exact flawless_expression inner
  | .unary operator operand line => by
      rw [term]
      exact (flawless_term operand).bind fun _ => flawless_unary operator

theorem flawless_expression : (tree : Expression) → Flawless (expression tree) setting
  | .mk head tail => by
      rw [expression]
      exact (flawless_term head).bind fun _ => flawless_operations tail

theorem flawless_operations : (tail : List (Operator × Term)) →
    Flawless (operations tail) setting
  | [] => by
      rw [operations]
      exact flawless_pure ()
  | (operator, operand) :: rest => by
      rw [operations]
      exact (flawless_term operand).bind fun _ => (flawless_binary operator).bind fun _ =>
        flawless_operations rest

theorem flawless_call : (tree : Call) → Flawless (call tree) setting
  | .mk qualifier name arguments line => by
      rw [call]
      exact (flawless_receiver qualifier name).bind fun received =>
        (flawless_expressions arguments).bind fun _ =>
          flawless_append_call (emits_receiver_iff.mp received).1.computing.2 _

theorem flawless_expressions : (trees : List Expression) →
    Flawless (expressions trees) setting
  | [] => by
      rw [expressions]
      exact flawless_pure ()
  | first :: rest => by
      rw [expressions]
      exact (flawless_expression first).bind fun _ => flawless_expressions rest

end

theorem flawless_assignment (target : Term) (value : Expression) (line : Int) :
    Flawless (assignment target value line) setting := by
  have computed : Flawless (expression value) setting := flawless_expression value
  cases target with
  | name name =>
      exact (flawless_resolve name).bind fun _ => computed.bind fun _ => flawless_pop _ _
  | element array index =>
      exact (flawless_elementAddress (flawless_expression index)).bind fun _ =>
        computed.bind fun _ => (flawless_pop _ _).bind fun _ => (flawless_pop _ _).bind fun _ =>
          (flawless_push _ _).bind fun _ => flawless_pop _ _
  | integer | string | keyword | call | group | unary => exact flawless_fail _

mutual

/-- Labels are made from a stem and a number, so jumps and their targets have names. -/
theorem flawless_statement : (tree : Statement) → Flawless (statement tree) setting
  | .letTo target value line => by
      rw [statement]
      exact flawless_assignment target value line
  | .ifElse condition whenTrue otherwise line => by
      rw [statement]
      refine (flawless_expression condition).bind fun _ =>
        (flawless_labels _ _).bind fun taken => ?_
      obtain ⟨first, second⟩ := nameFlaw?_of_emits_labels (by decide) (by decide) taken
      refine (flawless_append ?_).bind fun _ => (flawless_alternative otherwise).bind fun _ =>
        (flawless_append ?_).bind fun _ => (flawless_statements whenTrue).bind fun _ =>
          flawless_append ?_
      all_goals simp [Instruction.flaw?, first, second]
  | .whileDo condition body line => by
      rw [statement]
      refine (flawless_labels _ _).bind fun taken => ?_
      obtain ⟨first, second⟩ := nameFlaw?_of_emits_labels (by decide) (by decide) taken
      refine (flawless_append ?_).bind fun _ => (flawless_expression condition).bind fun _ =>
        (flawless_append ?_).bind fun _ => (flawless_statements body).bind fun _ =>
          flawless_append ?_
      all_goals simp [Instruction.flaw?, first, second]
  | .doCall called line => by
      rw [statement]
      exact (flawless_call called).bind fun _ => flawless_pop _ _
  | .giveBack value line => by
      cases value with
      | none =>
          rw [statement]
          exact (flawless_push _ _).bind fun _ => flawless_append_ret
      | some value =>
          rw [statement]
          exact (flawless_expression value).bind fun _ => flawless_append_ret

theorem flawless_statements : (trees : List Statement) → Flawless (statements trees) setting
  | [] => by
      rw [statements]
      exact flawless_pure ()
  | first :: rest => by
      rw [statements]
      exact (flawless_statement first).bind fun _ => flawless_statements rest

theorem flawless_alternative : (otherwise : Option (List Statement)) →
    Flawless (alternative otherwise) setting
  | none => by
      rw [alternative]
      exact flawless_pure ()
  | some body => by
      rw [alternative]
      exact flawless_statements body

end

theorem flawless_prologue (kind : SubroutineKind) (line : Int) :
    Flawless (prologue kind line) setting := by
  cases kind with
  | constructor =>
      exact flawless_setting.bind fun _ => (flawless_push _ _).bind fun _ =>
        (flawless_append_call (by decide) 1).bind fun _ => flawless_pop _ _
  | method => exact (flawless_push _ _).bind fun _ => flawless_pop _ _
  | function => exact flawless_pure ()

/-- A subroutine that fails half way leaves its first instructions, which are sound. -/
theorem flawless_subroutine (tree : Subroutine) : Flawless (subroutine tree) setting :=
  flawless_setting.bind fun _ => (flawless_checked _).bind fun _ =>
    (flawless_prologue tree.kind tree.line).bind fun _ =>
      flawless_statements tree.body.statements

end Trees

/-! ## Contexts -/

namespace Context

/-- The code of the one context is that of the other with instructions added at the end, none of
them with a flaw. -/
def Grows (before after : Context) : Prop :=
  ∃ added, after.code = before.code ++ added ∧
    ∀ instruction ∈ added, instruction.flaw? = none

theorem Grows.refl (context : Context) : context.Grows context :=
  ⟨[], (List.append_nil _).symm, List.forall_mem_nil _⟩

theorem Grows.trans {first second third : Context} (front : first.Grows second)
    (back : second.Grows third) : first.Grows third := by
  obtain ⟨frontCode, secondEq, frontSound⟩ := front
  obtain ⟨backCode, thirdEq, backSound⟩ := back
  refine ⟨frontCode ++ backCode, ?_, List.forall_mem_append.mpr ⟨frontSound, backSound⟩⟩
  rw [thirdEq, secondEq, List.append_assoc]

theorem grows_addSubroutine (context : Context) (tree : Subroutine) :
    context.Grows (context.addSubroutine tree).2 := by
  rw [addSubroutine_eq]
  exact ⟨_, rfl, flawless_subroutine tree 0⟩

/-- A subroutine that fails is the last one, and the code in front of its fault stays. -/
theorem grows_addSubroutines (context : Context) (trees : List Subroutine) :
    context.Grows (context.addSubroutines trees).2 := by
  induction trees generalizing context with
  | nil => exact .refl context
  | cons tree rest inductionHypothesis =>
      have step := context.grows_addSubroutine tree
      rw [addSubroutines]
      generalize context.addSubroutine tree = outcome at step ⊢
      obtain ⟨result, middle⟩ := outcome
      cases result with
      | error diagnostic => exact step
      | ok => exact step.trans (inductionHypothesis middle)

/-- Whatever the context, whatever the tree, and whether lowering fails or not: instructions are
only added at the end, and none of them has a flaw. -/
theorem addClass_appends_flawless (context : Context) (tree : ClassTree) :
    ∃ added, (context.addClass tree).2.code = context.code ++ added ∧
      ∀ instruction ∈ added, instruction.flaw? = none := by
  have grows := (context.declareClass tree).grows_addSubroutines tree.subroutines
  rw [declareClass_eq_inClass] at grows
  rw [addClass, declareClass_eq_inClass]
  exact grows

end Context

end Jack.Lowering
