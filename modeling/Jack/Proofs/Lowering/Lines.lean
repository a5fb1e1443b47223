import Jack.Proofs.Lowering.Settings

/-!
Contract: lines do not matter for code.

Owns: steps that emit alike, and for every construct that the code of a tree is that of the
tree without lines, and so is the fault, its line aside.

Does not own: where the lines of a tree come from.

A line is only ever kept for a diagnostic. So each step is compared with the same step at
another line, and the comparison is carried through sequences.
-/

set_option autoImplicit false

namespace Jack

/-- The same value, or a fault for the same cause, on whichever line. -/
inductive SameResult {Value : Type} : Except Diagnostic Value → Except Diagnostic Value → Prop where
  | value (value : Value) : SameResult (.ok value) (.ok value)
  | fault {one other : Diagnostic} (same : one.cause = other.cause) :
      SameResult (.error one) (.error other)

namespace SameResult

variable {Value : Type} {one other third : Except Diagnostic Value}

theorem refl (result : Except Diagnostic Value) : SameResult result result := by
  cases result with
  | ok value => exact .value value
  | error diagnostic => exact .fault rfl

theorem symm (same : SameResult one other) : SameResult other one := by
  cases same with
  | value value => exact .value value
  | fault cause => exact .fault cause.symm

theorem trans (same : SameResult one other) (more : SameResult other third) :
    SameResult one third := by
  cases same with
  | value value => exact more
  | fault cause =>
      cases more with
      | fault next => exact .fault (cause.trans next)

end SameResult

namespace Lowering

open Emit Machine

variable {Value Other : Type}

/-! ## Steps that emit alike -/

/-- The same code and labels, and the same result, lines aside. -/
structure Emission.Alike (one other : Emission Value) : Prop where
  code : one.code = other.code
  nextLabel : one.nextLabel = other.nextLabel
  result : SameResult one.result other.result

/-- Steps that emit the same in every setting, lines aside. -/
def Emit.Alike (one other : Emit Value) : Prop :=
  ∀ setting label, (one setting label).Alike (other setting label)

namespace Emit.Alike

theorem refl (step : Emit Value) : Alike step step :=
  fun _ _ => ⟨rfl, rfl, .refl _⟩

/-- Steps that emit alike may follow each other. Values are the same in both, so the second steps
agree on them. -/
theorem bind {one other : Emit Value} {second third : Value → Emit Other}
    (first : Alike one other) (rest : ∀ value, Alike (second value) (third value)) :
    Alike (one >>= second) (other >>= third) := by
  intro setting label
  change (andThen one second setting label).Alike (andThen other third setting label)
  unfold andThen
  obtain ⟨code, nextLabel, result⟩ := first setting label
  generalize one setting label = before at code nextLabel result ⊢
  generalize other setting label = otherBefore at code nextLabel result ⊢
  obtain ⟨beforeCode, beforeLabel, beforeResult⟩ := before
  obtain ⟨otherCode, otherLabel, otherResult⟩ := otherBefore
  dsimp only at code nextLabel result ⊢
  subst code nextLabel
  cases result with
  | fault same => exact ⟨rfl, rfl, .fault same⟩
  | value value =>
      have after := rest value setting beforeLabel
      exact ⟨congrArg (beforeCode ++ ·) after.code, after.nextLabel, after.result⟩

/-- A step, and then one that does not depend on it. -/
theorem next {one other : Emit Unit} {second third : Emit Value} (first : Alike one other)
    (rest : Alike second third) :
    Alike (do one; second) (do other; third) :=
  first.bind fun _ => rest

end Emit.Alike

/-! ## Basic steps at two lines -/

section Lines

variable (line otherLine : Int)

theorem fail_alike (fault : CodegenFault) :
    Emit.Alike (fail fault line : Emit Value) (fail fault otherLine) :=
  fun _ _ => ⟨rfl, rfl, .fault rfl⟩

/-- A flaw depends on the instruction, and the line only on where it is reported. -/
theorem checked_alike (instruction : Instruction) :
    Emit.Alike (checked instruction line) (checked instruction otherLine) := by
  unfold checked
  cases instruction.flaw? with
  | some flaw => exact fail_alike line otherLine _
  | none => exact .refl _

theorem resolve_alike (name : Bytes) :
    Emit.Alike (resolve name line) (resolve name otherLine) := by
  refine .bind (.refl _) fun setting => ?_
  cases setting.bindings.resolve? name with
  | some binding => exact .refl _
  | none => exact fail_alike line otherLine _

theorem binary_alike (symbol : Bytes) :
    Emit.Alike (binary ⟨symbol, line⟩) (binary ⟨symbol, otherLine⟩) := by
  unfold binary
  dsimp only
  cases binaryInstruction? symbol with
  | some instruction => exact .refl _
  | none => exact fail_alike line otherLine _

theorem unary_alike (symbol : Bytes) :
    Emit.Alike (unary ⟨symbol, line⟩) (unary ⟨symbol, otherLine⟩) := by
  unfold unary
  dsimp only
  split
  · exact .refl _
  · split
    · exact .refl _
    · exact fail_alike line otherLine _

theorem keyword_alike (word : Bytes) :
    Emit.Alike (keyword word line) (keyword word otherLine) := by
  unfold keyword
  split
  · exact (checked_alike line otherLine _).next (.refl _)
  · split
    · exact checked_alike line otherLine _
    · split
      · exact checked_alike line otherLine _
      · exact fail_alike line otherLine _

theorem string_alike (value : Bytes) :
    Emit.Alike (string value line) (string value otherLine) :=
  (checked_alike line otherLine _).next (.refl _)

theorem elementAddress_alike (array : Bytes) {index otherIndex : Emit Unit}
    (inner : Emit.Alike index otherIndex) :
    Emit.Alike (elementAddress array index line) (elementAddress array otherIndex otherLine) :=
  (resolve_alike line otherLine array).bind fun _ =>
    inner.next ((checked_alike line otherLine _).next (.refl _))

/-- The line of a call is for the report alone; the receiver depends on names. -/
theorem receiver_alike (qualifier : Option Bytes) (name : Bytes) :
    Emit.Alike (receiver qualifier name line) (receiver qualifier name otherLine) := by
  refine .bind (.refl _) fun setting => ?_
  cases qualifier with
  | none =>
      dsimp only
      split
      · exact (checked_alike line otherLine _).next (.refl _)
      · exact .refl _
  | some qualifier =>
      dsimp only
      cases setting.bindings.resolve? qualifier with
      | none => exact .refl _
      | some binding => exact (checked_alike line otherLine _).next (.refl _)

theorem prologue_alike (kind : SubroutineKind) :
    Emit.Alike (prologue kind line) (prologue kind otherLine) := by
  cases kind with
  | constructor =>
      exact .bind (.refl _) fun _ =>
        (checked_alike line otherLine _).next ((Emit.Alike.refl _).next
          (checked_alike line otherLine _))
  | method => exact (checked_alike line otherLine _).next (checked_alike line otherLine _)
  | function => exact .refl _

end Lines

/-! ## Constructs -/

mutual

/-- Without its lines, a term leads to the same code and to the same fault. -/
theorem term_alike : (tree : Term) → Emit.Alike (term tree) (term tree.withoutLines)
  | .integer value line => by
      simp only [Term.withoutLines, term]
      exact checked_alike line 0 _
  | .string value line => by
      simp only [Term.withoutLines, term]
      exact string_alike line 0 value
  | .keyword word line => by
      simp only [Term.withoutLines, term]
      exact keyword_alike line 0 word
  | .name name line => by
      simp only [Term.withoutLines, term]
      exact (resolve_alike line 0 name).bind fun _ => checked_alike line 0 _
  | .element array index line => by
      simp only [Term.withoutLines, term]
      exact (elementAddress_alike line 0 array (expression_alike index)).next
        ((checked_alike line 0 _).next (checked_alike line 0 _))
  | .call called => by
      simp only [Term.withoutLines, term]
      exact call_alike called
  | .group inner _ => by
      simp only [Term.withoutLines, term]
      exact expression_alike inner
  | .unary operator operand _ => by
      simp only [Term.withoutLines, term]
      exact (term_alike operand).next (unary_alike operator.line 0 operator.symbol)

theorem expression_alike :
    (tree : Expression) → Emit.Alike (expression tree) (expression tree.withoutLines)
  | .mk head tail => by
      simp only [Expression.withoutLines, expression]
      exact (term_alike head).next (operations_alike tail)

theorem operations_alike : (tail : List (Operator × Term)) →
    Emit.Alike (operations tail) (operations (Expression.tailWithoutLines tail))
  | [] => by
      rw [Expression.tailWithoutLines]
      exact .refl _
  | (operator, operand) :: rest => by
      simp only [Expression.tailWithoutLines, operations]
      exact (term_alike operand).next
        ((binary_alike operator.line 0 operator.symbol).next (operations_alike rest))

theorem call_alike : (tree : Call) → Emit.Alike (call tree) (call tree.withoutLines)
  | .mk qualifier name arguments line => by
      have length : (Expression.allWithoutLines arguments).length = arguments.length := by
        rw [Expression.allWithoutLines_eq_map, List.length_map]
      simp only [Call.withoutLines, call, length]
      exact (receiver_alike line 0 qualifier name).bind fun _ =>
        (expressions_alike arguments).next (.refl _)

theorem expressions_alike : (trees : List Expression) →
    Emit.Alike (expressions trees) (expressions (Expression.allWithoutLines trees))
  | [] => by
      rw [Expression.allWithoutLines]
      exact .refl _
  | first :: rest => by
      simp only [Expression.allWithoutLines, expressions]
      exact (expression_alike first).next (expressions_alike rest)

end

theorem assignment_alike (target : Term) (value : Expression) (line : Int) :
    Emit.Alike (assignment target value line)
      (assignment target.withoutLines value.withoutLines 0) := by
  have inner := expression_alike value
  cases target with
  | name name targetLine =>
      simp only [Term.withoutLines, assignment]
      exact (resolve_alike targetLine 0 name).bind fun _ => inner.next (checked_alike line 0 _)
  | element array index targetLine =>
      simp only [Term.withoutLines, assignment]
      exact (elementAddress_alike targetLine 0 array (expression_alike index)).next
        (inner.next ((checked_alike line 0 _).next ((checked_alike line 0 _).next
          ((checked_alike line 0 _).next (checked_alike line 0 _)))))
  | integer | string | keyword | call | group | unary =>
      simp only [Term.withoutLines, assignment]
      exact fail_alike line 0 _

mutual

theorem statement_alike :
    (tree : Statement) → Emit.Alike (statement tree) (statement tree.withoutLines)
  | .letTo target value line => by
      simp only [Statement.withoutLines, statement]
      exact assignment_alike target value line
  | .ifElse condition whenTrue otherwise _ => by
      simp only [Statement.withoutLines, statement]
      exact (expression_alike condition).next (.bind (.refl _) fun _ =>
        (Emit.Alike.refl _).next ((alternative_alike otherwise).next
          ((Emit.Alike.refl _).next ((statements_alike whenTrue).next (.refl _)))))
  | .whileDo condition body _ => by
      simp only [Statement.withoutLines, statement]
      exact .bind (.refl _) fun _ => (Emit.Alike.refl _).next
        ((expression_alike condition).next ((Emit.Alike.refl _).next
          ((statements_alike body).next (.refl _))))
  | .doCall called line => by
      simp only [Statement.withoutLines, statement]
      exact (call_alike called).next (checked_alike line 0 _)
  | .giveBack none line => by
      simp only [Statement.withoutLines, Option.map_none, statement]
      exact (checked_alike line 0 _).next (.refl _)
  | .giveBack (some value) _ => by
      simp only [Statement.withoutLines, Option.map_some, statement]
      exact (expression_alike value).next (.refl _)

/-- A fault in one statement ends the others in both runs, and nothing is emitted behind it. -/
theorem statements_alike : (trees : List Statement) →
    Emit.Alike (statements trees) (statements (Statement.allWithoutLines trees))
  | [] => by
      rw [Statement.allWithoutLines]
      exact .refl _
  | first :: rest => by
      simp only [Statement.allWithoutLines, statements]
      exact (statement_alike first).next (statements_alike rest)

theorem alternative_alike : (otherwise : Option (List Statement)) →
    Emit.Alike (alternative otherwise) (alternative (Statement.elseWithoutLines otherwise))
  | none => by
      rw [Statement.elseWithoutLines]
      exact .refl _
  | some body => by
      simp only [Statement.elseWithoutLines, alternative]
      exact statements_alike body

end

/-- A subroutine emits alike, since the number of its locals does not depend on lines. -/
theorem subroutine_alike (tree : Subroutine) :
    Emit.Alike (subroutine tree) (subroutine tree.withoutLines) := by
  have count : localCount tree.withoutLines.body = localCount tree.body := by
    simp [localCount, Subroutine.withoutLines, SubroutineBody.withoutLines, List.flatMap_map,
      VariableList.withoutLines]
  unfold subroutine
  rw [count]
  exact .bind (.refl _) fun _ => (checked_alike tree.line 0 _).next
    ((prologue_alike tree.line 0 tree.kind).next (statements_alike tree.body.statements))

/-! ## Classes -/

end Lowering

/-- What is declared, and in which order, does not depend on lines. -/
theorem Subroutine.declared_withoutLines (tree : Subroutine) (className : Bytes) :
    tree.withoutLines.declared className = tree.declared className := by
  have locals : (tree.body.locals.map VariableList.withoutLines).flatMap
      (VariableList.declarations .local) =
        tree.body.locals.flatMap (VariableList.declarations .local) := by
    rw [List.flatMap_map]
    rfl
  exact congrArg (fun own => tree.kind.receiver className ++
    (tree.parameters.map Parameter.declaration ++ own)) locals

theorem ClassTree.declared_withoutLines (tree : ClassTree) :
    tree.withoutLines.declared = tree.declared := by
  unfold declared
  rw [withoutLines, List.flatMap_map]
  rfl

namespace Lowering.Context

/-- One subroutine leaves the same context behind, and the same result, lines aside. -/
theorem addSubroutine_withoutLines (context : Context) (tree : Subroutine) :
    (context.addSubroutine tree).2 = (context.addSubroutine tree.withoutLines).2 ∧
      SameResult (context.addSubroutine tree).1 (context.addSubroutine tree.withoutLines).1 := by
  have setting : tree.withoutLines.settingIn context.className context.bindings.ofClass =
      tree.settingIn context.className context.bindings.ofClass := by
    unfold Subroutine.settingIn
    rw [Subroutine.declared_withoutLines]
    rfl
  obtain ⟨code, nextLabel, result⟩ := subroutine_alike tree
    (tree.settingIn context.className context.bindings.ofClass) 0
  rw [addSubroutine_eq, addSubroutine_eq, setting, Subroutine.declared_withoutLines]
  dsimp only
  rw [code, nextLabel]
  exact ⟨rfl, result⟩

/-- So do subroutines up to the first that fails. -/
theorem addSubroutines_withoutLines (context : Context) (trees : List Subroutine) :
    (context.addSubroutines trees).2 =
        (context.addSubroutines (trees.map Subroutine.withoutLines)).2 ∧
      SameResult (context.addSubroutines trees).1
        (context.addSubroutines (trees.map Subroutine.withoutLines)).1 := by
  induction trees generalizing context with
  | nil => exact ⟨rfl, .refl _⟩
  | cons tree rest inductionHypothesis =>
      obtain ⟨same, result⟩ := addSubroutine_withoutLines context tree
      rw [List.map_cons, addSubroutines, addSubroutines]
      generalize context.addSubroutine tree = one at same result ⊢
      generalize context.addSubroutine tree.withoutLines = other at same result ⊢
      obtain ⟨oneResult, behind⟩ := one
      obtain ⟨otherResult, otherBehind⟩ := other
      dsimp only at same result
      subst same
      cases result with
      | value => exact inductionHypothesis behind
      | fault cause => exact ⟨rfl, .fault cause⟩

/-- A context takes up the same code from a class with other lines, also if it is refused. -/
theorem addClass_withoutLines (context : Context) (tree : ClassTree) :
    (context.addClass tree).2 = (context.addClass tree.withoutLines).2 ∧
      SameResult (context.addClass tree).1 (context.addClass tree.withoutLines).1 := by
  have declared : context.declareClass tree.withoutLines = context.declareClass tree := by
    rw [declareClass_eq_inClass, declareClass_eq_inClass, ClassTree.declared_withoutLines]
    rfl
  unfold addClass
  rw [declared]
  exact addSubroutines_withoutLines _ tree.subroutines

end Lowering.Context

/-- The lines of a tree show only in the line of the fault, if there is one. -/
theorem lowerClass_withoutLines (tree : ClassTree) :
    SameResult (lowerClass tree) (lowerClass tree.withoutLines) := by
  obtain ⟨same, result⟩ := Lowering.Context.addClass_withoutLines {} tree
  unfold lowerClass
  generalize ({} : Lowering.Context).addClass tree = one at same result ⊢
  generalize ({} : Lowering.Context).addClass tree.withoutLines = other at same result ⊢
  obtain ⟨oneResult, behind⟩ := one
  obtain ⟨otherResult, otherBehind⟩ := other
  dsimp only at same result
  subst same
  cases result with
  | value => exact .value _
  | fault cause => exact .fault cause

/-- Trees that differ in their lines only are lowered alike. -/
theorem lowerClass_of_withoutLines_eq {one other : ClassTree}
    (same : one.withoutLines = other.withoutLines) :
    SameResult (lowerClass one) (lowerClass other) := by
  have first := lowerClass_withoutLines one
  rw [same] at first
  exact first.trans (lowerClass_withoutLines other).symm

end Jack
