import Jack.Proofs.Lowering.Accounting
import Jack.Proofs.Lowering.Settings
import Jack.Proofs.Tree.Places

/-!
Contract: where the diagnostics of lowering point to.

Owns: that a step for a tree with the lines of tokens fails on the line of a token, and on
the line of the name if the name is unknown.

Does not own: when a step fails.
-/

set_option autoImplicit false

namespace Jack

/-- The diagnostic is about the line of a token. If a name is unknown, the name is on that
line. -/
structure Diagnostic.PointsInto (diagnostic : Diagnostic) (tokens : Array Token) : Prop where
  phase : diagnostic.cause.phase = .codegen
  line : OnLine tokens diagnostic.line
  named : ∀ name, diagnostic.cause = .codegen (.undeclared name) →
    NamedOn tokens name diagnostic.line

namespace Lowering

open Machine (Instruction Segment)

/-! ## Steps -/

/-- Wherever the step fails, its diagnostic points into the tokens. -/
def Points {Value : Type} (step : Emit Value) (tokens : Array Token) : Prop :=
  ∀ ⦃setting label diagnostic⦄, (step setting label).result = .error diagnostic →
    diagnostic.PointsInto tokens

section Steps

variable {Value Other : Type} {tokens : Array Token} {line : Int}

/-- A step that always succeeds. -/
theorem points_of_succeeds {step : Emit Value}
    (succeeds : ∀ setting label, ∃ value, (step setting label).result = .ok value) :
    Points step tokens := by
  intro setting label diagnostic failed
  obtain ⟨value, succeeded⟩ := succeeds setting label
  rw [succeeded] at failed
  cases failed

theorem points_pure (value : Value) : Points (pure value) tokens :=
  points_of_succeeds fun _ _ => ⟨value, rfl⟩

theorem points_append (code : List Instruction) : Points (Emit.append code) tokens :=
  points_of_succeeds fun _ _ => ⟨(), rfl⟩

theorem points_setting : Points Emit.setting tokens :=
  points_of_succeeds fun setting _ => ⟨setting, rfl⟩

theorem points_labels (first second : Bytes) : Points (Emit.labels first second) tokens :=
  points_of_succeeds fun _ _ => ⟨_, rfl⟩

theorem Points.bind {step : Emit Value} {rest : Value → Emit Other} (points : Points step tokens)
    (pointsThen : ∀ value, Points (rest value) tokens) : Points (step >>= rest) tokens := by
  intro setting label diagnostic failed
  rcases result_bind_eq_error failed with inFirst | ⟨_, _, value, -, inRest⟩
  · exact points inFirst
  · exact pointsThen value inRest

/-- A fault that is not about a name only needs a line. -/
theorem points_fail {fault : CodegenFault} (here : OnLine tokens line)
    (other : ∀ name, fault ≠ .undeclared name) :
    Points (Emit.fail fault line : Emit Value) tokens := by
  intro setting label diagnostic failed
  cases failed
  exact ⟨rfl, here, fun name same => absurd (Cause.codegen.inj same) (other name)⟩

/-- An unknown name is reported on a line where it stands. -/
theorem points_undeclared {name : Bytes} (named : NamedOn tokens name line) :
    Points (Emit.fail (.undeclared name) line : Emit Value) tokens := by
  intro setting label diagnostic failed
  cases failed
  refine ⟨rfl, named.onLine, fun other same => ?_⟩
  cases same
  exact named

theorem points_checked (instruction : Instruction) (here : OnLine tokens line) :
    Points (Emit.checked instruction line) tokens := by
  unfold Emit.checked
  cases instruction.flaw? with
  | none => exact points_append _
  | some flaw => exact points_fail here (by simp)

theorem points_push (segment : Segment) (index : Int) (here : OnLine tokens line) :
    Points (Emit.push segment index line) tokens :=
  points_checked _ here

theorem points_pop (segment : Segment) (index : Int) (here : OnLine tokens line) :
    Points (Emit.pop segment index line) tokens :=
  points_checked _ here

theorem points_resolve {name : Bytes} (named : NamedOn tokens name line) :
    Points (Emit.resolve name line) tokens := by
  refine points_setting.bind fun setting => ?_
  cases setting.bindings.resolve? name with
  | none => exact points_undeclared named
  | some binding => exact points_pure binding

/-! ## Parts of expressions -/

theorem points_binary {operator : Operator} (here : OnLine tokens operator.line) :
    Points (binary operator) tokens := by
  unfold binary
  cases binaryInstruction? operator.symbol with
  | none => exact points_fail here (by simp)
  | some instruction => exact points_append _

theorem points_unary {operator : Operator} (here : OnLine tokens operator.line) :
    Points (unary operator) tokens := by
  unfold unary
  split_ifs
  · exact points_append _
  · exact points_append _
  · exact points_fail here (by simp)

theorem points_keyword (word : Bytes) (here : OnLine tokens line) :
    Points (keyword word line) tokens := by
  unfold keyword
  split_ifs
  · exact (points_push _ _ here).bind fun _ => points_append _
  · exact points_push _ _ here
  · exact points_push _ _ here
  · exact points_fail here (by simp)

theorem points_string (value : Bytes) (here : OnLine tokens line) :
    Points (string value line) tokens :=
  (points_push _ _ here).bind fun _ => (points_append _).bind fun _ => points_append _

/-- The array of an element has its name on the line of the element. -/
theorem points_elementAddress {array : Bytes} {index : Emit Unit}
    (named : NamedOn tokens array line) (inside : Points index tokens) :
    Points (elementAddress array index line) tokens :=
  (points_resolve named).bind fun _ => inside.bind fun _ =>
    (points_push _ _ named.onLine).bind fun _ => points_append _

theorem points_receiver (qualifier : Option Bytes) (name : Bytes) (here : OnLine tokens line) :
    Points (receiver qualifier name line) tokens := by
  refine points_setting.bind fun setting => ?_
  cases qualifier with
  | none =>
      dsimp only
      split_ifs
      · exact (points_push _ _ here).bind fun _ => points_pure _
      · exact points_pure _
  | some qualifier =>
      dsimp only
      cases setting.bindings.resolve? qualifier with
      | none => exact points_pure _
      | some binding => exact (points_push _ _ here).bind fun _ => points_pure _

end Steps

/-! ## Trees -/

section Trees

variable {tokens : Array Token}

mutual

/-- The code of a term fails only on lines of the term. -/
theorem points_term : (tree : Term) → tree.Anchored tokens → Points (term tree) tokens
  | .integer value line, anchored => by
      cases anchored with
      | integer here =>
          rw [term]
          exact points_push _ _ here
  | .string value line, anchored => by
      cases anchored with
      | string here =>
          rw [term]
          exact points_string value here
  | .keyword word line, anchored => by
      cases anchored with
      | keyword here =>
          rw [term]
          exact points_keyword word here
  | .name name line, anchored => by
      cases anchored with
      | name named =>
          rw [term]
          exact (points_resolve named).bind fun _ => points_push _ _ named.onLine
  | .element array index line, anchored => by
      cases anchored with
      | element named inside =>
          rw [term]
          exact (points_elementAddress named (points_expression index inside)).bind fun _ =>
            (points_pop _ _ named.onLine).bind fun _ => points_push _ _ named.onLine
  | .call called, anchored => by
      cases anchored with
      | call inside =>
          rw [term]
          exact points_call called inside
  | .group inner line, anchored => by
      cases anchored with
      | group _ inside =>
          rw [term]
          exact points_expression inner inside
  | .unary operator operand line, anchored => by
      cases anchored with
      | unary _ operates inside =>
          rw [term]
          exact (points_term operand inside).bind fun _ => points_unary operates

theorem points_expression : (tree : Expression) → tree.Anchored tokens →
    Points (expression tree) tokens
  | .mk head tail, anchored => by
      cases anchored with
      | mk first operators operands =>
          rw [expression]
          exact (points_term head first).bind fun _ => points_operations tail operators operands

theorem points_operations : (tail : List (Operator × Term)) →
    (∀ operation ∈ tail, OnLine tokens operation.1.line) →
    (∀ operation ∈ tail, operation.2.Anchored tokens) → Points (operations tail) tokens
  | [], _, _ => by
      rw [operations]
      exact points_pure ()
  | (operator, operand) :: rest, operators, operands => by
      obtain ⟨operates, otherOperators⟩ := List.forall_mem_cons.mp operators
      obtain ⟨inside, otherOperands⟩ := List.forall_mem_cons.mp operands
      rw [operations]
      exact (points_term operand inside).bind fun _ => (points_binary operates).bind fun _ =>
        points_operations rest otherOperators otherOperands

theorem points_call : (tree : Call) → tree.Anchored tokens → Points (call tree) tokens
  | .mk qualifier name arguments line, anchored => by
      cases anchored with
      | mk here inside =>
          rw [call]
          exact (points_receiver qualifier name here).bind fun _ =>
            (points_expressions arguments inside).bind fun _ => points_append _

theorem points_expressions : (trees : List Expression) →
    (∀ tree ∈ trees, tree.Anchored tokens) → Points (expressions trees) tokens
  | [], _ => by
      rw [expressions]
      exact points_pure ()
  | first :: rest, anchored => by
      obtain ⟨inside, others⟩ := List.forall_mem_cons.mp anchored
      rw [expressions]
      exact (points_expression first inside).bind fun _ => points_expressions rest others

end

/-- A target has a line of its own, which need not be that of the keyword. -/
theorem points_assignment {target : Term} {value : Expression} {line : Int}
    (here : OnLine tokens line) (targetAnchored : target.Anchored tokens)
    (valueAnchored : value.Anchored tokens) : Points (assignment target value line) tokens := by
  have valuePoints := points_expression value valueAnchored
  cases targetAnchored with
  | name named =>
      exact (points_resolve named).bind fun _ => valuePoints.bind fun _ => points_pop _ _ here
  | element named inside =>
      exact (points_elementAddress named (points_expression _ inside)).bind fun _ =>
        valuePoints.bind fun _ => (points_pop _ _ here).bind fun _ =>
          (points_pop _ _ here).bind fun _ => (points_push _ _ here).bind fun _ =>
            points_pop _ _ here
  | integer | string | keyword | call | group | unary => exact points_fail here (by simp)

mutual

/-- Every refusal of a statement is reported on the line of a token, its parts included. -/
theorem points_statement : (tree : Statement) → tree.Anchored tokens →
    Points (statement tree) tokens
  | .letTo target value line, anchored => by
      cases anchored with
      | letTo here targetAnchored valueAnchored =>
          rw [statement]
          exact points_assignment here targetAnchored valueAnchored
  | .ifElse condition whenTrue otherwise line, anchored => by
      cases anchored with
      | ifElse _ test inside other =>
          rw [statement]
          exact (points_expression condition test).bind fun _ => (points_labels _ _).bind fun _ =>
            (points_append _).bind fun _ => (points_alternative otherwise other).bind fun _ =>
              (points_append _).bind fun _ => (points_statements whenTrue inside).bind fun _ =>
                points_append _
  | .whileDo condition body line, anchored => by
      cases anchored with
      | whileDo _ test inside =>
          rw [statement]
          exact (points_labels _ _).bind fun _ => (points_append _).bind fun _ =>
            (points_expression condition test).bind fun _ => (points_append _).bind fun _ =>
              (points_statements body inside).bind fun _ => points_append _
  | .doCall called line, anchored => by
      cases anchored with
      | doCall here inside =>
          rw [statement]
          exact (points_call called inside).bind fun _ => points_pop _ _ here
  | .giveBack value line, anchored => by
      cases anchored with
      | giveBack here inside =>
          cases value with
          | none =>
              rw [statement]
              exact (points_push _ _ here).bind fun _ => points_append _
          | some value =>
              rw [statement]
              exact (points_expression value (inside value rfl)).bind fun _ => points_append _

theorem points_statements : (trees : List Statement) →
    (∀ tree ∈ trees, tree.Anchored tokens) → Points (statements trees) tokens
  | [], _ => by
      rw [statements]
      exact points_pure ()
  | first :: rest, anchored => by
      obtain ⟨inside, others⟩ := List.forall_mem_cons.mp anchored
      rw [statements]
      exact (points_statement first inside).bind fun _ => points_statements rest others

theorem points_alternative : (otherwise : Option (List Statement)) →
    (∀ block ∈ otherwise, ∀ tree ∈ block, tree.Anchored tokens) →
    Points (alternative otherwise) tokens
  | none, _ => by
      rw [alternative]
      exact points_pure ()
  | some body, anchored => by
      rw [alternative]
      exact points_statements body (anchored body rfl)

end

theorem points_subroutine {tree : Subroutine} (anchored : tree.Anchored tokens) :
    Points (subroutine tree) tokens := by
  have prologue : Points (prologue tree.kind tree.line) tokens := by
    cases tree.kind with
    | constructor =>
        exact points_setting.bind fun _ => (points_push _ _ anchored.here).bind fun _ =>
          (points_append _).bind fun _ => points_pop _ _ anchored.here
    | method =>
        exact (points_push _ _ anchored.here).bind fun _ => points_pop _ _ anchored.here
    | function => exact points_pure ()
  exact points_setting.bind fun _ => (points_checked _ anchored.here).bind fun _ =>
    prologue.bind fun _ => points_statements _ anchored.inside

end Trees

end Lowering

/-- Where a class with the lines of tokens is refused, the diagnostic points into them. -/
theorem pointsInto_of_lowerClass {tokens : Array Token} {tree : ClassTree}
    {diagnostic : Diagnostic}
    (anchored : ∀ subroutine ∈ tree.subroutines, subroutine.Anchored tokens)
    (refused : lowerClass tree = .error diagnostic) : diagnostic.PointsInto tokens := by
  rcases lowerClass_cases tree with ⟨-, lowered⟩ | ⟨subroutine, member, other, failed, same⟩
  · rw [lowered] at refused
    cases refused
  · rw [same] at refused
    cases refused
    exact Lowering.points_subroutine (anchored subroutine member) failed

end Jack
