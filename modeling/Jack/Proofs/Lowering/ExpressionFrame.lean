import Jack.Proofs.Lowering.ExpressionMeaning

/-!
Contract: what the code of an expression leaves as it is.

Owns: that evaluation keeps locals, arguments and the receiver, since only calls change a
store; and the whole effect of the code of an expression on a machine state.

Does not own: the value of an expression.
-/

set_option autoImplicit false

namespace Jack

open Machine (Instruction Oracle State Store Word performAll truth)
open Lowering (Setting Emits Transforms)

/-! ## Frames -/

/-- Locals, arguments and the receiver are the same. -/
structure Machine.Store.SameFrame (store after : Store) : Prop where
  locals : after.locals = store.locals
  arguments : after.arguments = store.arguments
  receiver : after.receiver = store.receiver

namespace Machine.Store.SameFrame

variable {store middle after : Store}

theorem refl (store : Store) : store.SameFrame store :=
  ⟨rfl, rfl, rfl⟩

theorem trans (first : store.SameFrame middle) (second : middle.SameFrame after) :
    store.SameFrame after :=
  ⟨second.locals.trans first.locals, second.arguments.trans first.arguments,
    second.receiver.trans first.receiver⟩

/-- A called function has a frame of its own. -/
theorem call (oracle : Oracle) (function : Bytes) (arguments : List Word) (store : Store) :
    store.SameFrame (oracle.call function arguments store).2 :=
  ⟨rfl, rfl, rfl⟩

end Machine.Store.SameFrame

namespace Meaning

variable (oracle : Oracle)

/-- Building a string calls routines, and calls keep the frame. -/
theorem sameFrame_string (value : Bytes) (store : Store) :
    store.SameFrame (string oracle value store).2 := by
  -- Each appended byte is one more call.
  have appended (bytes : Bytes) (text : Word × Store) :
      text.2.SameFrame (bytes.foldl (appendByte oracle) text).2 := by
    induction bytes generalizing text with
    | nil => exact .refl _
    | cons byte rest inductionHypothesis =>
        exact (Store.SameFrame.call oracle _ _ text.2).trans (inductionHypothesis _)
  exact (Store.SameFrame.call oracle _ _ store).trans (appended value _)

/-- If there is an answer, it has the frame of the store. -/
def Keeps (store : Store) (answer : Option (Word × Store)) : Prop :=
  ∀ value after, answer = some (value, after) → store.SameFrame after

theorem Keeps.ite {store : Store} {test : Prop} [Decidable test]
    {answer other : Option (Word × Store)} (keeps : Keeps store answer)
    (otherKeeps : Keeps store other) : Keeps store (if test then answer else other) := by
  by_cases holds : test
  · rwa [if_pos holds]
  · rwa [if_neg holds]

/-- Products and quotients are calls; the other operations touch nothing at all. -/
theorem keeps_binary? (symbol : Bytes) (left right : Word) (store : Store) :
    Keeps store (binary? oracle symbol left right store) := by
  have operation (value : Word) : Keeps store (some (value, store)) := by
    intro _ _ same
    cases same
    exact .refl store
  have called (function : Bytes) :
      Keeps store (some (oracle.call function [left, right] store)) := by
    intro _ _ same
    cases same
    exact .call oracle _ _ store
  unfold binary?
  iterate 7 refine .ite (operation _) ?_
  iterate 2 refine .ite (called _) ?_
  intro _ _ same
  cases same

variable {setting : Setting}

mutual

/-- The value of a term is found without touching the frame. -/
theorem sameFrame_term : (tree : Term) → {store after : Store} → {value : Word} →
    term oracle setting tree store = some (value, after) → store.SameFrame after
  | .integer number line, store, after, value, evaluated => by
      rw [term] at evaluated
      cases evaluated
      exact .refl _
  | .string text line, store, after, value, evaluated => by
      rw [term] at evaluated
      have same := sameFrame_string oracle text store
      rwa [Option.some.inj evaluated] at same
  | .keyword word line, store, after, value, evaluated => by
      rw [term] at evaluated
      obtain ⟨constant, -, same⟩ := Option.map_eq_some_iff.mp evaluated
      cases same
      exact .refl _
  | .name name line, store, after, value, evaluated => by
      rw [term] at evaluated
      obtain ⟨binding, -, same⟩ := Option.map_eq_some_iff.mp evaluated
      cases same
      exact .refl _
  | .element array index line, store, after, value, evaluated => by
      rw [term] at evaluated
      obtain ⟨binding, -, indexed⟩ := Option.bind_eq_some_iff.mp evaluated
      obtain ⟨⟨offset, middle⟩, evaluatedIndex, same⟩ := Option.bind_eq_some_iff.mp indexed
      cases same
      exact sameFrame_expression index evaluatedIndex
  | .call called, store, after, value, evaluated => by
      rw [term] at evaluated
      exact sameFrame_call called evaluated
  | .group inner line, store, after, value, evaluated => by
      rw [term] at evaluated
      exact sameFrame_expression inner evaluated
  | .unary operator operand line, store, after, value, evaluated => by
      rw [term] at evaluated
      obtain ⟨⟨operandValue, middle⟩, evaluatedOperand, applied⟩ :=
        Option.bind_eq_some_iff.mp evaluated
      obtain ⟨result, -, same⟩ := Option.bind_eq_some_iff.mp applied
      cases same
      exact sameFrame_term operand evaluatedOperand

theorem sameFrame_expression : (tree : Expression) → {store after : Store} → {value : Word} →
    expression oracle setting tree store = some (value, after) → store.SameFrame after
  | .mk head tail, store, after, value, evaluated => by
      rw [expression] at evaluated
      obtain ⟨⟨left, middle⟩, evaluatedHead, evaluatedTail⟩ := Option.bind_eq_some_iff.mp evaluated
      exact (sameFrame_term head evaluatedHead).trans (sameFrame_operations tail evaluatedTail)

theorem sameFrame_operations : (tail : List (Operator × Term)) → {store after : Store} →
    {left value : Word} → operations oracle setting tail left store = some (value, after) →
    store.SameFrame after
  | [], store, after, left, value, evaluated => by
      rw [operations] at evaluated
      cases evaluated
      exact .refl _
  | (operator, operand) :: rest, store, after, left, value, evaluated => by
      rw [operations] at evaluated
      obtain ⟨⟨right, middle⟩, evaluatedOperand, applied⟩ := Option.bind_eq_some_iff.mp evaluated
      obtain ⟨⟨result, computed⟩, combined, evaluatedRest⟩ := Option.bind_eq_some_iff.mp applied
      exact ((sameFrame_term operand evaluatedOperand).trans
        (keeps_binary? oracle _ _ _ _ _ _ combined)).trans (sameFrame_operations rest evaluatedRest)

/-- A call keeps the frame, and so does every argument before it. -/
theorem sameFrame_call : (tree : Call) → {store after : Store} → {value : Word} →
    call oracle setting tree store = some (value, after) → store.SameFrame after
  | .mk qualifier name arguments line, store, after, value, evaluated => by
      rw [call] at evaluated
      generalize receiver setting qualifier name store = target at evaluated
      obtain ⟨function, received⟩ := target
      obtain ⟨⟨values, middle⟩, evaluatedArguments, called⟩ :=
        Option.bind_eq_some_iff.mp evaluated
      have same := Store.SameFrame.call oracle function (received ++ values) middle
      rw [Option.some.inj called] at same
      exact (sameFrame_expressions arguments evaluatedArguments).trans same

theorem sameFrame_expressions : (trees : List Expression) → {store after : Store} →
    {values : List Word} → expressions oracle setting trees store = some (values, after) →
    store.SameFrame after
  | [], store, after, values, evaluated => by
      rw [expressions] at evaluated
      cases evaluated
      exact .refl _
  | argument :: rest, store, after, values, evaluated => by
      rw [expressions] at evaluated
      obtain ⟨⟨value, middle⟩, evaluatedFirst, others⟩ := Option.bind_eq_some_iff.mp evaluated
      obtain ⟨⟨restValues, last⟩, evaluatedRest, same⟩ := Option.bind_eq_some_iff.mp others
      cases same
      exact (sameFrame_expression argument evaluatedFirst).trans
        (sameFrame_expressions rest evaluatedRest)

end

end Meaning

/-! ## Whole expressions -/

namespace Lowering

/-- The code of an expression pushes its value on any stack and leaves the heap and the statics
that evaluation leaves. Locals, arguments and the receiver are as they were. -/
theorem expression_code_pushes_value (oracle : Oracle) {setting : Setting} {tree : Expression}
    {label next : Nat} {code : List Instruction}
    (emitted : Emits (expression tree) setting label code next ()) (start : State) :
    ∃ value after element temps,
      Meaning.expression oracle setting tree start.store = some (value, after) ∧
      performAll oracle start code = some ⟨value :: start.stack, after, element, temps⟩ ∧
      start.store.SameFrame after := by
  obtain ⟨value, after, evaluated, transforms⟩ :=
    expression_computes oracle tree emitted start.store
  obtain ⟨element, temps, performed⟩ := transforms start.stack start.element start.temps
  exact ⟨value, after, element, temps, evaluated, performed,
    Meaning.sameFrame_expression oracle tree evaluated⟩

/-- A called function answers with the sum of its arguments, and counts the call at address 0. -/
def summing : Oracle where
  answer _ arguments heap statics :=
    ⟨arguments.foldl (· + ·) 0, Function.update heap 0 (heap 0 + 1), statics⟩
  overwrite _ _ _ _ temps := temps

/-- `at` and `cells` are locals of a method. -/
def cellsSetting : Setting where
  className := utf8 "Grid"
  bindings := ({} : Bindings).declareAll [utf8 "at", utf8 "cells"] .local (utf8 "Array")
  hasReceiver := true

/-- The expression `cells[cells[at] + 1] * area(at, "ab") - ~at`. -/
def cellsExpression : Expression :=
  .mk (.element (utf8 "cells")
      (.mk (.element (utf8 "cells") (.mk (.name (utf8 "at") 1) []) 1)
        [(⟨utf8 "+", 1⟩, .integer 1 1)]) 1)
    [(⟨utf8 "*", 1⟩, .call (.mk none (utf8 "area")
      [.mk (.name (utf8 "at") 1) [], .mk (.string (utf8 "ab") 1) []] 1)),
      (⟨utf8 "-", 1⟩, .unary ⟨utf8 "~", 1⟩ (.name (utf8 "at") 1) 1)]

/-- The cells start at address 2048. Each has its own address as its value. -/
def cellsStore : Store where
  locals index := if index = 1 then 2048 else 3
  arguments _ := 0
  statics _ := 0
  receiver := 16
  heap address := address

/-- An expression with elements of arrays and calls inside each other. -/
theorem cells_code_pushes_value :
    ∃ after element temps,
      Meaning.expression summing cellsSetting cellsExpression cellsStore = some (4320, after) ∧
      performAll summing ⟨[7], cellsStore, 0, fun _ => 0⟩
        (expression cellsExpression cellsSetting 0).code =
          some ⟨[4320, 7], after, element, temps⟩ ∧
      after.heap 0 = 5 ∧ after.locals 0 = 3 := by
  have emitted : Emits (expression cellsExpression) cellsSetting 0
      (expression cellsExpression cellsSetting 0).code 0 () := rfl
  have computed : (Meaning.expression summing cellsSetting cellsExpression cellsStore).map
      (fun answer => (answer.1, answer.2.heap 0)) = some (4320, 5) := by
    decide +kernel
  obtain ⟨value, after, element, temps, evaluated, performed, frame⟩ :=
    expression_code_pushes_value summing emitted ⟨[7], cellsStore, 0, fun _ => 0⟩
  rw [evaluated, Option.map_some, Option.some.injEq, Prod.mk.injEq] at computed
  obtain ⟨rfl, calls⟩ := computed
  exact ⟨after, element, temps, evaluated, performed, calls, by rw [frame.locals]; rfl⟩

end Lowering

end Jack
