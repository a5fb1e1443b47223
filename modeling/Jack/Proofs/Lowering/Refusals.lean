import Jack.Proofs.Lowering.Accounting
import Jack.Proofs.Lowering.Settings

/-!
Contract: which classes have no code.

Owns: the reasons why a class that was read can be refused, and that it is refused exactly
if there is one of them.

Does not own: which sources are read as classes.

Only the fault is owned here. Of several reasons, the one that is met first is reported.
-/

set_option autoImplicit false

namespace Jack

/-- The reasons why a class has no code, with their faults. A qualifier of a call is not
among them: what is no variable is taken for a class. -/
inductive ClassTree.Refused (tree : ClassTree) : CodegenFault → Prop where
  | undeclared {subroutine : Subroutine} {use : Use} {name : Bytes}
      (member : subroutine ∈ tree.subroutines)
      (mentioned : .name use name ∈ subroutine.mentions)
      (isVariable : use ≠ .qualifier)
      (free : ¬ tree.Declares subroutine name) :
      Refused tree (.undeclared name)
  | longString {subroutine : Subroutine} {value : Bytes}
      (member : subroutine ∈ tree.subroutines)
      (mentioned : .string value ∈ subroutine.mentions)
      (long : Machine.maxConstant < value.length) :
      Refused tree (.invalidInstruction (.push .constant value.length) .constantTooLarge)
  | manyFields {subroutine : Subroutine}
      (member : subroutine ∈ tree.subroutines)
      (constructs : subroutine.kind = .constructor)
      (many : Machine.maxConstant < tree.fieldCount) :
      Refused tree (.invalidInstruction (.push .constant tree.fieldCount) .constantTooLarge)

namespace Lowering

/-- The prologue fails only where the fields are counted. -/
theorem refused_of_prologue {kind : SubroutineKind} {line : Int} {setting : Setting}
    {label : Nat} {diagnostic : Diagnostic}
    (failed : (prologue kind line setting label).result = .error diagnostic) :
    kind = .constructor ∧ Machine.maxConstant < setting.bindings.count .field ∧
      diagnostic.cause = .codegen (.invalidInstruction
        (.push .constant (setting.bindings.count .field)) .constantTooLarge) := by
  by_cases fits : kind = .constructor →
      (setting.bindings.count .field : Int) ≤ Machine.maxConstant
  · have emitted : Emits (prologue kind line) setting label _ _ () :=
      emits_prologue_iff.mpr ⟨fits, rfl, rfl⟩
    unfold Emits at emitted
    rw [emitted] at failed
    cases failed
  · obtain ⟨rfl, many⟩ := Classical.not_imp.mp fits
    refine ⟨rfl, not_le.mp many, ?_⟩
    rw [prologue] at failed
    rcases result_bind_eq_error failed with inFirst | ⟨_, _, _, emitted, inRest⟩
    · cases inFirst
    · obtain ⟨-, -, rfl⟩ := emits_setting_iff.mp emitted
      rw [push_constant_of_large (not_le.mp many)] at inRest
      cases inRest
      rfl

end Lowering

namespace ClassTree

open Lowering

variable {tree : ClassTree} {length : Nat} {subroutine : Subroutine}

/-- What the statements of a subroutine mention accounts for its body. -/
theorem ReadFrom.accountsFor (readFrom : tree.ReadFrom length)
    (member : subroutine ∈ tree.subroutines) :
    AccountsFor (statements subroutine.body.statements) (tree.setting subroutine)
      subroutine.mentions :=
  accountsFor_statements _ (readFrom.statements_wellFormed member)
    (readFrom.statements_fit member)

/-- A mention is refused in the setting of a subroutine for a reason of the class. -/
theorem ReadFrom.refused_of_mention (readFrom : tree.ReadFrom length)
    (member : subroutine ∈ tree.subroutines) {mention : Mention}
    (mentioned : mention ∈ subroutine.mentions) {fault : CodegenFault}
    (refused : mention.Refused (tree.setting subroutine).bindings fault) :
    tree.Refused fault := by
  have wellFormed := Subroutine.wellFormed_of_mem_mentions
    (readFrom.subroutine_wellFormed member) mention mentioned
  cases refused with
  | undeclared isVariable free =>
      exact .undeclared member mentioned isVariable ((resolve?_eq_none_iff wellFormed).mp free)
  | tooLong long => exact .longString member mentioned long

/-- A subroutine without code gives a reason. -/
theorem ReadFrom.refused_of_emission (readFrom : tree.ReadFrom length)
    (member : subroutine ∈ tree.subroutines) {diagnostic : Diagnostic}
    (failed : (tree.emission subroutine).result = .error diagnostic) :
    ∃ fault, tree.Refused fault ∧ diagnostic.cause = .codegen fault := by
  rw [emission, Lowering.subroutine] at failed
  rcases result_bind_eq_error failed with inSetting | ⟨_, _, _, emitted, behind⟩
  · cases inSetting
  obtain ⟨-, -, rfl⟩ := emits_setting_iff.mp emitted
  rcases result_bind_eq_error behind with inFunction | ⟨_, _, _, -, behind⟩
  · rw [Emit.checked, function_flaw?_eq_none] at inFunction
    cases inFunction
  rcases result_bind_eq_error behind with inPrologue | ⟨_, _, _, -, inBody⟩
  · obtain ⟨constructs, many, cause⟩ := refused_of_prologue inPrologue
    rw [count_field_setting] at many cause
    exact ⟨_, .manyFields member constructs many, cause⟩
  · obtain ⟨mention, mentioned, fault, refused, cause⟩ :=
      (readFrom.accountsFor member).refused inBody
    exact ⟨fault, readFrom.refused_of_mention member mentioned refused, cause⟩

/-- If there is a reason, some subroutine has no code. -/
theorem ReadFrom.exists_error_of_refused (readFrom : tree.ReadFrom length)
    {fault : CodegenFault} (refused : tree.Refused fault) :
    ¬ ∀ subroutine ∈ tree.subroutines, (tree.emission subroutine).result = .ok () := by
  intro accepted
  -- The code of a subroutine has its fields in range and no mention refused.
  have sound (subroutine : Subroutine) (member : subroutine ∈ tree.subroutines) :
      (subroutine.kind = .constructor → (tree.fieldCount : Int) ≤ Machine.maxConstant) ∧
        ∀ mention ∈ subroutine.mentions, ∀ fault,
          ¬ mention.Refused (tree.setting subroutine).bindings fault := by
    obtain ⟨fits, bodyCode, bodyEmits, -⟩ :=
      emits_subroutine_iff.mp (emits_of_result (accepted subroutine member))
    rw [count_field_setting] at fits
    exact ⟨fits, ((readFrom.accountsFor member).accepted bodyEmits).2⟩
  cases refused with
  | @undeclared subroutine _ name member mentioned isVariable free =>
      have wellFormed := Subroutine.wellFormed_of_mem_mentions
        (readFrom.subroutine_wellFormed member) _ mentioned
      have unbound := (resolve?_eq_none_iff wellFormed).mpr free
      exact (sound subroutine member).2 _ mentioned _ (.undeclared isVariable unbound)
  | longString member mentioned long =>
      exact (sound _ member).2 _ mentioned _ (.tooLong long)
  | manyFields member constructs many =>
      have fits := (sound _ member).1 constructs
      omega

end ClassTree

/-- A class that was read is refused exactly if there is a reason, and what is reported is
one of them. -/
theorem compileClass_refuses_iff {source : Bytes} {tree : ClassTree}
    (read : readClass source = .ok tree) :
    ((∃ diagnostic, compileClass source = .error diagnostic) ↔
      ∃ fault, tree.Refused fault) ∧
    ∀ diagnostic, compileClass source = .error diagnostic →
      diagnostic.cause.phase = .codegen ∧
        ∃ fault, tree.Refused fault ∧ diagnostic.cause = .codegen fault := by
  have readFrom := readFrom_of_readClass read
  have compiled : compileClass source = lowerClass tree := by
    rw [compileClass, read]
    rfl
  rw [compiled]
  rcases lowerClass_cases tree with
    ⟨accepted, lowered⟩ | ⟨failing, member, refusal, failed, lowered⟩
  · rw [lowered]
    refine ⟨iff_of_false (by simp) ?_, by simp⟩
    rintro ⟨fault, refused⟩
    exact readFrom.exists_error_of_refused refused accepted
  · obtain ⟨fault, refused, cause⟩ := readFrom.refused_of_emission member failed
    rw [lowered]
    refine ⟨iff_of_true ⟨refusal, rfl⟩ ⟨fault, refused⟩, ?_⟩
    rintro diagnostic ⟨⟩
    exact ⟨by rw [cause]; rfl, fault, refused, cause⟩

/-- Unknown names: a class in a call, which is accepted, and a variable behind it. -/
def unknownSource : Bytes :=
  utf8 "class A\x7bmethod int f(int a)\x7bdo B.g(a);let a=b;return a;\x7d\x7d"

/-- A source with an unknown name in it. -/
theorem unknown_refused :
    ∃ tree, readClass unknownSource = .ok tree ∧
      ((∃ diagnostic, compileClass unknownSource = .error diagnostic) ↔
        ∃ fault, tree.Refused fault) ∧
      ∃ fault, tree.Refused fault := by
  have succeeds : (readClass unknownSource).isOk = true := by decide +kernel
  have fails : (compileClass unknownSource).isOk = false := by decide +kernel
  cases read : readClass unknownSource with
  | error diagnostic =>
      rw [read] at succeeds
      cases succeeds
  | ok tree =>
      have refuses := (compileClass_refuses_iff read).1
      refine ⟨tree, rfl, refuses, refuses.mp ?_⟩
      cases compiled : compileClass unknownSource with
      | error diagnostic => exact ⟨diagnostic, rfl⟩
      | ok code =>
          rw [compiled] at fails
          cases fails

end Jack
