import Jack.Proofs.Bundling
import Jack.Proofs.Project.Discovery

/-!
Contract: how a build fails.

Owns: the first fault of a project that can not be compiled, that such a build changes
nothing, and that any other build fails only by a refused file operation.

Does not own: what a build that succeeds leaves.
-/

set_option autoImplicit false

namespace Jack.Build

variable {tree later : FileTree} {paths : List Bytes} {options : Options}

/-! ## Projects that can not be compiled -/

def Discovers (tree : FileTree) (paths files : List Bytes) : Prop :=
  ∃ lists, NoneFailing (SourcesAt tree) paths lists ∧ files = lists.flatten

/-- What goes wrong first. All paths are searched before a file is read. -/
inductive FirstFault (tree : FileTree) (paths : List Bytes) : BuildFault → Prop where
  | undiscovered {fault : BuildFault} (fails : FirstFailing (SourcesAt tree) paths fault) :
      FirstFault tree paths fault
  | noSources (found : Discovers tree paths []) : FirstFault tree paths (.noSources paths)
  | uncompiled {files : List Bytes} {fault : BuildFault} (found : Discovers tree paths files)
      (fails : FirstFailing (CompiledAt tree) files fault) : FirstFault tree paths fault

theorem FirstFailing.exists_mem {Item Value : Type}
    {relation : Item → Except BuildFault Value → Prop} {items : List Item} {fault : BuildFault}
    (fails : FirstFailing relation items fault) : ∃ item ∈ items, relation item (.error fault) := by
  obtain ⟨before, item, after, rfl, -, related⟩ := fails
  exact ⟨item, by simp, related⟩

theorem Discovers.answers {found : List Bytes} (discovers : Discovers tree paths found) :
    Answers (discover paths) tree (.ok found) := by
  obtain ⟨lists, noneFail, rfl⟩ := discovers
  exact answers_discover noneFail

/-- Source files that are found are compiled one by one. -/
theorem Discovers.answers_compileSources {found : List Bytes}
    {answer : Except BuildFault (List CompiledFile)}
    (discovers : Discovers tree options.paths found) (nonempty : found ≠ [])
    (answers : Answers (found.mapM compile) tree answer) :
    Answers (compileSources options) tree answer := by
  refine discovers.answers.bind ?_
  simp only [List.isEmpty_eq_false_iff.mpr nonempty, Bool.false_eq_true, if_false]
  exact (answers_log _).bind answers

/-- A build stops at the first fault, before it has written anything. -/
theorem FirstFault.answers {fault : BuildFault} (first : FirstFault tree options.paths fault) :
    Answers (compileSources options) tree (.error fault) := by
  cases first with
  | undiscovered fails =>
      have undiscovered : Answers (options.paths.mapM sourcesOf) tree (.error fault) :=
        fails.answers fun _ _ => SourcesAt.answers
      have fails : Answers (discover options.paths) tree (.error fault) := undiscovered.bind_error
      exact fails.bind_error
  | noSources found =>
      refine found.answers.bind ?_
      exact (answers_throw _).bind_error
  | uncompiled found fails =>
      refine found.answers_compileSources ?_ (fails.answers fun _ _ => CompiledAt.answers)
      rintro rfl
      obtain ⟨file, member, -⟩ := fails.exists_mem
      cases member

/-! ## Refused changes -/

/-- A tree refuses to take a directory or a file. -/
inductive RefusesChange (tree : FileTree) (fault : FileFault) : Prop where
  | directory {directory : Bytes}
      (refuses : (tree.perform (Files.makeDirectories directory)).1 = .error fault) :
      RefusesChange tree fault
  | file {path text : Bytes} (refuses : (tree.perform (Files.save path text)).1 = .error fault) :
      RefusesChange tree fault

section Changes

variable {Value Other : Type} {step first : BuildStep (StateM FileTree) Value}
  {rest : Value → BuildStep (StateM FileTree) Other}

/-- The step removes nothing, and fails only where a change is refused. -/
def FailsByRefusal (step : BuildStep (StateM FileTree) Value) : Prop :=
  ∀ log tree, tree.Grows (runOn step log tree).2 ∧
    ∀ fault, (runOn step log tree).1.1 = .error fault →
      ∃ refused middle, fault = .refused refused ∧ tree.Grows middle ∧
        RefusesChange middle refused

/-- If both steps only fail by a refusal, so do they together, since trees only grow. -/
theorem FailsByRefusal.bind (refusal : FailsByRefusal first)
    (refusalThen : ∀ value, FailsByRefusal (rest value)) : FailsByRefusal (first >>= rest) := by
  intro log tree
  obtain ⟨grows, fails⟩ := refusal log tree
  rw [runOn_bind]
  generalize runOn first log tree = answer at grows fails ⊢
  obtain ⟨⟨outcome, middleLog⟩, middle⟩ := answer
  cases outcome with
  | error fault =>
      refine ⟨grows, fun _ failed => ?_⟩
      cases failed
      exact fails fault rfl
  | ok value =>
      obtain ⟨growsThen, failsThen⟩ := refusalThen value middleLog middle
      refine ⟨grows.trans growsThen, fun fault failed => ?_⟩
      obtain ⟨refused, later, same, laterGrows, refuses⟩ := failsThen fault failed
      exact ⟨refused, later, same, grows.trans laterGrows, refuses⟩

end Changes

end Jack.Build
