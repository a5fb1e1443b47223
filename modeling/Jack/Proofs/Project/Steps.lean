import Jack.Project.Build
import Jack.Proofs.Project.FileTree

/-!
Contract: the steps of a build on a file tree.

Owns: what a step answers and what it leaves, put together from the steps it is made of;
and one lemma for each step of a build that says what its success means.

Does not own: what a whole build leaves.
-/

set_option autoImplicit false

namespace Jack

/-- What an operation answers on a tree, and the tree that it leaves. -/
def FileTree.perform {Value : Type} (operation : StateM FileTree Value) (tree : FileTree) :
    Value × FileTree :=
  operation.run tree

namespace Build

/-! ## Steps on trees -/

section Steps

variable {Value Other : Type} {step first : BuildStep (StateM FileTree) Value}
  {rest : Value → BuildStep (StateM FileTree) Other} {log laterLog : List LogEvent}
  {tree later : FileTree} {value : Value} {other : Other}

/-- What a step answers and leaves. -/
def runOn (step : BuildStep (StateM FileTree) Value) (log : List LogEvent) (tree : FileTree) :
    (Except BuildFault Value × List LogEvent) × FileTree :=
  (step.run.run log).run tree

def Completes (step : BuildStep (StateM FileTree) Value) (log : List LogEvent) (tree : FileTree)
    (value : Value) (laterLog : List LogEvent) (later : FileTree) : Prop :=
  runOn step log tree = ((.ok value, laterLog), later)

/-- A step with another behind it stops at the first fault, and the tree keeps what was done
before. -/
theorem runOn_bind (log : List LogEvent) (tree : FileTree) :
    runOn (first >>= rest) log tree =
      match runOn first log tree with
      | ((.ok value, laterLog), later) => runOn (rest value) laterLog later
      | ((.error fault, laterLog), later) => ((.error fault, laterLog), later) := by
  unfold runOn
  rw [ExceptT.run_bind, StateT.run_bind, StateT.run_bind]
  rcases (first.run.run log).run tree with ⟨⟨outcome, laterLog⟩, later⟩
  cases outcome with
  | ok value => rfl
  | error fault => rfl

/-- Two steps complete if the first one does and the second does on what it leaves. -/
theorem completes_bind_iff :
    Completes (first >>= rest) log tree other laterLog later ↔
      ∃ value middleLog middle, Completes first log tree value middleLog middle ∧
        Completes (rest value) middleLog middle other laterLog later := by
  unfold Completes
  rw [runOn_bind]
  rcases runOn first log tree with ⟨⟨outcome, middleLog⟩, middle⟩
  cases outcome with
  | error fault => simp
  | ok value => simp

theorem completes_pure_iff {result : Value} :
    Completes (pure value) log tree result laterLog later ↔
      result = value ∧ laterLog = log ∧ later = tree := by
  show ((Except.ok value, log), tree) = ((Except.ok result, laterLog), later) ↔ _
  simp only [Prod.mk.injEq, Except.ok.injEq, and_assoc, @eq_comm _ value, @eq_comm _ log,
    @eq_comm _ tree]

theorem not_completes_throw {fault : BuildFault} :
    ¬ Completes (throw fault : BuildStep (StateM FileTree) Value) log tree value laterLog
      later := by
  show ¬ ((Except.error fault, log), tree) = ((Except.ok value, laterLog), later)
  simp

theorem completes_log_iff {event : LogEvent} {done : Unit} :
    Completes (Build.log event) log tree done laterLog later ↔
      laterLog = event :: log ∧ later = tree := by
  show ((Except.ok (), event :: log), tree) = ((Except.ok done, laterLog), later) ↔ _
  simp only [Prod.mk.injEq, true_and, @eq_comm _ (event :: log), @eq_comm _ tree]

/-- A refused operation is a fault of the build. The tree is the one that the operation leaves. -/
theorem runOn_require (operation : StateM FileTree (Except FileFault Value))
    (log : List LogEvent) (tree : FileTree) :
    runOn (require operation) log tree =
      match tree.perform operation with
      | (.ok value, later) => ((.ok value, log), later)
      | (.error fault, later) => ((.error (.refused fault), log), later) := by
  unfold require
  rw [runOn_bind]
  have lifted : runOn (liftM operation : BuildStep (StateM FileTree) _) log tree =
      ((.ok (tree.perform operation).1, log), (tree.perform operation).2) := rfl
  rw [lifted]
  rcases tree.perform operation with ⟨outcome, later⟩
  cases outcome with
  | ok value => rfl
  | error fault => rfl

theorem completes_require_iff {operation : StateM FileTree (Except FileFault Value)} :
    Completes (require operation) log tree value laterLog later ↔
      tree.perform operation = (.ok value, later) ∧ laterLog = log := by
  unfold Completes
  rw [runOn_require]
  rcases tree.perform operation with ⟨outcome, after⟩
  cases outcome with
  | error fault => simp
  | ok answer =>
      simp only [Prod.mk.injEq, Except.ok.injEq, @eq_comm _ log]
      exact and_right_comm

theorem completes_mapM_nil_iff {Item : Type} {each : Item → BuildStep (StateM FileTree) Value}
    {values : List Value} :
    Completes ([].mapM each) log tree values laterLog later ↔
      values = [] ∧ laterLog = log ∧ later = tree := by
  rw [List.mapM_nil]
  exact completes_pure_iff

/-- A list of steps runs from front to back, each on the tree that the one before it left. -/
theorem completes_mapM_cons_iff {Item : Type} {each : Item → BuildStep (StateM FileTree) Value}
    {item : Item} {items : List Item} {values : List Value} :
    Completes ((item :: items).mapM each) log tree values laterLog later ↔
      ∃ value middleLog middle others, Completes (each item) log tree value middleLog middle ∧
        Completes (items.mapM each) middleLog middle others laterLog later ∧
        values = value :: others := by
  rw [List.mapM_cons, completes_bind_iff]
  constructor
  · rintro ⟨value, middleLog, middle, first, rest⟩
    obtain ⟨others, lastLog, last, completes, done⟩ := completes_bind_iff.mp rest
    obtain ⟨rfl, rfl, rfl⟩ := completes_pure_iff.mp done
    exact ⟨value, middleLog, middle, others, first, completes, rfl⟩
  · rintro ⟨value, middleLog, middle, others, first, completes, rfl⟩
    exact ⟨value, middleLog, middle, first, completes_bind_iff.mpr
      ⟨others, laterLog, later, completes, completes_pure_iff.mpr ⟨rfl, rfl, rfl⟩⟩⟩

/-- The step asks about files, and changes none. -/
def OnlyAsks (step : BuildStep (StateM FileTree) Value) : Prop :=
  ∀ log tree, (runOn step log tree).2 = tree

theorem onlyAsks_pure (value : Value) :
    OnlyAsks (pure value : BuildStep (StateM FileTree) Value) :=
  fun _ _ => rfl

theorem onlyAsks_throw (fault : BuildFault) :
    OnlyAsks (throw fault : BuildStep (StateM FileTree) Value) :=
  fun _ _ => rfl

/-- Steps that only ask may follow one another, whatever is decided on the answers. -/
theorem OnlyAsks.bind (asks : OnlyAsks first) (asksThen : ∀ value, OnlyAsks (rest value)) :
    OnlyAsks (first >>= rest) := by
  intro log tree
  have same := asks log tree
  rw [runOn_bind]
  generalize runOn first log tree = answer at same ⊢
  obtain ⟨⟨outcome, laterLog⟩, later⟩ := answer
  cases outcome with
  | error fault => exact same
  | ok value => exact (asksThen value laterLog later).trans same

theorem onlyAsks_require {operation : StateM FileTree (Except FileFault Value)}
    (asks : ∀ tree : FileTree, (tree.perform operation).2 = tree) :
    OnlyAsks (require operation) := by
  intro log tree
  have same := asks tree
  rw [runOn_require]
  generalize tree.perform operation = answer at same ⊢
  obtain ⟨outcome, later⟩ := answer
  cases outcome with
  | ok value => exact same
  | error fault => exact same

/-- Asking once for each item of a list leaves the tree as it is. By induction on the list. -/
theorem onlyAsks_mapM {Item : Type} {each : Item → BuildStep (StateM FileTree) Value}
    (asks : ∀ item, OnlyAsks (each item)) (items : List Item) : OnlyAsks (items.mapM each) := by
  induction items with
  | nil =>
      rw [List.mapM_nil]
      exact onlyAsks_pure []
  | cons item items inductionHypothesis =>
      rw [List.mapM_cons]
      exact (asks item).bind fun _ => inductionHypothesis.bind fun _ => onlyAsks_pure _

/-- After a step that only asks, the tree is the same one, and not merely one with the same
files. -/
theorem OnlyAsks.of_completes (asks : OnlyAsks step)
    (completes : Completes step log tree value laterLog later) : later = tree := by
  have same := asks log tree
  rw [completes] at same
  exact same

end Steps

end Build

/-! ## File operations -/

namespace FileTree

theorem perform_stat (tree : FileTree) (path : Bytes) :
    tree.perform (Files.stat path) =
      (((tree.find path).map fun found => found.2.kind).mapError fun refusal =>
        { operation := .stat, path, refusal }, tree) := rfl

theorem perform_list (tree : FileTree) (path : Bytes) :
    tree.perform (Files.list path) =
      ((tree.entries path).mapError fun refusal =>
        { operation := .openFile, path, refusal }, tree) := rfl

theorem perform_bind {Value Other : Type} (first : StateM FileTree Value)
    (rest : Value → StateM FileTree Other) (tree : FileTree) :
    tree.perform (first >>= rest) =
      (tree.perform first).2.perform (rest (tree.perform first).1) := rfl

/-- Reading a file answers with its content or with the reason for a refusal. A directory can be
opened, so it is refused at the read. -/
theorem perform_read (tree : FileTree) (path : Bytes) :
    tree.perform (Files.read path) =
      ((tree.content path).mapError fun refusal =>
        { operation := if refusal = .isDirectory then .read else .openFile, path, refusal },
        tree) := by
  have asked : tree.perform (Files.content path) = (tree.content path, tree) := rfl
  rw [Files.read, perform_bind, asked]
  cases tree.content path with
  | ok content => rfl
  | error refusal => cases refusal <;> rfl

theorem content_of_perform_read {tree later : FileTree} {path text : Bytes}
    (performed : tree.perform (Files.read path) = (.ok text, later)) :
    later = tree ∧ tree.content path = .ok text := by
  rw [perform_read] at performed
  cases isRead : tree.content path with
  | error refusal =>
      rw [isRead] at performed
      cases performed
  | ok content =>
      rw [isRead] at performed
      cases performed
      exact ⟨rfl, rfl⟩

/-- A refused save leaves the tree unchanged. -/
theorem perform_save (tree : FileTree) (path text : Bytes) :
    tree.perform (Files.save path text) =
      match tree.edit path fun _ => text with
      | .ok later => (.ok (), later)
      | .error refusal => (.error { operation := .openFile, path, refusal }, tree) := by
  have written : tree.perform (Files.write path text) =
      match tree.edit path fun _ => text with
      | .ok later => (.ok (), later)
      | .error refusal => (.error refusal, tree) := rfl
  rw [Files.save, Files.attempt, perform_bind, written]
  cases tree.edit path fun _ => text with
  | ok later => rfl
  | error refusal => rfl

/-- Making one directory takes nothing away, also where it is refused. -/
theorem extends_makeOne (tree : FileTree) (path : Bytes) :
    tree.Extends (tree.perform (Files.makeOne path)).2 := by
  have made : tree.perform (Files.create path) =
      match tree.create path with
      | .ok later => (.ok (), later)
      | .error refusal => (.error refusal, tree) := rfl
  have asked : tree.perform (Files.kind path) =
      ((tree.find path).map fun found => found.2.kind, tree) := rfl
  rw [Files.makeOne, perform_bind, made]
  cases created : tree.create path with
  | ok later => exact extends_of_create created
  | error refusal =>
      show tree.Extends (tree.perform (Files.kind path >>= _)).2
      rw [perform_bind, asked]
      cases (tree.find path).map fun found => found.2.kind with
      | error other => exact .refl tree
      | ok kind => cases kind <;> exact .refl tree

/-- Directories are only added. -/
theorem extends_makeDirectories (tree : FileTree) (path : Bytes) :
    tree.Extends (tree.perform (Files.makeDirectories path)).2 := by
  have asked (path : Bytes) : tree.perform (Files.kind path) =
      ((tree.find path).map fun found => found.2.kind, tree) := rfl
  induction length : path.length using Nat.strongRecOn generalizing path with
  | _ count inductionHypothesis =>
      rw [Files.makeDirectories, perform_bind, asked]
      cases (tree.find path).map fun found => found.2.kind with
      | ok kind => cases kind <;> exact .refl tree
      | error refusal =>
          dsimp only
          split
          · exact extends_makeOne tree path
          · rename_i parent isParent
            have shorter := Files.length_lt_of_parent? isParent
            have above := inductionHypothesis parent.length (by omega) parent rfl
            rw [perform_bind]
            generalize tree.perform (Files.makeDirectories parent) = answer at above ⊢
            obtain ⟨outcome, middle⟩ := answer
            cases outcome with
            | error fault => exact above
            | ok done => exact above.trans (extends_makeOne middle path)

end FileTree

/-! ## Steps of a build -/

namespace Build

variable {log laterLog : List LogEvent} {tree later : FileTree} {options : Options}

/-- Looking for sources changes no file: everything that discovery does is a listing or a
question. -/
theorem onlyAsks_discover (paths : List Bytes) :
    OnlyAsks (discover paths : BuildStep (StateM FileTree) (List Bytes)) := by
  have each (path : Bytes) :
      OnlyAsks (sourcesOf path : BuildStep (StateM FileTree) (List Bytes)) := by
    refine (onlyAsks_require fun tree => by rw [tree.perform_stat path]).bind fun kind => ?_
    cases kind with
    | file =>
        dsimp only
        split_ifs
        · exact onlyAsks_pure _
        · exact onlyAsks_throw _
    | directory =>
        exact (onlyAsks_require fun tree => by rw [tree.perform_list path]).bind fun _ =>
          onlyAsks_pure _
  exact (onlyAsks_mapM each paths).bind fun _ => onlyAsks_pure _

/-- A compiled file is that of the class that its path leads to. -/
theorem completes_compile {file : Bytes} {result : CompiledFile}
    (completes : Completes (compile file) log tree result laterLog later) :
    later = tree ∧ result.path = file ∧ ∃ source, tree.content file = .ok source ∧
      compileClass source = .ok result.compiled := by
  obtain ⟨_, _, _, logs, behindLog⟩ := completes_bind_iff.mp completes
  obtain ⟨-, rfl⟩ := completes_log_iff.mp logs
  obtain ⟨source, _, _, reads, behindRead⟩ := completes_bind_iff.mp behindLog
  obtain ⟨performed, -⟩ := completes_require_iff.mp reads
  obtain ⟨rfl, found⟩ := FileTree.content_of_perform_read performed
  cases compiles : compileClass source with
  | error diagnostic =>
      rw [compiles] at behindRead
      obtain ⟨_, _, _, _, thrown⟩ := completes_bind_iff.mp behindRead
      exact absurd thrown not_completes_throw
  | ok compiled =>
      rw [compiles] at behindRead
      dsimp only at behindRead
      split_ifs at behindRead
      · obtain ⟨_, _, _, warned, returned⟩ := completes_bind_iff.mp behindRead
        obtain ⟨-, rfl⟩ := completes_log_iff.mp warned
        obtain ⟨rfl, -, rfl⟩ := completes_pure_iff.mp returned
        exact ⟨rfl, rfl, source, found, compiles⟩
      · obtain ⟨rfl, -, rfl⟩ := completes_pure_iff.mp behindRead
        exact ⟨rfl, rfl, source, found, compiles⟩

/-- Compiling all sources of a list writes nothing. Each file compiled comes from the content that
the tree has at its path. -/
theorem completes_mapM_compile {paths : List Bytes} {files : List CompiledFile}
    (completes : Completes (paths.mapM compile) log tree files laterLog later) :
    later = tree ∧ files.map CompiledFile.path = paths ∧
    ∀ file ∈ files, ∃ source, tree.content file.path = .ok source ∧
      compileClass source = .ok file.compiled := by
  induction paths generalizing files log tree with
  | nil =>
      obtain ⟨rfl, -, rfl⟩ := completes_mapM_nil_iff.mp completes
      exact ⟨rfl, rfl, List.forall_mem_nil _⟩
  | cons path paths inductionHypothesis =>
      obtain ⟨file, _, _, others, first, rest, rfl⟩ := completes_mapM_cons_iff.mp completes
      obtain ⟨rfl, rfl, compiles⟩ := completes_compile first
      obtain ⟨rfl, rfl, compileOthers⟩ := inductionHypothesis rest
      exact ⟨rfl, rfl, List.forall_mem_cons.mpr ⟨compiles, compileOthers⟩⟩

/-- The files of a build are those discovered, in that order, compiled from what the tree held at
the start. -/
theorem completes_compileSources {files : List CompiledFile}
    (completes : Completes (compileSources options) log tree files laterLog later) :
    later = tree ∧
    (∃ middleLog, Completes (discover options.paths) log tree (files.map CompiledFile.path)
      middleLog tree) ∧
    ∀ file ∈ files, ∃ source, tree.content file.path = .ok source ∧
      compileClass source = .ok file.compiled := by
  obtain ⟨paths, middleLog, _, discovers, behind⟩ := completes_bind_iff.mp completes
  obtain rfl := (onlyAsks_discover options.paths).of_completes discovers
  dsimp only at behind
  split_ifs at behind
  · obtain ⟨_, _, _, thrown, -⟩ := completes_bind_iff.mp behind
    exact absurd thrown not_completes_throw
  · obtain ⟨_, _, _, logs, compiles⟩ := completes_bind_iff.mp behind
    obtain ⟨-, rfl⟩ := completes_log_iff.mp logs
    obtain ⟨rfl, rfl, each⟩ := completes_mapM_compile compiles
    exact ⟨rfl, ⟨middleLog, discovers⟩, each⟩

/-- The check before a save can only refuse a listing; it never changes one. -/
theorem eq_listing_of_checkedListing {compiled : CompiledClass} {text : Bytes}
    (checked : checkedListing compiled = .ok text) : text = Machine.listing compiled.code := by
  unfold checkedListing at checked
  dsimp only at checked
  split at checked
  · cases checked
  · split_ifs at checked
    cases checked
    rfl

def codePath (options : Options) (file : CompiledFile) : Bytes :=
  Path.join (codeDirectory options file.path) (file.compiled.name ++ utf8 ".vm")

theorem writes_of_require_save {path text : Bytes} {done : Unit}
    (completes : Completes (require (Files.save path text)) log tree done laterLog later) :
    ∃ place, tree.Writes later path place text := by
  obtain ⟨saved, -⟩ := completes_require_iff.mp completes
  rw [FileTree.perform_save] at saved
  cases edited : tree.edit path fun _ => text with
  | error refusal =>
      rw [edited] at saved
      cases saved
  | ok after =>
      rw [edited] at saved
      cases saved
      obtain ⟨place, -, writes⟩ := FileTree.writes_of_edit edited
      exact ⟨place, writes⟩

/-- The code of a class is saved whole, at the path that the options give it. -/
theorem completes_saveCode {file : CompiledFile} {path : Bytes}
    (completes : Completes (saveCode options file) log tree path laterLog later) :
    path = codePath options file ∧
      ∃ place, tree.Saves later path place (Machine.listing file.compiled.code) := by
  obtain ⟨_, _, middle, makes, behind⟩ := completes_bind_iff.mp completes
  obtain ⟨made, -⟩ := completes_require_iff.mp makes
  have extension := tree.extends_makeDirectories (codeDirectory options file.path)
  rw [made] at extension
  cases checked : checkedListing file.compiled with
  | error fault =>
      rw [checked] at behind
      exact absurd behind not_completes_throw
  | ok text =>
      rw [checked] at behind
      obtain rfl := eq_listing_of_checkedListing checked
      obtain ⟨_, _, _, saves, logged⟩ := completes_bind_iff.mp behind
      obtain ⟨place, writes⟩ := writes_of_require_save saves
      obtain ⟨_, _, _, logs, returned⟩ := completes_bind_iff.mp logged
      obtain ⟨-, rfl⟩ := completes_log_iff.mp logs
      obtain ⟨rfl, -, rfl⟩ := completes_pure_iff.mp returned
      exact ⟨rfl, place, extension.saves writes⟩

theorem completes_saveBundle {path : Bytes} {bundle : Machine.Bundle} {done : Unit}
    (completes : Completes (saveBundle path bundle) log tree done laterLog later) :
    ∃ place, tree.Saves later path place bundle.encode := by
  obtain ⟨_, _, middle, makes, behind⟩ := completes_bind_iff.mp completes
  obtain ⟨made, -⟩ := completes_require_iff.mp makes
  have extension := tree.extends_makeDirectories (Path.directory path)
  rw [made] at extension
  obtain ⟨_, _, _, saves, logs⟩ := completes_bind_iff.mp behind
  obtain ⟨place, writes⟩ := writes_of_require_save saves
  obtain ⟨-, rfl⟩ := completes_log_iff.mp logs
  exact ⟨place, extension.saves writes⟩

end Build

end Jack
