import Jack.Proofs.Project.Steps
import Mathlib.Data.List.Forall2
import Mathlib.Data.List.Sort

/-!
Contract: what the first half of a build answers on a file tree.

Owns: steps that answer and leave the tree as it is; the first failing item of several; the
source files of a path, with those of a directory in the order of their names; and what a
source file gives.

Does not own: what is written.
-/

set_option autoImplicit false

namespace Jack

/-! ## Order of names -/

/-- The order of names in a directory is the order of their bytes. -/
theorem Bytes.compare_eq_lt_iff {left right : Bytes} : compare left right = .lt ↔ left < right := by
  rw [List.compare_eq_compareLex]
  induction left generalizing right with
  | nil => cases right <;> simp [List.compareLex]
  | cons first left inductionHypothesis =>
      cases right with
      | nil => simp [List.compareLex]
      | cons second right =>
          rw [List.compareLex_cons_cons, Ordering.then_eq_lt, inductionHypothesis,
            Std.compare_eq_lt, Std.compare_eq_iff_eq, List.cons_lt_cons_iff]

/-- In one directory, places are in the order of their last names. -/
theorem Place.compare_append (place : Place) (left right : Bytes) :
    compare (place ++ [left]) (place ++ [right]) = compare left right := by
  rw [List.compare_eq_compareLex]
  induction place with
  | nil =>
      rw [List.nil_append, List.nil_append, List.compareLex_cons_cons, List.compareLex_nil_nil,
        Ordering.then_eq]
  | cons name place inductionHypothesis =>
      rw [List.cons_append, List.cons_append, List.compareLex_cons_cons,
        Std.ReflOrd.compare_self, Ordering.eq_then, inductionHypothesis]

namespace FileTree

theorem mem_nodes_iff {tree : FileTree} {place : Place} {node : FileNode} (named : place ≠ []) :
    (place, node) ∈ tree.nodes.toList ↔ tree.node? place = some node := by
  rw [Std.TreeMap.mem_toList_iff_getElem?_eq_some, node?, if_neg (by simpa using named)]

end FileTree

namespace Build

/-- The source files in a directory, each once and in the order of their names. -/
structure SourceNames (tree : FileTree) (place : Place) (names : List Bytes) : Prop where
  ordered : names.Pairwise (· < ·)
  mem_iff : ∀ name, name ∈ names ↔
    isSource name = true ∧ ∃ text, tree.node? (place ++ [name]) = some (.file text)

/-- The name of a source file in a directory, for an entry of the tree that is one. -/
def sourceName? (place : Place) (entry : Place × FileNode) : Option Bytes :=
  if entry.1.dropLast = place ∧ entry.2.kind = .file then entry.1.getLast?.filter isSource
  else none

theorem sourceName?_eq_some_iff {place : Place} {entry : Place × FileNode} {name : Bytes} :
    sourceName? place entry = some name ↔
      isSource name = true ∧ ∃ text, entry = (place ++ [name], .file text) := by
  obtain ⟨other, node⟩ := entry
  constructor
  · intro named
    unfold sourceName? at named
    split_ifs at named with inside
    obtain ⟨isLast, source⟩ := Option.filter_eq_some_iff.mp named
    have whole := List.dropLast_append_getLast? name isLast
    rw [inside.1] at whole
    cases node with
    | directory => cases inside.2
    | file text => exact ⟨source, text, by rw [whole]⟩
  · rintro ⟨source, text, same⟩
    cases same
    have inside : (place ++ [name]).dropLast = place ∧ (FileNode.file text).kind = .file :=
      ⟨List.dropLast_concat, rfl⟩
    rw [sourceName?, if_pos inside, List.getLast?_concat, Option.filter_some, if_pos source]

/-- The nodes of a tree come in order of their places; so the sources of one directory come in order
of their names. -/
theorem sourceNames_filterMap (tree : FileTree) (place : Place) :
    SourceNames tree place (tree.nodes.toList.filterMap (sourceName? place)) where
  ordered := by
    rw [List.pairwise_filterMap]
    refine Std.TreeMap.ordered_keys_toList.imp ?_
    intro left right before leftName isLeft rightName isRight
    obtain ⟨-, leftText, rfl⟩ := sourceName?_eq_some_iff.mp isLeft
    obtain ⟨-, rightText, rfl⟩ := sourceName?_eq_some_iff.mp isRight
    rwa [Place.compare_append, Bytes.compare_eq_lt_iff] at before
  mem_iff := by
    intro name
    simp only [List.mem_filterMap, sourceName?_eq_some_iff]
    constructor
    · rintro ⟨_, member, isSource, text, rfl⟩
      exact ⟨isSource, text, (FileTree.mem_nodes_iff (by simp)).mp member⟩
    · rintro ⟨isSource, text, present⟩
      exact ⟨_, (FileTree.mem_nodes_iff (by simp)).mpr present, isSource, text, rfl⟩

/-- A listing of a directory shows the sources in it, and no others. -/
theorem filterMap_entries {tree : FileTree} {path : Bytes} {place : Place}
    {entries : List (Bytes × FileKind)} (found : tree.find path = .ok (place, .directory))
    (listed : tree.entries path = .ok entries) :
    (entries.filterMap fun (name, kind) =>
      if kind = .file ∧ isSource name then some (Path.join path name) else none) =
      (tree.nodes.toList.filterMap (sourceName? place)).map (Path.join path) := by
  rw [FileTree.entries, found] at listed
  cases listed
  rw [List.filterMap_filterMap, List.map_filterMap]
  congr 1
  funext entry
  obtain ⟨other, node⟩ := entry
  by_cases inside : other.dropLast = place
  · cases last : other.getLast? with
    | none => simp [sourceName?, inside, last]
    | some name =>
        cases node with
        | directory => simp [sourceName?, inside, last, FileNode.kind]
        | file text =>
            by_cases source : isSource name = true <;>
              simp [sourceName?, inside, last, FileNode.kind, source, Option.filter_some]
  · simp [sourceName?, inside]

/-! ## Answers -/

section Answers

variable {Value Other : Type} {step first : BuildStep (StateM FileTree) Value}
  {rest : Value → BuildStep (StateM FileTree) Other} {tree : FileTree} {value : Value}

/-- The step has an answer that its log does not change, and leaves the tree as it is. -/
def Answers (step : BuildStep (StateM FileTree) Value) (tree : FileTree)
    (answer : Except BuildFault Value) : Prop :=
  ∀ log, ∃ laterLog, runOn step log tree = ((answer, laterLog), tree)

theorem answers_pure (value : Value) :
    Answers (pure value : BuildStep (StateM FileTree) Value) tree (.ok value) :=
  fun log => ⟨log, rfl⟩

theorem answers_throw (fault : BuildFault) :
    Answers (throw fault : BuildStep (StateM FileTree) Value) tree (.error fault) :=
  fun log => ⟨log, rfl⟩

theorem answers_log (event : LogEvent) : Answers (Build.log event) tree (.ok ()) :=
  fun log => ⟨event :: log, rfl⟩

/-- Answers in sequence are an answer, since the tree stays as it is. -/
theorem Answers.bind {answer : Except BuildFault Other} (answers : Answers first tree (.ok value))
    (answersThen : Answers (rest value) tree answer) : Answers (first >>= rest) tree answer := by
  intro log
  obtain ⟨middleLog, done⟩ := answers log
  obtain ⟨laterLog, doneThen⟩ := answersThen middleLog
  refine ⟨laterLog, ?_⟩
  rw [runOn_bind, done]
  exact doneThen

/-- Behind a failure, nothing more is asked. -/
theorem Answers.bind_error {fault : BuildFault} (answers : Answers first tree (.error fault)) :
    Answers (first >>= rest) tree (.error fault) := by
  intro log
  obtain ⟨middleLog, done⟩ := answers log
  exact ⟨middleLog, by rw [runOn_bind, done]⟩

theorem answers_require {operation : StateM FileTree (Except FileFault Value)}
    {answer : Except FileFault Value} (performed : tree.perform operation = (answer, tree)) :
    Answers (require operation) tree (answer.mapError .refused) := by
  intro log
  rw [runOn_require, performed]
  cases answer with
  | ok value => exact ⟨log, rfl⟩
  | error fault => exact ⟨log, rfl⟩

end Answers

/-! ## The first failing item -/

section Items

variable {Item Value : Type} {relation : Item → Except BuildFault Value → Prop}
  {each : Item → BuildStep (StateM FileTree) Value} {tree : FileTree} {items : List Item}

/-- An item fails with the fault, and those before it do not fail. -/
def FirstFailing (relation : Item → Except BuildFault Value → Prop) (items : List Item)
    (fault : BuildFault) : Prop :=
  ∃ before item after, items = before ++ item :: after ∧
    (∀ earlier ∈ before, ∃ value, relation earlier (.ok value)) ∧ relation item (.error fault)

/-- No item fails, and these are their values. -/
def NoneFailing (relation : Item → Except BuildFault Value → Prop) (items : List Item)
    (values : List Value) : Prop :=
  List.Forall₂ (fun item value => relation item (.ok value)) items values

theorem FirstFailing.cons {item : Item} {value : Value} {fault : BuildFault}
    (succeeds : relation item (.ok value)) (fails : FirstFailing relation items fault) :
    FirstFailing relation (item :: items) fault := by
  obtain ⟨before, other, after, rfl, earlier, failsThen⟩ := fails
  exact ⟨item :: before, other, after, rfl,
    List.forall_mem_cons.mpr ⟨⟨value, succeeds⟩, earlier⟩, failsThen⟩

theorem NoneFailing.answers {values : List Value}
    (sound : ∀ item answer, relation item answer → Answers (each item) tree answer)
    (noneFail : NoneFailing relation items values) :
    Answers (items.mapM each) tree (.ok values) := by
  induction noneFail with
  | nil =>
      rw [List.mapM_nil]
      exact answers_pure []
  | cons related _ inductionHypothesis =>
      rw [List.mapM_cons]
      exact (sound _ _ related).bind (inductionHypothesis.bind (answers_pure _))

/-- The first item that fails decides the answer for the list; those behind it do not count. -/
theorem FirstFailing.answers {fault : BuildFault}
    (sound : ∀ item answer, relation item answer → Answers (each item) tree answer)
    (fails : FirstFailing relation items fault) :
    Answers (items.mapM each) tree (.error fault) := by
  obtain ⟨before, item, after, rfl, earlier, related⟩ := fails
  induction before with
  | nil =>
      rw [List.nil_append, List.mapM_cons]
      exact (sound _ _ related).bind_error
  | cons other before inductionHypothesis =>
      obtain ⟨⟨value, relatedOther⟩, earlierRest⟩ := List.forall_mem_cons.mp earlier
      rw [List.cons_append, List.mapM_cons]
      exact (sound _ _ relatedOther).bind (inductionHypothesis earlierRest).bind_error

end Items

/-! ## Discovery -/

variable {tree : FileTree} {path : Bytes}

/-- The source files of a path, or why it has none. -/
inductive SourcesAt (tree : FileTree) (path : Bytes) : Except BuildFault (List Bytes) → Prop where
  | missing {refusal : Refusal} (notFound : tree.find path = .error refusal) :
      SourcesAt tree path (.error (.refused { operation := .stat, path, refusal }))
  | source {place : Place} {text : Bytes} (found : tree.find path = .ok (place, .file text))
      (named : isSource path = true) : SourcesAt tree path (.ok [path])
  | otherFile {place : Place} {text : Bytes} (found : tree.find path = .ok (place, .file text))
      (named : isSource path = false) : SourcesAt tree path (.error (.notSource path))
  | directory {place : Place} {names : List Bytes}
      (found : tree.find path = .ok (place, .directory)) (inside : SourceNames tree place names) :
      SourcesAt tree path (.ok (names.map (Path.join path)))

/-- A directory has its source files in one order only. -/
theorem SourceNames.unique {place : Place} {names others : List Bytes}
    (inside : SourceNames tree place names) (insideToo : SourceNames tree place others) :
    names = others :=
  inside.ordered.eq_of_mem_iff insideToo.ordered fun name =>
    (inside.mem_iff name).trans (insideToo.mem_iff name).symm

/-- What the relation says about a path is what discovery does. -/
theorem SourcesAt.answers {answer : Except BuildFault (List Bytes)}
    (sources : SourcesAt tree path answer) : Answers (sourcesOf path) tree answer := by
  have asked := answers_require (tree.perform_stat path)
  cases sources with
  | missing notFound =>
      rw [notFound] at asked
      exact asked.bind_error
  | source found named =>
      rw [found] at asked
      refine asked.bind ?_
      simp only [FileNode.kind, named, if_true]
      exact answers_pure _
  | otherFile found named =>
      rw [found] at asked
      refine asked.bind ?_
      simp only [FileNode.kind, named, Bool.false_eq_true, if_false]
      exact answers_throw _
  | directory found inside =>
      rw [found] at asked
      refine asked.bind ?_
      have listed := answers_require (tree.perform_list path)
      obtain ⟨entries, isList⟩ : ∃ entries, tree.entries path = .ok entries := by
        rw [FileTree.entries, found]
        exact ⟨_, rfl⟩
      rw [isList] at listed
      refine listed.bind ?_
      rw [filterMap_entries found isList, (sourceNames_filterMap tree _).unique inside]
      exact answers_pure _

/-- The sources of several paths come one path after the other. -/
theorem answers_discover {lists : List (List Bytes)} {paths : List Bytes}
    (noneFail : NoneFailing (SourcesAt tree) paths lists) :
    Answers (discover paths) tree (.ok lists.flatten) := by
  have found : Answers (paths.mapM sourcesOf) tree (.ok lists) :=
    noneFail.answers fun _ _ => SourcesAt.answers
  exact found.bind (answers_pure _)

/-! ## Compilation -/

variable {file : Bytes}

/-- What a source file gives: its class, or why it has none. -/
inductive CompiledAt (tree : FileTree) (file : Bytes) : Except BuildFault CompiledFile → Prop where
  | unreadable {refusal : Refusal} (notRead : tree.content file = .error refusal) :
      CompiledAt tree file (.error (.refused
        { operation := if refusal = .isDirectory then .read else .openFile
          path := file
          refusal }))
  | rejected {source : Bytes} {diagnostic : Diagnostic} (isRead : tree.content file = .ok source)
      (rejects : compileClass source = .error diagnostic) :
      CompiledAt tree file (.error (.rejected file diagnostic))
  | compiled {source : Bytes} {compiled : CompiledClass} (isRead : tree.content file = .ok source)
      (compiles : compileClass source = .ok compiled) :
      CompiledAt tree file (.ok { path := file, compiled })

/-- What the relation says about a file is what compiling it does. -/
theorem CompiledAt.answers {answer : Except BuildFault CompiledFile}
    (compiledAt : CompiledAt tree file answer) : Answers (compile file) tree answer := by
  have asked := answers_require (tree.perform_read file)
  refine (answers_log (.compiling file)).bind ?_
  cases compiledAt with
  | unreadable notRead =>
      rw [notRead] at asked
      exact asked.bind_error
  | rejected isRead rejects =>
      rw [isRead] at asked
      refine asked.bind ?_
      simp only [rejects]
      exact (answers_log _).bind (answers_throw _)
  | compiled isRead compiles =>
      rw [isRead] at asked
      refine asked.bind ?_
      simp only [compiles]
      split_ifs
      · exact (answers_log _).bind (answers_pure _)
      · exact answers_pure _

end Build
end Jack
