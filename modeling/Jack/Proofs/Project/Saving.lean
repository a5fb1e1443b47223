import Jack.Proofs.Project.Steps

/-!
Contract: what is in the files of a build that succeeds.

Owns: that saving one file after the other leaves in each place what was saved there last;
what follows for a whole build; and a build in which code is lost.

Does not own: single steps.

Paths are compared by the places that they lead to, since two texts can name one file.
-/

set_option autoImplicit false

namespace Jack.Build

variable {log laterLog : List LogEvent} {tree later : FileTree} {options : Options}
  {files : List CompiledFile} {paths : List Bytes}

/-- The last of several files of which the code goes to the place that a path leads to. -/
def lastAt (options : Options) (tree : FileTree) (path : Bytes) (files : List CompiledFile) :
    Option CompiledFile :=
  files.reverse.find? fun file => tree.place? (codePath options file) == tree.place? path

theorem lastAt_cons (options : Options) (tree : FileTree) (path : Bytes) (file : CompiledFile)
    (files : List CompiledFile) :
    lastAt options tree path (file :: files) = (lastAt options tree path files).or
      (if tree.place? (codePath options file) = tree.place? path then some file else none) := by
  rw [lastAt, lastAt, List.reverse_cons, List.find?_append, List.find?_singleton]
  simp only [beq_iff_eq]

/-- Saving classes only adds to a tree, and answers with the paths in order. -/
theorem grows_of_saveCode (completes :
    Completes (files.mapM (saveCode options)) log tree paths laterLog later) :
    tree.Grows later ∧ paths = files.map (codePath options) := by
  induction files generalizing log tree paths with
  | nil =>
      obtain ⟨rfl, -, rfl⟩ := completes_mapM_nil_iff.mp completes
      exact ⟨.refl _, rfl⟩
  | cons file files inductionHypothesis =>
      obtain ⟨path, _, _, others, first, rest, rfl⟩ := completes_mapM_cons_iff.mp completes
      obtain ⟨rfl, place, saves⟩ := completes_saveCode first
      obtain ⟨grows, rfl⟩ := inductionHypothesis rest
      exact ⟨saves.grows.trans grows, rfl⟩

/-- Saving files gives a file that is there already the code of the last one that goes to its
place, and leaves it alone if none does. -/
theorem find_of_saveCode (completes :
    Completes (files.mapM (saveCode options)) log tree paths laterLog later)
    {path : Bytes} {place : Place} {text : Bytes}
    (found : tree.find path = .ok (place, .file text)) :
    later.find path = .ok (place, .file (((lastAt options later path files).map fun file =>
      Machine.listing file.compiled.code).getD text)) := by
  induction files generalizing log tree paths text with
  | nil =>
      obtain ⟨-, -, rfl⟩ := completes_mapM_nil_iff.mp completes
      exact found
  | cons file files inductionHypothesis =>
      obtain ⟨_, _, middle, others, first, rest, rfl⟩ := completes_mapM_cons_iff.mp completes
      obtain ⟨rfl, filePlace, saves⟩ := completes_saveCode first
      have grows := (grows_of_saveCode rest).1
      have isThere := (saves.grows.trans grows).place? found
      have saved := grows.place? saves.found
      rw [lastAt_cons, saved, isThere]
      by_cases same : place = filePlace
      · obtain rfl := same
        rw [inductionHypothesis rest (saves.find_same found), if_pos rfl]
        cases lastAt options later path files <;> rfl
      · have apart : ¬ some filePlace = some place := fun equal => same (Option.some.inj equal).symm
        rw [inductionHypothesis rest (saves.find_other same found), if_neg apart, Option.or_none]

/-- So the file of each one has the code of the last one that goes to the same place. -/
theorem content_of_saveCode (completes :
    Completes (files.mapM (saveCode options)) log tree paths laterLog later)
    {file : CompiledFile} (member : file ∈ files) :
    ∃ place last, lastAt options later (codePath options file) files = some last ∧
      later.find (codePath options file) =
        .ok (place, .file (Machine.listing last.compiled.code)) := by
  induction files generalizing log tree paths with
  | nil => cases member
  | cons first files inductionHypothesis =>
      obtain ⟨_, _, middle, others, saved, rest, rfl⟩ := completes_mapM_cons_iff.mp completes
      rw [lastAt_cons]
      rcases List.mem_cons.mp member with rfl | inRest
      · obtain ⟨rfl, place, saves⟩ := completes_saveCode saved
        have found := find_of_saveCode rest saves.found
        rw [if_pos rfl]
        cases last : lastAt options later (codePath options file) files with
        | none =>
            rw [last] at found
            exact ⟨place, file, rfl, found⟩
        | some other =>
            rw [last] at found
            exact ⟨place, other, rfl, found⟩
      · obtain ⟨place, last, isLast, found⟩ := inductionHypothesis rest inRest
        exact ⟨place, last, by rw [isLast, Option.some_or], found⟩

/-- Which class is the last one depends on places only, not on what is in the files. -/
theorem lastAt_congr {path : Bytes} (samePlace : later.place? path = tree.place? path)
    (samePlaces : ∀ file ∈ files,
      later.place? (codePath options file) = tree.place? (codePath options file)) :
    lastAt options later path files = lastAt options tree path files := by
  induction files with
  | nil => rfl
  | cons file files inductionHypothesis =>
      obtain ⟨first, rest⟩ := List.forall_mem_cons.mp samePlaces
      rw [lastAt_cons, lastAt_cons, inductionHypothesis rest, first, samePlace]

/-! ## Whole builds -/

/-- Saving a bundle behind all code leaves the code alone that is not in its place. -/
theorem completes_save {random : Bytes} {written : List Bytes}
    (completes : Completes (save options random files) log tree written laterLog later) :
    written = files.map (codePath options) ++
      (if options.bundle.isEmpty then [] else [options.bundle]) ∧
    ∀ file ∈ files, later.place? options.bundle ≠ later.place? (codePath options file) →
      ∃ last, lastAt options later (codePath options file) files = some last ∧
        later.content (codePath options file) = .ok (Machine.listing last.compiled.code) := by
  obtain ⟨paths, _, saved, savesCode, behind⟩ := completes_bind_iff.mp completes
  obtain ⟨-, rfl⟩ := grows_of_saveCode savesCode
  have code {file : CompiledFile} (member : file ∈ files) := content_of_saveCode savesCode member
  by_cases noBundle : options.bundle.isEmpty = true
  · rw [if_pos noBundle] at behind
    obtain ⟨rfl, -, rfl⟩ := completes_pure_iff.mp behind
    refine ⟨by rw [if_pos noBundle, List.append_nil], fun file member _ => ?_⟩
    obtain ⟨place, last, isLast, found⟩ := code member
    exact ⟨last, isLast, FileTree.content_eq_ok_iff.mpr ⟨place, found⟩⟩
  · rw [if_neg noBundle] at behind
    obtain ⟨_, _, _, savesBundle, returned⟩ := completes_bind_iff.mp behind
    obtain ⟨rfl, -, rfl⟩ := completes_pure_iff.mp returned
    obtain ⟨bundlePlace, saves⟩ := completes_saveBundle savesBundle
    refine ⟨by rw [if_neg noBundle], fun file member apart => ?_⟩
    obtain ⟨place, last, isLast, found⟩ := code member
    have samePlaces : ∀ other ∈ files, later.place? (codePath options other) =
        saved.place? (codePath options other) := by
      intro other inFiles
      obtain ⟨otherPlace, _, _, otherFound⟩ := code inFiles
      rw [saves.grows.place? otherFound, FileTree.place?_of_find otherFound]
    rw [FileTree.place?_of_find saves.found, saves.grows.place? found] at apart
    have kept := saves.find_other (fun same => apart (congrArg some same.symm)) found
    refine ⟨last, ?_, FileTree.content_eq_ok_iff.mpr ⟨place, kept⟩⟩
    rw [lastAt_congr (samePlaces file member) samePlaces, isLast]

/-- What a build that succeeds did. -/
theorem completes_of_runBuild {random : Bytes} {written : List Bytes}
    (succeeds : (tree.perform (runBuild options random)).1.outcome = .ok written) :
    ∃ log, Completes (build options random) [] tree written log
      (tree.perform (runBuild options random)).2 := by
  have step : tree.perform (runBuild options random) =
      (⟨(runOn (build options random) [] tree).1.1,
        (runOn (build options random) [] tree).1.2.reverse⟩,
        (runOn (build options random) [] tree).2) := rfl
  rw [step] at succeeds ⊢
  refine ⟨(runOn (build options random) [] tree).1.2, ?_⟩
  rw [Completes, ← succeeds]

/-- After a build that succeeds, the file that is reported for a source file has the code of
the last source file that is reported with the same place, unless that is the place of the
bundle. So code is lost exactly if a later class with other code goes to the same place. -/
theorem written_code_is_last {random : Bytes} {written : List Bytes}
    (succeeds : (tree.perform (runBuild options random)).1.outcome = .ok written) :
    ∃ files : List CompiledFile,
      (∃ log, Completes (discover options.paths) [] tree (files.map CompiledFile.path) log
        tree) ∧
      (∀ file ∈ files, ∃ source, tree.content file.path = .ok source ∧
        compileClass source = .ok file.compiled) ∧
      written = files.map (codePath options) ++
        (if options.bundle.isEmpty then [] else [options.bundle]) ∧
      ∀ file ∈ files,
        (tree.perform (runBuild options random)).2.place? options.bundle ≠
          (tree.perform (runBuild options random)).2.place? (codePath options file) →
        ∃ last,
          lastAt options (tree.perform (runBuild options random)).2 (codePath options file)
            files = some last ∧
          (tree.perform (runBuild options random)).2.content (codePath options file) =
            .ok (Machine.listing last.compiled.code) := by
  obtain ⟨log, completes⟩ := completes_of_runBuild succeeds
  generalize (tree.perform (runBuild options random)).2 = later at completes ⊢
  obtain ⟨files, _, _, compiles, behind⟩ := completes_bind_iff.mp completes
  obtain ⟨rfl, discovers, each⟩ := completes_compileSources compiles
  obtain ⟨reported, contents⟩ := completes_save behind
  exact ⟨files, discovers, each, reported, contents⟩

/-- Two source files that declare one class. -/
def sharingTree : FileTree where
  nodes := .ofList [
    ([utf8 "A.jack"], FileNode.file (utf8 "class A\x7bfunction void f()\x7breturn;\x7d\x7d")),
    ([utf8 "B.jack"], FileNode.file (utf8 "class A\x7bfunction void g()\x7breturn;\x7d\x7d"))]

/-- Code and bundle in a new directory. -/
def bundlingOptions : Options :=
  { paths := [utf8 "B.jack", utf8 "."], output := utf8 "o", bundle := utf8 "o/p.cbor" }

/-- One of the two files is named twice, so code is saved three times at one place. -/
theorem shared_code_is_last :
    (sharingTree.perform (runBuild bundlingOptions [])).1.outcome =
      .ok [utf8 "o/A.vm", utf8 "o/A.vm", utf8 "o/A.vm", utf8 "o/p.cbor"] ∧
    ∃ files : List CompiledFile, files.length = 3 ∧ ∀ file ∈ files, ∃ last,
      lastAt bundlingOptions (sharingTree.perform (runBuild bundlingOptions [])).2
        (utf8 "o/A.vm") files = some last ∧
      (sharingTree.perform (runBuild bundlingOptions [])).2.content (utf8 "o/A.vm") =
        .ok (Machine.listing last.compiled.code) := by
  have succeeds : (sharingTree.perform (runBuild bundlingOptions [])).1.outcome =
      .ok [utf8 "o/A.vm", utf8 "o/A.vm", utf8 "o/A.vm", utf8 "o/p.cbor"] := by
    decide +kernel
  have apart : (sharingTree.perform (runBuild bundlingOptions [])).2.place? (utf8 "o/p.cbor") ≠
      (sharingTree.perform (runBuild bundlingOptions [])).2.place? (utf8 "o/A.vm") := by
    decide +kernel
  obtain ⟨files, -, -, reported, contents⟩ := written_code_is_last succeeds
  have paths : files.map (codePath bundlingOptions) = List.replicate 3 (utf8 "o/A.vm") :=
    (List.append_cancel_right reported).symm
  refine ⟨succeeds, files, by simpa using congrArg List.length paths, fun file member => ?_⟩
  have path : codePath bundlingOptions file = utf8 "o/A.vm" :=
    List.eq_of_mem_replicate (paths ▸ List.mem_map_of_mem member)
  have content := contents file member
  rw [path] at content
  exact content apart

/-- The code of the first file is lost when both go to the same place. -/
theorem shared_code_is_lost :
    (sharingTree.perform (runBuild { paths := [utf8 "."] } [])).1.outcome =
      .ok [utf8 "A.vm", utf8 "A.vm"] ∧
    sharingTree.content (utf8 "A.jack") =
      .ok (utf8 "class A\x7bfunction void f()\x7breturn;\x7d\x7d") ∧
    compileClass (utf8 "class A\x7bfunction void f()\x7breturn;\x7d\x7d") =
      .ok ⟨utf8 "A", [.function (utf8 "A.f") 0, .push .constant 0, .ret]⟩ ∧
    (sharingTree.perform (runBuild { paths := [utf8 "."] } [])).2.content (utf8 "A.vm") ≠
      .ok (Machine.listing [.function (utf8 "A.f") 0, .push .constant 0, .ret]) := by
  decide +kernel

end Jack.Build
