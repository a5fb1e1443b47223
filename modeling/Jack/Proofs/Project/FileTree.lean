import Jack.Project.FileTree
import Mathlib.Tactic.Common

/-!
Contract: what happens to the paths of a file tree when files are written into it.

Owns: where a path leads, step by step; trees that grow, in which a path that leads to
something leads to the same place forever; and what one edit and one new directory change.

Does not own: in which order files are written.
-/

set_option autoImplicit false

namespace Jack.FileTree

variable {tree later final : FileTree} {place other start : Place} {node : FileNode}
  {path : Bytes} {elements : List Bytes} {location : Location}

/-! ## The way of a path -/

/-- Following the elements from a place on leads to a location. -/
inductive Leads (tree : FileTree) : Place → List Bytes → Location → Prop where
  | here {place : Place} {node : FileNode} (present : tree.node? place = some node) :
      Leads tree place [] (.present place node)
  | stay {place : Place} {element : Bytes} {rest : List Bytes} {location : Location}
      (inside : tree.node? place = some .directory) (idle : Path.isIdle element = true)
      (behind : Leads tree place rest location) : Leads tree place (element :: rest) location
  | up {place : Place} {element : Bytes} {rest : List Bytes} {location : Location}
      (inside : tree.node? place = some .directory) (moves : Path.isIdle element = false)
      (isParent : Path.isParent element = true)
      (behind : Leads tree place.dropLast rest location) :
      Leads tree place (element :: rest) location
  | down {place : Place} {element : Bytes} {rest : List Bytes} {location : Location}
      (inside : tree.node? place = some .directory) (moves : Path.isIdle element = false)
      (isName : Path.isParent element = false) (short : element.length ≤ maxName)
      (present : (tree.node? (place ++ [element])).isSome = true)
      (behind : Leads tree (place ++ [element]) rest location) :
      Leads tree place (element :: rest) location
  | free {place : Place} {element : Bytes} {rest : List Bytes}
      (inside : tree.node? place = some .directory) (moves : Path.isIdle element = false)
      (isName : Path.isParent element = false) (short : element.length ≤ maxName)
      (absent : tree.node? (place ++ [element]) = none)
      (last : rest.all List.isEmpty = true) :
      Leads tree place (element :: rest) (.vacant (place ++ [element]) !rest.isEmpty)

theorem walk_of_leads (leads : tree.Leads start elements location) :
    tree.walk start elements = .ok location := by
  induction leads with
  | here present => rw [walk, present]
  | stay inside idle _ inductionHypothesis =>
      rw [walk, inside]
      simp only [idle, if_true]
      exact inductionHypothesis
  | up inside moves isParent _ inductionHypothesis =>
      rw [walk, inside]
      simp only [moves, isParent, if_true, Bool.false_eq_true, if_false]
      exact inductionHypothesis
  | down inside moves isName short present _ inductionHypothesis =>
      rw [walk, inside]
      simp only [moves, isName, Nat.not_lt.mpr short, present, if_true, Bool.false_eq_true,
        if_false]
      exact inductionHypothesis
  | free inside moves isName short absent last =>
      rw [walk, inside]
      simp [moves, isName, Nat.not_lt.mpr short, absent, last]

/-- The walk along a path follows the relation, case by case. -/
theorem leads_of_walk (walked : tree.walk start elements = .ok location) :
    tree.Leads start elements location := by
  induction elements generalizing start with
  | nil =>
      rw [walk] at walked
      cases present : tree.node? start with
      | none =>
          rw [present] at walked
          cases walked
      | some node =>
          rw [present] at walked
          cases walked
          exact .here present
  | cons element rest inductionHypothesis =>
      rw [walk] at walked
      cases inside : tree.node? start with
      | none =>
          rw [inside] at walked
          cases walked
      | some node =>
          rw [inside] at walked
          cases node with
          | file content => cases walked
          | directory =>
              dsimp only at walked
              split_ifs at walked with idle isParent long present last
              · exact .stay inside idle (inductionHypothesis walked)
              · exact .up inside (by simpa using idle) isParent (inductionHypothesis walked)
              · exact .down inside (by simpa using idle) (by simpa using isParent)
                  (Nat.le_of_not_lt long) present (inductionHypothesis walked)
              · cases walked
                exact .free inside (by simpa using idle) (by simpa using isParent)
                  (Nat.le_of_not_lt long) (by simpa using present) last

/-- Where the elements of a path are followed from. -/
def origin (tree : FileTree) (path : Bytes) : Place :=
  if Path.isAbsolute path then [] else tree.current

structure IsPath (path : Bytes) : Prop where
  noZero : ¬ path.contains 0 = true
  nonempty : ¬ path.isEmpty = true
  short : ¬ maxPath < path.length

/-- A path is located if it is one at all and its elements lead somewhere. -/
theorem locate_eq_ok_iff :
    tree.locate path = .ok location ↔
      IsPath path ∧ tree.Leads (tree.origin path) (Path.elements path) location := by
  have step : tree.locate path =
      if path.contains 0 then .error .invalid
      else if path.isEmpty then .error .missing
      else if maxPath < path.length then .error .nameTooLong
      else tree.walk (tree.origin path) (Path.elements path) := rfl
  rw [step]
  constructor
  · intro located
    split_ifs at located with zero empty long
    exact ⟨⟨zero, empty, long⟩, leads_of_walk located⟩
  · intro leads
    rw [if_neg leads.1.noZero, if_neg leads.1.nonempty, if_neg leads.1.short]
    exact walk_of_leads leads.2

theorem find_eq_ok_iff :
    tree.find path = .ok (place, node) ↔ tree.locate path = .ok (.present place node) := by
  rw [find]
  cases tree.locate path with
  | error refusal => simp [bind, Except.bind]
  | ok location =>
      cases location with
      | present => simp [bind, Except.bind, pure, Except.pure]
      | vacant => simp [bind, Except.bind, throw, throwThe, MonadExceptOf.throw]

theorem content_eq_ok_iff {text : Bytes} :
    tree.content path = .ok text ↔ ∃ place, tree.find path = .ok (place, .file text) := by
  rw [content]
  cases tree.find path with
  | error refusal => simp [bind, Except.bind]
  | ok found =>
      obtain ⟨place, node⟩ := found
      cases node with
      | file content => simp [bind, Except.bind, pure, Except.pure]
      | directory => simp [bind, Except.bind, throw, throwThe, MonadExceptOf.throw]

/-- What a path leads to is there. -/
theorem Leads.node?_eq (leads : tree.Leads start elements (.present place node)) :
    tree.node? place = some node := by
  generalize reached : Location.present place node = location at leads
  induction leads with
  | here present =>
      cases reached
      exact present
  | stay _ _ _ inductionHypothesis => exact inductionHypothesis reached
  | up _ _ _ _ inductionHypothesis => exact inductionHypothesis reached
  | down _ _ _ _ _ _ inductionHypothesis => exact inductionHypothesis reached
  | free => cases reached

theorem node?_of_find (found : tree.find path = .ok (place, node)) :
    tree.node? place = some node :=
  (locate_eq_ok_iff.mp (find_eq_ok_iff.mp found)).2.node?_eq

/-- A free name is in a directory and has no node. -/
theorem Leads.vacant {asDirectory : Bool}
    (leads : tree.Leads start elements (.vacant place asDirectory)) :
    place ≠ [] ∧ tree.node? place = none := by
  generalize reached : Location.vacant place asDirectory = location at leads
  induction leads with
  | here => cases reached
  | stay _ _ _ inductionHypothesis => exact inductionHypothesis reached
  | up _ _ _ _ inductionHypothesis => exact inductionHypothesis reached
  | down _ _ _ _ _ _ inductionHypothesis => exact inductionHypothesis reached
  | free _ _ _ _ absent =>
      cases reached
      exact ⟨by simp, absent⟩

/-! ## Growth -/

/-- Nothing is removed, files stay files, and directories stay directories. -/
structure Grows (tree later : FileTree) : Prop where
  current : later.current = tree.current
  kinds : ∀ {place node}, tree.node? place = some node →
    ∃ laterNode, later.node? place = some laterNode ∧ laterNode.kind = node.kind

theorem Grows.refl (tree : FileTree) : tree.Grows tree :=
  ⟨rfl, fun present => ⟨_, present, rfl⟩⟩

theorem Grows.trans (first : tree.Grows later) (second : later.Grows final) :
    tree.Grows final := by
  refine ⟨second.current.trans first.current, ?_⟩
  intro place node present
  obtain ⟨laterNode, laterPresent, sameKind⟩ := first.kinds present
  obtain ⟨finalNode, finalPresent, sameLater⟩ := second.kinds laterPresent
  exact ⟨finalNode, finalPresent, sameLater.trans sameKind⟩

theorem Grows.directory (grows : tree.Grows later) (inside : tree.node? place = some .directory) :
    later.node? place = some .directory := by
  obtain ⟨laterNode, present, sameKind⟩ := grows.kinds inside
  cases laterNode with
  | directory => exact present
  | file content => cases sameKind

/-- A way to a node stays a way to the same place. -/
theorem Grows.leads (grows : tree.Grows later)
    (leads : tree.Leads start elements (.present place node)) :
    ∃ laterNode, later.Leads start elements (.present place laterNode) := by
  generalize reached : Location.present place node = location at leads
  induction leads with
  | here present =>
      cases reached
      obtain ⟨laterNode, laterPresent, -⟩ := grows.kinds present
      exact ⟨laterNode, .here laterPresent⟩
  | stay inside idle _ inductionHypothesis =>
      obtain ⟨laterNode, behind⟩ := inductionHypothesis reached
      exact ⟨laterNode, .stay (grows.directory inside) idle behind⟩
  | up inside moves isParent _ inductionHypothesis =>
      obtain ⟨laterNode, behind⟩ := inductionHypothesis reached
      exact ⟨laterNode, .up (grows.directory inside) moves isParent behind⟩
  | down inside moves isName short present _ inductionHypothesis =>
      obtain ⟨laterNode, behind⟩ := inductionHypothesis reached
      obtain ⟨child, isChild⟩ := Option.isSome_iff_exists.mp present
      obtain ⟨laterChild, laterPresent, -⟩ := grows.kinds isChild
      exact ⟨laterNode, .down (grows.directory inside) moves isName short
        (Option.isSome_iff_exists.mpr ⟨laterChild, laterPresent⟩) behind⟩
  | free => cases reached

theorem Grows.origin (grows : tree.Grows later) : later.origin path = tree.origin path := by
  rw [FileTree.origin, FileTree.origin, grows.current]

/-- What a path leads to stays at its place as the tree grows. The content of a file may change. -/
theorem Grows.find (grows : tree.Grows later) (found : tree.find path = .ok (place, node)) :
    ∃ laterNode, later.find path = .ok (place, laterNode) ∧
      later.node? place = some laterNode := by
  obtain ⟨isPath, leads⟩ := locate_eq_ok_iff.mp (find_eq_ok_iff.mp found)
  obtain ⟨laterNode, laterLeads⟩ := grows.leads leads
  rw [← grows.origin] at laterLeads
  exact ⟨laterNode, find_eq_ok_iff.mpr (locate_eq_ok_iff.mpr ⟨isPath, laterLeads⟩),
    laterLeads.node?_eq⟩

/-! ## New nodes -/

/-- Putting a node changes one place and no other. -/
theorem node?_put (named : place ≠ []) (tree : FileTree) (node : FileNode) (other : Place) :
    (tree.put place node).node? other = if other = place then some node else tree.node? other := by
  by_cases atRoot : other = []
  · have apart : other ≠ place := fun same => named (same ▸ atRoot)
    rw [if_neg apart, atRoot]
    rfl
  · have inMap (tree : FileTree) : tree.node? other = tree.nodes[other]? := by
      rw [node?, if_neg (by simpa using atRoot)]
    rw [inMap, inMap, put, Std.TreeMap.getElem?_insert]
    simp only [Std.compare_eq_iff_eq, @eq_comm _ place]

/-- A file may be put over a file, a directory over a directory, and anything at a new place. -/
theorem grows_put (named : place ≠ [])
    (sameKind : ∀ before, tree.node? place = some before → node.kind = before.kind) :
    tree.Grows (tree.put place node) := by
  refine ⟨rfl, ?_⟩
  intro other before present
  rw [node?_put named]
  by_cases same : other = place
  · rw [same] at present
    exact ⟨node, if_pos same, sameKind before present⟩
  · exact ⟨before, by rw [if_neg same, present], rfl⟩

/-- The way to a free name leads to the file that is put there. -/
theorem Leads.put_file {text : Bytes} (leads : tree.Leads start elements (.vacant place false)) :
    (tree.put place (.file text)).Leads start elements (.present place (.file text)) := by
  have grows : tree.Grows (tree.put place (.file text)) := by
    apply grows_put leads.vacant.1
    intro before present
    rw [leads.vacant.2] at present
    cases present
  have written : (tree.put place (.file text)).node? place = some (.file text) := by
    rw [node?_put leads.vacant.1, if_pos rfl]
  generalize reached : Location.vacant place false = location at leads
  induction leads with
  | here => cases reached
  | stay inside idle _ inductionHypothesis =>
      exact .stay (grows.directory inside) idle (inductionHypothesis reached)
  | up inside moves isParent _ inductionHypothesis =>
      exact .up (grows.directory inside) moves isParent (inductionHypothesis reached)
  | down inside moves isName short present _ inductionHypothesis =>
      obtain ⟨child, isChild⟩ := Option.isSome_iff_exists.mp present
      obtain ⟨laterChild, laterPresent, -⟩ := grows.kinds isChild
      exact .down (grows.directory inside) moves isName short
        (Option.isSome_iff_exists.mpr ⟨laterChild, laterPresent⟩) (inductionHypothesis reached)
  | @free _ _ rest inside moves isName short =>
      -- A free name without a separator is the last element.
      cases rest with
      | cons => cases reached
      | nil =>
          cases reached
          exact .down (grows.directory inside) moves isName short
            (Option.isSome_iff_exists.mpr ⟨_, written⟩) (.here written)

/-! ## Changes -/

/-- The file at a path has a new content, and all else is as it was. -/
structure Writes (tree later : FileTree) (path : Bytes) (place : Place) (text : Bytes) :
    Prop where
  grows : tree.Grows later
  found : later.find path = .ok (place, .file text)
  others : ∀ other, other ≠ place → later.node? other = tree.node? other

theorem writes_put {text : Bytes} (named : place ≠ [])
    (isFile : ∀ before, tree.node? place = some before → FileKind.file = before.kind)
    (found : (tree.put place (.file text)).find path = .ok (place, .file text)) :
    tree.Writes (tree.put place (.file text)) path place text where
  grows := grows_put named isFile
  found := found
  others := fun other apart => by rw [node?_put named, if_neg apart]

/-- An edit that succeeds has written one file and changed nothing else. -/
theorem writes_of_edit {change : Bytes → Bytes} (edited : tree.edit path change = .ok later) :
    ∃ place before, tree.Writes later path place (change before) := by
  rw [edit] at edited
  cases located : tree.locate path with
  | error refusal =>
      rw [located] at edited
      cases edited
  | ok location =>
      rw [located] at edited
      obtain ⟨isPath, leads⟩ := locate_eq_ok_iff.mp located
      cases location with
      | present place node =>
          cases node with
          | directory => cases edited
          | file before =>
              cases edited
              have named : place ≠ [] := by
                intro atRoot
                rw [atRoot] at leads
                cases leads.node?_eq
              have isFile : ∀ node, tree.node? place = some node → FileKind.file = node.kind := by
                intro node present
                rw [leads.node?_eq] at present
                cases present
                rfl
              have grows : tree.Grows (tree.put place (.file (change before))) :=
                grows_put named isFile
              obtain ⟨node, found, present⟩ := grows.find (find_eq_ok_iff.mpr located)
              rw [node?_put named, if_pos rfl] at present
              cases present
              exact ⟨place, before, writes_put named isFile found⟩
      | vacant place asDirectory =>
          cases asDirectory with
          | true => cases edited
          | false =>
              cases edited
              refine ⟨place, [], writes_put leads.vacant.1 ?_ ?_⟩
              · intro before present
                rw [leads.vacant.2] at present
                cases present
              · exact find_eq_ok_iff.mpr (locate_eq_ok_iff.mpr ⟨isPath, leads.put_file⟩)

/-- There are more nodes, and the others are as they were. -/
structure Extends (tree later : FileTree) : Prop where
  current : later.current = tree.current
  nodes : ∀ {place node}, tree.node? place = some node → later.node? place = some node

theorem Extends.refl (tree : FileTree) : tree.Extends tree :=
  ⟨rfl, fun present => present⟩

theorem Extends.trans (first : tree.Extends later) (second : later.Extends final) :
    tree.Extends final :=
  ⟨second.current.trans first.current, fun present => second.nodes (first.nodes present)⟩

theorem Extends.grows (extension : tree.Extends later) : tree.Grows later :=
  ⟨extension.current, fun present => ⟨_, extension.nodes present, rfl⟩⟩

/-- A file is at a path, maybe in new directories, and what was elsewhere is as it was. -/
structure Saves (tree later : FileTree) (path : Bytes) (place : Place) (text : Bytes) :
    Prop where
  grows : tree.Grows later
  found : later.find path = .ok (place, .file text)
  others : ∀ {other node}, other ≠ place → tree.node? other = some node →
    later.node? other = some node

/-- New directories and then a file: everything else is as it was. -/
theorem Extends.saves {text : Bytes} (extension : tree.Extends later)
    (writes : later.Writes final path place text) : tree.Saves final path place text where
  grows := extension.grows.trans writes.grows
  found := writes.found
  others := fun {other node} apart present => by
    rw [writes.others other apart, extension.nodes present]

theorem extends_of_create (created : tree.create path = .ok later) : tree.Extends later := by
  rw [create] at created
  cases located : tree.locate path with
  | error refusal =>
      rw [located] at created
      cases created
  | ok location =>
      rw [located] at created
      obtain ⟨-, leads⟩ := locate_eq_ok_iff.mp located
      cases location with
      | present place node => cases created
      | vacant place asDirectory =>
          cases created
          refine ⟨rfl, fun {other node} present => ?_⟩
          have apart : other ≠ place := by
            intro same
            rw [same, leads.vacant.2] at present
            cases present
          rw [node?_put leads.vacant.1, if_neg apart, present]

/-! ## Places -/

/-- The place that a path leads to, if anything is there. -/
def place? (tree : FileTree) (path : Bytes) : Option Place :=
  (tree.find path).toOption.map Prod.fst

theorem place?_of_find (found : tree.find path = .ok (place, node)) :
    tree.place? path = some place := by
  rw [place?, found]
  rfl

/-- The place of a path does not move as the tree grows. -/
theorem Grows.place? (grows : tree.Grows later) (found : tree.find path = .ok (place, node)) :
    later.place? path = some place := by
  obtain ⟨laterNode, laterFound, -⟩ := grows.find found
  exact place?_of_find laterFound

/-- After a file is saved, a path to another one leads to what it led to before. -/
theorem Saves.find_other {text : Bytes} {other : Bytes} {otherPlace : Place}
    (saves : tree.Saves later path place text) (apart : otherPlace ≠ place)
    (found : tree.find other = .ok (otherPlace, node)) :
    later.find other = .ok (otherPlace, node) := by
  obtain ⟨laterNode, laterFound, present⟩ := saves.grows.find found
  rw [saves.others apart (node?_of_find found)] at present
  cases present
  exact laterFound

/-- Another path to the file that is saved leads to the new content. -/
theorem Saves.find_same {text : Bytes} {other : Bytes}
    (saves : tree.Saves later path place text) (found : tree.find other = .ok (place, node)) :
    later.find other = .ok (place, .file text) := by
  obtain ⟨laterNode, laterFound, present⟩ := saves.grows.find found
  rw [node?_of_find saves.found] at present
  cases present
  exact laterFound

end Jack.FileTree
