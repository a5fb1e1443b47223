import Jack.Binding
import Mathlib.Data.List.Dedup
import Mathlib.Data.List.Induction
import Mathlib.Tactic.Common

/-!
Contract: what a scope holds after any declarations.

Owns: declarations, which of them count, the scope that a list of them makes, and the
binding of every name in it.

Does not own: which declarations a program makes.

Only the first declaration of a name counts. Its index is the number of names that
count before it for the same storage, so a repeated name takes no index of its own.
-/

set_option autoImplicit false

namespace Jack

structure Declaration where
  name : Bytes
  storage : Storage
  type : Bytes
deriving DecidableEq, Repr

namespace Declaration

/-- The declared names, with repetitions. -/
def names (declarations : List Declaration) : List Bytes :=
  declarations.map Declaration.name

/-- The declarations that count: the first one of each name. -/
def firsts : List Declaration → List Declaration
  | [] => []
  | first :: rest => first :: (firsts rest).filter fun other => other.name ≠ first.name

/-- How many names count for a storage. -/
def tallied (storage : Storage) (declarations : List Declaration) : Nat :=
  (firsts declarations).countP fun declaration => declaration.storage = storage

variable {declarations front back : List Declaration} {declaration : Declaration}
  {name : Bytes} {storage : Storage}

theorem names_append : names (front ++ back) = names front ++ names back :=
  List.map_append

theorem mem_names_cons {first : Declaration} :
    name ∈ names (first :: declarations) ↔ name = first.name ∨ name ∈ names declarations :=
  List.mem_cons

theorem firsts_append_of_not_mem (fresh : declaration.name ∉ names declarations) :
    firsts (declarations ++ [declaration]) = firsts declarations ++ [declaration] := by
  induction declarations with
  | nil => rfl
  | cons first rest inductionHypothesis =>
      obtain ⟨other, inRest⟩ := not_or.mp (mem_names_cons.not.mp fresh)
      rw [List.cons_append, firsts, inductionHypothesis inRest, List.filter_append, firsts,
        List.cons_append]
      simp [other]

theorem firsts_append_of_mem (repeated : declaration.name ∈ names declarations) :
    firsts (declarations ++ [declaration]) = firsts declarations := by
  induction declarations with
  | nil => simp [names] at repeated
  | cons first rest inductionHypothesis =>
      rw [List.cons_append, firsts, firsts]
      by_cases inRest : declaration.name ∈ names rest
      · rw [inductionHypothesis inRest]
      · have same : declaration.name = first.name :=
          (mem_names_cons.mp repeated).resolve_right inRest
        rw [firsts_append_of_not_mem inRest, List.filter_append]
        simp [same]

theorem mem_names_firsts_iff : name ∈ names (firsts declarations) ↔ name ∈ names declarations := by
  induction declarations using List.reverseRecOn with
  | nil => rfl
  | append_singleton rest declaration inductionHypothesis =>
      by_cases repeated : declaration.name ∈ names rest
      · rw [firsts_append_of_mem repeated, inductionHypothesis, names_append, List.mem_append]
        constructor
        · exact .inl
        · rintro (inRest | last)
          · exact inRest
          · rwa [List.mem_singleton.mp last]
      · rw [firsts_append_of_not_mem repeated, names_append, names_append, List.mem_append,
          List.mem_append, inductionHypothesis]

/-- Among the declarations that count, no name is there twice. -/
theorem nodup_names_firsts (declarations : List Declaration) :
    (names (firsts declarations)).Nodup := by
  induction declarations using List.reverseRecOn with
  | nil => exact List.nodup_nil
  | append_singleton rest declaration inductionHypothesis =>
      by_cases repeated : declaration.name ∈ names rest
      · rwa [firsts_append_of_mem repeated]
      · rw [firsts_append_of_not_mem repeated, names_append]
        refine inductionHypothesis.append (List.nodup_singleton _) ?_
        rw [names, names, List.map_singleton, List.disjoint_singleton]
        exact mem_names_firsts_iff.not.mpr repeated

/-- As many declarations count as there are different names. -/
theorem length_firsts (declarations : List Declaration) :
    (firsts declarations).length = (names declarations).dedup.length := by
  have perm : (names (firsts declarations)).Perm (names declarations).dedup := by
    rw [List.perm_ext_iff_of_nodup (nodup_names_firsts declarations) (List.nodup_dedup _)]
    intro name
    rw [mem_names_firsts_iff, List.mem_dedup]
  rw [← perm.length_eq, names, List.length_map]

theorem tallied_append_of_mem (repeated : declaration.name ∈ names declarations) :
    tallied storage (declarations ++ [declaration]) = tallied storage declarations := by
  rw [tallied, firsts_append_of_mem repeated, tallied]

/-- A new name takes the next slot of its storage, and no slot of another one. -/
theorem tallied_append_of_not_mem (fresh : declaration.name ∉ names declarations) :
    tallied storage (declarations ++ [declaration]) =
      tallied storage declarations + if declaration.storage = storage then 1 else 0 := by
  rw [tallied, firsts_append_of_not_mem fresh, List.countP_append, tallied]
  simp [List.countP_cons]

theorem tallied_le_length : tallied storage declarations ≤ declarations.length := by
  calc
    tallied storage declarations ≤ (firsts declarations).length := List.countP_le_length
    _ = (names declarations).dedup.length := length_firsts declarations
    _ ≤ (names declarations).length := (List.dedup_sublist _).length_le
    _ = declarations.length := List.length_map _

theorem firsts_sublist (declarations : List Declaration) :
    (firsts declarations).Sublist declarations := by
  induction declarations with
  | nil => exact List.Sublist.slnil
  | cons first rest inductionHypothesis =>
      exact (List.filter_sublist.trans inductionHypothesis).cons_cons first

/-- Where all declarations are for one storage, all names count for it. -/
theorem tallied_eq_of_forall
    (alike : ∀ declaration ∈ declarations, declaration.storage = storage) :
    tallied storage declarations = (names declarations).dedup.length := by
  rw [← length_firsts, tallied, List.countP_eq_length]
  intro declaration member
  simpa using alike declaration ((firsts_sublist declarations).subset member)

/-- A declared name is declared a first time. -/
theorem exists_first (declared : name ∈ names declarations) :
    ∃ front declaration back, declarations = front ++ declaration :: back ∧
      name ∉ names front ∧ declaration.name = name := by
  induction declarations with
  | nil => simp [names] at declared
  | cons first rest inductionHypothesis =>
      by_cases here : first.name = name
      · exact ⟨[], first, rest, rfl, by simp [names], here⟩
      · have inRest : name ∈ names rest :=
          (mem_names_cons.mp declared).resolve_left fun same => here same.symm
        obtain ⟨front, declaration, back, rfl, fresh, named⟩ := inductionHypothesis inRest
        refine ⟨first :: front, declaration, back, rfl, ?_, named⟩
        rw [mem_names_cons, not_or]
        exact ⟨fun same => here same.symm, fresh⟩

end Declaration

/-! ## Scopes -/

namespace Tally

theorem count_increment (tally : Tally) (storage other : Storage) :
    (tally.increment storage).count other =
      tally.count other + if storage = other then 1 else 0 := by
  cases storage <;> cases other <;> rfl

end Tally

namespace Scope

open Declaration (names tallied)

def declareAll (scope : Scope) (declarations : List Declaration) : Scope :=
  declarations.foldl
    (fun scope declaration =>
      (scope.declare declaration.name declaration.storage declaration.type).2)
    scope

def ofDeclarations (declarations : List Declaration) : Scope :=
  ({} : Scope).declareAll declarations

section Step

variable {scope : Scope} {name other type : Bytes} {storage : Storage}

/-- Declaring a name again answers with the binding it has, whatever storage and type are given. -/
theorem declare_of_bound {binding : Binding} (bound : scope.find? name = some binding) :
    scope.declare name storage type = (binding, scope) := by
  rw [declare, bound]

/-- A new name is bound to the slot that the tally has come to. -/
theorem find?_declare_self (free : scope.find? name = none) :
    (scope.declare name storage type).2.find? name =
      some { name, storage, index := scope.tally.count storage, type } := by
  rw [declare, free]
  simp [find?]

/-- No declaration changes what another name stands for. -/
theorem find?_declare_other (differs : name ≠ other) :
    (scope.declare name storage type).2.find? other = scope.find? other := by
  rw [declare]
  split
  · rfl
  · simp [find?, Std.TreeMap.getElem?_insert, differs]

/-- A binding is there for good. -/
theorem find?_declare_of_bound {binding : Binding} (bound : scope.find? other = some binding) :
    (scope.declare name storage type).2.find? other = some binding := by
  by_cases same : name = other
  · subst same
    rw [declare_of_bound bound, bound]
  · rw [find?_declare_other same, bound]

theorem count_declare_of_free (free : scope.find? name = none) (counted : Storage) :
    (scope.declare name storage type).2.tally.count counted =
      scope.tally.count counted + if storage = counted then 1 else 0 := by
  rw [declare, free]
  exact scope.tally.count_increment storage counted

end Step

section Run

variable {scope : Scope} {declarations front back : List Declaration}
  {declaration : Declaration} {name : Bytes} {binding : Binding}

theorem declareAll_append (scope : Scope) (front back : List Declaration) :
    scope.declareAll (front ++ back) = (scope.declareAll front).declareAll back :=
  List.foldl_append

/-- A binding stays for as long as its scope does. By induction on the declarations. -/
theorem find?_declareAll_of_bound (bound : scope.find? name = some binding) :
    (scope.declareAll declarations).find? name = some binding := by
  induction declarations generalizing scope with
  | nil => exact bound
  | cons first rest inductionHypothesis =>
      exact inductionHypothesis (find?_declare_of_bound bound)

theorem ofDeclarations_append_single :
    ofDeclarations (declarations ++ [declaration]) =
      ((ofDeclarations declarations).declare declaration.name declaration.storage
        declaration.type).2 := by
  rw [ofDeclarations, declareAll_append]
  rfl

/-- Exactly the declared names are bound. -/
theorem find?_ofDeclarations_eq_none_iff :
    (ofDeclarations declarations).find? name = none ↔ name ∉ names declarations := by
  induction declarations using List.reverseRecOn with
  | nil => simp [ofDeclarations, declareAll, find?, names]
  | append_singleton rest declaration inductionHypothesis =>
      rw [ofDeclarations_append_single, Declaration.names_append, List.mem_append, not_or,
        ← inductionHypothesis]
      by_cases same : name = declaration.name
      · subst same
        have declared : declaration.name ∈ names [declaration] := by simp [names]
        simp only [declared, not_true_eq_false, and_false, iff_false]
        cases found : (ofDeclarations rest).find? declaration.name with
        | none => simp [find?_declare_self found]
        | some binding => simp [find?_declare_of_bound found]
      · have other : name ∉ names [declaration] := by simpa [names] using same
        rw [find?_declare_other (Ne.symm same)]
        simp [other]

/-- The tally of a scope counts the declarations that were the first of their names. -/
theorem count_ofDeclarations (declarations : List Declaration) (storage : Storage) :
    (ofDeclarations declarations).tally.count storage = tallied storage declarations := by
  induction declarations using List.reverseRecOn with
  | nil => cases storage <;> rfl
  | append_singleton rest declaration inductionHypothesis =>
      rw [ofDeclarations_append_single]
      cases found : (ofDeclarations rest).find? declaration.name with
      | none =>
          have fresh := find?_ofDeclarations_eq_none_iff.mp found
          rw [count_declare_of_free found, inductionHypothesis,
            Declaration.tallied_append_of_not_mem fresh]
      | some binding =>
          have repeated : declaration.name ∈ names rest := by
            by_contra fresh
            simp [find?_ofDeclarations_eq_none_iff.mpr fresh] at found
          rw [declare_of_bound found, inductionHypothesis,
            Declaration.tallied_append_of_mem repeated]

/-- The first declaration of a name gives it its binding. -/
theorem find?_ofDeclarations_append (fresh : declaration.name ∉ names front) :
    (ofDeclarations (front ++ declaration :: back)).find? declaration.name =
      some ⟨declaration.name, declaration.storage, tallied declaration.storage front,
        declaration.type⟩ := by
  have free := find?_ofDeclarations_eq_none_iff.mpr fresh
  rw [List.append_cons, ofDeclarations, declareAll_append]
  apply find?_declareAll_of_bound
  change (ofDeclarations (front ++ [declaration])).find? declaration.name = _
  rw [ofDeclarations_append_single, find?_declare_self free, count_ofDeclarations]

/-- A name is bound by its first declaration. Its slot is the number of slots that the declarations
in front of it took. -/
theorem find?_ofDeclarations_eq_some_iff :
    (ofDeclarations declarations).find? name = some binding ↔
      ∃ front declaration back, declarations = front ++ declaration :: back ∧
        declaration.name = name ∧ name ∉ names front ∧
        binding = ⟨name, declaration.storage, tallied declaration.storage front,
          declaration.type⟩ := by
  constructor
  · intro found
    have declared : name ∈ names declarations := by
      by_contra fresh
      simp [find?_ofDeclarations_eq_none_iff.mpr fresh] at found
    obtain ⟨front, declaration, back, rfl, fresh, rfl⟩ := Declaration.exists_first declared
    rw [find?_ofDeclarations_append fresh, Option.some.injEq] at found
    exact ⟨front, declaration, back, rfl, rfl, fresh, found.symm⟩
  · rintro ⟨front, declaration, back, rfl, rfl, fresh, rfl⟩
    exact find?_ofDeclarations_append fresh

end Run

end Scope

end Jack
