import Jack.Proofs.Binding

/-!
Contract: what a table of bindings holds after any history of its use.

Owns: operations on a table, the table that a history of them leaves, the declarations
that each scope has seen since it was made, and the laws that every such table obeys.

Does not own: which history a program makes.

A scope is dense: for each storage the indexes in use are those below its count, and no
two names share one. Each operation keeps both scopes dense, so every history does.
-/

set_option autoImplicit false

namespace Jack

/-! ## Dense scopes -/

/-- The indexes in use for each storage are those below its count, each held by one name. -/
structure Scope.Dense (scope : Scope) : Prop where
  below : ∀ name binding, scope.find? name = some binding →
    binding.index < scope.tally.count binding.storage
  filled : ∀ storage index, index < scope.tally.count storage →
    ∃ name binding, scope.find? name = some binding ∧ binding.storage = storage ∧
      binding.index = index
  apart : ∀ one other first second, scope.find? one = some first →
    scope.find? other = some second → first.storage = second.storage →
    first.index = second.index → one = other

namespace Scope

variable {scope : Scope} {name other type : Bytes} {storage : Storage} {binding : Binding}

theorem dense_empty : ({} : Scope).Dense where
  below := by simp [find?]
  filled storage index low := by cases storage <;> exact absurd low (Nat.not_lt_zero index)
  apart := by simp [find?]

/-- After the declaration of a free name, a binding is the new one or one from before. -/
theorem find?_declare_of_free_iff (free : scope.find? name = none) :
    (scope.declare name storage type).2.find? other = some binding ↔
      (other = name ∧ binding = ⟨name, storage, scope.tally.count storage, type⟩) ∨
        scope.find? other = some binding := by
  by_cases same : other = name
  · subst same
    rw [find?_declare_self free, free]
    simp [eq_comm]
  · rw [find?_declare_other (Ne.symm same)]
    simp [same]

/-- A new name takes the first index that is not in use. -/
theorem Dense.declare (dense : scope.Dense) (name : Bytes) (storage : Storage) (type : Bytes) :
    (scope.declare name storage type).2.Dense := by
  cases found : scope.find? name with
  | some binding => rwa [declare_of_bound found]
  | none =>
      have counts (counted : Storage) : (scope.declare name storage type).2.tally.count counted =
          scope.tally.count counted + if storage = counted then 1 else 0 :=
        count_declare_of_free found counted
      have grows (counted : Storage) : scope.tally.count counted ≤
          (scope.declare name storage type).2.tally.count counted := by
        rw [counts]
        exact Nat.le_add_right _ _
      constructor
      · intro other binding bound
        rcases (find?_declare_of_free_iff found).mp bound with ⟨-, rfl⟩ | before
        · simp [counts]
        · exact Nat.lt_of_lt_of_le (dense.below other binding before) (grows _)
      · intro counted index low
        by_cases old : index < scope.tally.count counted
        · obtain ⟨other, binding, bound, kind, position⟩ := dense.filled counted index old
          exact ⟨other, binding, (find?_declare_of_free_iff found).mpr (.inr bound), kind, position⟩
        · rw [counts] at low
          have same : storage = counted := by
            by_contra differs
            rw [if_neg differs] at low
            exact old low
          subst same
          rw [if_pos rfl] at low
          refine ⟨name, ⟨name, storage, scope.tally.count storage, type⟩, ?_, rfl, ?_⟩
          · exact (find?_declare_of_free_iff found).mpr (.inl ⟨rfl, rfl⟩)
          · exact Nat.le_antisymm (Nat.le_of_not_lt old) (Nat.le_of_lt_succ low)
      · intro one other first second oneBound otherBound kind position
        -- The new index is above all old ones of its storage.
        rcases (find?_declare_of_free_iff found).mp oneBound with ⟨rfl, rfl⟩ | oneBefore <;>
          rcases (find?_declare_of_free_iff found).mp otherBound with ⟨rfl, rfl⟩ | otherBefore
        · rfl
        · have low := dense.below other second otherBefore
          simp only at kind position
          rw [← kind, ← position] at low
          exact absurd low (Nat.lt_irrefl _)
        · have low := dense.below one first oneBefore
          simp only at kind position
          rw [kind, position] at low
          exact absurd low (Nat.lt_irrefl _)
        · exact dense.apart one other first second oneBefore otherBefore kind position

/-- Every scope that comes from declarations is dense. By induction, one declaration at a time. -/
theorem dense_ofDeclarations (declarations : List Declaration) :
    (ofDeclarations declarations).Dense := by
  induction declarations using List.reverseRecOn with
  | nil => exact dense_empty
  | append_singleton rest declaration inductionHypothesis =>
      rw [ofDeclarations_append_single]
      exact inductionHypothesis.declare _ _ _

end Scope

/-! ## Histories -/

namespace Bindings

inductive Operation where
  | declare (declaration : Declaration)
  | leaveSubroutine
deriving DecidableEq, Repr

/-- Whether an operation declares a variable of the class. -/
def Operation.declaresOfClass : Operation → Bool
  | declare declaration => declaration.storage.isOfClass
  | leaveSubroutine => false

def perform (table : Bindings) : Operation → Bindings
  | .declare declaration =>
      (table.declare declaration.name declaration.storage declaration.type).2
  | .leaveSubroutine => table.leaveSubroutine

/-- The table that a history leaves, from an empty one on. -/
def after (history : List Operation) : Bindings :=
  history.foldl perform {}

def scope (table : Bindings) (ofClass : Bool) : Scope :=
  if ofClass then table.ofClass else table.ofSubroutine

/-- One operation as the scope sees it that has seen the declarations `seen`. -/
def sees (ofClass : Bool) (seen : List Declaration) : Operation → List Declaration
  | .declare declaration =>
      if declaration.storage.isOfClass = ofClass then seen ++ [declaration] else seen
  | .leaveSubroutine => if ofClass then seen else []

/-- The declarations that a scope has seen since it was made. The class scope is made once,
the subroutine scope anew each time a subroutine is left. -/
def seen (ofClass : Bool) (history : List Operation) : List Declaration :=
  history.foldl (sees ofClass) []

section Steps

variable {table : Bindings} {history : List Operation} {ofClass : Bool}

theorem after_append_single (history : List Operation) (operation : Operation) :
    after (history ++ [operation]) = (after history).perform operation :=
  List.foldl_append

theorem seen_append_single (ofClass : Bool) (history : List Operation) (operation : Operation) :
    seen ofClass (history ++ [operation]) = sees ofClass (seen ofClass history) operation :=
  List.foldl_append

theorem count_eq (table : Bindings) (storage : Storage) :
    table.count storage = (table.scope storage.isOfClass).tally.count storage := by
  unfold count scope
  split <;> rfl

/-- A declaration happens in the scope of its storage. -/
theorem declare_eq (table : Bindings) (name : Bytes) (storage : Storage) (type : Bytes) :
    (table.declare name storage type).1 =
      ((table.scope storage.isOfClass).declare name storage type).1 := by
  unfold declare scope
  split <;> rfl

/-- It leaves the other scope alone. -/
theorem scope_declare (table : Bindings) (name : Bytes) (storage : Storage) (type : Bytes)
    (ofClass : Bool) :
    ((table.declare name storage type).2).scope ofClass =
      if storage.isOfClass = ofClass then
        ((table.scope ofClass).declare name storage type).2
      else table.scope ofClass := by
  unfold declare scope
  cases ofClass <;> cases storage.isOfClass <;> rfl

/-- The scope of a subroutine is emptied when it is left; that of the class stays. -/
theorem scope_leaveSubroutine (table : Bindings) (ofClass : Bool) :
    table.leaveSubroutine.scope ofClass = if ofClass then table.ofClass else {} := by
  cases ofClass <;> rfl

/-- A scope holds what its declarations make of an empty one. -/
theorem scope_after (history : List Operation) (ofClass : Bool) :
    (after history).scope ofClass = Scope.ofDeclarations (seen ofClass history) := by
  induction history using List.reverseRecOn with
  | nil => cases ofClass <;> rfl
  | append_singleton rest operation inductionHypothesis =>
      rw [after_append_single, seen_append_single]
      cases operation with
      | declare declaration =>
          rw [perform, scope_declare, sees]
          split
          · rw [Scope.ofDeclarations_append_single, inductionHypothesis]
          · exact inductionHypothesis
      | leaveSubroutine =>
          rw [perform, scope_leaveSubroutine, sees]
          cases ofClass with
          | true => exact inductionHypothesis
          | false => rfl

theorem dense_scope_after (history : List Operation) (ofClass : Bool) :
    ((after history).scope ofClass).Dense := by
  induction history using List.reverseRecOn with
  | nil => cases ofClass <;> exact Scope.dense_empty
  | append_singleton rest operation inductionHypothesis =>
      rw [after_append_single]
      cases operation with
      | declare declaration =>
          rw [perform, scope_declare]
          split
          · exact inductionHypothesis.declare _ _ _
          · exact inductionHypothesis
      | leaveSubroutine =>
          rw [perform, scope_leaveSubroutine]
          cases ofClass with
          | true => exact inductionHypothesis
          | false => exact Scope.dense_empty

/-- A scope holds only variables of its own storages. -/
theorem isOfClass_of_find?_scope {name : Bytes} {binding : Binding}
    (bound : ((after history).scope ofClass).find? name = some binding) :
    binding.storage.isOfClass = ofClass := by
  induction history using List.reverseRecOn with
  | nil => cases ofClass <;> simp [after, scope, Scope.find?] at bound
  | append_singleton rest operation inductionHypothesis =>
      rw [after_append_single] at bound
      cases operation with
      | declare declaration =>
          rw [perform, scope_declare] at bound
          split at bound
          · next inScope =>
            cases found : ((after rest).scope ofClass).find? declaration.name with
            | some old =>
                rw [Scope.declare_of_bound found] at bound
                exact inductionHypothesis bound
            | none =>
                rcases (Scope.find?_declare_of_free_iff found).mp bound with ⟨-, rfl⟩ | before
                · exact inScope
                · exact inductionHypothesis before
          · exact inductionHypothesis bound
      | leaveSubroutine =>
          rw [perform, scope_leaveSubroutine] at bound
          cases ofClass with
          | true => exact inductionHypothesis bound
          | false => simp [Scope.find?] at bound

end Steps

/-! ## First declarations -/

/-- The binding that a name gets where it is declared for the first time since the scope was
made: by a declaration in the history, with nothing behind it that makes the scope anew. -/
def Introduces (history : List Operation) (ofClass : Bool) (name : Bytes)
    (binding : Binding) : Prop :=
  ∃ front declaration back, history = front ++ .declare declaration :: back ∧
    declaration.name = name ∧ declaration.storage.isOfClass = ofClass ∧
    name ∉ Declaration.names (seen ofClass front) ∧
    (ofClass = false → .leaveSubroutine ∉ back) ∧
    binding = ⟨name, declaration.storage, (after front).count declaration.storage,
      declaration.type⟩

section Introduced

variable {history : List Operation} {ofClass : Bool} {name : Bytes} {binding : Binding}

theorem find?_scope_eq_none_iff :
    ((after history).scope ofClass).find? name = none ↔
      name ∉ Declaration.names (seen ofClass history) := by
  rw [scope_after, Scope.find?_ofDeclarations_eq_none_iff]

/-- A binding stays until the scope is made anew. -/
theorem find?_scope_append {back : List Operation}
    (bound : ((after history).scope ofClass).find? name = some binding)
    (kept : ofClass = false → .leaveSubroutine ∉ back) :
    ((after (history ++ back)).scope ofClass).find? name = some binding := by
  induction back using List.reverseRecOn with
  | nil => rwa [List.append_nil]
  | append_singleton rest operation inductionHypothesis =>
      have before := inductionHypothesis fun inSubroutine member =>
        kept inSubroutine (List.mem_append_left _ member)
      rw [← List.append_assoc, after_append_single]
      cases operation with
      | declare declaration =>
          rw [perform, scope_declare]
          split
          · exact Scope.find?_declare_of_bound before
          · exact before
      | leaveSubroutine =>
          rw [perform, scope_leaveSubroutine]
          cases ofClass with
          | true => exact before
          | false => exact absurd (List.mem_append_right _ (by simp)) (kept rfl)

/-- Later operations keep what was introduced, unless the subroutine is left. -/
theorem Introduces.append_single {operation : Operation}
    (introduces : Introduces history ofClass name binding)
    (kept : ofClass = false → operation ≠ .leaveSubroutine) :
    Introduces (history ++ [operation]) ofClass name binding := by
  obtain ⟨front, declaration, back, rfl, named, inScope, fresh, noLeave, same⟩ := introduces
  refine ⟨front, declaration, back ++ [operation], ?_, named, inScope, fresh, ?_, same⟩
  · simp
  · intro inSubroutine member
    rcases List.mem_append.mp member with inBack | last
    · exact noLeave inSubroutine inBack
    · exact kept inSubroutine (List.mem_singleton.mp last).symm

/-- Every binding was introduced by an operation of the history. -/
theorem introduces_of_find?_scope
    (bound : ((after history).scope ofClass).find? name = some binding) :
    Introduces history ofClass name binding := by
  induction history using List.reverseRecOn with
  | nil => cases ofClass <;> simp [after, scope, Scope.find?] at bound
  | append_singleton rest operation inductionHypothesis =>
      rw [after_append_single] at bound
      cases operation with
      | declare declaration =>
          have kept : ofClass = false → Operation.declare declaration ≠ .leaveSubroutine := by
            simp
          rw [perform, scope_declare] at bound
          split at bound
          · next inScope =>
            cases found : ((after rest).scope ofClass).find? declaration.name with
            | some old =>
                rw [Scope.declare_of_bound found] at bound
                exact (inductionHypothesis bound).append_single kept
            | none =>
                rcases (Scope.find?_declare_of_free_iff found).mp bound with ⟨rfl, rfl⟩ | before
                · refine ⟨rest, declaration, [], rfl, rfl, inScope,
                    find?_scope_eq_none_iff.mp found, by simp, ?_⟩
                  rw [count_eq, inScope]
                · exact (inductionHypothesis before).append_single kept
          · exact (inductionHypothesis bound).append_single kept
      | leaveSubroutine =>
          rw [perform, scope_leaveSubroutine] at bound
          cases ofClass with
          | true => exact (inductionHypothesis bound).append_single (by simp)
          | false => simp [Scope.find?] at bound

/-- A scope holds exactly the first declarations. -/
theorem find?_scope_eq_some_iff :
    ((after history).scope ofClass).find? name = some binding ↔
      Introduces history ofClass name binding := by
  refine ⟨introduces_of_find?_scope, ?_⟩
  rintro ⟨front, declaration, back, rfl, rfl, inScope, fresh, noLeave, rfl⟩
  rw [List.append_cons]
  refine find?_scope_append ?_ noLeave
  have free := find?_scope_eq_none_iff.mpr fresh
  rw [after_append_single, perform, scope_declare, if_pos inScope,
    Scope.find?_declare_self free, count_eq, inScope]

end Introduced

/-! ## All histories -/

/-- In one of its scopes, a table has the name at this index of the storage. -/
def Holds (table : Bindings) (name : Bytes) (storage : Storage) (index : Nat) : Prop :=
  ∃ ofClass binding, (table.scope ofClass).find? name = some binding ∧
    binding.storage = storage ∧ binding.index = index

/-- The laws of the table that a history leaves. -/
structure Lawful (history : List Operation) : Prop where
  /-- An index in use is below the count of its storage. -/
  below : ∀ name storage index, (after history).Holds name storage index →
    index < (after history).count storage
  /-- Each index below the count is in use, for one name. -/
  dense : ∀ storage index, index < (after history).count storage →
    ∃! name, (after history).Holds name storage index
  /-- Two names of one scope have different places. -/
  apart : ∀ ofClass one other first second, one ≠ other →
    ((after history).scope ofClass).find? one = some first →
    ((after history).scope ofClass).find? other = some second →
    (first.storage, first.index) ≠ (second.storage, second.index)
  /-- A name has the binding of its first declaration since the scope was made, -/
  first : ∀ ofClass name binding,
    ((after history).scope ofClass).find? name = some binding ↔
      Introduces history ofClass name binding
  /-- and none where it was not declared since then. -/
  free : ∀ ofClass name, ((after history).scope ofClass).find? name = none ↔
    name ∉ Declaration.names (seen ofClass history)
  /-- The declaration of a free name gives it the next index. -/
  fresh : ∀ name storage type,
    ((after history).scope storage.isOfClass).find? name = none →
    ((after history).declare name storage type).1 =
      ⟨name, storage, (after history).count storage, type⟩
  /-- A repeated declaration, for whichever storage, answers with the binding that is there
  and changes nothing. -/
  repeated : ∀ name storage type binding,
    ((after history).scope storage.isOfClass).find? name = some binding →
    (after history).declare name storage type = (binding, after history)
  /-- Arguments, locals and the end of a subroutine leave the class scope and its counts
  alone. -/
  classKept : ∀ later : List Operation,
    (∀ operation ∈ later, operation.declaresOfClass = false) →
    (after (history ++ later)).ofClass = (after history).ofClass ∧
      ∀ storage : Storage, storage.isOfClass = true →
        (after (history ++ later)).count storage = (after history).count storage
  /-- The subroutine scope is asked first, then the class scope. -/
  resolved : ∀ name binding, (after history).resolve? name = some binding ↔
    Introduces history false name binding ∨
      name ∉ Declaration.names (seen false history) ∧ Introduces history true name binding
  unresolved : ∀ name, (after history).resolve? name = none ↔
    name ∉ Declaration.names (seen false history) ∧
      name ∉ Declaration.names (seen true history)

section Laws

variable {history : List Operation} {name : Bytes} {storage : Storage} {index : Nat}

/-- The scope is told by the storage. -/
theorem holds_iff :
    (after history).Holds name storage index ↔
      ∃ binding, ((after history).scope storage.isOfClass).find? name = some binding ∧
        binding.storage = storage ∧ binding.index = index := by
  constructor
  · rintro ⟨ofClass, binding, bound, rfl, rfl⟩
    rw [isOfClass_of_find?_scope bound]
    exact ⟨binding, bound, rfl, rfl⟩
  · rintro ⟨binding, bound, kind, position⟩
    exact ⟨_, binding, bound, kind, position⟩

theorem ofClass_perform {operation : Operation}
    (other : operation.declaresOfClass = false) (table : Bindings) :
    (table.perform operation).ofClass = table.ofClass := by
  cases operation with
  | declare declaration =>
      have kept := table.scope_declare declaration.name declaration.storage declaration.type true
      rw [if_neg (by simpa [Operation.declaresOfClass] using other)] at kept
      exact kept
  | leaveSubroutine => rfl

/-- Whatever is done in subroutines, the variables of the class stay as they are. -/
theorem ofClass_after_append {later : List Operation}
    (others : ∀ operation ∈ later, operation.declaresOfClass = false) :
    (after (history ++ later)).ofClass = (after history).ofClass := by
  induction later using List.reverseRecOn with
  | nil => rw [List.append_nil]
  | append_singleton rest operation inductionHypothesis =>
      rw [← List.append_assoc, after_append_single,
        ofClass_perform (others operation (by simp))]
      exact inductionHypothesis fun earlier member => others earlier (by simp [member])

theorem declare_of_bound {table : Bindings} {type : Bytes} {binding : Binding}
    (bound : (table.scope storage.isOfClass).find? name = some binding) :
    table.declare name storage type = (binding, table) := by
  unfold declare
  unfold scope at bound
  split at bound
  · next inClass => rw [if_pos inClass, Scope.declare_of_bound bound]
  · next inSubroutine => rw [if_neg inSubroutine, Scope.declare_of_bound bound]

theorem resolve?_eq_none_iff {table : Bindings} :
    table.resolve? name = none ↔
      (table.scope false).find? name = none ∧ (table.scope true).find? name = none := by
  rw [resolve?, Option.or_eq_none_iff]
  rfl

/-- A name of the subroutine hides one of the class. -/
theorem resolve?_eq_some_iff {table : Bindings} {binding : Binding} :
    table.resolve? name = some binding ↔
      (table.scope false).find? name = some binding ∨
        (table.scope false).find? name = none ∧ (table.scope true).find? name = some binding := by
  rw [resolve?, Option.or_eq_some_iff]
  rfl

end Laws

/-- Every history of declarations and left subroutines obeys the laws. -/
theorem after_lawful (history : List Operation) : Lawful history where
  below name storage index held := by
    obtain ⟨binding, bound, rfl, rfl⟩ := holds_iff.mp held
    rw [count_eq]
    exact (dense_scope_after history _).below name binding bound
  dense storage index low := by
    rw [count_eq] at low
    have dense := dense_scope_after history storage.isOfClass
    obtain ⟨name, binding, bound, kind, position⟩ := dense.filled storage index low
    refine ⟨name, holds_iff.mpr ⟨binding, bound, kind, position⟩, fun other held => ?_⟩
    obtain ⟨otherBinding, otherBound, otherKind, otherPosition⟩ := holds_iff.mp held
    exact dense.apart other name otherBinding binding otherBound bound
      (otherKind.trans kind.symm) (otherPosition.trans position.symm)
  apart ofClass one other first second differ oneBound otherBound same := by
    obtain ⟨kind, position⟩ := Prod.mk.inj same
    exact differ ((dense_scope_after history ofClass).apart one other first second oneBound
      otherBound kind position)
  first _ _ _ := find?_scope_eq_some_iff
  free _ _ := find?_scope_eq_none_iff
  fresh name storage type absent := by
    rw [declare_eq, Scope.declare, absent, count_eq]
  repeated _ _ _ _ := declare_of_bound
  classKept later others := by
    have kept : (after (history ++ later)).ofClass = (after history).ofClass :=
      ofClass_after_append others
    refine ⟨kept, fun storage inClass => ?_⟩
    rw [count, count, if_pos inClass, if_pos inClass, kept]
  resolved name binding := by
    rw [resolve?_eq_some_iff, find?_scope_eq_some_iff, find?_scope_eq_none_iff,
      find?_scope_eq_some_iff]
  unresolved name := by
    rw [resolve?_eq_none_iff, find?_scope_eq_none_iff, find?_scope_eq_none_iff]

/-- A static, a field that repeats its name, a subroutine that hides it, and the next one. -/
def hidingHistory : List Operation :=
  [.declare ⟨utf8 "x", .static, utf8 "int"⟩, .declare ⟨utf8 "x", .field, utf8 "char"⟩,
    .declare ⟨utf8 "y", .field, utf8 "int"⟩, .declare ⟨utf8 "x", .argument, utf8 "A"⟩,
    .declare ⟨utf8 "y", .local, utf8 "A"⟩, .leaveSubroutine,
    .declare ⟨utf8 "y", .argument, utf8 "B"⟩]

/-- Names declared twice, and names that hide others. -/
theorem hiding_lawful :
    (after hidingHistory).resolve? (utf8 "x") = some ⟨utf8 "x", .static, 0, utf8 "int"⟩ ∧
      (after hidingHistory).resolve? (utf8 "y") = some ⟨utf8 "y", .argument, 0, utf8 "B"⟩ ∧
      ∃! name, (after hidingHistory).Holds name .field 0 := by
  refine ⟨((after_lawful hidingHistory).resolved _ _).mpr (.inr ⟨by decide, ?_⟩),
    ((after_lawful hidingHistory).resolved _ _).mpr (.inl ?_),
    (after_lawful hidingHistory).dense .field 0 (by decide)⟩
  · exact ⟨[], _, _, rfl, rfl, rfl, by decide, by simp, rfl⟩
  · exact ⟨hidingHistory.take 6, ⟨utf8 "y", .argument, utf8 "B"⟩, [], rfl, rfl, rfl, by decide,
      by simp, by decide⟩

end Bindings

end Jack
