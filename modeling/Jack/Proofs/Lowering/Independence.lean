import Jack.Proofs.Lowering.Settings

/-!
Contract: the subroutines of a class are lowered independently of each other.

Owns: the class that keeps one subroutine only, and how the code or the fault of a class is
put together from those of its subroutines on their own.

Does not own: the code of a subroutine.
-/

set_option autoImplicit false

namespace Jack

/-- The class with this subroutine as its only one. -/
def ClassTree.only (tree : ClassTree) (subroutine : Subroutine) : ClassTree :=
  { tree with subroutines := [subroutine] }

namespace Lowering.Context

theorem addSubroutines_single (context : Context) (tree : Subroutine) :
    context.addSubroutines [tree] = context.addSubroutine tree := by
  rw [addSubroutines]
  rcases context.addSubroutine tree with ⟨_ | _, final⟩ <;> rfl

/-- On its own, a subroutine is lowered in the setting that it has in the class. -/
theorem addClass_only (tree : ClassTree) (subroutine : Subroutine) :
    (({} : Context).addClass (tree.only subroutine)).1 = (tree.emission subroutine).result ∧
      (({} : Context).addClass (tree.only subroutine)).2.code =
        (tree.emission subroutine).code := by
  have single : ({} : Context).addClass (tree.only subroutine) =
      (({} : Context).declareClass tree).addSubroutine subroutine :=
    addSubroutines_single _ subroutine
  rw [single, addSubroutine_eq, declareClass_eq_inClass]
  exact ⟨rfl, rfl⟩

/-- A class is lowered exactly if each of its subroutines is on its own, and its code is
theirs in order. Otherwise the first subroutine that fails on its own gives the fault, and
the code is that of the ones before it and what it emitted itself. -/
theorem addClass_by_subroutines (tree : ClassTree) :
    let whole := ({} : Context).addClass tree
    let alone (subroutine : Subroutine) := ({} : Context).addClass (tree.only subroutine)
    (whole.1 = .ok () ↔ ∀ subroutine ∈ tree.subroutines, (alone subroutine).1 = .ok ()) ∧
    (whole.1 = .ok () →
      whole.2.code = tree.subroutines.flatMap fun subroutine => (alone subroutine).2.code) ∧
    ∀ diagnostic, whole.1 = .error diagnostic →
      ∃ front failing back, tree.subroutines = front ++ failing :: back ∧
        (∀ subroutine ∈ front, (alone subroutine).1 = .ok ()) ∧
        (alone failing).1 = .error diagnostic ∧
        whole.2.code =
          (front.flatMap fun subroutine => (alone subroutine).2.code) ++
            (alone failing).2.code := by
  intro whole alone
  have results (subroutine : Subroutine) :
      (alone subroutine).1 = (tree.emission subroutine).result := (addClass_only tree _).1
  have codes (subroutine : Subroutine) :
      (alone subroutine).2.code = (tree.emission subroutine).code := (addClass_only tree _).2
  simp only [results, codes]
  rcases addClass_cases tree with ⟨accepted, final, same, code⟩ |
    ⟨front, failing, back, diagnostic, parts, accepted, refused, final, same, code⟩
  · have outcome : whole = (.ok (), final) := same
    simp only [outcome, reduceCtorEq, false_implies, implies_true, and_true, true_iff,
      forall_const]
    exact ⟨accepted, code⟩
  · have outcome : whole = (.error diagnostic, final) := same
    have isFailing : ¬ ∀ subroutine ∈ tree.subroutines,
        (tree.emission subroutine).result = .ok () := by
      intro all
      rw [all failing (by simp [parts])] at refused
      cases refused
    simp only [outcome, reduceCtorEq, false_iff, false_implies, true_and, Except.error.injEq]
    refine ⟨isFailing, ?_⟩
    rintro _ rfl
    exact ⟨front, failing, back, parts, accepted, refused, code⟩

/-- The second of its functions fails behind a call, at an unknown name. -/
def haltingClass : ClassTree where
  name := utf8 "A"
  declarations := []
  subroutines :=
    [{ kind := .function, result := utf8 "int", name := utf8 "f", parameters := []
       body := { locals := [], statements := [.giveBack (some (.mk (.integer 1 1) [])) 1] }
       line := 1 },
     { kind := .function, result := utf8 "int", name := utf8 "g", parameters := []
       body := {
         locals := []
         statements :=
           [.doCall (.mk none (utf8 "f") [] 2) 2,
             .giveBack (some (.mk (.name (utf8 "z") 3) [])) 3] }
       line := 2 },
     { kind := .function, result := utf8 "int", name := utf8 "h", parameters := []
       body := { locals := [], statements := [.giveBack none 4] }
       line := 4 }]
  line := 1

/-- The middle one of three subroutines fails. The code of the first one stays. -/
theorem halting_by_subroutines :
    (({} : Context).addClass haltingClass).1 =
        .error ⟨.codegen (.undeclared (utf8 "z")), 3⟩ ∧
      ∃ front failing back, haltingClass.subroutines = front ++ failing :: back ∧
        (∀ subroutine ∈ front,
          (({} : Context).addClass (haltingClass.only subroutine)).1 = .ok ()) ∧
        (({} : Context).addClass (haltingClass.only failing)).1 =
          .error ⟨.codegen (.undeclared (utf8 "z")), 3⟩ ∧
        (({} : Context).addClass haltingClass).2.code =
          (front.flatMap fun subroutine =>
            (({} : Context).addClass (haltingClass.only subroutine)).2.code) ++
          (({} : Context).addClass (haltingClass.only failing)).2.code := by
  have refused : (({} : Context).addClass haltingClass).1 =
      .error ⟨.codegen (.undeclared (utf8 "z")), 3⟩ := by decide +kernel
  exact ⟨refused, (addClass_by_subroutines haltingClass).2.2 _ refused⟩

end Lowering.Context

end Jack
