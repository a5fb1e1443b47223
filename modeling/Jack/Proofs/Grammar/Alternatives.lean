import Jack.Proofs.Grammar.Progress
import Jack.Proofs.Grammar.Statements

/-!
Contract: the order of alternatives does not matter.

Owns: outcomes of which either may be tried first, choices that are told apart by a key, and
for terms and statements that their alternatives can be tried in any order.

Does not own: which alternative finds what.

At most one alternative finds something. That alone is not enough: a choice tells how far the
alternatives looked that it tried before, and the rule for a variable looks at the token behind
whatever stands in front of it. But what is found is found by looking at that token too.
-/

set_option autoImplicit false

namespace Jack

/-! ## Choices in any order -/

/-- Outcomes of two alternatives at one position, of which either may be tried first: at most
one is a find, and then the other looked no further. -/
inductive Outcome.Compatible {Node : Type} : Outcome Node → Outcome Node → Prop where
  | missed {reached other : Nat} : Compatible (.missed reached) (.missed other)
  | first {node : Node} {rest furthest reached : Nat} (seen : reached ≤ furthest) :
      Compatible (.matched node rest furthest) (.missed reached)
  | second {node : Node} {rest furthest reached : Nat} (seen : reached ≤ furthest) :
      Compatible (.missed reached) (.matched node rest furthest)

theorem Outcome.Compatible.symm {Node : Type} {one other : Outcome Node}
    (compatible : one.Compatible other) : other.Compatible one := by
  cases compatible with
  | missed => exact .missed
  | first seen => exact .second seen
  | second seen => exact .first seen

namespace Rule

variable {Node Other Key : Type}

/-- At this position the alternatives can be tried in any order. -/
def Unordered (alternatives : List (Rule Node)) (cursor : Cursor) : Prop :=
  alternatives.Pairwise fun one other => (one cursor).Compatible (other cursor)

section Orders

variable {alternatives others : List (Rule Node)} {cursor : Cursor}

/-- Two neighbours that are compatible can change places. -/
theorem firstOf_swap {one other : Rule Node}
    (compatible : (one cursor).Compatible (other cursor)) :
    firstOf (one :: other :: others) cursor = firstOf (other :: one :: others) cursor := by
  simp only [firstOf]
  generalize one cursor = outcome at compatible ⊢
  generalize other cursor = otherOutcome at compatible ⊢
  generalize firstOf others cursor = last
  cases compatible with
  | missed =>
      cases last with
      | matched node rest furthest => exact congrArg _ (Nat.max_left_comm ..)
      | missed furthest => exact congrArg _ (Nat.max_left_comm ..)
  | first seen => exact (congrArg (Outcome.matched _ _) (Nat.max_eq_right seen)).symm
  | second seen => exact congrArg (Outcome.matched _ _) (Nat.max_eq_right seen)

/-- Any order of unordered alternatives has the same outcome. By induction on the permutation, swap
by swap. -/
theorem firstOf_perm (perm : alternatives.Perm others) (unordered : Unordered alternatives cursor) :
    firstOf alternatives cursor = firstOf others cursor := by
  induction perm with
  | nil => rfl
  | cons one _ inductionHypothesis =>
      rw [firstOf, firstOf]
      dsimp only
      rw [inductionHypothesis (List.pairwise_cons.mp unordered).2]
  | swap one other others =>
      exact firstOf_swap ((List.pairwise_cons.mp unordered).1 one (List.mem_cons_self ..))
  | trans perm _ first second =>
      exact (first unordered).trans
        (second (perm.pairwise unordered fun compatible => compatible.symm))

/-- Of two compatible alternatives, at most one finds something. -/
theorem Unordered.pairwise_misses {tokens : Array Token} {pos : Nat}
    (unordered : Unordered alternatives ⟨tokens, pos⟩) :
    alternatives.Pairwise fun one other => Misses one tokens pos ∨ Misses other tokens pos := by
  refine unordered.imp fun {one other} compatible => ?_
  rw [misses_iff, misses_iff]
  generalize one ⟨tokens, pos⟩ = outcome at compatible ⊢
  generalize other ⟨tokens, pos⟩ = otherOutcome at compatible ⊢
  cases compatible with
  | missed => exact .inl ⟨_, rfl⟩
  | first => exact .inr ⟨_, rfl⟩
  | second => exact .inl ⟨_, rfl⟩

end Orders

/-- A rule that refers to itself, with its alternatives in another order. The order may differ
from use to use. -/
theorem recursive_perm {gain : Nat} {alternatives arranged : Rule Node → List (Rule Node)}
    {tokens : Array Token} (forward : Forward gain fun inner => firstOf (alternatives inner))
    (perm : ∀ inner, (arranged inner).Perm (alternatives inner))
    (unordered : ∀ inner pos, Unordered (alternatives inner) ⟨tokens, pos⟩) (pos : Nat) :
    recursive (fun inner => firstOf (arranged inner)) ⟨tokens, pos⟩ =
      recursive (fun inner => firstOf (alternatives inner)) ⟨tokens, pos⟩ := by
  let runs : TwoRuns := { one := tokens, other := tokens, ahead := 1, limit := pos }
  have inStep : InStep runs gain 0 (recursive fun inner => firstOf (alternatives inner))
      (recursive fun inner => firstOf (arranged inner)) := by
    refine inStep_recursive fun start inner otherInner further pos behind inside => ?_
    obtain ⟨within, same⟩ := forward (Nat.le_refl 1) further pos behind inside
    have anyOrder := firstOf_perm (perm otherInner).symm (unordered otherInner pos)
    exact ⟨within, fun agree => anyOrder.symm.trans (same agree)⟩
  exact (inStep pos pos.zero_le (Nat.le_max_left ..)).2 (AgreeUpTo.refl _ _)

/-! ## Choices with keys -/

/-- The token at a position has a key, and so has the alternative. With another key than the
actual one it misses, and looks one token further at most. What it finds is found by looking so
far. -/
structure Keyed (actual : Key) (cursor : Cursor) (choice : Key × Rule Node) : Prop where
  aside : choice.1 ≠ actual → ∃ reached ≤ cursor.pos + 1, choice.2 cursor = .missed reached
  moves : Moves choice.2

section Keys

variable {actual : Key} {cursor : Cursor} {choice other : Key × Rule Node}

/-- An alternative whose key is not the actual one misses, and looks no further than one that finds
something. -/
theorem Keyed.compatible_of_aside (one : Keyed actual cursor choice)
    (two : Keyed actual cursor other) (aside : choice.1 ≠ actual) :
    (choice.2 cursor).Compatible (other.2 cursor) := by
  obtain ⟨reached, near, missed⟩ := one.aside aside
  rw [missed]
  cases outcome : other.2 cursor with
  | missed furthest => exact .missed
  | matched node rest furthest => exact .second (near.trans (two.moves outcome))

/-- Of two keys that differ, one is not the actual key. -/
theorem Keyed.compatible (one : Keyed actual cursor choice) (two : Keyed actual cursor other)
    (distinct : choice.1 ≠ other.1) : (choice.2 cursor).Compatible (other.2 cursor) := by
  by_cases same : choice.1 = actual
  · exact (two.compatible_of_aside one fun sameToo => distinct (same.trans sameToo.symm)).symm
  · exact one.compatible_of_aside two same

/-- Alternatives with distinct keys can be tried in any order. -/
theorem unordered_of_keyed {choices : List (Key × Rule Node)}
    (distinct : (choices.map Prod.fst).Nodup)
    (keyed : ∀ choice ∈ choices, Keyed actual cursor choice) :
    Unordered (choices.map Prod.snd) cursor := by
  refine List.pairwise_map.mpr ((List.pairwise_map.mp distinct).imp_of_mem ?_)
  intro one other member memberToo apart
  exact (keyed one member).compatible (keyed other memberToo) apart

/-- The token tells the key. -/
theorem keyed_token {tokens : Array Token} {pos : Nat} {key : Key} {accepts : Token → Bool}
    (leads : ∀ token, tokens[pos]? = some token → accepts token = true → key = actual) :
    Keyed actual ⟨tokens, pos⟩ (key, token accepts) where
  moves := moves_token accepts
  aside aside := by
    rcases token_cases accepts tokens pos with ⟨token, here, accepted, _⟩ | ⟨_, missed⟩
    · exact absurd (leads token here accepted) aside
    · exact ⟨pos, Nat.le_succ pos, missed⟩

/-- What starts an alternative tells its key. -/
theorem Keyed.bind {key : Key} {rule : Rule Node} {second : Node → Rule Other}
    (first : Keyed actual cursor (key, rule)) : Keyed actual cursor (key, rule >>= second) where
  moves := first.moves.bind
  aside aside := by
    obtain ⟨reached, near, missed⟩ := first.aside aside
    exact ⟨reached, near, bind_eq_missed missed⟩

end Keys

end Rule

/-! ## Terms -/

open Rule Production

section Terms

variable {tokens : Array Token} {pos : Nat} {inner : Rule Term}

/-- Behind a name, the next token decides. -/
theorem termStart_of_nameAt (name : NameAt tokens pos) :
    termStart tokens pos =
      if followedBy ⟨tokens, pos⟩ nameSuffixes then
        if followedBy ⟨tokens, pos⟩ ["["] then .element else .call
      else .name := by
  obtain ⟨token, here, kind⟩ := name
  simp only [termStart, here, kind]

/-- A call asks for a name with a dot or a parenthesis behind it. -/
theorem keyed_callOf :
    Keyed (termStart tokens pos) ⟨tokens, pos⟩ (.call, callOf inner) where
  moves := moves_callOf inner
  aside aside := by
    refine ⟨pos, Nat.le_succ pos, ?_⟩
    by_cases name : NameAt tokens pos
    · have noCall (text : String) (known : isAmong nameSuffixes (utf8 text) = true)
          (noIndex : isAmong ["["] (utf8 text) = false) :
          ¬ followedBy ⟨tokens, pos⟩ [text] = true := by
        intro followed
        have next := followedBy_single_iff.mp followed
        refine aside ?_
        rw [termStart_of_nameAt name, followedBy_of_at next, followedBy_of_at next, known, noIndex]
        rfl
      exact (if_neg (noCall "." rfl rfl)).trans (if_neg (noCall "(" rfl rfl))
    · exact callOf_eq_missed name

theorem keyed_elementTermOf :
    Keyed (termStart tokens pos) ⟨tokens, pos⟩ (.element, elementTermOf inner) where
  moves := moves_elementTermOf inner
  aside aside := by
    refine ⟨pos, Nat.le_succ pos, ?_⟩
    by_cases name : NameAt tokens pos
    · have noIndex : ¬ followedBy ⟨tokens, pos⟩ ["["] = true := by
        intro followed
        have next := followedBy_single_iff.mp followed
        refine aside ?_
        rw [termStart_of_nameAt name, followedBy_of_at next, followedBy_of_at next]
        rfl
      exact if_neg noIndex
    · exact elementTermOf_eq_missed name

/-- Of the alternatives that are set aside, only this one may look at the token behind. -/
theorem keyed_nameTerm : Keyed (termStart tokens pos) ⟨tokens, pos⟩ (.name, nameTerm) where
  moves := (moves_missed fun cursor => cursor.pos + 1).ite (moves_token _).bind
  aside aside := by
    by_cases followed : followedBy ⟨tokens, pos⟩ nameSuffixes = true
    · exact ⟨pos + 1, Nat.le_refl _, if_pos followed⟩
    · have noName : ¬ NameAt tokens pos := by
        intro name
        refine aside ?_
        rw [termStart_of_nameAt name, if_neg followed]
      exact ⟨pos, Nat.le_succ pos,
        (if_neg followed).trans (bind_eq_missed (identifier_eq_missed noName))⟩

/-- Each form of term has the start of the tokens as its key. -/
theorem keyed_termChoices (lexed : Lexed tokens) :
    ∀ choice ∈ termChoices inner, Keyed (termStart tokens pos) ⟨tokens, pos⟩ choice := by
  simp only [termChoices, List.forall_mem_cons, List.not_mem_nil, false_imp_iff, implies_true,
    and_true]
  refine ⟨(keyed_token ?_).bind, (keyed_token ?_).bind, keyed_callOf.bind, (keyed_token ?_).bind,
    keyed_elementTermOf, keyed_nameTerm, (keyed_token ?_).bind, (keyed_token ?_).bind.bind⟩
  · intro token here accepted
    have kind : token.kind = .integer := by simpa using accepted
    simp only [termStart, here, kind]
  · intro token here accepted
    have kind : token.kind = .string := by simpa using accepted
    simp only [termStart, here, kind]
  · intro token here accepted
    simp only [termStart, here, (isKeywordConstant_iff.mp accepted).1]
  · intro token here accepted
    have found : Finds (word "(") tokens pos token (pos + 1) :=
      finds_token_iff.mpr ⟨here, accepted, rfl⟩
    obtain ⟨_, ⟨kind, content⟩, _⟩ := (lexed.finds_symbol_iff "(" rfl).mp found
    simp only [termStart, here, kind, isSymbolIn, content]
    rfl
  · intro token here accepted
    have unary : isSymbolIn unarySymbols token = true := accepted
    simp only [termStart, here, (isSymbolIn_iff.mp accepted).1, unary, if_true]

theorem unordered_termAlternatives (lexed : Lexed tokens) (inner : Rule Term) (pos : Nat) :
    Unordered (termAlternatives inner) ⟨tokens, pos⟩ :=
  unordered_of_keyed (by simp [termChoices]) (keyed_termChoices lexed)

end Terms

/-! ## Statements -/

/-- Each kind of statement has its keyword as its key. This needs no assumption on the tokens. -/
theorem keyed_statementChoices {tokens : Array Token} {pos : Nat} {inner : Rule Statement} :
    ∀ choice ∈ statementChoices inner, Keyed (textAt tokens pos) ⟨tokens, pos⟩ choice := by
  have keyed (text : String) : Keyed (textAt tokens pos) ⟨tokens, pos⟩ (utf8 text, word text) :=
    keyed_token fun token here accepted => by
      have content : token.content = utf8 text := by
        simp only [Bool.and_eq_true, beq_iff_eq] at accepted
        exact accepted.1.1
      simp [textAt, here, content]
  simp only [statementChoices, List.forall_mem_cons, List.not_mem_nil, false_imp_iff,
    implies_true, and_true]
  exact ⟨(keyed _).bind, (keyed _).bind, (keyed _).bind, (keyed _).bind, (keyed _).bind⟩

theorem unordered_statementAlternatives {tokens : Array Token} (inner : Rule Statement)
    (pos : Nat) : Unordered (statementAlternatives inner) ⟨tokens, pos⟩ :=
  unordered_of_keyed (by simp only [statementChoices, List.map_cons, List.map_nil]; decide)
    keyed_statementChoices

/-! ## Any order -/

/-- In the tokens of a source, the alternatives for a term can be tried in any order, and so can
those for a statement: the outcome is the same, and how far the rule looked too. At most one
alternative finds something. -/
theorem alternatives_in_any_order {source : Bytes} {tokens : Array Token}
    (read : tokenize source = .ok tokens) (pos : Nat) :
    (∀ arranged : Rule Term → List (Rule Term),
      (∀ inner, (arranged inner).Perm (termAlternatives inner)) →
        recursive (fun inner => firstOf (arranged inner)) ⟨withoutComments tokens, pos⟩ =
          term ⟨withoutComments tokens, pos⟩) ∧
    (∀ arranged : Rule Statement → List (Rule Statement),
      (∀ inner, (arranged inner).Perm (statementAlternatives inner)) →
        recursive (fun inner => firstOf (arranged inner)) ⟨withoutComments tokens, pos⟩ =
          statement ⟨withoutComments tokens, pos⟩) ∧
    ((termAlternatives term).Pairwise fun one other =>
      Misses one (withoutComments tokens) pos ∨ Misses other (withoutComments tokens) pos) ∧
    (statementAlternatives statement).Pairwise fun one other =>
      Misses one (withoutComments tokens) pos ∨ Misses other (withoutComments tokens) pos := by
  have lexed := lexed_of_tokenize read
  refine ⟨fun arranged perm => ?_, fun arranged perm => ?_, ?_, ?_⟩
  · exact recursive_perm forward_termAlternatives perm (unordered_termAlternatives lexed) pos
  · exact recursive_perm forward_statementAlternatives perm unordered_statementAlternatives pos
  · exact (unordered_termAlternatives lexed term pos).pairwise_misses
  · exact (unordered_statementAlternatives statement pos).pairwise_misses

/-- A call with a sign, an element and a remark in it. -/
def mixedSource : Bytes :=
  utf8 "f(-x, a[1]) // x"

/-- From the last alternative to the first, the call is read alike. -/
theorem mixed_in_reverse_order :
    tokenize mixedSource = .ok ((tokenize mixedSource).toOption.getD #[]) ∧
      recursive (fun inner => firstOf (termAlternatives inner).reverse)
          ⟨withoutComments ((tokenize mixedSource).toOption.getD #[]), 0⟩ =
        term ⟨withoutComments ((tokenize mixedSource).toOption.getD #[]), 0⟩ ∧
      (term ⟨withoutComments ((tokenize mixedSource).toOption.getD #[]), 0⟩).rest 0 = 10 := by
  have read : tokenize mixedSource = .ok ((tokenize mixedSource).toOption.getD #[]) := by
    decide +kernel
  exact ⟨read, (alternatives_in_any_order read 0).1 (fun inner => (termAlternatives inner).reverse)
    fun inner => (termAlternatives inner).reverse_perm, by decide +kernel⟩

end Jack
