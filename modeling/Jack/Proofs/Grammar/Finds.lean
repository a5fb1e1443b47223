import Jack.Grammar.Rule
import Mathlib.Data.List.Nodup
import Mathlib.Tactic.Common

/-!
Contract: what a rule finds.

Owns: the relation between a position and the node found there, and for each way to
build rules what the built rule finds in terms of its parts.

Does not own: the grammar of any language, and how far a rule looks when it misses.

The tokens are fixed; a rule leads from one position to another.
-/

set_option autoImplicit false

namespace Jack.Rule

variable {Node Other Key : Type}

/-- From `pos` on, the rule finds `node`, and `rest` is the position behind it. -/
def Finds (rule : Rule Node) (tokens : Array Token) (pos : Nat) (node : Node) (rest : Nat) :
    Prop :=
  ∃ furthest, rule ⟨tokens, pos⟩ = .matched node rest furthest

def Misses (rule : Rule Node) (tokens : Array Token) (pos : Nat) : Prop :=
  ∀ node rest, ¬ Finds rule tokens pos node rest

/-- Attempts before a find do not change it. -/
theorem exists_reaching_eq_matched_iff {outcome : Outcome Node} {position : Nat}
    {node : Node} {rest : Nat} :
    (∃ furthest, outcome.reaching position = .matched node rest furthest) ↔
      ∃ furthest, outcome = .matched node rest furthest := by
  cases outcome <;> simp [Outcome.reaching]

section Combinators

variable {tokens : Array Token} {pos rest : Nat} {rule : Rule Node} {node : Node}

/-- Rules are functions: from a position on, a rule finds one node at most. -/
theorem Finds.unique {other : Node} {otherRest : Nat} (one : Finds rule tokens pos node rest)
    (two : Finds rule tokens pos other otherRest) : node = other ∧ rest = otherRest := by
  obtain ⟨_, found⟩ := one
  obtain ⟨_, again⟩ := two
  rw [found] at again
  injection again with sameNode sameRest
  exact ⟨sameNode, sameRest⟩

theorem misses_iff :
    Misses rule tokens pos ↔ ∃ furthest, rule ⟨tokens, pos⟩ = .missed furthest := by
  constructor
  · intro misses
    cases outcome : rule ⟨tokens, pos⟩ with
    | matched node rest furthest => exact absurd ⟨furthest, outcome⟩ (misses node rest)
    | missed furthest => exact ⟨furthest, rfl⟩
  · rintro ⟨furthest, missed⟩ node rest ⟨_, found⟩
    rw [missed] at found
    exact nomatch found

@[simp] theorem finds_pure_iff {value : Node} :
    Finds (pure value) tokens pos node rest ↔ node = value ∧ rest = pos := by
  constructor
  · rintro ⟨_, found⟩
    injection found with sameNode sameRest
    exact ⟨sameNode.symm, sameRest.symm⟩
  · rintro ⟨rfl, rfl⟩
    exact ⟨rest, rfl⟩

/-- A rule and then another one: the second starts where the first one ended. -/
@[simp] theorem finds_bind_iff {second : Node → Rule Other} {last : Other} :
    Finds (rule >>= second) tokens pos last rest ↔
      ∃ node middle, Finds rule tokens pos node middle ∧
        Finds (second node) tokens middle last rest := by
  have unfolded : (rule >>= second) ⟨tokens, pos⟩ = andThen rule second ⟨tokens, pos⟩ := rfl
  simp only [Finds, unfolded, andThen, Cursor.moveTo]
  cases outcome : rule ⟨tokens, pos⟩ with
  | missed furthest => simp
  | matched node middle furthest =>
      dsimp only
      rw [exists_reaching_eq_matched_iff]
      constructor
      · intro found
        exact ⟨node, middle, ⟨furthest, rfl⟩, found⟩
      · rintro ⟨_, _, ⟨_, same⟩, found⟩
        injection same with sameNode sameMiddle
        subst sameNode sameMiddle
        exact found

@[simp] theorem finds_map_iff {change : Node → Other} {last : Other} :
    Finds (change <$> rule) tokens pos last rest ↔
      ∃ node, Finds rule tokens pos node rest ∧ last = change node := by
  have unfolded : change <$> rule = rule >>= fun node => pure (change node) := rfl
  rw [unfolded, finds_bind_iff]
  simp only [finds_pure_iff]
  constructor
  · rintro ⟨node, _, found, rfl, rfl⟩
    exact ⟨node, found, rfl⟩
  · rintro ⟨node, found, rfl⟩
    exact ⟨node, rest, found, rfl, rfl⟩

/-- One token is taken, or the rule looks no further than where it stands. -/
theorem token_cases (accepts : Token → Bool) (tokens : Array Token) (pos : Nat) :
    (∃ token, tokens[pos]? = some token ∧ accepts token = true ∧
      Rule.token accepts ⟨tokens, pos⟩ = .matched token (pos + 1) (pos + 1)) ∨
    (∀ token, tokens[pos]? = some token → accepts token = false) ∧
      Rule.token accepts ⟨tokens, pos⟩ = .missed pos := by
  simp only [Rule.token, Cursor.current?]
  cases tokens[pos]? with
  | none => exact .inr ⟨by simp, rfl⟩
  | some token =>
      cases accepted : accepts token with
      | true => exact .inl ⟨token, rfl, accepted, by simp only [if_pos accepted]⟩
      | false =>
          refine .inr ⟨fun other here => ?_, by simp [accepted]⟩
          obtain rfl := Option.some.inj here
          exact accepted

@[simp] theorem finds_token_iff {accepts : Token → Bool} {token : Token} :
    Finds (Rule.token accepts) tokens pos token rest ↔
      tokens[pos]? = some token ∧ accepts token = true ∧ rest = pos + 1 := by
  simp only [Finds, Rule.token, Cursor.current?]
  cases under : tokens[pos]? with
  | none => simp
  | some other =>
      dsimp only
      split_ifs with accepted
      · constructor
        · rintro ⟨_, found⟩
          injection found with sameToken sameRest
          subst sameToken sameRest
          exact ⟨rfl, accepted, rfl⟩
        · rintro ⟨same, _, rfl⟩
          obtain rfl := Option.some.inj same
          exact ⟨pos + 1, rfl⟩
      · simp only [exists_false, false_iff]
        rintro ⟨same, accepted', _⟩
        obtain rfl := Option.some.inj same
        exact accepted accepted'

@[simp] theorem finds_ofKind_iff {kind : Token.Kind} {token : Token} :
    Finds (ofKind kind) tokens pos token rest ↔
      tokens[pos]? = some token ∧ token.kind = kind ∧ rest = pos + 1 := by
  simp [ofKind]

/-- A literal compares texts, but it never matches a string or a comment with that text. -/
@[simp] theorem finds_literal_iff {text : Bytes} {token : Token} :
    Finds (literal text) tokens pos token rest ↔
      tokens[pos]? = some token ∧
        (token.content = text ∧ token.kind ≠ .string ∧ token.kind ≠ .comment) ∧
        rest = pos + 1 := by
  simp [literal, and_assoc]

@[simp] theorem not_finds_firstOf_nil : ¬ Finds (firstOf []) tokens pos node rest := by
  rintro ⟨_, found⟩
  exact nomatch found

/-- An alternative counts only where all in front of it miss. -/
theorem finds_firstOf_cons_iff {others : List (Rule Node)} :
    Finds (firstOf (rule :: others)) tokens pos node rest ↔
      Finds rule tokens pos node rest ∨
        Misses rule tokens pos ∧ Finds (firstOf others) tokens pos node rest := by
  cases outcome : rule ⟨tokens, pos⟩ with
  | matched found middle furthest =>
      have finds : Finds rule tokens pos found middle := ⟨furthest, outcome⟩
      have misses : ¬ Misses rule tokens pos := fun misses => misses _ _ finds
      simp [Finds, firstOf, outcome, misses]
  | missed furthest =>
      have misses : Misses rule tokens pos := misses_iff.mpr ⟨furthest, outcome⟩
      simp only [misses, true_and, or_iff_right (misses node rest)]
      simp only [Finds, firstOf, outcome]
      exact exists_reaching_eq_matched_iff

/-- Where a key tells the alternatives apart, their order does not matter. -/
theorem finds_firstOf_iff_of_keys {choices : List (Key × Rule Node)} (actual : Key)
    (distinct : (choices.map Prod.fst).Nodup)
    (leads : ∀ choice ∈ choices, ∀ node rest,
      Finds choice.2 tokens pos node rest → choice.1 = actual) :
    Finds (firstOf (choices.map Prod.snd)) tokens pos node rest ↔
      ∃ choice ∈ choices, Finds choice.2 tokens pos node rest := by
  induction choices with
  | nil => simp
  | cons choice others inductionHypothesis =>
      obtain ⟨notLater, distinctLater⟩ := List.nodup_cons.mp distinct
      have leadsLater := fun later member => leads later (List.mem_cons_of_mem _ member)
      rw [List.map_cons, finds_firstOf_cons_iff, inductionHypothesis distinctLater leadsLater]
      simp only [List.mem_cons, exists_eq_or_imp]
      refine or_congr_right (and_iff_right_of_imp ?_)
      rintro ⟨later, member, found⟩ otherNode otherRest again
      have sameKey : choice.1 = later.1 :=
        (leads choice (by simp) _ _ again).trans (leadsLater later member _ _ found).symm
      exact notLater (sameKey ▸ List.mem_map_of_mem member)

/-- Where the alternatives all take the token at hand and read it the same way, their order
does not matter either. -/
theorem finds_firstOf_iff_of_single {alternatives : List (Rule Node)} {read : Token → Node}
    (single : ∀ alternative ∈ alternatives, ∀ node rest,
      Finds alternative tokens pos node rest →
        (tokens[pos]?).map read = some node ∧ rest = pos + 1) :
    Finds (firstOf alternatives) tokens pos node rest ↔
      ∃ alternative ∈ alternatives, Finds alternative tokens pos node rest := by
  induction alternatives with
  | nil => simp
  | cons alternative others inductionHypothesis =>
      have singleLater := fun later member => single later (List.mem_cons_of_mem _ member)
      rw [finds_firstOf_cons_iff, inductionHypothesis singleLater]
      simp only [List.mem_cons, exists_eq_or_imp]
      refine ⟨Or.imp_right And.right, ?_⟩
      rintro (found | ⟨later, member, found⟩)
      · exact .inl found
      · by_cases misses : Misses alternative tokens pos
        · exact .inr ⟨misses, later, member, found⟩
        · simp only [Misses, not_forall, not_not] at misses
          obtain ⟨otherNode, otherRest, again⟩ := misses
          obtain ⟨sameNode, sameRest⟩ := singleLater later member _ _ found
          obtain ⟨otherSame, otherSameRest⟩ := single alternative (by simp) _ _ again
          obtain rfl : otherNode = node := Option.some.inj (otherSame.symm.trans sameNode)
          obtain rfl : otherRest = rest := otherSameRest.trans sameRest.symm
          exact .inl again

/-- A rule that looks ahead before it goes on one way or the other. -/
theorem finds_ite_iff {test : Cursor → Bool} {other : Rule Node} :
    Finds (fun cursor => if test cursor then rule cursor else other cursor) tokens pos node rest ↔
      test ⟨tokens, pos⟩ = true ∧ Finds rule tokens pos node rest ∨
        test ⟨tokens, pos⟩ = false ∧ Finds other tokens pos node rest := by
  simp only [Finds]
  cases test ⟨tokens, pos⟩ <;> simp

theorem not_finds_missed {furthest : Cursor → Nat} :
    ¬ Finds (fun cursor => .missed (furthest cursor)) tokens pos node rest := by
  rintro ⟨_, found⟩
  exact nomatch found

/-- Optional rules always find something; they answer nothing only where the rule misses. -/
@[simp] theorem finds_optional_iff {answer : Option Node} :
    Finds (optional rule) tokens pos answer rest ↔
      (∃ node, answer = some node ∧ Finds rule tokens pos node rest) ∨
        answer = none ∧ rest = pos ∧ Misses rule tokens pos := by
  cases outcome : rule ⟨tokens, pos⟩ with
  | matched found middle furthest =>
      have finds : Finds rule tokens pos found middle := ⟨furthest, outcome⟩
      have misses : ¬ Misses rule tokens pos := fun misses => misses _ _ finds
      simp only [misses, and_false, or_false]
      simp only [Finds, optional, outcome]
      constructor
      · rintro ⟨_, same⟩
        injection same with sameAnswer sameRest
        exact ⟨found, sameAnswer.symm, furthest, by rw [sameRest]⟩
      · rintro ⟨_, rfl, _, same⟩
        injection same with sameNode sameRest
        exact ⟨furthest, by rw [sameNode, sameRest]⟩
  | missed furthest =>
      have misses : Misses rule tokens pos := misses_iff.mpr ⟨furthest, outcome⟩
      simp only [misses, and_true, fun node => eq_false (misses node rest), and_false,
        exists_false, false_or]
      simp only [Finds, optional, outcome]
      constructor
      · rintro ⟨_, same⟩
        injection same with sameAnswer sameRest
        exact ⟨sameAnswer.symm, sameRest.symm⟩
      · rintro ⟨rfl, rfl⟩
        exact ⟨furthest, rfl⟩

end Combinators

/-! ## Repetition -/

/-- The rule finds the nodes one after the other, and then nothing more that it could
move on by. -/
inductive Repeats (rule : Rule Node) (tokens : Array Token) : Nat → List Node → Nat → Prop where
  | stop {pos : Nat}
      (noMore : ∀ node rest, Finds rule tokens pos node rest →
        ¬ (pos < rest ∧ rest ≤ tokens.size)) :
      Repeats rule tokens pos [] pos
  | next {pos middle rest : Nat} {node : Node} {nodes : List Node}
      (found : Finds rule tokens pos node middle) (moves : pos < middle ∧ middle ≤ tokens.size)
      (more : Repeats rule tokens middle nodes rest) :
      Repeats rule tokens pos (node :: nodes) rest

section Repetition

variable {tokens : Array Token} {pos rest : Nat} {rule : Rule Node} {nodes : List Node}

/-- The loop of a repetition, with the nodes found so far. They are kept in reverse order, which is
why `found` is reversed. -/
theorem exists_manyFrom_iff {found : List Node} {reached : Nat} :
    (∃ furthest, manyFrom rule tokens pos found reached = .matched nodes rest furthest) ↔
      ∃ more, nodes = found.reverse ++ more ∧ Repeats rule tokens pos more rest := by
  fun_induction manyFrom rule tokens pos found reached with
  | case1 pos found reached further outcome =>
      have misses : Misses rule tokens pos := misses_iff.mpr ⟨further, outcome⟩
      constructor
      · rintro ⟨_, same⟩
        injection same with sameNodes sameRest
        subst sameNodes sameRest
        exact ⟨[], by simp, .stop fun node rest found => absurd found (misses node rest)⟩
      · rintro ⟨_, rfl, repeats⟩
        cases repeats with
        | stop => exact ⟨max reached further, by simp⟩
        | next found => exact absurd found (misses _ _)
  | case2 pos found reached node middle further outcome moves inductionHypothesis =>
      have finds : Finds rule tokens pos node middle := ⟨further, outcome⟩
      rw [inductionHypothesis]
      constructor
      · rintro ⟨more, rfl, repeats⟩
        exact ⟨node :: more, by simp, .next finds moves repeats⟩
      · rintro ⟨_, rfl, repeats⟩
        cases repeats with
        | stop noMore => exact absurd moves (noMore node middle finds)
        | next again _ repeats =>
            obtain ⟨rfl, rfl⟩ := again.unique finds
            exact ⟨_, by simp, repeats⟩
  | case3 pos found reached node middle further outcome stays =>
      have finds : Finds rule tokens pos node middle := ⟨further, outcome⟩
      constructor
      · rintro ⟨_, same⟩
        injection same with sameNodes sameRest
        subst sameNodes sameRest
        refine ⟨[], by simp, .stop fun other otherRest again => ?_⟩
        obtain ⟨rfl, rfl⟩ := again.unique finds
        exact stays
      · rintro ⟨_, rfl, repeats⟩
        cases repeats with
        | stop => exact ⟨max reached further, by simp⟩
        | next again moves =>
            obtain ⟨rfl, rfl⟩ := again.unique finds
            exact absurd moves stays

theorem finds_many_iff :
    Finds (many rule) tokens pos nodes rest ↔ Repeats rule tokens pos nodes rest := by
  simp [Finds, many, exists_manyFrom_iff]

theorem finds_many1_iff :
    Finds (many1 rule) tokens pos nodes rest ↔
      nodes ≠ [] ∧ Repeats rule tokens pos nodes rest := by
  rw [← finds_many_iff]
  simp only [Finds, many1]
  cases outcome : many rule ⟨tokens, pos⟩ with
  | missed furthest => simp
  | matched found middle furthest =>
      cases found with
      | nil =>
          constructor
          · rintro ⟨_, same⟩
            exact nomatch same
          · rintro ⟨nonempty, _, same⟩
            injection same with sameNodes
            exact absurd sameNodes.symm nonempty
      | cons first others =>
          refine ⟨fun ⟨further, same⟩ => ⟨?_, further, same⟩, fun ⟨_, found⟩ => found⟩
          injection same with sameNodes
          simp [← sameNodes]

/-- Behind the first node, each further one has a separator in front of it. A separator without a
node behind it is not taken. -/
theorem finds_separatedBy_iff {separator : Bytes} :
    Finds (separatedBy rule separator) tokens pos nodes rest ↔
      ∃ first others middle, nodes = first :: others ∧ Finds rule tokens pos first middle ∧
        Repeats (do let _ ← literal separator; rule) tokens middle others rest := by
  simp only [separatedBy, finds_bind_iff, finds_pure_iff, finds_many_iff]
  constructor
  · rintro ⟨first, middle, found, others, _, repeats, rfl, rfl⟩
    exact ⟨first, others, middle, rfl, found, repeats⟩
  · rintro ⟨first, others, middle, rfl, found, repeats⟩
    exact ⟨first, middle, found, others, rest, repeats, rfl, rfl⟩

end Repetition

/-! ## Recursion -/

section Recursion

variable {tokens : Array Token} {pos start rest : Nat} {body : Rule Node → Rule Node}
  {node : Node}

/-- The rule itself, for uses behind a position. -/
def behind (body : Rule Node → Rule Node) (cursor : Cursor) : Rule Node := fun inner =>
  if inner.remaining < cursor.remaining then recursive body inner else .missed inner.pos

/-- A rule that refers to itself is its body, with the rule guarded in the place of the inner
uses. -/
theorem recursive_eq_behind (body : Rule Node → Rule Node) (cursor : Cursor) :
    recursive body cursor = body (behind body cursor) cursor := by
  rw [recursive]
  rfl

/-- The guard in numbers: an inner use counts where fewer tokens remain. -/
theorem behind_eq (body : Rule Node → Rule Node) (tokens : Array Token) (start pos : Nat) :
    behind body ⟨tokens, start⟩ ⟨tokens, pos⟩ =
      if tokens.size - pos < tokens.size - start then recursive body ⟨tokens, pos⟩
      else .missed pos :=
  rfl

theorem finds_recursive_iff :
    Finds (recursive body) tokens pos node rest ↔
      Finds (body (behind body ⟨tokens, pos⟩)) tokens pos node rest := by
  simp only [Finds]
  rw [recursive_eq_behind]

theorem finds_behind_iff :
    Finds (behind body ⟨tokens, start⟩) tokens pos node rest ↔
      tokens.size - pos < tokens.size - start ∧
        Finds (recursive body) tokens pos node rest := by
  simp only [Finds, behind, Cursor.remaining]
  split_ifs with further
  · simp [further]
  · simp [further]

end Recursion

end Jack.Rule
