import Jack.Grammar.Pattern
import Jack.Proofs.Grammar.Locality

/-!
Contract: what a rule does between the position where it starts and the furthest one that it
tells of.

Owns: the bounds of an outcome, two runs that are in step, and for every pattern and every
production that two runs of it are in step.

Does not own: what a rule finds.

Two runs are in step when the first keeps its bounds and the second has the same outcome,
where the tokens agree as far as the first one looks. One token more counts where a rule looks
ahead. The two rules may differ in their inner uses, which stand further on: that is all a rule
that refers to itself needs.
-/

set_option autoImplicit false

namespace Jack

/-! ## Tokens that agree -/

/-- The same tokens up to `bound`, and the same end of tokens where there is one. -/
def AgreeUpTo (bound : Nat) (one other : Array Token) : Prop :=
  ∀ pos ≤ bound, one[pos]? = other[pos]?

section Agreement

variable {bound pos : Nat} {one other : Array Token}

theorem AgreeUpTo.refl (bound : Nat) (tokens : Array Token) : AgreeUpTo bound tokens tokens :=
  fun _ _ => rfl

theorem AgreeUpTo.mono {less : Nat} (agree : AgreeUpTo bound one other) (within : less ≤ bound) :
    AgreeUpTo less one other :=
  fun pos inside => agree pos (inside.trans within)

/-- Tokens that agree end at the same position, if they end before the bound. -/
theorem AgreeUpTo.lt_size_iff (agree : AgreeUpTo bound one other) (inside : pos ≤ bound) :
    pos < one.size ↔ pos < other.size := by
  rw [← Nat.not_le, ← Nat.not_le, ← Array.getElem?_eq_none_iff, ← Array.getElem?_eq_none_iff,
    agree pos inside]

theorem AgreeUpTo.le_size_iff (agree : AgreeUpTo bound one other) (inside : pos ≤ bound) :
    pos ≤ one.size ↔ pos ≤ other.size := by
  cases pos with
  | zero => simp
  | succ before => exact agree.lt_size_iff (Nat.le_of_succ_le inside)

/-- The look ahead sees one token behind the position, which must be inside the bound. -/
theorem AgreeUpTo.followedBy_eq (agree : AgreeUpTo bound one other) (inside : pos + 1 ≤ bound)
    (symbols : List String) :
    Production.followedBy ⟨one, pos⟩ symbols = Production.followedBy ⟨other, pos⟩ symbols :=
  followedBy_eq_of_lookAt_eq (congrArg (Option.map Token.look) (agree (pos + 1) inside)) symbols

end Agreement

/-! ## The bounds of an outcome -/

/-- A rule was applied at `start`. A find takes `gain` tokens at least; no position is in front
of the start or behind `stop`, and the furthest one is not in front of the rest. -/
inductive Outcome.Within {Node : Type} (gain start stop : Nat) : Outcome Node → Prop where
  | missed {furthest : Nat} (starts : start ≤ furthest) (stops : furthest ≤ stop) :
      Within gain start stop (.missed furthest)
  | matched {node : Node} {rest furthest : Nat} (gains : start + gain ≤ rest)
      (seen : rest ≤ furthest) (stops : furthest ≤ stop) :
      Within gain start stop (.matched node rest furthest)

namespace Outcome

variable {Node : Type} {outcome : Outcome Node} {gain start stop : Nat}

theorem furthest_reaching (outcome : Outcome Node) (position : Nat) :
    (outcome.reaching position).furthest = max position outcome.furthest := by
  cases outcome with
  | matched node rest furthest => rfl
  | missed furthest => rfl

theorem Within.start_le_furthest (within : outcome.Within gain start stop) :
    start ≤ outcome.furthest := by
  cases within with
  | missed starts => exact starts
  | matched gains seen => exact (Nat.le_of_add_right_le gains).trans seen

theorem Within.furthest_le (within : outcome.Within gain start stop) :
    outcome.furthest ≤ stop := by
  cases within with
  | missed _ stops => exact stops
  | matched _ _ stops => exact stops

/-- Outcomes of alternatives are merged by the largest position. Bounds are kept if that position is
within them. -/
theorem Within.reaching {reached : Nat} (within : outcome.Within gain start stop)
    (stops : reached ≤ stop) : (outcome.reaching reached).Within gain start stop := by
  cases within with
  | missed starts stopsToo =>
      exact .missed (starts.trans (Nat.le_max_right ..)) (Nat.max_le.mpr ⟨stops, stopsToo⟩)
  | matched gains seen stopsToo =>
      exact .matched gains (seen.trans (Nat.le_max_right ..)) (Nat.max_le.mpr ⟨stops, stopsToo⟩)

/-- What starts behind a gain counts from before it. -/
theorem Within.earlier {more rest : Nat} (within : outcome.Within more rest stop)
    (gains : start + gain ≤ rest) : outcome.Within gain start stop := by
  cases within with
  | missed starts stops => exact .missed ((Nat.le_of_add_right_le gains).trans starts) stops
  | matched gainsToo seen stops =>
      exact .matched (gains.trans (Nat.le_of_add_right_le gainsToo)) seen stops

theorem Within.loosen (within : outcome.Within gain start stop) : outcome.Within 0 start stop :=
  within.earlier (Nat.le_refl start)

end Outcome

/-! ## Runs in step -/

/-- Two lists of tokens that are read side by side. The tokens `ahead` of the furthest position
count too; positions count up to the end of the tokens, or up to `limit`. -/
structure TwoRuns where
  one : Array Token
  other : Array Token
  ahead : Nat
  limit : Nat

namespace Rule

variable {Node Other : Type}

/-- From `pos` on, the rule keeps its bounds, and the other rule has the same outcome in the
other run. -/
def InStepAt (runs : TwoRuns) (gain : Nat) (rule otherRule : Rule Node) (pos : Nat) : Prop :=
  (rule ⟨runs.one, pos⟩).Within gain pos (max pos runs.one.size) ∧
    (AgreeUpTo ((rule ⟨runs.one, pos⟩).furthest + runs.ahead) runs.one runs.other →
      otherRule ⟨runs.other, pos⟩ = rule ⟨runs.one, pos⟩)

/-- The same from every position from `start` on. -/
def InStep (runs : TwoRuns) (gain start : Nat) (rule otherRule : Rule Node) : Prop :=
  ∀ pos, start ≤ pos → pos ≤ max runs.limit runs.one.size →
    InStepAt runs gain rule otherRule pos

section Combinators

variable {runs : TwoRuns} {gain start pos : Nat} {rule otherRule : Rule Node}

theorem InStep.later {later : Nat} (inStep : InStep runs gain start rule otherRule)
    (further : start ≤ later) : InStep runs gain later rule otherRule :=
  fun pos behind => inStep pos (further.trans behind)

theorem InStep.loosen (inStep : InStep runs gain start rule otherRule) :
    InStep runs 0 start rule otherRule :=
  fun pos behind inside => And.imp_left .loosen (inStep pos behind inside)

theorem inStep_pure (node : Node) : InStep runs 0 start (pure node) (pure node) :=
  fun pos _ _ => ⟨.matched (Nat.le_refl pos) (Nat.le_refl pos) (Nat.le_max_left ..), fun _ => rfl⟩

/-- What the second rule does counts only behind what the first one takes. -/
theorem InStep.bind {more : Nat} {second otherSecond : Node → Rule Other}
    (first : InStep runs gain start rule otherRule)
    (next : ∀ node, InStep runs more (start + gain) (second node) (otherSecond node)) :
    InStep runs gain start (rule >>= second) (otherRule >>= otherSecond) := by
  intro pos behind inside
  change InStepAt runs gain (andThen rule second) (andThen otherRule otherSecond) pos
  obtain ⟨within, same⟩ := first pos behind inside
  unfold InStepAt andThen
  dsimp only [Cursor.moveTo]
  generalize rule ⟨runs.one, pos⟩ = outcome at within same ⊢
  cases within with
  | missed starts stops =>
      refine ⟨.missed starts stops, fun agree => ?_⟩
      rw [same agree]
  | @matched node rest furthest gains seen stops =>
      obtain ⟨withinToo, sameToo⟩ := next node rest (by omega) (by omega)
      have stop : max rest runs.one.size = max pos runs.one.size := by omega
      rw [stop] at withinToo
      refine ⟨(withinToo.earlier gains).reaching stops, fun agree => ?_⟩
      rw [Outcome.furthest_reaching] at agree
      rw [same (agree.mono (Nat.add_le_add_right (Nat.le_max_left ..) _))]
      dsimp only
      rw [sameToo (agree.mono (Nat.add_le_add_right (Nat.le_max_right ..) _))]

/-- A token that is accepted is gained. One that is not has been looked at all the same. -/
theorem inStep_token (accepts : Token → Bool) :
    InStep runs 1 start (token accepts) (token accepts) := by
  intro pos _ _
  have within : (token accepts ⟨runs.one, pos⟩).Within 1 pos (max pos runs.one.size) := by
    rcases token_cases accepts runs.one pos with ⟨token, here, _, outcome⟩ | ⟨_, outcome⟩
    · have inside : pos < runs.one.size := (Array.getElem?_eq_some_iff.mp here).1
      rw [outcome]
      exact .matched (Nat.le_refl _) (Nat.le_refl _) (by omega)
    · rw [outcome]
      exact .missed (Nat.le_refl pos) (Nat.le_max_left ..)
  refine ⟨within, fun agree => ?_⟩
  have here := agree pos (Nat.le_add_right_of_le within.start_le_furthest)
  simp only [token, Cursor.current?, here]

theorem inStep_firstOf_nil :
    InStep runs gain start (firstOf ([] : List (Rule Node))) (firstOf []) :=
  fun pos _ _ => ⟨.missed (Nat.le_refl pos) (Nat.le_max_left ..), fun _ => rfl⟩

/-- If the first alternative misses in one run, it misses in the other, and both go on with the
next. -/
theorem InStep.orElse {others otherOthers : List (Rule Node)}
    (first : InStep runs gain start rule otherRule)
    (next : InStep runs gain start (firstOf others) (firstOf otherOthers)) :
    InStep runs gain start (firstOf (rule :: others)) (firstOf (otherRule :: otherOthers)) := by
  intro pos behind inside
  obtain ⟨within, same⟩ := first pos behind inside
  obtain ⟨withinToo, sameToo⟩ := next pos behind inside
  unfold InStepAt
  rw [firstOf, firstOf]
  dsimp only
  generalize rule ⟨runs.one, pos⟩ = outcome at within same ⊢
  cases within with
  | missed starts stops =>
      refine ⟨withinToo.reaching stops, fun agree => ?_⟩
      rw [Outcome.furthest_reaching] at agree
      rw [same (agree.mono (Nat.add_le_add_right (Nat.le_max_left ..) _))]
      dsimp only
      rw [sameToo (agree.mono (Nat.add_le_add_right (Nat.le_max_right ..) _))]
  | matched gains seen stops =>
      refine ⟨.matched gains seen stops, fun agree => ?_⟩
      rw [same agree]

/-- Even if the rule gains tokens, an optional one may gain none. -/
theorem InStep.optional (inner : InStep runs gain start rule otherRule) :
    InStep runs 0 start (Rule.optional rule) (Rule.optional otherRule) := by
  intro pos behind inside
  obtain ⟨within, same⟩ := inner pos behind inside
  unfold InStepAt Rule.optional
  generalize rule ⟨runs.one, pos⟩ = outcome at within same ⊢
  cases within with
  | missed starts stops =>
      refine ⟨.matched (Nat.le_refl pos) starts stops, fun agree => ?_⟩
      rw [same agree]
  | matched gains seen stops =>
      refine ⟨.matched (Nat.le_of_add_right_le gains) seen stops, fun agree => ?_⟩
      rw [same agree]

/-- A repetition that began at `first` and stands at `pos` now. -/
theorem inStep_manyFrom (inner : InStep runs gain start rule otherRule) {first reached : Nat}
    {found : List Node} (begins : start ≤ first) (moved : first ≤ pos)
    (inside : pos ≤ max runs.limit runs.one.size) (seen : pos ≤ reached)
    (stops : reached ≤ max first runs.one.size) :
    (manyFrom rule runs.one pos found reached).Within 0 first (max first runs.one.size) ∧
      (AgreeUpTo ((manyFrom rule runs.one pos found reached).furthest + runs.ahead)
          runs.one runs.other →
        manyFrom otherRule runs.other pos found reached =
          manyFrom rule runs.one pos found reached) := by
  obtain ⟨within, same⟩ := inner pos (begins.trans moved) inside
  have stop := within.furthest_le
  fun_induction manyFrom rule runs.one pos found reached with
  | case1 pos found reached further outcome =>
      rw [outcome] at same stop
      change further ≤ _ at stop
      refine ⟨.matched moved (by omega) (by omega), fun agree => ?_⟩
      have agreeToo := agree.mono (Nat.add_le_add_right (Nat.le_max_right reached further) _)
      rw [manyFrom, same agreeToo]
  | case2 pos found reached node rest further outcome moves inductionHypothesis =>
      rw [outcome] at within same
      cases within with
      | matched gains seenToo stopsToo =>
          obtain ⟨withinNext, sameNext⟩ := inner rest (by omega) (by omega)
          have more := inductionHypothesis (by omega) (by omega) (by omega) (by omega)
            withinNext sameNext withinNext.furthest_le
          refine ⟨more.1, fun agree => ?_⟩
          have further_le := le_furthest_manyFrom rule runs.one rest (node :: found)
            (max reached further)
          have agreeToo : AgreeUpTo (further + runs.ahead) runs.one runs.other :=
            agree.mono (by omega)
          have inOther := (agreeToo.le_size_iff (by omega)).mp moves.2
          rw [manyFrom, same agreeToo]
          dsimp only
          rw [if_pos ⟨moves.1, inOther⟩]
          exact more.2 agree
  | case3 pos found reached node rest further outcome stays =>
      rw [outcome] at within same
      cases within with
      | matched gains seenToo stopsToo =>
          refine ⟨.matched moved (by omega) (by omega), fun agree => ?_⟩
          have agreeToo := agree.mono (Nat.add_le_add_right (Nat.le_max_right reached further) _)
          rw [manyFrom, same agreeToo]
          dsimp only
          -- A find inside the bounds that fails the guard took nothing, in both runs.
          rw [if_neg (by omega)]

/-- A repetition may gain nothing, whatever one turn gains. -/
theorem InStep.many (inner : InStep runs gain start rule otherRule) :
    InStep runs 0 start (Rule.many rule) (Rule.many otherRule) :=
  fun pos behind inside => inStep_manyFrom inner behind (Nat.le_refl pos) inside (Nat.le_refl pos)
    (Nat.le_max_left ..)

theorem InStep.many1 (inner : InStep runs gain start rule otherRule) :
    InStep runs 0 start (Rule.many1 rule) (Rule.many1 otherRule) := by
  intro pos behind inside
  obtain ⟨within, same⟩ := inner.many pos behind inside
  unfold InStepAt Rule.many1
  generalize Rule.many rule ⟨runs.one, pos⟩ = outcome at within same ⊢
  cases within with
  | missed starts stops =>
      refine ⟨.missed starts stops, fun agree => ?_⟩
      rw [same agree]
  | @matched nodes rest furthest gains seen stops =>
      cases nodes with
      | nil =>
          refine ⟨.missed (gains.trans seen) stops, fun agree => ?_⟩
          rw [same agree]
      | cons node nodes =>
          refine ⟨.matched gains seen stops, fun agree => ?_⟩
          rw [same agree]

/-- The first node gains what one node gains; the others can only add to it. -/
theorem InStep.separatedBy (inner : InStep runs gain start rule otherRule) (separator : Bytes) :
    InStep runs gain start (Rule.separatedBy rule separator)
      (Rule.separatedBy otherRule separator) := by
  have behind : InStep runs 1 (start + gain) (do let _ ← literal separator; rule)
      (do let _ ← literal separator; otherRule) :=
    (inStep_token _).bind fun _ => inner.later (by omega)
  exact inner.bind fun _ => behind.many.bind fun _ => inStep_pure _

/-- A rule whose inner uses stand further on: there fewer tokens are left. -/
theorem inStep_recursive {body otherBody : Rule Node → Rule Node}
    (step : ∀ start inner otherInner, InStep runs gain (start + 1) inner otherInner →
      InStep runs gain start (body inner) (otherBody otherInner)) :
    InStep runs gain start (recursive body) (recursive otherBody) := by
  intro pos behindStart
  induction left : runs.one.size - pos using Nat.strong_induction_on generalizing pos with
  | _ left inductionHypothesis =>
      intro inside
      suffices inner : InStep runs gain (pos + 1) (behind body ⟨runs.one, pos⟩)
          (behind otherBody ⟨runs.other, pos⟩) by
        have outer := step pos _ _ inner pos (Nat.le_refl pos) inside
        unfold InStepAt at outer ⊢
        rw [recursive_eq_behind, recursive_eq_behind]
        exact outer
      intro innerPos further within
      unfold InStepAt
      rw [behind_eq, behind_eq]
      -- Further on, the guard asks only for a token at `pos`, on which the two runs agree.
      by_cases fewer : runs.one.size - innerPos < runs.one.size - pos
      · rw [if_pos fewer]
        obtain ⟨bounds, same⟩ := inductionHypothesis _ (by omega) innerPos (by omega) rfl
          within
        refine ⟨bounds, fun agree => ?_⟩
        have reached := bounds.start_le_furthest
        have inOther := (agree.lt_size_iff (show pos ≤ _ by omega)).mp (by omega)
        rw [if_pos (by omega), same agree]
      · rw [if_neg fewer]
        refine ⟨.missed (Nat.le_refl _) (Nat.le_max_left ..), fun agree => ?_⟩
        change AgreeUpTo (innerPos + runs.ahead) runs.one runs.other at agree
        have inOther := agree.lt_size_iff (show pos ≤ _ by omega)
        rw [if_neg (by omega)]

/-- A rule that looks at the token behind before it goes on one way or the other. -/
theorem InStepAt.ite {symbols : List String} {second otherSecond : Rule Node}
    (sees : 1 ≤ runs.ahead)
    (first : Production.followedBy ⟨runs.one, pos⟩ symbols = true →
      InStepAt runs gain rule otherRule pos)
    (next : InStepAt runs gain second otherSecond pos) :
    InStepAt runs gain
      (fun cursor => if Production.followedBy cursor symbols then rule cursor else second cursor)
      (fun cursor => if Production.followedBy cursor symbols then otherRule cursor
        else otherSecond cursor) pos := by
  unfold InStepAt at first next ⊢
  dsimp only
  cases followed : Production.followedBy ⟨runs.one, pos⟩ symbols with
  | true =>
      obtain ⟨within, same⟩ := first followed
      have reached := within.start_le_furthest
      rw [if_pos rfl]
      refine ⟨within, fun agree => ?_⟩
      rw [← agree.followedBy_eq (by omega), if_pos followed, same agree]
  | false =>
      obtain ⟨within, same⟩ := next
      have reached := within.start_le_furthest
      rw [if_neg Bool.false_ne_true]
      refine ⟨within, fun agree => ?_⟩
      rw [← agree.followedBy_eq (by omega), followed, if_neg Bool.false_ne_true, same agree]

theorem inStepAt_missed (reached : Cursor → Nat)
    (starts : pos ≤ reached ⟨runs.one, pos⟩)
    (stops : reached ⟨runs.one, pos⟩ ≤ max pos runs.one.size)
    (same : reached ⟨runs.other, pos⟩ = reached ⟨runs.one, pos⟩) :
    InStepAt runs gain (fun cursor => (.missed (reached cursor) : Outcome Node))
      (fun cursor => .missed (reached cursor)) pos :=
  ⟨.missed starts stops, fun _ => congrArg _ same⟩

end Combinators

/-! ## Rules that are in step with themselves -/

/-- Two runs of the rule are in step, whatever tokens are read. -/
def Steady (ahead gain : Nat) (rule : Rule Node) : Prop :=
  ∀ runs : TwoRuns, runs.ahead = ahead → InStep runs gain 0 rule rule

section Steady

variable {ahead gain pos : Nat} {rule : Rule Node}

theorem Steady.within (steady : Steady ahead gain rule) (tokens : Array Token) (pos : Nat) :
    (rule ⟨tokens, pos⟩).Within gain pos (max pos tokens.size) :=
  (steady ⟨tokens, tokens, ahead, pos⟩ rfl pos pos.zero_le (Nat.le_max_left ..)).1

/-- The whole outcome of a steady rule is told by the tokens that it looked at. -/
theorem Steady.outcome_eq (steady : Steady ahead gain rule) {one other : Array Token}
    (agree : AgreeUpTo ((rule ⟨one, pos⟩).furthest + ahead) one other) :
    rule ⟨other, pos⟩ = rule ⟨one, pos⟩ :=
  (steady ⟨one, other, ahead, pos⟩ rfl pos pos.zero_le (Nat.le_max_left ..)).2 agree

end Steady

end Rule

/-! ## Patterns -/

namespace Pattern

open Rule

variable {runs : TwoRuns}

mutual

/-- A pattern is in step with itself, whatever it is built from. -/
theorem inStep_rule : (pattern : Pattern) → {start : Nat} →
    InStep runs 0 start pattern.rule pattern.rule
  | .token accepts, _ => by
      rw [rule]
      exact ((inStep_token accepts).bind fun _ => inStep_pure _).loosen
  | .literal text, _ => by
      rw [rule]
      exact ((inStep_token _).bind fun _ => inStep_pure _).loosen
  | .sequence elements, _ => by
      rw [rule]
      exact (inStep_sequenceRule elements).bind fun _ => inStep_pure _
  | .either alternatives, _ => by
      rw [rule]
      exact inStep_alternativeRules alternatives
  | .many pattern, _ => by
      rw [rule]
      exact (inStep_rule pattern).many.bind fun _ => inStep_pure _
  | .many1 pattern, _ => by
      rw [rule]
      exact (inStep_rule pattern).many1.bind fun _ => inStep_pure _
  | .separated pattern separator, _ => by
      rw [rule]
      exact ((inStep_rule pattern).separatedBy separator).bind fun _ => inStep_pure _
  | .map change pattern, _ => by
      rw [rule]
      exact (inStep_rule pattern).bind fun _ => inStep_pure _

theorem inStep_sequenceRule : (elements : List (Need × Pattern)) → {start : Nat} →
    InStep runs 0 start (sequenceRule elements) (sequenceRule elements)
  | [], _ => by
      rw [sequenceRule]
      exact inStep_pure _
  | (.required, pattern) :: elements, _ => by
      rw [sequenceRule]
      exact (inStep_rule pattern).bind fun _ => (inStep_sequenceRule elements).bind fun _ =>
        inStep_pure _
  | (.optional, pattern) :: elements, _ => by
      rw [sequenceRule]
      exact (inStep_rule pattern).optional.bind fun _ => (inStep_sequenceRule elements).bind
        fun _ => inStep_pure _

theorem inStep_alternativeRules : (alternatives : List Pattern) → {start : Nat} →
    InStep runs 0 start (firstOf (alternativeRules alternatives))
      (firstOf (alternativeRules alternatives))
  | [], _ => by
      rw [alternativeRules]
      exact inStep_firstOf_nil
  | pattern :: others, _ => by
      rw [alternativeRules]
      exact (inStep_rule pattern).orElse (inStep_alternativeRules others)

end

/-- Patterns never look ahead, so any number of tokens ahead will do. -/
theorem steady_rule (pattern : Pattern) (ahead : Nat) : Steady ahead 0 pattern.rule :=
  fun _ _ => pattern.inStep_rule

end Pattern

/-! ## Productions -/

namespace Production

open Rule

section WithTerm

variable {runs : TwoRuns} {start : Nat} {inner otherInner : Rule Term}

theorem inStep_word (text : String) : InStep runs 1 start (word text) (word text) :=
  inStep_token _

theorem inStep_identifier : InStep runs 1 start identifier identifier :=
  inStep_token _

theorem inStep_operationOf (terms : InStep runs 1 (start + 1) inner otherInner) :
    InStep runs 1 start (operationOf inner) (operationOf otherInner) := by
  have operator : InStep runs 1 start binaryOperator binaryOperator :=
    (inStep_token _).bind fun _ => inStep_pure _
  exact operator.bind fun _ => terms.bind fun _ => inStep_pure _

theorem inStep_expressionOf (terms : InStep runs 1 start inner otherInner) :
    InStep runs 1 start (expressionOf inner) (expressionOf otherInner) :=
  terms.bind fun _ => (inStep_operationOf (terms.later (by omega))).many.bind fun _ =>
    inStep_pure _

theorem inStep_expressionListOf (terms : InStep runs 1 start inner otherInner) :
    InStep runs 0 start (expressionListOf inner) (expressionListOf otherInner) :=
  ((inStep_expressionOf terms).separatedBy _).optional.bind fun _ => inStep_pure _

theorem inStep_argumentsOf (terms : InStep runs 1 (start + 1) inner otherInner) :
    InStep runs 1 start (argumentsOf inner) (argumentsOf otherInner) :=
  (inStep_word "(").bind fun _ => (inStep_expressionListOf terms).bind fun _ =>
    (inStep_word ")").bind fun _ => inStep_pure _

theorem inStep_groupTermOf (terms : InStep runs 1 (start + 1) inner otherInner) :
    InStep runs 1 start (groupTermOf inner) (groupTermOf otherInner) :=
  (inStep_word "(").bind fun _ => (inStep_expressionOf terms).bind fun _ =>
    (inStep_word ")").bind fun _ => inStep_pure _

theorem inStep_unaryTermOf (terms : InStep runs 1 (start + 1) inner otherInner) :
    InStep runs 1 start (unaryTermOf inner) (unaryTermOf otherInner) := by
  have operator : InStep runs 1 start unaryOperator unaryOperator :=
    (inStep_token _).bind fun _ => inStep_pure _
  exact operator.bind fun _ => terms.bind fun _ => inStep_pure _

theorem inStep_integerTerm : InStep runs 1 start integerTerm integerTerm :=
  (inStep_token _).bind fun _ => inStep_pure _

theorem inStep_stringTerm : InStep runs 1 start stringTerm stringTerm :=
  (inStep_token _).bind fun _ => inStep_pure _

theorem inStep_keywordTerm : InStep runs 1 start keywordTerm keywordTerm :=
  (inStep_token _).bind fun _ => inStep_pure _

variable (sees : 1 ≤ runs.ahead)

include sees

/-- The token behind is there when a variable is missed for it. -/
theorem inStep_nameTerm : InStep runs 1 start nameTerm nameTerm := by
  intro pos behind inside
  refine .ite sees (fun followed => ?_)
    ((inStep_identifier.bind fun _ => inStep_pure _) pos behind inside)
  obtain ⟨token, here, _⟩ := followedBy_iff.mp followed
  have there : pos + 1 < runs.one.size := (Array.getElem?_eq_some_iff.mp here).1
  exact inStepAt_missed (fun cursor => cursor.pos + 1) (Nat.le_succ pos)
    (there.le.trans (Nat.le_max_right ..)) rfl

theorem inStep_elementTermOf (terms : InStep runs 1 (start + 1) inner otherInner) :
    InStep runs 1 start (elementTermOf inner) (elementTermOf otherInner) := by
  intro pos behind inside
  refine .ite sees (fun _ => ?_)
    (inStepAt_missed Cursor.pos (Nat.le_refl pos) (Nat.le_max_left ..) rfl)
  exact (inStep_identifier.bind fun _ => (inStep_word "[").bind fun _ =>
    (inStep_expressionOf (terms.later (by omega))).bind fun _ => (inStep_word "]").bind fun _ =>
      inStep_pure _) pos behind inside

/-- The token behind the first name tells the form of a call. Where the outcome does not tell of it,
`ahead` covers it. -/
theorem inStep_callOf (terms : InStep runs 1 (start + 1) inner otherInner) :
    InStep runs 1 start (callOf inner) (callOf otherInner) := by
  intro pos behind inside
  refine .ite sees (fun _ => ?_) (.ite sees (fun _ => ?_)
    (inStepAt_missed Cursor.pos (Nat.le_refl pos) (Nat.le_max_left ..) rfl))
  · exact (inStep_identifier.bind fun _ => (inStep_word ".").bind fun _ =>
      inStep_identifier.bind fun _ => (inStep_argumentsOf (terms.later (by omega))).bind fun _ =>
        inStep_pure _) pos behind inside
  · exact (inStep_identifier.bind fun _ => (inStep_argumentsOf (terms.later (by omega))).bind
      fun _ => inStep_pure _) pos behind inside

/-- Every term takes a token. The inner rule stands behind that token, wherever it is used. -/
theorem inStep_termAlternatives (terms : InStep runs 1 (start + 1) inner otherInner) :
    InStep runs 1 start (firstOf (termAlternatives inner))
      (firstOf (termAlternatives otherInner)) :=
  inStep_integerTerm.orElse (inStep_stringTerm.orElse
    (((inStep_callOf sees terms).bind fun _ => inStep_pure _).orElse
      (inStep_keywordTerm.orElse ((inStep_elementTermOf sees terms).orElse
        ((inStep_nameTerm sees).orElse ((inStep_groupTermOf terms).orElse
          ((inStep_unaryTermOf terms).orElse inStep_firstOf_nil)))))))

theorem inStep_term : InStep runs 1 start term term :=
  inStep_recursive fun _ _ _ terms => inStep_termAlternatives sees terms

theorem inStep_expression : InStep runs 1 start expression expression :=
  inStep_expressionOf (inStep_term sees)

end WithTerm

section WithStatement

variable {runs : TwoRuns} {start : Nat} {inner otherInner : Rule Statement}

theorem inStep_blockOf (statements : InStep runs 1 (start + 1) inner otherInner) :
    InStep runs 1 start (blockOf inner) (blockOf otherInner) :=
  (inStep_word "\x7b").bind fun _ => statements.many1.bind fun _ => (inStep_word "\x7d").bind
    fun _ => inStep_pure _

variable (sees : 1 ≤ runs.ahead)

include sees

theorem inStep_letStatement : InStep runs 1 start letStatement letStatement := by
  have target {start : Nat} : InStep runs 1 start (firstOf [elementTerm, nameTerm])
      (firstOf [elementTerm, nameTerm]) :=
    (inStep_elementTermOf sees (inStep_term sees)).orElse
      ((inStep_nameTerm sees).orElse inStep_firstOf_nil)
  exact (inStep_word "let").bind fun _ => target.bind fun _ => (inStep_word "=").bind fun _ =>
    (inStep_expression sees).bind fun _ => (inStep_word ";").bind fun _ => inStep_pure _

theorem inStep_doStatement : InStep runs 1 start doStatement doStatement :=
  (inStep_word "do").bind fun _ => (inStep_callOf sees (inStep_term sees)).bind fun _ =>
    (inStep_word ";").bind fun _ => inStep_pure _

theorem inStep_returnStatement : InStep runs 1 start returnStatement returnStatement :=
  (inStep_word "return").bind fun _ => (inStep_expression sees).optional.bind fun _ =>
    (inStep_word ";").bind fun _ => inStep_pure _

theorem inStep_condition : InStep runs 1 start condition condition :=
  (inStep_word "(").bind fun _ => (inStep_expression sees).bind fun _ => (inStep_word ")").bind
    fun _ => inStep_pure _

theorem inStep_ifStatementOf (statements : InStep runs 1 (start + 1) inner otherInner) :
    InStep runs 1 start (ifStatementOf inner) (ifStatementOf otherInner) := by
  have block {later : Nat} (further : start ≤ later) :
      InStep runs 1 later (blockOf inner) (blockOf otherInner) :=
    inStep_blockOf (statements.later (by omega))
  exact (inStep_word "if").bind fun _ => (inStep_condition sees).bind fun _ =>
    (block (by omega)).bind fun _ =>
      ((inStep_word "else").bind fun _ => block (by omega)).optional.bind fun _ => inStep_pure _

theorem inStep_whileStatementOf (statements : InStep runs 1 (start + 1) inner otherInner) :
    InStep runs 1 start (whileStatementOf inner) (whileStatementOf otherInner) :=
  (inStep_word "while").bind fun _ => (inStep_condition sees).bind fun _ =>
    (inStep_blockOf (statements.later (by omega))).bind fun _ => inStep_pure _

/-- Every statement takes a keyword, and its blocks stand behind it. -/
theorem inStep_statementAlternatives (statements : InStep runs 1 (start + 1) inner otherInner) :
    InStep runs 1 start (firstOf (statementAlternatives inner))
      (firstOf (statementAlternatives otherInner)) :=
  (inStep_ifStatementOf sees statements).orElse ((inStep_whileStatementOf sees statements).orElse
    ((inStep_doStatement sees).orElse ((inStep_letStatement sees).orElse
      ((inStep_returnStatement sees).orElse inStep_firstOf_nil))))

theorem inStep_statement : InStep runs 1 start statement statement :=
  inStep_recursive fun _ _ _ statements => inStep_statementAlternatives sees statements

end WithStatement

section Declarations

variable {runs : TwoRuns} {start : Nat}

theorem inStep_type : InStep runs 1 start type type := by
  have token : InStep runs 1 start (firstOf [word "int", word "char", word "boolean", identifier])
      (firstOf [word "int", word "char", word "boolean", identifier]) :=
    (inStep_word "int").orElse ((inStep_word "char").orElse ((inStep_word "boolean").orElse
      (inStep_identifier.orElse inStep_firstOf_nil)))
  exact token.bind fun _ => inStep_pure _

theorem inStep_names : InStep runs 1 start names names :=
  (inStep_identifier.separatedBy _).bind fun _ => inStep_pure _

theorem inStep_variableList (first : Token) :
    InStep runs 1 start (variableList first) (variableList first) :=
  inStep_type.bind fun _ => inStep_names.bind fun _ => (inStep_word ";").bind fun _ =>
    inStep_pure _

theorem inStep_classVariables : InStep runs 1 start classVariables classVariables := by
  have first : InStep runs 1 start (firstOf [word "static", word "field"])
      (firstOf [word "static", word "field"]) :=
    (inStep_word "static").orElse ((inStep_word "field").orElse inStep_firstOf_nil)
  exact first.bind fun _ => (inStep_variableList _).bind fun _ => inStep_pure _

theorem inStep_localVariables : InStep runs 1 start localVariables localVariables :=
  (inStep_word "var").bind fun _ => inStep_variableList _

theorem inStep_parameter : InStep runs 1 start parameter parameter :=
  inStep_type.bind fun _ => inStep_identifier.bind fun _ => inStep_pure _

variable (sees : 1 ≤ runs.ahead)

include sees

theorem inStep_subroutineBody : InStep runs 1 start subroutineBody subroutineBody :=
  (inStep_word "\x7b").bind fun _ => inStep_localVariables.many.bind fun _ =>
    (inStep_statement sees).many.bind fun _ => (inStep_word "\x7d").bind fun _ => inStep_pure _

theorem inStep_subroutine : InStep runs 1 start subroutine subroutine := by
  have first : InStep runs 1 start (firstOf [word "constructor", word "function", word "method"])
      (firstOf [word "constructor", word "function", word "method"]) :=
    (inStep_word "constructor").orElse ((inStep_word "function").orElse
      ((inStep_word "method").orElse inStep_firstOf_nil))
  have result {start : Nat} : InStep runs 1 start (firstOf [Token.content <$> word "void", type])
      (firstOf [Token.content <$> word "void", type]) :=
    ((inStep_word "void").bind fun _ => inStep_pure _).orElse
      (inStep_type.orElse inStep_firstOf_nil)
  exact first.bind fun _ => result.bind fun _ => inStep_identifier.bind fun _ =>
    (inStep_word "(").bind fun _ => (inStep_parameter.separatedBy _).optional.bind fun _ =>
      (inStep_word ")").bind fun _ => (inStep_subroutineBody sees).bind fun _ => inStep_pure _

theorem inStep_classTree : InStep runs 1 start classTree classTree :=
  (inStep_word "class").bind fun _ => inStep_identifier.bind fun _ => (inStep_word "\x7b").bind
    fun _ => inStep_classVariables.many.bind fun _ => (inStep_subroutine sees).many.bind fun _ =>
      (inStep_word "\x7d").bind fun _ => inStep_pure _

end Declarations

/-! ## All productions -/

/-- All productions, each with the type of its nodes. -/
def all : List ((Node : Type) × Rule Node) :=
  [⟨_, integerTerm⟩, ⟨_, stringTerm⟩, ⟨_, keywordTerm⟩, ⟨_, nameTerm⟩, ⟨_, elementTerm⟩,
    ⟨_, call⟩, ⟨_, groupTerm⟩, ⟨_, unaryTerm⟩, ⟨_, term⟩, ⟨_, expression⟩, ⟨_, expressionList⟩,
    ⟨_, letStatement⟩, ⟨_, doStatement⟩, ⟨_, returnStatement⟩, ⟨_, ifStatement⟩,
    ⟨_, whileStatement⟩, ⟨_, statement⟩, ⟨_, statements⟩, ⟨_, block⟩, ⟨_, type⟩, ⟨_, names⟩,
    ⟨_, classVariables⟩, ⟨_, localVariables⟩, ⟨_, parameter⟩, ⟨_, subroutineBody⟩,
    ⟨_, subroutine⟩, ⟨_, classTree⟩]

theorem inStep_of_mem_all {runs : TwoRuns} (sees : 1 ≤ runs.ahead) :
    ∀ production ∈ all, InStep runs 0 0 production.2 production.2 := by
  simp only [all, List.forall_mem_cons, List.not_mem_nil, false_imp_iff, implies_true, and_true]
  exact ⟨inStep_integerTerm.loosen, inStep_stringTerm.loosen, inStep_keywordTerm.loosen,
    (inStep_nameTerm sees).loosen, (inStep_elementTermOf sees (inStep_term sees)).loosen,
    (inStep_callOf sees (inStep_term sees)).loosen, (inStep_groupTermOf (inStep_term sees)).loosen,
    (inStep_unaryTermOf (inStep_term sees)).loosen, (inStep_term sees).loosen,
    (inStep_expression sees).loosen, inStep_expressionListOf (inStep_term sees),
    (inStep_letStatement sees).loosen, (inStep_doStatement sees).loosen,
    (inStep_returnStatement sees).loosen,
    (inStep_ifStatementOf sees (inStep_statement sees)).loosen,
    (inStep_whileStatementOf sees (inStep_statement sees)).loosen, (inStep_statement sees).loosen,
    (inStep_statement sees).many, (inStep_blockOf (inStep_statement sees)).loosen,
    inStep_type.loosen, inStep_names.loosen, inStep_classVariables.loosen,
    inStep_localVariables.loosen, inStep_parameter.loosen, (inStep_subroutineBody sees).loosen,
    (inStep_subroutine sees).loosen, (inStep_classTree sees).loosen⟩

/-- No production looks further ahead than one token. -/
theorem steady_of_mem_all : ∀ production ∈ all, Steady 1 0 production.2 :=
  fun production member _ ahead => inStep_of_mem_all (Nat.le_of_eq ahead.symm) production member

end Production

/-! ## What an outcome depends on -/

/-- The whole outcome of a rule depends only on the tokens that it looked at. Patterns look at
no token behind the furthest position, productions look at one. -/
theorem outcomes_depend_on_tokens_seen :
    (∀ (pattern : Pattern) (one other : Array Token) (pos : Nat),
      AgreeUpTo (pattern.rule ⟨one, pos⟩).furthest one other →
        pattern.rule ⟨other, pos⟩ = pattern.rule ⟨one, pos⟩) ∧
    ∀ production ∈ Production.all, ∀ (one other : Array Token) (pos : Nat),
      AgreeUpTo ((production.2 ⟨one, pos⟩).furthest + 1) one other →
        production.2 ⟨other, pos⟩ = production.2 ⟨one, pos⟩ := by
  constructor
  · intro pattern one other pos agree
    exact (pattern.steady_rule 0).outcome_eq agree
  · intro production member one other pos agree
    exact (Production.steady_of_mem_all production member).outcome_eq agree

/-- The tokens of `a + b ; c (`. -/
def sumTokens : Array Token :=
  #[⟨.identifier, utf8 "a", 1⟩, ⟨.symbol, utf8 "+", 1⟩, ⟨.identifier, utf8 "b", 1⟩,
    ⟨.symbol, utf8 ";", 1⟩, ⟨.identifier, utf8 "c", 1⟩, ⟨.symbol, utf8 "(", 1⟩]

/-- Names with a plus in between. -/
def addedNames : Pattern :=
  .separated (.ofKind .identifier) (utf8 "+")

/-- The names are read whatever follows the semicolon, and the sum whatever follows the token
behind it. -/
theorem sum_depends_on_tokens_seen :
    (addedNames.rule ⟨sumTokens, 0⟩).furthest = 3 ∧
      addedNames.rule ⟨sumTokens.take 4, 0⟩ = addedNames.rule ⟨sumTokens, 0⟩ ∧
      (Production.expression ⟨sumTokens, 0⟩).furthest = 3 ∧
      Production.expression ⟨sumTokens.take 5, 0⟩ = Production.expression ⟨sumTokens, 0⟩ := by
  have names : (addedNames.rule ⟨sumTokens, 0⟩).furthest = 3 := by decide +kernel
  have sum : (Production.expression ⟨sumTokens, 0⟩).furthest = 3 := by decide +kernel
  have member : ⟨_, Production.expression⟩ ∈ Production.all :=
    List.mem_of_getElem? (show Production.all[9]? = _ from rfl)
  refine ⟨names, outcomes_depend_on_tokens_seen.1 addedNames _ _ 0 ?_, sum,
    outcomes_depend_on_tokens_seen.2 _ member _ _ 0 ?_⟩
  · have agree : ∀ pos < 4, sumTokens[pos]? = (sumTokens.take 4)[pos]? := by decide
    rw [names]
    exact fun pos inside => agree pos (Nat.lt_succ_of_le inside)
  · have agree : ∀ pos < 5, sumTokens[pos]? = (sumTokens.take 5)[pos]? := by decide
    dsimp only
    rw [sum]
    exact fun pos inside => agree pos (Nat.lt_succ_of_le inside)

end Jack
