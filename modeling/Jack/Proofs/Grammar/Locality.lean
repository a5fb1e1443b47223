import Jack.Proofs.Grammar.Expressions

/-!
Contract: what a rule finds depends only on the tokens up to the furthest one that it
tells of, and on no line.

Owns: tokens that look alike up to a position, outcomes that are alike up to there, and for
every production that it has alike outcomes on alike tokens.

Does not own: which tokens can follow each other.

Two runs of one rule are compared, each on its own tokens. There is one exception to the
rule above. A call looks at the token behind its first name, but where that token makes no
call, it tells of the name only. Where a term is read, the attempt to read a variable tells of
the token behind; where a statement calls, nothing does.
-/

set_option autoImplicit false

namespace Jack

/-! ## Tokens that look alike -/

/-- All that a rule can see of a token. -/
def Token.look (token : Token) : Token.Kind × Bytes :=
  (token.kind, token.content)

def lookAt (tokens : Array Token) (pos : Nat) : Option (Token.Kind × Bytes) :=
  (tokens[pos]?).map Token.look

theorem lookAt_eq_none_iff {tokens : Array Token} {pos : Nat} :
    lookAt tokens pos = none ↔ tokens.size ≤ pos := by
  simp [lookAt]

def NameAt (tokens : Array Token) (pos : Nat) : Prop :=
  ∃ token, tokens[pos]? = some token ∧ token.kind = .identifier

/-- A name stands at `pos`, right behind the word that starts a call. -/
def CalleeAt (tokens : Array Token) (pos : Nat) : Prop :=
  ∃ start before, pos = before + 1 ∧ tokens[before]? = some start ∧
    start.content = utf8 "do" ∧ NameAt tokens pos

/-- The tokens look alike up to `bound`, and at one more position where a name that is
called could stand at `bound`. -/
structure AlikeUpTo (bound : Nat) (one other : Array Token) : Prop where
  upTo : ∀ pos ≤ bound, lookAt one pos = lookAt other pos
  callee : CalleeAt one bound → lookAt one (bound + 1) = lookAt other (bound + 1)

section Looks

variable {bound pos : Nat} {one other : Array Token}

/-- Tokens that look alike end at the same position, if they end before the bound. -/
theorem AlikeUpTo.lt_size_iff (alike : AlikeUpTo bound one other) (inside : pos ≤ bound) :
    pos < one.size ↔ pos < other.size := by
  rw [← Nat.not_le, ← Nat.not_le, ← lookAt_eq_none_iff, ← lookAt_eq_none_iff,
    alike.upTo pos inside]

theorem AlikeUpTo.le_size_iff (alike : AlikeUpTo bound one other) (inside : pos ≤ bound) :
    pos ≤ one.size ↔ pos ≤ other.size := by
  cases pos with
  | zero => simp
  | succ before => exact alike.lt_size_iff (Nat.le_of_succ_le inside)

theorem nameAt_iff_of_lookAt_eq (same : lookAt one pos = lookAt other pos) :
    NameAt one pos ↔ NameAt other pos := by
  have view (tokens : Array Token) :
      NameAt tokens pos ↔ ∃ content, lookAt tokens pos = some (.identifier, content) := by
    constructor
    · rintro ⟨token, here, kind⟩
      exact ⟨token.content, by simp [lookAt, here, Token.look, kind]⟩
    · rintro ⟨content, here⟩
      obtain ⟨token, under, look⟩ := Option.map_eq_some_iff.mp here
      exact ⟨token, under, (Prod.mk.inj look).1⟩
  rw [view, view, same]

/-- The look ahead sees one token, and of that its kind and text. -/
theorem followedBy_eq_of_lookAt_eq (same : lookAt one (pos + 1) = lookAt other (pos + 1))
    (symbols : List String) :
    Production.followedBy ⟨one, pos⟩ symbols = Production.followedBy ⟨other, pos⟩ symbols := by
  have view (tokens : Array Token) : Production.followedBy ⟨tokens, pos⟩ symbols =
      (lookAt tokens (pos + 1)).any fun look =>
        look.1 == .symbol && (symbols.map utf8).contains look.2 := by
    rw [lookAt, Option.any_map]
    rfl
  rw [view, view, same]

end Looks

/-! ## Outcomes that are alike -/

/-- The same furthest position, where the bound is not reached; beyond it, anything. -/
def SameReach (bound reached otherReached : Nat) : Prop :=
  reached ≤ bound ∧ (reached < bound → otherReached = reached)

theorem SameReach.refl {bound reached : Nat} (inside : reached ≤ bound) :
    SameReach bound reached reached :=
  ⟨inside, fun _ => rfl⟩

theorem SameReach.max {bound first second otherFirst otherSecond : Nat}
    (one : SameReach bound first otherFirst) (two : SameReach bound second otherSecond) :
    SameReach bound (max first second) (max otherFirst otherSecond) := by
  obtain ⟨inside, same⟩ := one
  obtain ⟨insideToo, sameToo⟩ := two
  exact ⟨by omega, fun within => by rw [same (by omega), sameToo (by omega)]⟩

/-- The same find or the same miss, unless the first run goes beyond the bound. Nodes are
compared in a view. -/
inductive Outcome.Alike {Node View : Type} (view : Node → View) (bound : Nat) :
    Outcome Node → Outcome Node → Prop where
  | beyond {one other : Outcome Node} (further : bound < one.furthest) : Alike view bound one other
  | missed {reached otherReached : Nat} (reach : SameReach bound reached otherReached) :
      Alike view bound (.missed reached) (.missed otherReached)
  | matched {node otherNode : Node} {rest reached otherReached : Nat}
      (same : view node = view otherNode) (inside : rest ≤ bound)
      (reach : SameReach bound reached otherReached) :
      Alike view bound (.matched node rest reached) (.matched otherNode rest otherReached)

theorem Outcome.le_furthest_reaching {Node : Type} (outcome : Outcome Node) (position : Nat) :
    position ≤ (outcome.reaching position).furthest ∧
      outcome.furthest ≤ (outcome.reaching position).furthest := by
  cases outcome with
  | matched node rest furthest => exact ⟨Nat.le_max_left .., Nat.le_max_right ..⟩
  | missed furthest => exact ⟨Nat.le_max_left .., Nat.le_max_right ..⟩

/-- An earlier attempt that looked alike does not spoil the comparison. -/
theorem Outcome.Alike.reaching {Node View : Type} {view : Node → View}
    {bound reached otherReached : Nat} {one other : Outcome Node}
    (alike : Alike view bound one other) (reach : SameReach bound reached otherReached) :
    Alike view bound (one.reaching reached) (other.reaching otherReached) := by
  cases alike with
  | beyond further =>
      exact .beyond (Nat.lt_of_lt_of_le further (one.le_furthest_reaching reached).2)
  | missed inner => exact .missed (reach.max inner)
  | matched same inside inner => exact .matched same inside (reach.max inner)

/-! ## Rules with alike outcomes -/

namespace Rule

variable {Node Other View OtherView : Type}

/-- On two lists of tokens, from `pos` on, the rules have alike outcomes. -/
def AlikeAt (bound : Nat) (one other : Array Token) (view : Node → View)
    (rule otherRule : Rule Node) (pos : Nat) : Prop :=
  (rule ⟨one, pos⟩).Alike view bound (otherRule ⟨other, pos⟩)

/-- The same from every position up to the bound. -/
def Alike (bound : Nat) (one other : Array Token) (view : Node → View)
    (rule otherRule : Rule Node) : Prop :=
  ∀ pos ≤ bound, AlikeAt bound one other view rule otherRule pos

section Combinators

variable {bound pos : Nat} {one other : Array Token} {view : Node → View}
  {otherView : Other → OtherView} {rule otherRule : Rule Node}

theorem alike_pure {node otherNode : Node} (same : view node = view otherNode) :
    Alike bound one other view (pure node) (pure otherNode) :=
  fun _ inside => .matched same inside (.refl inside)

/-- The second rule is only compared where the first one found something inside the bound. -/
theorem AlikeAt.bind {second otherSecond : Node → Rule Other}
    (first : AlikeAt bound one other view rule otherRule pos)
    (next : ∀ node otherNode rest, Finds rule one pos node rest → rest ≤ bound →
      view node = view otherNode →
      AlikeAt bound one other otherView (second node) (otherSecond otherNode) rest) :
    AlikeAt bound one other otherView (rule >>= second) (otherRule >>= otherSecond) pos := by
  change (andThen rule second ⟨one, pos⟩).Alike otherView bound
    (andThen otherRule otherSecond ⟨other, pos⟩)
  unfold AlikeAt at first
  unfold andThen
  generalize outcome : rule ⟨one, pos⟩ = found at first ⊢
  generalize otherRule ⟨other, pos⟩ = otherFound at first ⊢
  cases first with
  | missed reach => exact .missed reach
  | matched same inside reach => exact (next _ _ _ ⟨_, outcome⟩ inside same).reaching reach
  | beyond further =>
      cases found with
      | missed furthest => exact .beyond further
      | matched node rest furthest =>
          exact .beyond (Nat.lt_of_lt_of_le further (Outcome.le_furthest_reaching ..).1)

/-- Rules in sequence have alike outcomes if each has, for nodes with one view. -/
theorem Alike.bind {second otherSecond : Node → Rule Other}
    (first : Alike bound one other view rule otherRule)
    (next : ∀ node otherNode, view node = view otherNode →
      Alike bound one other otherView (second node) (otherSecond otherNode)) :
    Alike bound one other otherView (rule >>= second) (otherRule >>= otherSecond) :=
  fun pos inside => (first pos inside).bind fun node otherNode rest _ within same =>
    next node otherNode same rest within

/-- A token is accepted for its look. -/
theorem alike_token (alike : AlikeUpTo bound one other) (accepts : Token.Kind → Bytes → Bool) :
    Alike bound one other Token.look (token fun token => accepts token.kind token.content)
      (token fun token => accepts token.kind token.content) := by
  intro pos inside
  have same := alike.upTo pos inside
  unfold AlikeAt token
  simp only [Cursor.current?]
  unfold lookAt at same
  cases here : one[pos]? with
  | none =>
      rw [here, Option.map_none, eq_comm, Option.map_eq_none_iff] at same
      rw [same]
      exact .missed (.refl inside)
  | some token =>
      rw [here, Option.map_some, eq_comm, Option.map_eq_some_iff] at same
      obtain ⟨otherToken, there, look⟩ := same
      obtain ⟨kind, content⟩ := Prod.mk.inj look
      rw [there]
      dsimp only
      rw [kind, content]
      split
      · by_cases within : pos + 1 ≤ bound
        · exact .matched look.symm within (.refl within)
        · exact .beyond (Nat.lt_of_not_le within)
      · exact .missed (.refl inside)

/-- The same alternative is taken in both runs, since the attempts in front of it fail in both. -/
theorem alikeAt_firstOf {rules otherRules : List (Rule Node)} (inside : pos ≤ bound)
    (each : List.Forall₂ (fun rule otherRule => AlikeAt bound one other view rule otherRule pos)
      rules otherRules) :
    AlikeAt bound one other view (firstOf rules) (firstOf otherRules) pos := by
  induction each with
  | nil => exact .missed (.refl inside)
  | @cons rule otherRule rules otherRules first _ inductionHypothesis =>
      unfold AlikeAt at first inductionHypothesis ⊢
      unfold firstOf
      generalize rule ⟨one, pos⟩ = found at first ⊢
      generalize otherRule ⟨other, pos⟩ = otherFound at first ⊢
      cases first with
      | missed reach => exact inductionHypothesis.reaching reach
      | matched same inside reach => exact .matched same inside reach
      | beyond further =>
          cases found with
          | missed furthest =>
              exact .beyond (Nat.lt_of_lt_of_le further (Outcome.le_furthest_reaching ..).1)
          | matched node rest furthest => exact .beyond further

theorem Alike.optional (inner : Alike bound one other view rule otherRule) :
    Alike bound one other (Option.map view) (Rule.optional rule) (Rule.optional otherRule) := by
  intro pos inside
  have first := inner pos inside
  unfold AlikeAt at first ⊢
  unfold Rule.optional
  generalize rule ⟨one, pos⟩ = found at first ⊢
  generalize otherRule ⟨other, pos⟩ = otherFound at first ⊢
  cases first with
  | missed reach => exact .matched rfl inside reach
  | matched same within reach => exact .matched (congrArg some same) within reach
  | beyond further =>
      cases found with
      | missed furthest => exact .beyond further
      | matched node rest furthest => exact .beyond further

theorem le_furthest_manyFrom (rule : Rule Node) (tokens : Array Token) (pos : Nat)
    (found : List Node) (reached : Nat) :
    reached ≤ (manyFrom rule tokens pos found reached).furthest := by
  fun_induction manyFrom rule tokens pos found reached with
  | case1 | case3 => exact Nat.le_max_left ..
  | case2 _ _ _ _ _ _ _ _ inductionHypothesis =>
      exact (Nat.le_max_left ..).trans inductionHypothesis

/-- Both loops make the same turns, as long as they stay inside the bound. By induction on the
tokens that remain. -/
theorem alike_manyFrom (alike : AlikeUpTo bound one other)
    (inner : Alike bound one other view rule otherRule) {found otherFound : List Node}
    {reached otherReached : Nat} (inside : pos ≤ bound)
    (same : found.map view = otherFound.map view)
    (reach : SameReach bound reached otherReached) :
    (manyFrom rule one pos found reached).Alike (List.map view) bound
      (manyFrom otherRule other pos otherFound otherReached) := by
  induction left : one.size - pos using Nat.strong_induction_on
    generalizing pos found otherFound reached otherReached with
  | _ left inductionHypothesis =>
      have first := inner pos inside
      unfold AlikeAt at first
      rw [manyFrom, manyFrom]
      generalize rule ⟨one, pos⟩ = outcome at first ⊢
      generalize otherRule ⟨other, pos⟩ = otherOutcome at first ⊢
      have sameNodes : found.reverse.map view = otherFound.reverse.map view := by
        rw [List.map_reverse, List.map_reverse, same]
      cases first with
      | missed reachToo => exact .matched sameNodes inside (reach.max reachToo)
      | @matched node otherNode rest _ _ sameNode within reachToo =>
          have guards : (pos < rest ∧ rest ≤ one.size) ↔ (pos < rest ∧ rest ≤ other.size) :=
            and_congr_right fun _ => alike.le_size_iff within
          dsimp only
          by_cases moves : pos < rest ∧ rest ≤ one.size
          · rw [if_pos moves, if_pos (guards.mp moves)]
            exact inductionHypothesis _ (by omega) within
              (by rw [List.map_cons, List.map_cons, sameNode, same]) (reach.max reachToo) rfl
          · rw [if_neg moves, if_neg (fun moves' => moves (guards.mpr moves'))]
            exact .matched sameNodes inside (reach.max reachToo)
      | beyond further =>
          cases outcome with
          | missed furthest => exact .beyond (Nat.lt_of_lt_of_le further (Nat.le_max_right ..))
          | matched node rest furthest =>
              dsimp only
              have reaches := Nat.lt_of_lt_of_le further (Nat.le_max_right reached furthest)
              split
              · exact .beyond (Nat.lt_of_lt_of_le reaches (le_furthest_manyFrom ..))
              · exact .beyond reaches

theorem Alike.many (alike : AlikeUpTo bound one other)
    (inner : Alike bound one other view rule otherRule) :
    Alike bound one other (List.map view) (Rule.many rule) (Rule.many otherRule) :=
  fun _ inside => alike_manyFrom alike inner inside rfl (.refl inside)

theorem Alike.many1 (alike : AlikeUpTo bound one other)
    (inner : Alike bound one other view rule otherRule) :
    Alike bound one other (List.map view) (Rule.many1 rule) (Rule.many1 otherRule) := by
  intro pos inside
  have repeated := inner.many alike pos inside
  unfold AlikeAt at repeated ⊢
  unfold Rule.many1
  generalize Rule.many rule ⟨one, pos⟩ = found at repeated ⊢
  generalize Rule.many otherRule ⟨other, pos⟩ = otherFound at repeated ⊢
  cases repeated with
  | missed reach => exact .missed reach
  | @matched nodes otherNodes _ _ _ same within reach =>
      cases nodes with
      | nil =>
          obtain rfl : otherNodes = [] := List.map_eq_nil_iff.mp same.symm
          exact .missed reach
      | cons node nodes =>
          have nonempty : otherNodes ≠ [] := fun empty => by simp [empty] at same
          obtain ⟨otherNode, others, rfl⟩ := List.exists_cons_of_ne_nil nonempty
          exact .matched same within reach
  | beyond further =>
      refine .beyond ?_
      cases found with
      | missed furthest => exact further
      | matched nodes rest furthest =>
          cases nodes with
          | nil => exact further
          | cons node nodes => exact further

theorem Alike.separatedBy (alike : AlikeUpTo bound one other)
    (inner : Alike bound one other view rule otherRule) (separator : Bytes) :
    Alike bound one other (List.map view) (Rule.separatedBy rule separator)
      (Rule.separatedBy otherRule separator) := by
  have comma := alike_token alike fun kind content =>
    content == separator && kind != .string && kind != .comment
  refine inner.bind fun first otherFirst sameFirst => ?_
  refine ((comma.bind fun _ _ _ => inner).many alike).bind fun rest otherRest sameRest => ?_
  exact alike_pure (by rw [List.map_cons, List.map_cons, sameFirst, sameRest])

/-- The inner uses of a rule stand further on, where fewer tokens are left. -/
theorem alike_recursive (alike : AlikeUpTo bound one other) {body : Rule Node → Rule Node}
    (step : ∀ inner otherInner, Alike bound one other view inner otherInner →
      Alike bound one other view (body inner) (body otherInner)) :
    Alike bound one other view (recursive body) (recursive body) := by
  intro pos
  induction left : one.size - pos using Nat.strong_induction_on generalizing pos with
  | _ left inductionHypothesis =>
      intro inside
      have inner : Alike bound one other view (behind body ⟨one, pos⟩)
          (behind body ⟨other, pos⟩) := by
        intro innerPos within
        have guards : one.size - innerPos < one.size - pos ↔
            other.size - innerPos < other.size - pos := by
          have := alike.lt_size_iff inside
          omega
        unfold AlikeAt
        rw [behind_eq, behind_eq]
        by_cases fewer : one.size - innerPos < one.size - pos
        · rw [if_pos fewer, if_pos (guards.mp fewer)]
          exact inductionHypothesis _ (by omega) innerPos rfl within
        · rw [if_neg fewer, if_neg (fun less => fewer (guards.mpr less))]
          exact .missed (.refl within)
      have outcome := step _ _ inner pos inside
      unfold AlikeAt at outcome ⊢
      rw [recursive_eq_behind, recursive_eq_behind]
      exact outcome

/-- A rule that looks ahead in the same way in both runs. -/
theorem alikeAt_ite {test : Cursor → Bool} {second otherSecond : Rule Node}
    (sees : test ⟨one, pos⟩ = test ⟨other, pos⟩)
    (first : AlikeAt bound one other view rule otherRule pos)
    (next : AlikeAt bound one other view second otherSecond pos) :
    AlikeAt bound one other view (fun cursor => if test cursor then rule cursor else second cursor)
      (fun cursor => if test cursor then otherRule cursor else otherSecond cursor) pos := by
  unfold AlikeAt at first next ⊢
  dsimp only
  rw [← sees]
  split
  · exact first
  · exact next

theorem alikeAt_missed (reached : Cursor → Nat)
    (same : reached ⟨one, pos⟩ = reached ⟨other, pos⟩) :
    AlikeAt bound one other view (fun cursor => .missed (reached cursor))
      (fun cursor => .missed (reached cursor)) pos := by
  unfold AlikeAt
  dsimp only
  rw [← same]
  by_cases inside : reached ⟨one, pos⟩ ≤ bound
  · exact .missed (.refl inside)
  · exact .beyond (Nat.lt_of_not_le inside)

theorem bind_eq_missed {second : Node → Rule Other} {cursor : Cursor} {furthest : Nat}
    (misses : rule cursor = .missed furthest) : (rule >>= second) cursor = .missed furthest := by
  change andThen rule second cursor = _
  rw [andThen, misses]

/-! ## Rules that take a token -/

/-- What the rule finds, it finds by looking further than where it stands. -/
def Moves (rule : Rule Node) : Prop :=
  ∀ ⦃cursor node rest furthest⦄, rule cursor = .matched node rest furthest →
    cursor.pos < furthest

/-- A token that is found is looked at, so the furthest position is behind the start. -/
theorem moves_token (accepts : Token → Bool) : Moves (token accepts) := by
  intro cursor node rest furthest found
  rcases token_cases accepts cursor.tokens cursor.pos with ⟨_, _, _, outcome⟩ | ⟨_, outcome⟩
  · obtain ⟨_, _, rfl⟩ := Outcome.matched.inj (outcome.symm.trans found)
    exact Nat.lt_succ_self cursor.pos
  · exact nomatch outcome.symm.trans found

theorem Moves.bind {second : Node → Rule Other} (moves : Moves rule) :
    Moves (rule >>= second) := by
  intro cursor node rest furthest found
  change andThen rule second cursor = _ at found
  unfold andThen at found
  cases outcome : rule cursor with
  | missed reached =>
      rw [outcome] at found
      exact nomatch found
  | matched first middle reached =>
      rw [outcome] at found
      dsimp only at found
      have further := ((second first (cursor.moveTo middle)).le_furthest_reaching reached).1
      rw [found] at further
      exact Nat.lt_of_lt_of_le (moves outcome) further

theorem Moves.ite {test : Cursor → Bool} {second : Rule Node} (first : Moves rule)
    (next : Moves second) :
    Moves (fun cursor => if test cursor then rule cursor else second cursor) := by
  intro cursor node rest furthest found
  dsimp only at found
  split at found
  · exact first found
  · exact next found

theorem moves_missed (reached : Cursor → Nat) :
    Moves (fun cursor => (.missed (reached cursor) : Outcome Node)) :=
  fun _ _ _ _ found => nomatch found

/-- A choice looks as far as each alternative, up to the one that finds something. -/
theorem lt_furthest_firstOf (cursor : Cursor) {front back : List (Rule Node)}
    (moves : ∀ alternative ∈ front, Moves alternative)
    (further : cursor.pos < (rule cursor).furthest) :
    cursor.pos < (firstOf (front ++ rule :: back) cursor).furthest := by
  induction front with
  | nil =>
      rw [List.nil_append, firstOf]
      dsimp only
      cases outcome : rule cursor with
      | missed furthest =>
          rw [outcome] at further
          exact Nat.lt_of_lt_of_le further (Outcome.le_furthest_reaching ..).1
      | matched node rest furthest =>
          rw [outcome] at further
          exact further
  | cons alternative others inductionHypothesis =>
      obtain ⟨first, rest⟩ := List.forall_mem_cons.mp moves
      rw [List.cons_append, firstOf]
      dsimp only
      cases outcome : alternative cursor with
      | missed furthest =>
          exact Nat.lt_of_lt_of_le (inductionHypothesis rest) (Outcome.le_furthest_reaching ..).2
      | matched node rest furthest => exact first outcome

end Combinators

end Rule

/-! ## Expressions -/

namespace Production

open Rule

section Productions

variable {bound pos : Nat} {one other : Array Token}

theorem alike_word (alike : AlikeUpTo bound one other) (text : String) :
    Alike bound one other Token.look (word text) (word text) :=
  alike_token alike fun kind content =>
    content == utf8 text && kind != .string && kind != .comment

theorem alike_identifier (alike : AlikeUpTo bound one other) :
    Alike bound one other Token.look identifier identifier :=
  alike_token alike fun kind _ => kind == .identifier

/-- A node that is made from one token, and not from its line. -/
theorem alike_leaf {Node View : Type} {view : Node → View} (alike : AlikeUpTo bound one other)
    (accepts : Token.Kind → Bytes → Bool) {build : Token → Node}
    (sees : ∀ token otherToken : Token, token.content = otherToken.content →
      view (build token) = view (build otherToken)) :
    Alike bound one other view
      (do let token ← token fun token => accepts token.kind token.content; return build token)
      (do let token ← token fun token => accepts token.kind token.content; return build token) :=
  (alike_token alike accepts).bind fun token otherToken same =>
    alike_pure (sees token otherToken (Prod.mk.inj same).2)

theorem alike_operator (alike : AlikeUpTo bound one other) (symbols : List String) :
    Alike bound one other Operator.symbol
      (do let token ← token (isSymbolIn symbols); return ⟨token.content, token.line⟩)
      (do let token ← token (isSymbolIn symbols); return ⟨token.content, token.line⟩) :=
  alike_leaf alike (fun kind content => kind == .symbol && (symbols.map utf8).contains content)
    fun _ _ same => same

theorem alike_integerTerm (alike : AlikeUpTo bound one other) :
    Alike bound one other Term.withoutLines integerTerm integerTerm :=
  alike_leaf alike (fun kind _ => kind == .integer) fun _ _ same => by
    simp only [Term.withoutLines, Token.value, same]

theorem alike_stringTerm (alike : AlikeUpTo bound one other) :
    Alike bound one other Term.withoutLines stringTerm stringTerm :=
  alike_leaf alike (fun kind _ => kind == .string) fun _ _ same => by
    simp only [Term.withoutLines, same]

theorem alike_keywordTerm (alike : AlikeUpTo bound one other) :
    Alike bound one other Term.withoutLines keywordTerm keywordTerm :=
  alike_leaf alike (fun kind content => kind == .keyword &&
    (["true", "false", "null", "this"].map utf8).contains content) fun _ _ same => by
    simp only [Term.withoutLines, same]

theorem identifier_eq_missed {tokens : Array Token} (noName : ¬ NameAt tokens pos) :
    identifier ⟨tokens, pos⟩ = .missed pos := by
  rcases token_cases (fun token => token.kind == .identifier) tokens pos with
    ⟨token, here, accepted, _⟩ | ⟨_, missed⟩
  · exact absurd ⟨token, here, by simpa using accepted⟩ noName
  · exact missed

/-- Behind a name, the rule for a variable always looks at the next token. -/
theorem lt_furthest_nameTerm {tokens : Array Token} (name : NameAt tokens pos) :
    pos < (nameTerm ⟨tokens, pos⟩).furthest := by
  obtain ⟨token, here, kind⟩ := name
  have found : identifier ⟨tokens, pos⟩ = .matched token (pos + 1) (pos + 1) := by
    simp [identifier, ofKind, Rule.token, Cursor.current?, here, kind]
  unfold nameTerm
  split
  · exact Nat.lt_succ_self pos
  · change pos < (andThen identifier _ ⟨tokens, pos⟩).furthest
    rw [andThen, found]
    exact Nat.lt_of_lt_of_le (Nat.lt_succ_self pos) (Outcome.le_furthest_reaching ..).1

/-- Without a name, the rule for a variable misses, but it may have looked one token ahead. -/
theorem nameTerm_eq_missed {tokens : Array Token} (noName : ¬ NameAt tokens pos) :
    ∃ reached, pos ≤ reached ∧ nameTerm ⟨tokens, pos⟩ = .missed reached := by
  unfold nameTerm
  split
  · exact ⟨pos + 1, Nat.le_succ pos, rfl⟩
  · exact ⟨pos, Nat.le_refl pos, bind_eq_missed (identifier_eq_missed noName)⟩

/-- The rule for a variable is the one that tells of the token behind. -/
theorem alike_nameTerm (alike : AlikeUpTo bound one other) :
    Alike bound one other Term.withoutLines nameTerm nameTerm := by
  have leaf : Alike bound one other Term.withoutLines
      (do let token ← identifier; return Term.name token.content token.line)
      (do let token ← identifier; return Term.name token.content token.line) :=
    alike_leaf alike (fun kind _ => kind == .identifier) fun _ _ same => by
      simp only [Term.withoutLines, same]
  intro pos inside
  by_cases within : pos < bound
  · refine alikeAt_ite (followedBy_eq_of_lookAt_eq (alike.upTo (pos + 1) within) _) ?_ ?_
    · exact alikeAt_missed (fun cursor => cursor.pos + 1) rfl
    · exact leaf pos inside
  -- The next token is not compared. Behind a name that is too far, and otherwise both miss.
  obtain rfl : pos = bound := by omega
  by_cases name : NameAt one pos
  · exact .beyond (lt_furthest_nameTerm name)
  · have otherName := mt (nameAt_iff_of_lookAt_eq (alike.upTo pos inside)).mpr name
    obtain ⟨reached, further, missed⟩ := nameTerm_eq_missed name
    obtain ⟨otherReached, _, otherMissed⟩ := nameTerm_eq_missed otherName
    unfold AlikeAt
    rw [missed, otherMissed]
    obtain rfl | beyond := Nat.eq_or_lt_of_le further
    · exact .missed ⟨Nat.le_refl pos, fun less => absurd less (Nat.lt_irrefl pos)⟩
    · exact .beyond beyond

variable {inner otherInner : Rule Term}

theorem alike_expressionOf (alike : AlikeUpTo bound one other)
    (terms : Alike bound one other Term.withoutLines inner otherInner) :
    Alike bound one other Expression.withoutLines (expressionOf inner)
      (expressionOf otherInner) := by
  have operations : Alike bound one other
      (fun operation => (operation.1.symbol, operation.2.withoutLines))
      (operationOf inner) (operationOf otherInner) :=
    (alike_operator alike _).bind fun _ _ sameOperator => terms.bind fun _ _ sameOperand =>
      alike_pure (Prod.ext sameOperator sameOperand)
  refine terms.bind fun head otherHead sameHead => ?_
  refine (operations.many alike).bind fun tail otherTail sameTail => alike_pure ?_
  have sameTail := congrArg (List.map fun operation => ((⟨operation.1, 0⟩ : Operator), operation.2))
    sameTail
  rw [List.map_map, List.map_map] at sameTail
  simp only [Expression.withoutLines, sameHead, Expression.tailWithoutLines_eq_map]
  exact congrArg _ sameTail

theorem alike_argumentsOf (alike : AlikeUpTo bound one other)
    (terms : Alike bound one other Term.withoutLines inner otherInner) :
    Alike bound one other (List.map Expression.withoutLines) (argumentsOf inner)
      (argumentsOf otherInner) := by
  have list : Alike bound one other (List.map Expression.withoutLines) (expressionListOf inner)
      (expressionListOf otherInner) := by
    refine (((alike_expressionOf alike terms).separatedBy alike _).optional).bind
      fun answer otherAnswer same => alike_pure ?_
    cases answer <;> cases otherAnswer <;> simp_all
  exact (alike_word alike "(").bind fun _ _ _ => list.bind fun _ _ same =>
    (alike_word alike ")").bind fun _ _ _ => alike_pure same

/-- The token behind the name decides, if there is a name. -/
theorem callOf_eq_missed {tokens : Array Token} (noName : ¬ NameAt tokens pos) :
    callOf inner ⟨tokens, pos⟩ = .missed pos := by
  unfold callOf
  split
  · exact bind_eq_missed (identifier_eq_missed noName)
  · split
    · exact bind_eq_missed (identifier_eq_missed noName)
    · rfl

theorem elementTermOf_eq_missed {tokens : Array Token} (noName : ¬ NameAt tokens pos) :
    elementTermOf inner ⟨tokens, pos⟩ = .missed pos := by
  unfold elementTermOf
  split
  · exact bind_eq_missed (identifier_eq_missed noName)
  · rfl

/-- A call looks at the token behind its first name without telling of it. So that token must be
known to be alike. -/
theorem alikeAt_callOf (alike : AlikeUpTo bound one other) (inside : pos ≤ bound)
    (terms : Alike bound one other Term.withoutLines inner otherInner)
    (settled : NameAt one pos → lookAt one (pos + 1) = lookAt other (pos + 1)) :
    AlikeAt bound one other Call.withoutLines (callOf inner) (callOf otherInner) pos := by
  by_cases name : NameAt one pos
  · have sees := followedBy_eq_of_lookAt_eq (settled name)
    refine alikeAt_ite (sees ["."]) ?_ (alikeAt_ite (sees ["("]) ?_ (alikeAt_missed Cursor.pos rfl))
    · refine ((alike_identifier alike).bind fun qualifier otherQualifier sameQualifier =>
        (alike_word alike ".").bind fun _ _ _ =>
          (alike_identifier alike).bind fun name otherName sameName =>
            (alike_argumentsOf alike terms).bind fun arguments otherArguments same =>
              alike_pure ?_) pos inside
      simp only [Call.withoutLines, Expression.allWithoutLines_eq_map, same]
      rw [(Prod.mk.inj sameQualifier).2, (Prod.mk.inj sameName).2]
    · refine ((alike_identifier alike).bind fun name otherName sameName =>
        (alike_argumentsOf alike terms).bind fun arguments otherArguments same =>
          alike_pure ?_) pos inside
      simp only [Call.withoutLines, Expression.allWithoutLines_eq_map, same]
      rw [(Prod.mk.inj sameName).2]
  · have otherName := mt (nameAt_iff_of_lookAt_eq (alike.upTo pos inside)).mpr name
    unfold AlikeAt
    rw [callOf_eq_missed name, callOf_eq_missed otherName]
    exact .missed (.refl inside)

theorem alikeAt_elementTermOf (alike : AlikeUpTo bound one other) (inside : pos ≤ bound)
    (terms : Alike bound one other Term.withoutLines inner otherInner)
    (settled : NameAt one pos → lookAt one (pos + 1) = lookAt other (pos + 1)) :
    AlikeAt bound one other Term.withoutLines (elementTermOf inner) (elementTermOf otherInner)
      pos := by
  by_cases name : NameAt one pos
  · have sees := followedBy_eq_of_lookAt_eq (settled name)
    refine alikeAt_ite (sees ["["]) ?_ (alikeAt_missed Cursor.pos rfl)
    refine ((alike_identifier alike).bind fun array otherArray sameArray =>
      (alike_word alike "[").bind fun _ _ _ =>
        (alike_expressionOf alike terms).bind fun index otherIndex same =>
          (alike_word alike "]").bind fun _ _ _ => alike_pure ?_) pos inside
    simp only [Term.withoutLines, same]
    rw [(Prod.mk.inj sameArray).2]
  · have otherName := mt (nameAt_iff_of_lookAt_eq (alike.upTo pos inside)).mpr name
    unfold AlikeAt
    rw [elementTermOf_eq_missed name, elementTermOf_eq_missed otherName]
    exact .missed (.refl inside)

theorem moves_elementTermOf (inner : Rule Term) : Moves (elementTermOf inner) :=
  ((moves_token _).bind).ite (moves_missed Cursor.pos)

theorem moves_callOf (inner : Rule Term) : Moves (callOf inner) :=
  ((moves_token _).bind).ite (((moves_token _).bind).ite (moves_missed Cursor.pos))

/-- The attempts before that for a variable need not be alike where a name stands at the
bound, because that one goes beyond it. -/
theorem alikeAt_firstOf_nameTerm (alike : AlikeUpTo bound one other) (inside : pos ≤ bound)
    {front otherFront back otherBack : List (Rule Term)}
    (moves : ∀ alternative ∈ front, Moves alternative)
    (before : (NameAt one pos → lookAt one (pos + 1) = lookAt other (pos + 1)) →
      List.Forall₂ (fun rule otherRule =>
        AlikeAt bound one other Term.withoutLines rule otherRule pos) front otherFront)
    (behind : List.Forall₂ (fun rule otherRule =>
        AlikeAt bound one other Term.withoutLines rule otherRule pos) back otherBack) :
    AlikeAt bound one other Term.withoutLines (firstOf (front ++ nameTerm :: back))
      (firstOf (otherFront ++ nameTerm :: otherBack)) pos := by
  by_cases edge : pos = bound ∧ NameAt one pos
  · obtain ⟨rfl, name⟩ := edge
    exact .beyond (lt_furthest_firstOf ⟨one, pos⟩ moves (lt_furthest_nameTerm name))
  · refine alikeAt_firstOf inside (List.rel_append (before fun name => ?_) (.cons ?_ behind))
    · exact alike.upTo _ (Nat.lt_of_le_of_ne inside fun same => edge ⟨same, name⟩)
    · exact alike_nameTerm alike pos inside

/-- Two runs of the rule for terms find alike terms, since the attempt at a variable covers the look
ahead of the other two. -/
theorem alike_term (alike : AlikeUpTo bound one other) :
    Alike bound one other Term.withoutLines term term := by
  refine alike_recursive alike fun inner otherInner terms pos inside => ?_
  have parts (inner : Rule Term) : termAlternatives inner =
      [integerTerm, stringTerm, Term.call <$> callOf inner, keywordTerm, elementTermOf inner] ++
        nameTerm :: [groupTermOf inner, unaryTermOf inner] := rfl
  rw [parts, parts]
  refine alikeAt_firstOf_nameTerm alike inside ?_ (fun settled => ?_) ?_
  · simp only [List.forall_mem_cons, List.not_mem_nil, false_imp_iff, implies_true, and_true]
    exact ⟨(moves_token _).bind, (moves_token _).bind, (moves_callOf inner).bind,
      (moves_token _).bind, moves_elementTermOf inner⟩
  · refine .cons (alike_integerTerm alike pos inside) (.cons (alike_stringTerm alike pos inside)
      (.cons ?_ (.cons (alike_keywordTerm alike pos inside)
        (.cons (alikeAt_elementTermOf alike inside terms settled) .nil))))
    refine (alikeAt_callOf alike inside terms settled).bind
      fun called otherCalled rest _ within same => alike_pure ?_ rest within
    simp only [Term.withoutLines, same]
  · refine .cons ?_ (.cons ?_ .nil)
    · refine ((alike_word alike "(").bind fun _ _ _ =>
        (alike_expressionOf alike terms).bind fun _ _ same =>
          (alike_word alike ")").bind fun _ _ _ => alike_pure ?_) pos inside
      simp only [Term.withoutLines, same]
    · refine ((alike_operator alike _).bind fun operator otherOperator sameOperator =>
        terms.bind fun _ _ same => alike_pure ?_) pos inside
      simp only [Term.withoutLines, same, sameOperator]

theorem alike_expression (alike : AlikeUpTo bound one other) :
    Alike bound one other Expression.withoutLines expression expression :=
  alike_expressionOf alike (alike_term alike)

/-! ## Statements -/

theorem alike_letStatement (alike : AlikeUpTo bound one other) :
    Alike bound one other Statement.withoutLines letStatement letStatement := by
  have target : Alike bound one other Term.withoutLines (firstOf [elementTerm, nameTerm])
      (firstOf [elementTerm, nameTerm]) := by
    intro pos inside
    have parts : [elementTerm, nameTerm] = [elementTermOf term] ++ nameTerm :: [] := rfl
    rw [parts]
    refine alikeAt_firstOf_nameTerm alike inside ?_ (fun settled => ?_) .nil
    · simpa using moves_elementTermOf term
    · exact .cons (alikeAt_elementTermOf alike inside (alike_term alike) settled) .nil
  refine (alike_word alike "let").bind fun _ _ _ => target.bind fun _ _ sameTarget =>
    (alike_word alike "=").bind fun _ _ _ => (alike_expression alike).bind fun _ _ sameValue =>
      (alike_word alike ";").bind fun _ _ _ => alike_pure ?_
  simp only [Statement.withoutLines, sameTarget, sameValue]

/-- The name that is called may stand at the bound: then the token behind is compared too. -/
theorem alike_doStatement (alike : AlikeUpTo bound one other) :
    Alike bound one other Statement.withoutLines doStatement doStatement := by
  intro pos inside
  refine (alike_word alike "do" pos inside).bind fun start otherStart middle found within _ => ?_
  obtain ⟨here, ⟨content, _⟩, rfl⟩ := finds_literal_iff.mp found
  have settled (name : NameAt one (pos + 1)) :
      lookAt one (pos + 1 + 1) = lookAt other (pos + 1 + 1) := by
    obtain edge | further := Nat.eq_or_lt_of_le within
    · rw [edge]
      exact alike.callee ⟨start, pos, edge.symm, here, content, edge ▸ name⟩
    · exact alike.upTo _ further
  refine (alikeAt_callOf alike within (alike_term alike) settled).bind
    fun _ _ rest _ inside same => ?_
  refine ((alike_word alike ";").bind fun _ _ _ => alike_pure ?_) rest inside
  simp only [Statement.withoutLines, same]

theorem alike_returnStatement (alike : AlikeUpTo bound one other) :
    Alike bound one other Statement.withoutLines returnStatement returnStatement := by
  refine (alike_word alike "return").bind fun _ _ _ =>
    (alike_expression alike).optional.bind fun _ _ same =>
      (alike_word alike ";").bind fun _ _ _ => alike_pure ?_
  simp only [Statement.withoutLines, same]

theorem alike_condition (alike : AlikeUpTo bound one other) :
    Alike bound one other Expression.withoutLines condition condition :=
  (alike_word alike "(").bind fun _ _ _ => (alike_expression alike).bind fun _ _ same =>
    (alike_word alike ")").bind fun _ _ _ => alike_pure same

theorem alike_blockOf {inner otherInner : Rule Statement} (alike : AlikeUpTo bound one other)
    (body : Alike bound one other Statement.withoutLines inner otherInner) :
    Alike bound one other (List.map Statement.withoutLines) (blockOf inner)
      (blockOf otherInner) :=
  (alike_word alike "\x7b").bind fun _ _ _ => (body.many1 alike).bind fun _ _ same =>
    (alike_word alike "\x7d").bind fun _ _ _ => alike_pure same

/-- Calls as statements are the exception that `AlikeUpTo` takes into account. -/
theorem alike_statement (alike : AlikeUpTo bound one other) :
    Alike bound one other Statement.withoutLines statement statement := by
  refine alike_recursive alike fun inner otherInner body pos inside => ?_
  have block := alike_blockOf alike body
  refine alikeAt_firstOf inside (.cons ?_ (.cons ?_ (.cons (alike_doStatement alike pos inside)
    (.cons (alike_letStatement alike pos inside)
      (.cons (alike_returnStatement alike pos inside) .nil)))))
  · refine ((alike_word alike "if").bind fun _ _ _ => (alike_condition alike).bind
      fun _ _ sameCondition => block.bind fun whenTrue otherWhenTrue sameTrue =>
        ((alike_word alike "else").bind fun _ _ _ => block).optional.bind
          fun otherwise elsewhere sameElse => alike_pure ?_) pos inside
    have elseView (otherwise : Option (List Statement)) : Statement.elseWithoutLines otherwise =
        otherwise.map (List.map Statement.withoutLines) := by
      cases otherwise <;> simp [Statement.elseWithoutLines, Statement.allWithoutLines_eq_map]
    simp only [Statement.withoutLines, sameCondition, Statement.allWithoutLines_eq_map, sameTrue,
      elseView, sameElse]
  · refine ((alike_word alike "while").bind fun _ _ _ => (alike_condition alike).bind
      fun _ _ sameCondition => block.bind fun _ _ same => alike_pure ?_) pos inside
    simp only [Statement.withoutLines, sameCondition, Statement.allWithoutLines_eq_map, same]

/-! ## Declarations -/

theorem alike_type (alike : AlikeUpTo bound one other) :
    Alike bound one other id type type := by
  have token : Alike bound one other Token.look
      (firstOf [word "int", word "char", word "boolean", identifier])
      (firstOf [word "int", word "char", word "boolean", identifier]) := fun pos inside =>
    alikeAt_firstOf inside (.cons (alike_word alike "int" pos inside)
      (.cons (alike_word alike "char" pos inside) (.cons (alike_word alike "boolean" pos inside)
        (.cons (alike_identifier alike pos inside) .nil))))
  exact token.bind fun _ _ same => alike_pure (Prod.mk.inj same).2

theorem alike_variableList (alike : AlikeUpTo bound one other) (start otherStart : Token) :
    Alike bound one other VariableList.withoutLines (variableList start)
      (variableList otherStart) := by
  have names : Alike bound one other id names names := by
    refine ((alike_identifier alike).separatedBy alike (utf8 ",")).bind fun _ _ same =>
      alike_pure ?_
    have contents := congrArg (List.map Prod.snd) same
    rw [List.map_map, List.map_map] at contents
    exact contents
  refine (alike_type alike).bind fun type otherType sameType => names.bind
    fun names otherNames sameNames => (alike_word alike ";").bind fun _ _ _ => alike_pure ?_
  obtain rfl : type = otherType := sameType
  obtain rfl : names = otherNames := sameNames
  rfl

theorem alike_classVariables (alike : AlikeUpTo bound one other) :
    Alike bound one other ClassVariables.withoutLines classVariables classVariables := by
  have start : Alike bound one other Token.look (firstOf [word "static", word "field"])
      (firstOf [word "static", word "field"]) := fun pos inside =>
    alikeAt_firstOf inside (.cons (alike_word alike "static" pos inside)
      (.cons (alike_word alike "field" pos inside) .nil))
  refine start.bind fun start otherStart sameStart => (alike_variableList alike _ _).bind
    fun list otherList same => alike_pure ?_
  simp only [ClassVariables.withoutLines, same]
  rw [(Prod.mk.inj sameStart).2]

theorem alike_parameter (alike : AlikeUpTo bound one other) :
    Alike bound one other id parameter parameter := by
  refine (alike_type alike).bind fun type otherType sameType =>
    (alike_identifier alike).bind fun name otherName sameName => alike_pure ?_
  obtain rfl : type = otherType := sameType
  rw [(Prod.mk.inj sameName).2]

theorem alike_subroutineBody (alike : AlikeUpTo bound one other) :
    Alike bound one other SubroutineBody.withoutLines subroutineBody subroutineBody := by
  have locals : Alike bound one other VariableList.withoutLines localVariables localVariables :=
    (alike_word alike "var").bind fun _ _ _ => alike_variableList alike _ _
  refine (alike_word alike "\x7b").bind fun _ _ _ => (locals.many alike).bind
    fun _ _ sameLocals => ((alike_statement alike).many alike).bind fun _ _ sameStatements =>
      (alike_word alike "\x7d").bind fun _ _ _ => alike_pure ?_
  simp only [SubroutineBody.withoutLines, sameLocals, Statement.allWithoutLines_eq_map,
    sameStatements]

theorem alike_subroutine (alike : AlikeUpTo bound one other) :
    Alike bound one other Subroutine.withoutLines subroutine subroutine := by
  have start : Alike bound one other Token.look
      (firstOf [word "constructor", word "function", word "method"])
      (firstOf [word "constructor", word "function", word "method"]) := fun pos inside =>
    alikeAt_firstOf inside (.cons (alike_word alike "constructor" pos inside)
      (.cons (alike_word alike "function" pos inside)
        (.cons (alike_word alike "method" pos inside) .nil)))
  have nothing : Alike bound one other id (Token.content <$> word "void")
      (Token.content <$> word "void") :=
    (alike_word alike "void").bind fun _ _ same => alike_pure (Prod.mk.inj same).2
  have result : Alike bound one other id (firstOf [Token.content <$> word "void", type])
      (firstOf [Token.content <$> word "void", type]) := fun pos inside =>
    alikeAt_firstOf inside (.cons (nothing pos inside) (.cons (alike_type alike pos inside) .nil))
  refine start.bind fun start otherStart sameStart =>
    result.bind fun result otherResult sameResult => (alike_identifier alike).bind
      fun name otherName sameName =>
      (alike_word alike "(").bind fun _ _ _ =>
        ((alike_parameter alike).separatedBy alike (utf8 ",")).optional.bind
          fun parameters otherParameters sameParameters => (alike_word alike ")").bind fun _ _ _ =>
            (alike_subroutineBody alike).bind fun body otherBody sameBody => alike_pure ?_
  obtain rfl : result = otherResult := sameResult
  rw [List.map_id_fun, Option.map_id] at sameParameters
  obtain rfl : parameters = otherParameters := sameParameters
  simp only [Subroutine.withoutLines, sameBody]
  rw [(Prod.mk.inj sameStart).2, (Prod.mk.inj sameName).2]

/-- Two runs of the parser on alike tokens have alike outcomes, up to the bound. -/
theorem alike_classTree (alike : AlikeUpTo bound one other) :
    Alike bound one other ClassTree.withoutLines classTree classTree := by
  refine (alike_word alike "class").bind fun _ _ _ => (alike_identifier alike).bind
    fun name otherName sameName => (alike_word alike "\x7b").bind fun _ _ _ =>
      ((alike_classVariables alike).many alike).bind fun _ _ sameDeclarations =>
        ((alike_subroutine alike).many alike).bind fun _ _ sameSubroutines =>
          (alike_word alike "\x7d").bind fun _ _ _ => alike_pure ?_
  simp only [ClassTree.withoutLines, sameDeclarations, sameSubroutines]
  rw [(Prod.mk.inj sameName).2]

end Productions

end Production

end Jack
