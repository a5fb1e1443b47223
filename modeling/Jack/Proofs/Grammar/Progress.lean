import Jack.Proofs.Grammar.TwoRuns

/-!
Contract: every rule returns, with an outcome inside the tokens, and every repetition of the
grammar ends because there is nothing more to find.

Owns: repetition turn by turn, recursion to a given depth, that both come to an end by
themselves, and that the productions which are repeated always move on.

Does not own: the bounds of single outcomes.

The rules carry guards of their own: a repetition goes on only inside the tokens, and an inner
use of a rule that stands no further on misses. What is stated here leaves the guards out. A
repetition ends where nothing is taken and nowhere else; below the depth of a recursion, the
rule may do anything.
-/

set_option autoImplicit false

namespace Jack

/-! ## Repetition -/

namespace Rule

variable {Node : Type}

/-- Applied inside the tokens, the rule stays there. A find never leads back, and nothing is
looked at beyond the end. A miss holds no place of its own, so the first part is true of every
rule: it stands for the start, which every failure hands back as the place to go on from. -/
def Bounded (rule : Rule Node) : Prop :=
  ∀ (tokens : Array Token) (pos : Nat), pos ≤ tokens.size →
    ((rule ⟨tokens, pos⟩).node? = none → (rule ⟨tokens, pos⟩).rest pos = pos) ∧
      (rule ⟨tokens, pos⟩).Within 0 pos tokens.size

/-- A repetition, turn by turn: from `pos` on the rule finds `nodes` up to `rest`, and ends
where it takes nothing. All attempts together look as far as the last number. -/
inductive Loops (rule : Rule Node) (tokens : Array Token) :
    Nat → List Node → Nat → Nat → Prop where
  | stop {pos : Nat} (nothing : (rule ⟨tokens, pos⟩).rest pos = pos) :
      Loops rule tokens pos [] pos (rule ⟨tokens, pos⟩).furthest
  | turn {pos middle rest reached furthest : Nat} {node : Node} {nodes : List Node}
      (found : rule ⟨tokens, pos⟩ = .matched node middle reached) (moves : middle ≠ pos)
      (more : Loops rule tokens middle nodes rest furthest) :
      Loops rule tokens pos (node :: nodes) rest (max reached furthest)

section Repetition

variable {tokens : Array Token} {rule : Rule Node}

/-- The guard of a repetition never decides, where the rule keeps its bounds. -/
theorem exists_loops_manyFrom {first pos : Nat} (found : List Node) (reached : Nat)
    (bounded : ∀ later, first ≤ later → later ≤ max first tokens.size →
      (rule ⟨tokens, later⟩).Within 0 later (max later tokens.size))
    (moved : first ≤ pos) (inside : pos ≤ max first tokens.size) :
    ∃ nodes rest furthest, Loops rule tokens pos nodes rest furthest ∧
      manyFrom rule tokens pos found reached =
        .matched (found.reverse ++ nodes) rest (max reached furthest) := by
  have within := bounded pos moved inside
  fun_induction manyFrom rule tokens pos found reached with
  | case1 pos found reached further outcome =>
      refine ⟨[], pos, _, .stop (by rw [outcome]; rfl), ?_⟩
      rw [outcome, List.append_nil]
      rfl
  | case2 pos found reached node middle further outcome moves inductionHypothesis =>
      obtain ⟨nodes, rest, furthest, loops, same⟩ := inductionHypothesis (by omega) (by omega)
        (bounded middle (by omega) (by omega))
      refine ⟨node :: nodes, rest, _, .turn outcome (by omega) loops, ?_⟩
      rw [same, List.reverse_cons, List.append_assoc, List.singleton_append, Nat.max_assoc]
  | case3 pos found reached node middle further outcome stays =>
      rw [outcome] at within
      cases within with
      | matched gains seen stops =>
          -- The find took nothing: inside the bounds, the guard refuses nothing else.
          obtain rfl : middle = pos := by omega
          refine ⟨[], middle, _, .stop (by rw [outcome]; rfl), ?_⟩
          rw [outcome, List.append_nil]
          rfl

/-- Where the rule keeps its bounds, a repetition comes to an end, and what it has found until
then is its outcome. -/
theorem exists_loops_many {pos : Nat}
    (bounded : ∀ later, pos ≤ later → later ≤ max pos tokens.size →
      (rule ⟨tokens, later⟩).Within 0 later (max later tokens.size)) :
    ∃ nodes rest furthest, Loops rule tokens pos nodes rest furthest ∧
      many rule ⟨tokens, pos⟩ = .matched nodes rest furthest := by
  obtain ⟨nodes, rest, furthest, loops, same⟩ := exists_loops_manyFrom [] pos bounded
    (Nat.le_refl pos) (Nat.le_max_left ..)
  have first := (bounded pos (Nat.le_refl pos) (Nat.le_max_left ..)).start_le_furthest
  have reached : pos ≤ furthest := by
    cases loops with
    | stop => exact first
    | turn found =>
        rw [found] at first
        exact first.trans (Nat.le_max_left ..)
  rw [Nat.max_eq_right reached] at same
  exact ⟨nodes, rest, furthest, loops, same⟩

end Repetition

/-! ## Recursion -/

section Recursion

variable {tokens : Array Token} {body : Rule Node → Rule Node} {gain pos : Nat}

/-- The body keeps runs in step whose inner uses are in step further on. -/
def Forward (gain : Nat) (body : Rule Node → Rule Node) : Prop :=
  ∀ ⦃runs : TwoRuns⦄ ⦃start : Nat⦄ ⦃inner otherInner : Rule Node⦄, 1 ≤ runs.ahead →
    InStep runs gain (start + 1) inner otherInner →
      InStep runs gain start (body inner) (body otherInner)

/-- Of an inner rule, only the outcomes further on count, and only inside the tokens. -/
theorem Forward.body_eq_recursive (forward : Forward gain body) {inner : Rule Node}
    (same : ∀ later, pos < later → later ≤ tokens.size →
      inner ⟨tokens, later⟩ = recursive body ⟨tokens, later⟩) :
    body inner ⟨tokens, pos⟩ = recursive body ⟨tokens, pos⟩ := by
  let runs : TwoRuns := { one := tokens, other := tokens, ahead := 1, limit := pos }
  have whole : InStep runs gain 0 (recursive body) (recursive body) :=
    inStep_recursive fun _ _ _ inStep => forward (Nat.le_refl 1) inStep
  have further : InStep runs gain (pos + 1) (behind body ⟨tokens, pos⟩) inner := by
    intro later behindPos inside
    have inTokens : later ≤ tokens.size := by
      have : later ≤ max pos tokens.size := inside
      omega
    unfold InStepAt
    dsimp only [runs]
    rw [behind_eq, if_pos (by omega), same later behindPos inTokens]
    exact ⟨(whole later later.zero_le inside).1, fun _ => rfl⟩
  rw [recursive_eq_behind]
  exact (forward (Nat.le_refl 1) further pos (Nat.le_refl pos) (Nat.le_max_left ..)).2
    (AgreeUpTo.refl _ _)

/-- A rule whose inner uses stand further on is a fixed point of its body, without any guard. -/
theorem Forward.recursive_eq (forward : Forward gain body) :
    recursive body = body (recursive body) :=
  funext fun _ => (forward.body_eq_recursive fun _ _ _ => rfl).symm

end Recursion

end Rule

namespace Production

open Rule

theorem forward_termAlternatives : Forward 1 fun term => firstOf (termAlternatives term) :=
  fun _ _ _ _ sees terms => inStep_termAlternatives sees terms

theorem forward_statementAlternatives :
    Forward 1 fun statement => firstOf (statementAlternatives statement) :=
  fun _ _ _ _ sees statements => inStep_statementAlternatives sees statements

end Production

/-! ## Every rule returns -/

section Returning

open Rule Production

theorem Outcome.rest_of_node?_eq_none {Node : Type} {outcome : Outcome Node} {start : Nat}
    (nothing : outcome.node? = none) : outcome.rest start = start := by
  cases outcome with
  | matched node rest furthest => simp [Outcome.node?] at nothing
  | missed furthest => rfl

theorem Rule.Steady.bounded {Node : Type} {rule : Rule Node} {ahead : Nat}
    (steady : Steady ahead 0 rule) : rule.Bounded := by
  intro tokens pos inside
  have within := steady.within tokens pos
  rw [Nat.max_eq_right inside] at within
  exact ⟨Outcome.rest_of_node?_eq_none, within⟩

end Returning

/-! ## The grammar moves on -/

namespace Rule

variable {Node : Type} {rule : Rule Node}

/-- What the rule finds takes a token at least. -/
def Advances (rule : Rule Node) : Prop :=
  ∀ ⦃tokens : Array Token⦄ ⦃pos : Nat⦄ ⦃node : Node⦄ ⦃rest furthest : Nat⦄,
    rule ⟨tokens, pos⟩ = .matched node rest furthest → pos < rest

theorem Steady.advances {ahead : Nat} (steady : Steady ahead 1 rule) : Advances rule := by
  intro tokens pos node rest furthest found
  have within := steady.within tokens pos
  rw [found] at within
  cases within with
  | matched gains => exact gains

/-- A repetition ends where nothing is taken. That is a miss, where a find takes a token. -/
theorem Loops.missed_of_advances {tokens : Array Token} {pos rest furthest : Nat}
    {nodes : List Node} (advances : Advances rule)
    (loops : Loops rule tokens pos nodes rest furthest) :
    ∃ reached, rule ⟨tokens, rest⟩ = .missed reached := by
  induction loops with
  | turn _ _ _ inductionHypothesis => exact inductionHypothesis
  | @stop pos nothing =>
      cases outcome : rule ⟨tokens, pos⟩ with
      | missed reached => exact ⟨reached, rfl⟩
      | matched node rest furthest =>
          rw [outcome] at nothing
          have same : rest = pos := nothing
          exact absurd (advances outcome) (same ▸ Nat.lt_irrefl pos)

/-- A repetition with at least one turn is the other one, with the empty list refused. -/
theorem many1_of_many {cursor : Cursor} {nodes : List Node} {rest furthest : Nat}
    (found : many rule cursor = .matched nodes rest furthest) :
    many1 rule cursor =
      if nodes = [] then .missed furthest else .matched nodes rest furthest := by
  unfold many1
  rw [found]
  cases nodes with
  | nil => rfl
  | cons node nodes => rfl

end Rule

namespace Production

open Rule

def behindComma {Node : Type} (rule : Rule Node) : Rule Node := do
  let _ ← literal (utf8 ",")
  rule

/-- Productions that stand for something written. -/
def advancing : List ((Node : Type) × Rule Node) :=
  [⟨_, term⟩, ⟨_, expression⟩, ⟨_, statement⟩, ⟨_, classVariables⟩, ⟨_, localVariables⟩,
    ⟨_, subroutine⟩, ⟨_, parameter⟩, ⟨_, block⟩]

/-- All that the grammar repeats: operations in an expression; expressions, names and
parameters behind the first one of a list; the statements of a block or a body, and the local
variables in front of them; and what a class declares. -/
def repeated : List ((Node : Type) × Rule Node) :=
  [⟨_, operationOf term⟩, ⟨_, behindComma expression⟩, ⟨_, behindComma identifier⟩,
    ⟨_, behindComma parameter⟩, ⟨_, statement⟩, ⟨_, localVariables⟩, ⟨_, classVariables⟩,
    ⟨_, subroutine⟩]

section Steps

variable {runs : TwoRuns} (sees : 1 ≤ runs.ahead)

theorem inStep_behindComma {Node : Type} {start : Nat} {rule : Rule Node}
    (inner : InStep runs 1 (start + 1) rule rule) :
    InStep runs 1 start (behindComma rule) (behindComma rule) :=
  (inStep_token _).bind fun _ => inner

include sees

theorem inStep_of_mem_advancing :
    ∀ production ∈ advancing, InStep runs 1 0 production.2 production.2 := by
  simp only [advancing, List.forall_mem_cons, List.not_mem_nil, false_imp_iff, implies_true,
    and_true]
  exact ⟨inStep_term sees, inStep_expression sees, inStep_statement sees, inStep_classVariables,
    inStep_localVariables, inStep_subroutine sees, inStep_parameter,
    inStep_blockOf (inStep_statement sees)⟩

theorem inStep_of_mem_repeated :
    ∀ production ∈ repeated, InStep runs 1 0 production.2 production.2 := by
  simp only [repeated, List.forall_mem_cons, List.not_mem_nil, false_imp_iff, implies_true,
    and_true]
  exact ⟨inStep_operationOf (inStep_term sees), inStep_behindComma (inStep_expression sees),
    inStep_behindComma inStep_identifier, inStep_behindComma inStep_parameter,
    inStep_statement sees, inStep_localVariables, inStep_classVariables, inStep_subroutine sees⟩

end Steps

theorem steady_of_mem_advancing : ∀ production ∈ advancing, Steady 1 1 production.2 :=
  fun production member _ ahead =>
    inStep_of_mem_advancing (Nat.le_of_eq ahead.symm) production member

/-- Every rule that the grammar repeats takes a token. -/
theorem steady_of_mem_repeated : ∀ production ∈ repeated, Steady 1 1 production.2 :=
  fun production member _ ahead =>
    inStep_of_mem_repeated (Nat.le_of_eq ahead.symm) production member

/-- What stands for something written takes a token at least. So does all that the grammar
repeats: a repetition ends only at a miss, and has found one node with each turn before. Inner
uses of a term or of a statement are the whole rule again, with the same repetitions. -/
theorem grammar_always_advances :
    (∀ production ∈ advancing, production.2.Advances) ∧
    (∀ production ∈ repeated, production.2.Advances ∧ ∀ (tokens : Array Token) (pos : Nat),
      ∃ nodes rest furthest reached, Loops production.2 tokens pos nodes rest furthest ∧
        production.2 ⟨tokens, rest⟩ = .missed reached ∧
        many production.2 ⟨tokens, pos⟩ = .matched nodes rest furthest ∧
        many1 production.2 ⟨tokens, pos⟩ =
          if nodes = [] then .missed furthest else .matched nodes rest furthest) ∧
    term = firstOf (termAlternatives term) ∧
    statement = firstOf (statementAlternatives statement) := by
  refine ⟨fun production member => ?_, fun production member => ?_,
    forward_termAlternatives.recursive_eq, forward_statementAlternatives.recursive_eq⟩
  · exact (steady_of_mem_advancing production member).advances
  · have steady := steady_of_mem_repeated production member
    refine ⟨steady.advances, fun tokens pos => ?_⟩
    obtain ⟨nodes, rest, furthest, loops, found⟩ :=
      exists_loops_many fun later _ _ => (steady.within tokens later).loosen
    obtain ⟨reached, missed⟩ := loops.missed_of_advances steady.advances
    exact ⟨nodes, rest, furthest, reached, loops, missed, found, many1_of_many found⟩

/-- The tokens of a block with two statements. -/
def blockTokens : Array Token :=
  #[⟨.symbol, utf8 "\x7b", 1⟩, ⟨.keyword, utf8 "return", 1⟩, ⟨.symbol, utf8 ";", 1⟩,
    ⟨.keyword, utf8 "return", 2⟩, ⟨.symbol, utf8 ";", 2⟩, ⟨.symbol, utf8 "\x7d", 3⟩]

/-- Behind the two statements of the block, no third one is found. -/
theorem block_statements_advance :
    (block ⟨blockTokens, 0⟩).rest 0 = 6 ∧
      ∃ nodes furthest reached, Loops statement blockTokens 1 nodes 5 furthest ∧
        statement ⟨blockTokens, 5⟩ = .missed reached ∧
        many1 statement ⟨blockTokens, 1⟩ = .matched nodes 5 furthest := by
  have member : ⟨_, statement⟩ ∈ repeated :=
    List.mem_of_getElem? (show repeated[4]? = _ from rfl)
  obtain ⟨nodes, rest, furthest, reached, loops, missed, _, found⟩ :=
    (grammar_always_advances.2.1 _ member).2 blockTokens 1
  dsimp only at loops missed found
  have ends : (many1 statement ⟨blockTokens, 1⟩).rest 0 = 5 := by decide +kernel
  by_cases empty : nodes = []
  · rw [found, if_pos empty] at ends
    exact nomatch ends
  · rw [if_neg empty] at found
    rw [found] at ends
    obtain rfl : rest = 5 := ends
    exact ⟨by decide +kernel, nodes, furthest, reached, loops, missed, found⟩

end Production

end Jack
