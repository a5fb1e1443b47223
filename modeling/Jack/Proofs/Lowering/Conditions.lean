import Jack.Proofs.Lowering.StatementMeaning

/-!
Contract: which values of a condition lead into the block of an `if` and of a `while`.

Owns: which of two points a run comes to first, where the block of a statement begins and where
the code goes on without it, and the exact test of each of the two statements.

Does not own: what blocks do.

A conditional jumps to its block on any value but 0. A loop complements the value and jumps to
its end on any value but 0, so that only the value with all bits set leads into its body.
-/

set_option autoImplicit false

namespace Jack.Lowering

open Machine (Instruction Oracle Point State Store Word labelNames performAll performAll_cons
  step? truth)

/-! ## The first of two points -/

section First

variable {oracle : Oracle} {block here other : List Instruction} {start next : Point}

/-- A step from a point that is not `other`. -/
def StepsOutside (oracle : Oracle) (block other : List Instruction) (point next : Point) : Prop :=
  point.rest ≠ other ∧ step? oracle block point = some next

/-- The run comes to `here`, and not to `other` before. -/
def ComesFirst (oracle : Oracle) (block : List Instruction) (start : Point)
    (here other : List Instruction) : Prop :=
  ∃ state, Relation.ReflTransGen (StepsOutside oracle block other) start ⟨here, state⟩

theorem comesFirst_here (state : State) : ComesFirst oracle block ⟨here, state⟩ here other :=
  ⟨state, .refl⟩

theorem ComesFirst.head (apart : start.rest ≠ other) (step : step? oracle block start = some next)
    (behind : ComesFirst oracle block next here other) :
    ComesFirst oracle block start here other := by
  obtain ⟨state, run⟩ := behind
  exact ⟨state, .head ⟨apart, step⟩ run⟩

/-- Straight code passes only points with more code left than behind it. -/
theorem ComesFirst.behind_straight {code rest : List Instruction} {state final : State}
    (performed : performAll oracle state code = some final) (short : other.length ≤ rest.length)
    (behind : ComesFirst oracle block ⟨rest, final⟩ here other) :
    ComesFirst oracle block ⟨code ++ rest, state⟩ here other := by
  induction code generalizing state with
  | nil =>
      obtain rfl : state = final := Option.some.inj performed
      exact behind
  | cons instruction others inductionHypothesis =>
      rw [performAll_cons] at performed
      obtain ⟨middle, first, remaining⟩ := Option.bind_eq_some_iff.mp performed
      exact .head (ne_of_apply_ne List.length (by simp; omega)) (Machine.step?_of_perform _ first)
        (inductionHypothesis remaining)

/-- A run goes one way only, so just one of two points comes first. -/
theorem ComesFirst.asymm (apart : here ≠ other) (first : ComesFirst oracle block start here other) :
    ¬ ComesFirst oracle block start other here := by
  rintro ⟨otherState, otherRun⟩
  obtain ⟨state, run⟩ := first
  induction run using Relation.ReflTransGen.head_induction_on with
  | refl =>
      rcases otherRun.cases_head with same | ⟨_, ⟨left, -⟩, -⟩
      · exact apart (congrArg Point.rest same)
      · exact left rfl
  | head step _ inductionHypothesis =>
      obtain ⟨left, toNext⟩ := step
      rcases otherRun.cases_head with rfl | ⟨_, ⟨-, toOther⟩, rest⟩
      · exact left rfl
      · rw [toNext, Option.some.injEq] at toOther
        exact inductionHypothesis (toOther ▸ rest)

end First

/-! ## The two ways of a test -/

/-- In code with `rest` behind it, the block of the statement begins at `inside`, and without the
block the code goes on at `outside`. -/
inductive Ways (setting : Setting) (rest : List Instruction) :
    Statement → List Instruction → List Instruction → List Instruction → Prop where
  | ifElse {condition : Expression} {whenTrue : List Statement}
      {otherwise : Option (List Statement)} {line : Int} {label number middle next : Nat}
      {conditionCode otherwiseCode whenTrueCode : List Instruction}
      (test : Emits (expression condition) setting label conditionCode number ())
      (alternative : Emits (alternative otherwise) setting (number + 2) otherwiseCode middle ())
      (block : Emits (statements whenTrue) setting middle whenTrueCode next ()) :
      Ways setting rest (.ifElse condition whenTrue otherwise line)
        (conditionCode ++ .ifGoto (numbered "IF_TRUE" number) ::
          (otherwiseCode ++ .goto (numbered "IF_END" (number + 1)) ::
            .label (numbered "IF_TRUE" number) ::
            (whenTrueCode ++ [.label (numbered "IF_END" (number + 1))])))
        (whenTrueCode ++ .label (numbered "IF_END" (number + 1)) :: rest)
        (otherwiseCode ++ .goto (numbered "IF_END" (number + 1)) ::
          .label (numbered "IF_TRUE" number) ::
          (whenTrueCode ++ .label (numbered "IF_END" (number + 1)) :: rest))
  | whileDo {condition : Expression} {body : List Statement} {line : Int}
      {label middle next : Nat} {conditionCode bodyCode : List Instruction}
      (test : Emits (expression condition) setting (label + 2) conditionCode middle ())
      (block : Emits (statements body) setting middle bodyCode next ()) :
      Ways setting rest (.whileDo condition body line)
        (.label (numbered "WHILE_EXP" label) ::
          (conditionCode ++ .arithmetic .not ::
            .ifGoto (numbered "WHILE_END" (label + 1)) ::
            (bodyCode ++ [.goto (numbered "WHILE_EXP" label),
              .label (numbered "WHILE_END" (label + 1))])))
        (bodyCode ++ .goto (numbered "WHILE_EXP" label) ::
          .label (numbered "WHILE_END" (label + 1)) :: rest)
        (.label (numbered "WHILE_END" (label + 1)) :: rest)

/-- The code of the statement enters the block: the run comes to it before it comes to where the
code goes on without it. -/
def Enters (oracle : Oracle) (setting : Setting) (block rest : List Instruction)
    (tree : Statement) (code : List Instruction) (start : State) : Prop :=
  ∃ inside outside, Ways setting rest tree code inside outside ∧
    ComesFirst oracle block ⟨code ++ rest, start⟩ inside outside

section Tests

variable {oracle : Oracle} {setting : Setting} {block code rest inside outside : List Instruction}
  {condition : Expression} {whenTrue body : List Statement}
  {otherwise : Option (List Statement)} {line : Int} {label next : Nat} {start : State}
  {value : Word} {after : Store} {tree : Statement}

/-- The inside of a loop or a branch never starts where it ends. -/
theorem Ways.apart (ways : Ways setting rest tree code inside outside) : inside ≠ outside := by
  apply ne_of_apply_ne List.length
  cases ways with
  | ifElse =>
      simp only [List.length_append, List.length_cons]
      omega
  | whileDo =>
      simp only [List.length_append, List.length_cons]
      omega

/-- A test that always decides which way comes first is the condition for entering. -/
theorem enters_iff {Test : Prop} (ways : Ways setting rest tree code inside outside)
    (taken : ∀ {inside outside}, Ways setting rest tree code inside outside → Test →
      ComesFirst oracle block ⟨code ++ rest, start⟩ inside outside)
    (passed : ∀ {inside outside}, Ways setting rest tree code inside outside → ¬ Test →
      ComesFirst oracle block ⟨code ++ rest, start⟩ outside inside) :
    Enters oracle setting block rest tree code start ↔ Test := by
  constructor
  · rintro ⟨entered, avoided, parts, first⟩
    by_contra fails
    exact first.asymm parts.apart (passed parts fails)
  · intro holds
    exact ⟨inside, outside, ways, taken ways holds⟩

/-- Entering a choice is reaching its first block; the way past it leads to the else. -/
theorem ways_ifElse
    (emitted : Emits (statement (.ifElse condition whenTrue otherwise line)) setting label code
      next ()) (rest : List Instruction) :
    ∃ inside outside,
      Ways setting rest (.ifElse condition whenTrue otherwise line) code inside outside := by
  obtain ⟨_, _, _, _, _, test, alternative, block, rfl⟩ := emits_ifElse_iff.mp emitted
  exact ⟨_, _, .ifElse test alternative block⟩

/-- Entering a loop is reaching its body; the way past it leads behind the loop. -/
theorem ways_whileDo
    (emitted : Emits (statement (.whileDo condition body line)) setting label code next ())
    (rest : List Instruction) :
    ∃ inside outside, Ways setting rest (.whileDo condition body line) code inside outside := by
  obtain ⟨_, _, _, test, block, rfl⟩ := emits_whileDo_iff.mp emitted
  exact ⟨_, _, .whileDo test block⟩

/-- A conditional enters its block exactly if its condition is not 0. -/
theorem enters_ifElse_iff
    (emitted : Emits (statement (.ifElse condition whenTrue otherwise line)) setting label code
      next ()) (placed : Placed block code rest)
    (evaluated : Meaning.expression oracle setting condition start.store = some (value, after)) :
    Enters oracle setting block rest (.ifElse condition whenTrue otherwise line) code start ↔
      value ≠ 0 := by
  obtain ⟨inside, outside, ways⟩ := ways_ifElse emitted rest
  refine enters_iff ways (fun parts nonzero => ?_) fun parts zero => ?_
  · cases parts with
    | @ifElse _ _ _ _ _ number _ _ conditionCode otherwiseCode whenTrueCode test =>
        have toBlock := placed (conditionCode ++ .ifGoto (numbered "IF_TRUE" number) ::
          (otherwiseCode ++ [.goto (numbered "IF_END" (number + 1))])) (numbered "IF_TRUE" number) 0
          (whenTrueCode ++ [.label (numbered "IF_END" (number + 1))]) (by simp)
        obtain ⟨element, temps, performed⟩ :=
          transforms_of_expression test evaluated start.stack start.element start.temps
        rw [List.append_assoc] at toBlock ⊢
        refine .behind_straight performed (by simp) ?_
        refine .head (by simp) (Machine.step?_ifGoto_taken _ toBlock nonzero) ?_
        exact .head (ne_of_apply_ne List.length (by simp; omega)) (Machine.step?_of_perform _ rfl)
          (comesFirst_here _)
  · obtain rfl : value = 0 := not_not.mp zero
    cases parts with
    | @ifElse _ _ _ _ _ number _ _ conditionCode otherwiseCode whenTrueCode test =>
        obtain ⟨element, temps, performed⟩ :=
          transforms_of_expression test evaluated start.stack start.element start.temps
        rw [List.append_assoc, List.cons_append, List.append_assoc, List.cons_append,
          List.cons_append, List.append_assoc]
        refine .behind_straight performed (by simp; omega) ?_
        exact .head (ne_of_apply_ne List.length (by simp; omega)) (Machine.step?_ifGoto_passed _)
          (comesFirst_here _)

/-- The code up to the jump of a loop leaves the complement of the condition. -/
theorem performAll_whileTest (name : Bytes) {number : Nat}
    (test : Emits (expression condition) setting label code number ())
    (evaluated : Meaning.expression oracle setting condition start.store = some (value, after)) :
    ∃ element temps, performAll oracle start (.label name :: (code ++ [.arithmetic .not])) =
      some ⟨~~~value :: start.stack, after, element, temps⟩ := by
  have complements : Transforms oracle [.arithmetic .not] [value] after [~~~value] after :=
    transforms_arithmetic after fun _ => rfl
  have transforms := (transforms_label oracle name 0 start.store).append
    ((transforms_of_expression test evaluated).append complements)
  exact transforms start.stack start.element start.temps

/-- A loop tests the complement, which is zero for one value only. -/
theorem complement_eq_zero_iff {value : Word} : ~~~value = 0 ↔ value = truth true := by
  constructor
  · intro zero
    rw [← BitVec.not_not (b := value), zero]
    rfl
  · rintro rfl
    rfl

/-- A loop enters its body exactly if all bits of its condition are set. -/
theorem enters_whileDo_iff
    (emitted : Emits (statement (.whileDo condition body line)) setting label code next ())
    (placed : Placed block code rest)
    (evaluated : Meaning.expression oracle setting condition start.store = some (value, after)) :
    Enters oracle setting block rest (.whileDo condition body line) code start ↔
      value = truth true := by
  rw [← complement_eq_zero_iff]
  obtain ⟨inside, outside, ways⟩ := ways_whileDo emitted rest
  refine enters_iff ways (fun parts zero => ?_) fun parts nonzero => ?_
  · cases parts with
    | @whileDo _ _ _ number _ _ conditionCode bodyCode test =>
        obtain ⟨element, temps, performed⟩ :=
          performAll_whileTest (numbered "WHILE_EXP" number) test evaluated
        rw [zero] at performed
        rw [List.append_cons conditionCode, ← List.cons_append, List.append_assoc]
        refine .behind_straight performed (by simp; omega) ?_
        rw [List.cons_append, List.append_assoc]
        exact .head (ne_of_apply_ne List.length (by simp; omega)) (Machine.step?_ifGoto_passed _)
          (comesFirst_here _)
  · cases parts with
    | @whileDo _ _ _ number _ _ conditionCode bodyCode test =>
        have toEnd := placed (.label (numbered "WHILE_EXP" number) :: (conditionCode ++
          .arithmetic .not :: .ifGoto (numbered "WHILE_END" (number + 1)) ::
            (bodyCode ++ [.goto (numbered "WHILE_EXP" number)])))
          (numbered "WHILE_END" (number + 1)) 0 [] (by simp)
        obtain ⟨element, temps, performed⟩ :=
          performAll_whileTest (numbered "WHILE_EXP" number) test evaluated
        rw [List.append_cons conditionCode, ← List.cons_append, List.append_assoc]
        refine .behind_straight performed (by simp) ?_
        exact .head (by simp) (Machine.step?_ifGoto_taken _ toEnd nonzero) (comesFirst_here _)

end Tests

/-! ## Agreement -/

/-- The two tests agree on the two truth values and on no other value. -/
theorem nonzero_iff_true_iff {value : Word} :
    (value ≠ 0 ↔ value = truth true) ↔ value = truth true ∨ value = truth false := by
  constructor
  · intro agree
    by_cases zero : value = 0
    · exact .inr zero
    · exact .inl (agree.mp zero)
  · rintro (rfl | rfl)
    · decide
    · decide

/-- With the same condition, a conditional enters its block if the value is not 0, and a loop
enters its body if all bits are set. They agree exactly on the two truth values. -/
theorem tests_agree_iff_truth_value (oracle : Oracle) {setting : Setting}
    {condition : Expression} {whenTrue body : List Statement}
    {otherwise : Option (List Statement)} {line whileLine : Int}
    {label next whileLabel whileNext : Nat}
    {ifCode whileCode before whileBefore : List Instruction}
    (ifEmitted : Emits (statement (.ifElse condition whenTrue otherwise line)) setting label
      ifCode next ())
    (whileEmitted : Emits (statement (.whileDo condition body whileLine)) setting whileLabel
      whileCode whileNext ())
    (ifFresh : ∀ name ∈ labelNames ifCode, name ∉ labelNames before)
    (whileFresh : ∀ name ∈ labelNames whileCode, name ∉ labelNames whileBefore)
    (rest whileRest : List Instruction) (start : State) :
    ∃ value after, Meaning.expression oracle setting condition start.store = some (value, after) ∧
      (Enters oracle setting (before ++ (ifCode ++ rest)) rest
        (.ifElse condition whenTrue otherwise line) ifCode start ↔ value ≠ 0) ∧
      (Enters oracle setting (whileBefore ++ (whileCode ++ whileRest)) whileRest
        (.whileDo condition body whileLine) whileCode start ↔ value = truth true) ∧
      ((Enters oracle setting (before ++ (ifCode ++ rest)) rest
          (.ifElse condition whenTrue otherwise line) ifCode start ↔
        Enters oracle setting (whileBefore ++ (whileCode ++ whileRest)) whileRest
          (.whileDo condition body whileLine) whileCode start) ↔
        value = truth true ∨ value = truth false) := by
  obtain ⟨_, _, _, _, _, test, -⟩ := emits_ifElse_iff.mp ifEmitted
  obtain ⟨value, after, evaluated, -⟩ := expression_computes oracle condition test start.store
  have ifEnters := enters_ifElse_iff ifEmitted
    ((labelsWithin_of_emits_statement _ ifEmitted).placed ifFresh rest) evaluated
  have whileEnters := enters_whileDo_iff whileEmitted
    ((labelsWithin_of_emits_statement _ whileEmitted).placed whileFresh whileRest) evaluated
  refine ⟨value, after, evaluated, ifEnters, whileEnters, ?_⟩
  rw [ifEnters, whileEnters, nonzero_iff_true_iff]

/-- The value of `count + count` is 2, which is neither truth value. -/
def doubled : Expression :=
  .mk (.name (utf8 "count") 1) [(⟨utf8 "+", 1⟩, .name (utf8 "count") 1)]

/-- The theorem at a value that is neither true nor false. -/
theorem doubled_tests_disagree :
    Enters silent markingSetting ([.label (utf8 "START")] ++
        ((statement (.ifElse doubled [] none 1) markingSetting 0).code ++ [.ret])) [.ret]
      (.ifElse doubled [] none 1) (statement (.ifElse doubled [] none 1) markingSetting 0).code
      ⟨[], markingStore, 0, fun _ => 0⟩ ∧
    ¬ Enters silent markingSetting ([] ++
        ((statement (.whileDo doubled [] 1) markingSetting 0).code ++ [])) []
      (.whileDo doubled [] 1) (statement (.whileDo doubled [] 1) markingSetting 0).code
      ⟨[], markingStore, 0, fun _ => 0⟩ := by
  have ifEmitted : Emits (statement (.ifElse doubled [] none 1)) markingSetting 0
      (statement (.ifElse doubled [] none 1) markingSetting 0).code 2 () := rfl
  have whileEmitted : Emits (statement (.whileDo doubled [] 1)) markingSetting 0
      (statement (.whileDo doubled [] 1) markingSetting 0).code 2 () := rfl
  have evaluated : Meaning.expression silent markingSetting doubled markingStore =
      some (2, markingStore) := rfl
  have ifFresh : ∀ name ∈ labelNames (statement (.ifElse doubled [] none 1) markingSetting 0).code,
      name ∉ labelNames [.label (utf8 "START")] := by
    decide
  have whileFresh : ∀ name ∈ labelNames (statement (.whileDo doubled [] 1) markingSetting 0).code,
      name ∉ labelNames [] := by
    decide
  obtain ⟨value, after, computed, ifEnters, whileEnters, -⟩ :=
    tests_agree_iff_truth_value silent ifEmitted whileEmitted ifFresh whileFresh [.ret] []
      ⟨[], markingStore, 0, fun _ => 0⟩
  obtain ⟨rfl, rfl⟩ := Prod.mk.inj (Option.some.inj (evaluated.symm.trans computed))
  exact ⟨ifEnters.mpr (by decide), fun enters => absurd (whileEnters.mp enters) (by decide)⟩

/-- A return under the condition `1`. -/
def oneIf : Statement :=
  .ifElse (.mk (.integer 1 1) []) [.giveBack none 1] none 1

/-- The same in a loop. -/
def oneWhile : Statement :=
  .whileDo (.mk (.integer 1 1) []) [.giveBack none 1] 1

/-- A function without variables. -/
def bareSetting : Setting where
  className := utf8 "A"
  bindings := {}
  hasReceiver := false

/-- On the value 1, the conditional enters its block and the loop does not enter its body. -/
theorem one_enters_if_only :
    Enters silent bareSetting (statement oneIf bareSetting 0).code [] oneIf
      (statement oneIf bareSetting 0).code ⟨[], markingStore, 0, fun _ => 0⟩ ∧
    ¬ Enters silent bareSetting (statement oneWhile bareSetting 0).code [] oneWhile
      (statement oneWhile bareSetting 0).code ⟨[], markingStore, 0, fun _ => 0⟩ := by
  have evaluated : Meaning.expression silent bareSetting (.mk (.integer 1 1) []) markingStore =
      some (1, markingStore) := rfl
  have ifEmitted : Emits (statement oneIf) bareSetting 0 (statement oneIf bareSetting 0).code 2
      () := rfl
  have whileEmitted : Emits (statement oneWhile) bareSetting 0
      (statement oneWhile bareSetting 0).code 2 () := rfl
  have ifPlaced : Placed ([] ++ ((statement oneIf bareSetting 0).code ++ []))
      (statement oneIf bareSetting 0).code [] :=
    (labelsWithin_of_emits_statement _ ifEmitted).placed (by decide) []
  have whilePlaced : Placed ([] ++ ((statement oneWhile bareSetting 0).code ++ []))
      (statement oneWhile bareSetting 0).code [] :=
    (labelsWithin_of_emits_statement _ whileEmitted).placed (by decide) []
  refine ⟨(enters_ifElse_iff ifEmitted ifPlaced evaluated).mpr (by decide), fun enters => ?_⟩
  exact absurd ((enters_whileDo_iff whileEmitted whilePlaced evaluated).mp enters) (by decide)

end Jack.Lowering
