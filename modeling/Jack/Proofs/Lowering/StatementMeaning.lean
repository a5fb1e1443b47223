import Jack.Proofs.Lowering.ExpressionMeaning
import Jack.Proofs.Lowering.Labels

/-!
Contract: the code of statements does what the statements mean.

Owns: where the labels of code stand in the block around it, and the simulation of an
evaluation of statements by a run of their code.

Does not own: expressions, whose code is straight.

The simulation follows the evaluation, not the tree: a loop goes back to its own label
once per round, and what is left to run there is its whole code again.
-/

set_option autoImplicit false

namespace Jack.Lowering

open Machine (Instruction Oracle Point Reaches Slots State Store Word fromLabel?
  fromLabel?_append labelNames perform performAll truth)
open Meaning (Ending Executes ExecutesAll)

/-! ## Where labels stand -/

/-- `code` stands in `block` with `rest` behind it: a jump to one of its labels goes on
from that label, to the end of `code` and on to `rest`. -/
def Placed (block code rest : List Instruction) : Prop :=
  ∀ front name count back, code = front ++ .label name count :: back →
    fromLabel? name block = some (.label name count :: (back ++ rest))

/-- A part of the code has the remaining code behind it. -/
theorem Placed.part {block whole code back rest : List Instruction}
    (placed : Placed block whole rest) (front : List Instruction)
    (same : whole = front ++ (code ++ back)) : Placed block code (back ++ rest) := by
  intro before name count behind sameCode
  have split : whole = (front ++ before) ++ .label name count :: (behind ++ back) := by
    rw [same, sameCode]
    simp
  rw [placed _ _ _ _ split, List.append_assoc]

/-- Fresh labels are found by a search through the block, since none stands in front of them. -/
theorem LabelsWithin.placed {before code : List Instruction} {first last : Nat}
    (within : LabelsWithin code first last)
    (fresh : ∀ name ∈ labelNames code, name ∉ labelNames before)
    (after : List Instruction) : Placed (before ++ (code ++ after)) code after := by
  intro front name count back same
  have names : labelNames code = labelNames front ++ name :: labelNames back := by
    rw [same, labelNames, List.filterMap_append]
    rfl
  have notBefore : name ∉ labelNames before := fresh name (by simp [names])
  have notInFront : name ∉ labelNames front := by
    have distinct : (labelNames code).Nodup := within.distinct.of_map
    rw [names, List.nodup_append] at distinct
    intro member
    exact distinct.2.2 name member name (by simp) rfl
  have absent : name ∉ labelNames (before ++ front) := by
    rw [labelNames, List.filterMap_append, List.mem_append, not_or]
    exact ⟨notBefore, notInFront⟩
  have whole : before ++ (code ++ after) =
      (before ++ front) ++ .label name count :: (back ++ after) := by
    rw [same]
    simp
  rw [whole]
  exact fromLabel?_append _ absent

/-! ## Runs that end -/

section Runs

variable {oracle : Oracle} {block : List Instruction}

/-- A run from `start` ends as statements do: it comes to `rest` with the stack `below`,
or to a return with the value on top of it. -/
def RunsTo (oracle : Oracle) (block : List Instruction) (start : Point)
    (rest : List Instruction) (below : List Word) : Ending → Store → Prop
  | .finished, final =>
      ∃ element temps, Reaches oracle block start ⟨rest, ⟨below, final, element, temps⟩⟩
  | .returned value, final =>
      ∃ remaining element temps, Reaches oracle block start
        ⟨.ret :: remaining, ⟨value :: below, final, element, temps⟩⟩

variable {start middle : Point} {rest behind : List Instruction} {below : List Word}
  {ending : Ending} {store final : Store}

theorem RunsTo.of_reaches (front : Reaches oracle block start middle)
    (runs : RunsTo oracle block middle rest below ending final) :
    RunsTo oracle block start rest below ending final := by
  cases ending with
  | finished =>
      obtain ⟨element, temps, reached⟩ := runs
      exact ⟨element, temps, front.trans reached⟩
  | returned value =>
      obtain ⟨remaining, element, temps, reached⟩ := runs
      exact ⟨remaining, element, temps, front.trans reached⟩

/-- A run that has not returned goes on. -/
theorem RunsTo.go_on (runs : RunsTo oracle block start rest below ending final)
    (further : ∀ state, Reaches oracle block ⟨rest, state⟩ ⟨behind, state⟩) :
    RunsTo oracle block start behind below ending final := by
  cases ending with
  | finished =>
      obtain ⟨element, temps, reached⟩ := runs
      exact ⟨element, temps, reached.trans (further _)⟩
  | returned value => exact runs

/-- Straight code is run to its end first. -/
theorem Transforms.andThen {code : List Instruction} {taken given stack : List Word}
    {after : Store} {element : Word} {temps : Slots}
    (transformed : Transforms oracle code taken store given after)
    (further : ∀ element temps,
      RunsTo oracle block ⟨behind, ⟨given ++ stack, after, element, temps⟩⟩ rest below ending
        final) :
    RunsTo oracle block ⟨code ++ behind, ⟨taken ++ stack, store, element, temps⟩⟩ rest below
      ending final := by
  obtain ⟨lastElement, lastTemps, performed⟩ := transformed stack element temps
  exact .of_reaches (.of_performAll behind performed) (further lastElement lastTemps)

/-- Straight code that leaves nothing on the stack ends as a statement does. -/
theorem Transforms.runsTo {code : List Instruction} {after : Store}
    (transformed : Transforms oracle code [] store [] after) (block rest : List Instruction)
    (below : List Word) (element : Word) (temps : Slots) :
    RunsTo oracle block ⟨code ++ rest, ⟨below, store, element, temps⟩⟩ rest below .finished
      after :=
  transformed.andThen fun lastElement lastTemps => ⟨lastElement, lastTemps, .refl _⟩

end Runs

/-! ## The parts of statements -/

section Parts

variable {oracle : Oracle} {setting : Setting} {label next : Nat} {code : List Instruction}
  {store after : Store} {value : Word}

/-- Meaning is a function, so the value of an expression is the one that its code pushes. -/
theorem transforms_of_expression {tree : Expression}
    (emitted : Emits (expression tree) setting label code next ())
    (evaluated : Meaning.expression oracle setting tree store = some (value, after)) :
    Transforms oracle code [] store [value] after := by
  obtain ⟨result, last, computed, transformed⟩ := expression_computes oracle tree emitted store
  rw [evaluated, Option.some.injEq, Prod.mk.injEq] at computed
  obtain ⟨rfl, rfl⟩ := computed
  exact transformed

theorem transforms_of_call {tree : Call}
    (emitted : Emits (call tree) setting label code next ())
    (evaluated : Meaning.call oracle setting tree store = some (value, after)) :
    Transforms oracle code [] store [value] after := by
  obtain ⟨result, last, computed, transformed⟩ := call_computes oracle tree emitted store
  rw [evaluated, Option.some.injEq, Prod.mk.injEq] at computed
  obtain ⟨rfl, rfl⟩ := computed
  exact transformed

theorem transforms_pop_binding (oracle : Oracle) (binding : Binding) (value : Word)
    (store : Store) :
    Transforms oracle [.pop binding.storage.segment binding.index] [value] store []
      (Meaning.write store binding value) := by
  intro below element temps
  refine ⟨element, temps, ?_⟩
  rw [Machine.performAll_cons, perform]
  dsimp only [List.singleton_append]
  rw [save?_binding]
  rfl

/-- The value on top is stored at the address below it. -/
theorem transforms_storeCode (oracle : Oracle) (value address : Word) (store : Store) :
    Transforms oracle storeCode [value, address] store []
      { store with heap := Function.update store.heap address value } := by
  intro below element temps
  refine ⟨address, Function.update temps 0 value, ?_⟩
  simp [storeCode, performAll, perform, State.save?, State.load?]

theorem transforms_pop_temp (oracle : Oracle) (value : Word) (store : Store) :
    Transforms oracle [.pop .temp 0] [value] store [] store :=
  fun _ element temps => ⟨element, Function.update temps 0 value, rfl⟩

theorem transforms_label (oracle : Oracle) (name : Bytes) (count : Int) (store : Store) :
    Transforms oracle [.label name count] [] store [] store :=
  fun _ element temps => ⟨element, temps, rfl⟩

/-- The complement of a truth value is the opposite one. -/
theorem transforms_not_truth (oracle : Oracle) (holds : Bool) (store : Store) :
    Transforms oracle [.arithmetic .not] [truth holds] store [truth (!holds)] store := by
  refine transforms_arithmetic store fun below => ?_
  cases holds <;> rfl

end Parts

/-! ## Simulation -/

/-- The code of `step`, wherever it stands, leads from `store` to this end. -/
def Simulates (oracle : Oracle) (setting : Setting) (step : Emit Unit) (store : Store)
    (ending : Ending) (final : Store) : Prop :=
  ∀ {label next : Nat} {code block rest : List Instruction},
    Emits step setting label code next () → Placed block code rest →
    ∀ below element temps,
      RunsTo oracle block ⟨code ++ rest, ⟨below, store, element, temps⟩⟩ rest below ending
        final

section Simulation

variable {oracle : Oracle} {setting : Setting} {store middle after final : Store}
  {ending : Ending} {line : Int}

theorem simulates_letName {name : Bytes} {value : Expression} {targetLine : Int}
    {binding : Binding} {result : Word}
    (bound : setting.bindings.resolve? name = some binding)
    (evaluated : Meaning.expression oracle setting value store = some (result, after)) :
    Simulates oracle setting (statement (.letTo (.name name targetLine) value line)) store
      .finished (Meaning.write after binding result) := by
  intro label next code block rest emitted _ below element temps
  obtain ⟨other, valueCode, found, valueEmits, rfl⟩ := emits_letName_iff.mp emitted
  obtain rfl : binding = other := Option.some.inj (bound.symm.trans found)
  have transformed := (transforms_of_expression valueEmits evaluated).append
    (transforms_pop_binding oracle binding result after)
  exact transformed.runsTo block rest below element temps

/-- The address is computed before the value, so a call in the value can not change where it
goes. -/
theorem simulates_letElement {array : Bytes} {index value : Expression} {targetLine : Int}
    {binding : Binding} {offset result : Word}
    (bound : setting.bindings.resolve? array = some binding)
    (indexed : Meaning.expression oracle setting index store = some (offset, middle))
    (evaluated : Meaning.expression oracle setting value middle = some (result, after)) :
    Simulates oracle setting
      (statement (.letTo (.element array index targetLine) value line)) store .finished
      { after with
        heap := Function.update after.heap (Meaning.read middle binding + offset) result } := by
  intro label next code block rest emitted _ below element temps
  obtain ⟨other, indexCode, number, valueCode, found, indexEmits, valueEmits, rfl⟩ :=
    emits_letElement_iff.mp emitted
  obtain rfl : binding = other := Option.some.inj (bound.symm.trans found)
  have addressed := (transforms_of_expression indexEmits indexed).append
    (transforms_address binding offset middle)
  -- The address waits below the value.
  have stored := ((transforms_of_expression valueEmits evaluated).above
    [Meaning.read middle binding + offset]).append (transforms_storeCode oracle _ _ after)
  have transformed := addressed.append stored
  rw [List.append_assoc] at transformed
  exact transformed.runsTo block rest below element temps

/-- If the condition holds, the jump skips the else and the block behind it is run. -/
theorem simulates_ifTrue {condition : Expression} {whenTrue : List Statement}
    {otherwise : Option (List Statement)}
    (tested : Meaning.expression oracle setting condition store = some (truth true, middle))
    (branch : Simulates oracle setting (statements whenTrue) middle ending final) :
    Simulates oracle setting (statement (.ifElse condition whenTrue otherwise line)) store
      ending final := by
  intro label next code block rest emitted placed below element temps
  obtain ⟨conditionCode, number, otherwiseCode, inside, whenTrueCode, conditionEmits,
    otherwiseEmits, whenTrueEmits, rfl⟩ := emits_ifElse_iff.mp emitted
  have toBranch := placed (conditionCode ++ .ifGoto (numbered "IF_TRUE" number) ::
    (otherwiseCode ++ [.goto (numbered "IF_END" (number + 1))])) (numbered "IF_TRUE" number) 0
    (whenTrueCode ++ [.label (numbered "IF_END" (number + 1))]) (by simp)
  have branchPlaced : Placed block whenTrueCode
      ([.label (numbered "IF_END" (number + 1))] ++ rest) :=
    placed.part (conditionCode ++ .ifGoto (numbered "IF_TRUE" number) ::
      (otherwiseCode ++ [.goto (numbered "IF_END" (number + 1)),
        .label (numbered "IF_TRUE" number)])) (by simp)
  rw [List.append_assoc]
  refine (transforms_of_expression conditionEmits tested).andThen fun element temps => ?_
  refine .of_reaches (.ifGoto_taken _ toBranch (by decide)) (.of_reaches (.label _) ?_)
  rw [List.append_assoc]
  exact (branch whenTrueEmits branchPlaced below element temps).go_on fun _ => .label rest

/-- If the condition is false, the else is run, and the jump behind it leads to the end. -/
theorem simulates_ifFalse {condition : Expression} {whenTrue : List Statement}
    {otherwise : Option (List Statement)}
    (tested : Meaning.expression oracle setting condition store = some (truth false, middle))
    (branch : Simulates oracle setting (statements (otherwise.getD [])) middle ending final) :
    Simulates oracle setting (statement (.ifElse condition whenTrue otherwise line)) store
      ending final := by
  intro label next code block rest emitted placed below element temps
  obtain ⟨conditionCode, number, otherwiseCode, inside, whenTrueCode, conditionEmits,
    otherwiseEmits, whenTrueEmits, rfl⟩ := emits_ifElse_iff.mp emitted
  rw [emits_alternative_iff] at otherwiseEmits
  have toEnd := placed (conditionCode ++ .ifGoto (numbered "IF_TRUE" number) ::
    (otherwiseCode ++ .goto (numbered "IF_END" (number + 1)) ::
      .label (numbered "IF_TRUE" number) :: whenTrueCode))
    (numbered "IF_END" (number + 1)) 0 [] (by simp)
  have branchPlaced : Placed block otherwiseCode
      (.goto (numbered "IF_END" (number + 1)) :: .label (numbered "IF_TRUE" number) ::
        (whenTrueCode ++ [.label (numbered "IF_END" (number + 1))]) ++ rest) :=
    placed.part (conditionCode ++ [.ifGoto (numbered "IF_TRUE" number)]) (by simp)
  rw [List.append_assoc, List.cons_append, List.append_assoc]
  refine (transforms_of_expression conditionEmits tested).andThen fun element temps => ?_
  refine .of_reaches (.ifGoto_passed _) ?_
  exact (branch otherwiseEmits branchPlaced below element temps).go_on fun _ =>
    (Reaches.goto _ toEnd).trans (.label rest)

/-- A loop tests its condition first. The complement of the truth value then decides
whether its end is jumped to. -/
theorem runsTo_of_whileTest {condition : Expression} {label next : Nat}
    {code block behind rest : List Instruction} {below : List Word} {element : Word}
    {temps : Slots} {holds : Bool} {name : Bytes}
    (emitted : Emits (expression condition) setting label code next ())
    (tested : Meaning.expression oracle setting condition store = some (truth holds, middle))
    (further : ∀ element temps,
      RunsTo oracle block ⟨behind, ⟨truth (!holds) :: below, middle, element, temps⟩⟩ rest
        below ending final) :
    RunsTo oracle block
      ⟨.label name :: (code ++ .arithmetic .not :: behind), ⟨below, store, element, temps⟩⟩
      rest below ending final := by
  have test := (transforms_label oracle name 0 store).append
    ((transforms_of_expression emitted tested).append
      (transforms_not_truth oracle holds middle))
  have runs : RunsTo oracle block
      ⟨([.label name] ++ (code ++ [.arithmetic .not])) ++ behind,
        ⟨below, store, element, temps⟩⟩ rest below ending final :=
    test.andThen further
  simpa using runs

theorem simulates_whileFalse {condition : Expression} {body : List Statement}
    (tested : Meaning.expression oracle setting condition store = some (truth false, final)) :
    Simulates oracle setting (statement (.whileDo condition body line)) store .finished
      final := by
  intro label next code block rest emitted placed below element temps
  obtain ⟨conditionCode, inside, bodyCode, conditionEmits, bodyEmits, rfl⟩ :=
    emits_whileDo_iff.mp emitted
  have toEnd := placed (.label (numbered "WHILE_EXP" label) :: (conditionCode ++
    .arithmetic .not :: .ifGoto (numbered "WHILE_END" (label + 1)) ::
      (bodyCode ++ [.goto (numbered "WHILE_EXP" label)])))
    (numbered "WHILE_END" (label + 1)) 0 [] (by simp)
  rw [List.cons_append, List.append_assoc]
  refine runsTo_of_whileTest conditionEmits tested fun element temps => ?_
  exact ⟨element, temps, (Reaches.ifGoto_taken _ toEnd (by decide)).trans (.label rest)⟩

/-- A round of a loop runs its body, with the jump back behind it. -/
theorem runsTo_whileBody {condition : Expression} {body : List Statement} {label next : Nat}
    {code block rest : List Instruction}
    (emitted : Emits (statement (.whileDo condition body line)) setting label code next ())
    (placed : Placed block code rest)
    (tested : Meaning.expression oracle setting condition store = some (truth true, middle))
    (round : Simulates oracle setting (statements body) middle ending final)
    (below : List Word) (element : Word) (temps : Slots) :
    ∃ behind, RunsTo oracle block ⟨code ++ rest, ⟨below, store, element, temps⟩⟩ behind below
        ending final ∧
      ∀ state, Reaches oracle block ⟨behind, state⟩ ⟨code ++ rest, state⟩ := by
  obtain ⟨conditionCode, inside, bodyCode, conditionEmits, bodyEmits, rfl⟩ :=
    emits_whileDo_iff.mp emitted
  have toStart := placed [] (numbered "WHILE_EXP" label) 0 _ rfl
  have bodyPlaced : Placed block bodyCode
      ([.goto (numbered "WHILE_EXP" label), .label (numbered "WHILE_END" (label + 1))] ++
        rest) :=
    placed.part (.label (numbered "WHILE_EXP" label) :: (conditionCode ++
      [.arithmetic .not, .ifGoto (numbered "WHILE_END" (label + 1))])) (by simp)
  refine ⟨.goto (numbered "WHILE_EXP" label) :: .label (numbered "WHILE_END" (label + 1)) ::
    rest, ?_, fun state => .goto _ toStart⟩
  rw [List.cons_append, List.append_assoc, List.cons_append, List.cons_append,
    List.append_assoc]
  refine runsTo_of_whileTest conditionEmits tested fun element temps => ?_
  exact .of_reaches (.ifGoto_passed _) (round bodyEmits bodyPlaced below element temps)

/-- One more turn: the body, the jump back, and the loop again from its start. -/
theorem simulates_whileTrue {condition : Expression} {body : List Statement}
    (tested : Meaning.expression oracle setting condition store = some (truth true, middle))
    (round : Simulates oracle setting (statements body) middle .finished after)
    (again : Simulates oracle setting (statement (.whileDo condition body line)) after ending
      final) :
    Simulates oracle setting (statement (.whileDo condition body line)) store ending
      final := by
  intro label next code block rest emitted placed below element temps
  obtain ⟨behind, ⟨roundElement, roundTemps, reached⟩, back⟩ :=
    runsTo_whileBody emitted placed tested round below element temps
  exact .of_reaches (reached.trans (back _))
    (again emitted placed below roundElement roundTemps)

/-- A return in the body ends the loop and all around it. -/
theorem simulates_whileReturned {condition : Expression} {body : List Statement}
    {value : Word}
    (tested : Meaning.expression oracle setting condition store = some (truth true, middle))
    (round : Simulates oracle setting (statements body) middle (.returned value) final) :
    Simulates oracle setting (statement (.whileDo condition body line)) store
      (.returned value) final := by
  intro label next code block rest emitted placed below element temps
  obtain ⟨behind, returned, _⟩ :=
    runsTo_whileBody emitted placed tested round below element temps
  exact returned

theorem simulates_doCall {called : Call} {ignored : Word}
    (evaluated : Meaning.call oracle setting called store = some (ignored, final)) :
    Simulates oracle setting (statement (.doCall called line)) store .finished final := by
  intro label next code block rest emitted _ below element temps
  obtain ⟨callCode, callEmits, rfl⟩ := emits_doCall_iff.mp emitted
  have transformed := (transforms_of_call callEmits evaluated).append
    (transforms_pop_temp oracle ignored final)
  exact transformed.runsTo block rest below element temps

theorem simulates_giveBackNothing :
    Simulates oracle setting (statement (.giveBack none line)) store (.returned 0) store := by
  intro label next code block rest emitted _ below element temps
  obtain ⟨rfl, _⟩ := emits_giveBack_none_iff.mp emitted
  exact ⟨rest, element, temps, .of_perform (.ret :: rest) rfl⟩

theorem simulates_giveBack {value : Expression} {result : Word}
    (evaluated : Meaning.expression oracle setting value store = some (result, final)) :
    Simulates oracle setting (statement (.giveBack (some value) line)) store
      (.returned result) final := by
  intro label next code block rest emitted _ below element temps
  obtain ⟨valueCode, valueEmits, rfl⟩ := emits_giveBack_some_iff.mp emitted
  rw [List.append_assoc]
  exact (transforms_of_expression valueEmits evaluated).andThen
    fun element temps => ⟨rest, element, temps, .refl _⟩

theorem simulates_nil : Simulates oracle setting (statements []) store .finished store := by
  intro label next code block rest emitted _ below element temps
  obtain ⟨rfl, _⟩ := emits_statements_nil_iff.mp emitted
  exact ⟨element, temps, .refl _⟩

/-- Statements in sequence: the second starts where the first one finished. -/
theorem simulates_next {first : Statement} {others : List Statement}
    (head : Simulates oracle setting (statement first) store .finished middle)
    (tail : Simulates oracle setting (statements others) middle ending final) :
    Simulates oracle setting (statements (first :: others)) store ending final := by
  intro label next code block rest emitted placed below element temps
  obtain ⟨firstCode, inside, restCode, firstEmits, restEmits, rfl⟩ :=
    emits_statements_cons_iff.mp emitted
  rw [List.append_assoc]
  obtain ⟨middleElement, middleTemps, reached⟩ :=
    head firstEmits (placed.part [] rfl) below element temps
  have tailPlaced : Placed block restCode ([] ++ rest) := placed.part firstCode (by simp)
  exact .of_reaches reached (tail restEmits tailPlaced below middleElement middleTemps)

/-- Behind a statement that returned, no other is run. -/
theorem simulates_stop {first : Statement} {others : List Statement} {value : Word}
    (head : Simulates oracle setting (statement first) store (.returned value) final) :
    Simulates oracle setting (statements (first :: others)) store (.returned value)
      final := by
  intro label next code block rest emitted placed below element temps
  obtain ⟨firstCode, inside, restCode, firstEmits, restEmits, rfl⟩ :=
    emits_statements_cons_iff.mp emitted
  rw [List.append_assoc]
  exact head firstEmits (placed.part [] rfl) below element temps

mutual

/-- Simulation of every evaluation, by recursion on it and not on the tree, since a loop is
evaluated again after its body. -/
theorem simulates_of_executes {tree : Statement} {store final : Store} {ending : Ending} :
    Executes oracle setting tree store ending final →
      Simulates oracle setting (statement tree) store ending final
  | .letName bound evaluated => simulates_letName bound evaluated
  | .letElement bound indexed evaluated => simulates_letElement bound indexed evaluated
  | .ifTrue tested branch => simulates_ifTrue tested (simulates_of_executesAll branch)
  | .ifFalse tested branch => simulates_ifFalse tested (simulates_of_executesAll branch)
  | .whileFalse tested => simulates_whileFalse tested
  | .whileTrue tested once again =>
      simulates_whileTrue tested (simulates_of_executesAll once) (simulates_of_executes again)
  | .whileReturned tested once =>
      simulates_whileReturned tested (simulates_of_executesAll once)
  | .doCall evaluated => simulates_doCall evaluated
  | .giveBackNothing => simulates_giveBackNothing
  | .giveBack evaluated => simulates_giveBack evaluated

theorem simulates_of_executesAll {trees : List Statement} {store final : Store}
    {ending : Ending} :
    ExecutesAll oracle setting trees store ending final →
      Simulates oracle setting (statements trees) store ending final
  | .nil => simulates_nil
  | .next head tail => simulates_next (simulates_of_executes head) (simulates_of_executesAll tail)
  | .stop head => simulates_stop (simulates_of_executes head)

end

end Simulation

/-- The code of statements does what they mean, in any block where it stands and on top
of any stack. If they are evaluated to their end, it comes to its own end, and if they
give a value back, to a return with that value on top. The store is the one that the
evaluation leaves. -/
theorem statements_code_meaning (oracle : Oracle) {setting : Setting}
    {trees : List Statement} {label next : Nat} {code : List Instruction}
    (emitted : Emits (statements trees) setting label code next ())
    {before : List Instruction}
    (fresh : ∀ name ∈ labelNames code, name ∉ labelNames before) (after : List Instruction)
    (start : State) {ending : Ending} {final : Store}
    (executed : ExecutesAll oracle setting trees start.store ending final) :
    RunsTo oracle (before ++ (code ++ after)) ⟨code ++ after, start⟩ after start.stack ending
      final :=
  simulates_of_executesAll executed emitted
    ((labelsWithin_of_emits_statements trees emitted).placed fresh after) start.stack
    start.element start.temps

/-- Marks the elements of an array up to a count, and gives the count back. -/
def marking : List Statement :=
  [.whileDo (.mk (.name (utf8 "at") 1) [(⟨utf8 "<", 1⟩, .name (utf8 "count") 1)])
    [.ifElse (.mk (.name (utf8 "marks") 2) [(⟨utf8 "=", 2⟩, .keyword (utf8 "null") 2)])
      [.doCall (.mk (some (utf8 "Sys")) (utf8 "error") [.mk (.integer 1 2) []] 2) 2]
      (some [.letTo (.element (utf8 "marks") (.mk (.name (utf8 "at") 3) []) 3)
        (.mk (.keyword (utf8 "true") 3) []) 3]) 2,
      .letTo (.name (utf8 "at") 4)
        (.mk (.name (utf8 "at") 4) [(⟨utf8 "+", 4⟩, .integer 1 4)]) 4] 1,
    .giveBack (some (.mk (.name (utf8 "at") 5) [])) 5]

/-- `at` and `marks` are locals, `count` is an argument. -/
def markingSetting : Setting where
  className := utf8 "Marks"
  bindings :=
    (({} : Bindings).declareAll [utf8 "at", utf8 "marks"] .local (utf8 "Array")).declareAll
      [utf8 "count"] .argument (utf8 "int")
  hasReceiver := false

/-- Calls give 0 back and change nothing. -/
def silent : Oracle where
  answer _ _ heap statics := ⟨0, heap, statics⟩
  overwrite _ _ _ _ temps := temps

/-- One element at the address 2048 is to be marked. -/
def markingStore : Store where
  locals index := if index = 1 then 2048 else 0
  arguments _ := 1
  statics _ := 0
  receiver := 0
  heap _ := 0

def markingCode : List Instruction :=
  (statements marking markingSetting 0).code

/-- One round of the loop marks the element, then the count is given back. -/
theorem marking_code_meaning :
    ∃ final, ExecutesAll silent markingSetting marking markingStore (.returned 1) final ∧
      final.heap 2048 = truth true ∧
      RunsTo silent ([.label (utf8 "START")] ++ (markingCode ++ [.ret]))
        ⟨markingCode ++ [.ret], ⟨[5], markingStore, 0, fun _ => 0⟩⟩ [.ret] [5] (.returned 1)
        final := by
  have emitted : Emits (statements marking) markingSetting 0 markingCode 4 () := rfl
  have round : ExecutesAll silent markingSetting marking markingStore (.returned 1) _ :=
    .next
      (.whileTrue rfl
        (.next (.ifFalse rfl (.next (.letElement rfl rfl rfl) .nil))
          (.next (.letName rfl rfl) .nil))
        (.whileFalse rfl))
      (.stop (.giveBack rfl))
  exact ⟨_, round, rfl, statements_code_meaning silent emitted (by decide) [.ret]
    ⟨[5], markingStore, 0, fun _ => 0⟩ round⟩

end Jack.Lowering
