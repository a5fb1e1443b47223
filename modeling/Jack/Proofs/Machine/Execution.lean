import Jack.Machine.Instruction
import Mathlib.Logic.Function.Basic
import Mathlib.Logic.Relation

/-!
Contract: running the block of a function on the stack machine.

Owns: machine words, the store that programs can see, the state of the machine around
it, what each instruction does to a state, and steps through a block with its jumps.

Does not own: the functions that are called. An oracle answers for them.

A point of a block is what is left to run from there. A jump goes on from the first
label of its name in the block.
-/

set_option autoImplicit false

namespace Jack.Machine

/-- A word: an integer modulo 65536, of either sign. -/
abbrev Word := BitVec 16

abbrev Slots := Nat → Word

abbrev Heap := Word → Word

/-- The word for a truth value: all bits set for true. -/
def truth (holds : Bool) : Word :=
  if holds then -1 else 0

/-- What programs can see. The receiver is `pointer 0`. -/
structure Store where
  locals : Slots
  arguments : Slots
  statics : Slots
  receiver : Word
  heap : Heap

/-- The state of the machine. The top of the stack is its first value; `element` is
`pointer 1`. -/
structure State where
  stack : List Word
  store : Store
  element : Word
  temps : Slots

/-- What a called function leaves behind for its caller to see. -/
structure Answer where
  value : Word
  heap : Heap
  statics : Slots

/-- The functions that are called. The value, the heap and the statics afterwards
depend on the name, the arguments, and the heap and statics before. Temporaries may be
overwritten in any way. -/
structure Oracle where
  answer : Bytes → List Word → Heap → Slots → Answer
  overwrite : Bytes → List Word → Heap → Slots → Slots → Slots

def Oracle.call (oracle : Oracle) (function : Bytes) (arguments : List Word)
    (store : Store) : Word × Store :=
  let answer := oracle.answer function arguments store.heap store.statics
  (answer.value, { store with heap := answer.heap, statics := answer.statics })

namespace State

/-- The value that a push finds in a segment. -/
def load? (state : State) (segment : Segment) (index : Int) : Option Word :=
  match segment with
  | .constant => some (BitVec.ofInt 16 index)
  | .argument => some (state.store.arguments index.toNat)
  | .local => some (state.store.locals index.toNat)
  | .static => some (state.store.statics index.toNat)
  | .this => some (state.store.heap (state.store.receiver + BitVec.ofInt 16 index))
  | .that => some (state.store.heap (state.element + BitVec.ofInt 16 index))
  | .pointer =>
      if index = 0 then some state.store.receiver
      else if index = 1 then some state.element
      else none
  | .temp => some (state.temps index.toNat)

/-- The state after a pop has put a value into a segment. -/
def save? (state : State) (segment : Segment) (index : Int) (value : Word) :
    Option State :=
  let store := state.store
  match segment with
  | .constant => none
  | .argument => some { state with
      store.arguments := Function.update store.arguments index.toNat value }
  | .local => some { state with
      store.locals := Function.update store.locals index.toNat value }
  | .static => some { state with
      store.statics := Function.update store.statics index.toNat value }
  | .this => some { state with
      store.heap := Function.update store.heap
        (store.receiver + BitVec.ofInt 16 index) value }
  | .that => some { state with
      store.heap := Function.update store.heap
        (state.element + BitVec.ofInt 16 index) value }
  | .pointer =>
      if index = 0 then some { state with store.receiver := value }
      else if index = 1 then some { state with element := value }
      else none
  | .temp => some { state with temps := Function.update state.temps index.toNat value }

end State

/-- The stack after an operation on its top. The right operand is on top of the left
one. -/
def Operation.onStack : Operation → List Word → Option (List Word)
  | .neg, value :: rest => some (-value :: rest)
  | .not, value :: rest => some (~~~value :: rest)
  | .add, right :: left :: rest => some ((left + right) :: rest)
  | .sub, right :: left :: rest => some ((left - right) :: rest)
  | .eq, right :: left :: rest => some (truth (left == right) :: rest)
  | .gt, right :: left :: rest => some (truth (right.slt left) :: rest)
  | .lt, right :: left :: rest => some (truth (left.slt right) :: rest)
  | .and, right :: left :: rest => some ((left &&& right) :: rest)
  | .or, right :: left :: rest => some ((left ||| right) :: rest)
  | _, _ => none

section Run

variable (oracle : Oracle)

/-- A call takes its arguments from the stack, the last one from the top. -/
def State.call? (state : State) (function : Bytes) (count : Nat) : Option State :=
  if count ≤ state.stack.length then
    let arguments := (state.stack.take count).reverse
    let (value, store) := oracle.call function arguments state.store
    some {
      stack := value :: state.stack.drop count
      store
      element := state.element
      temps := oracle.overwrite function arguments state.store.heap state.store.statics
        state.temps }
  else none

/-- What an instruction does that only leads to the next one. -/
def perform (state : State) : Instruction → Option State
  | .push segment index =>
      (state.load? segment index).map fun value =>
        { state with stack := value :: state.stack }
  | .pop segment index =>
      match state.stack with
      | [] => none
      | value :: rest => { state with stack := rest }.save? segment index value
  | .arithmetic operation =>
      (operation.onStack state.stack).map fun stack => { state with stack }
  | .call function count => state.call? oracle function count.toNat
  | .label .. => some state
  | .goto .. | .ifGoto .. | .function .. | .ret => none

/-- What code does that is run from its first instruction to its last. -/
def performAll (state : State) (code : List Instruction) : Option State :=
  code.foldlM (perform oracle) state

theorem performAll_cons (state : State) (instruction : Instruction)
    (rest : List Instruction) :
    performAll oracle state (instruction :: rest) =
      (perform oracle state instruction).bind fun next => performAll oracle next rest :=
  rfl

/-- Code is performed part by part, and fails if one of its parts does. -/
theorem performAll_append (state : State) (front back : List Instruction) :
    performAll oracle state (front ++ back) =
      (performAll oracle state front).bind fun next => performAll oracle next back :=
  List.foldlM_append

end Run

/-! ## Points of a block -/

/-- The name that a label gives to its place. -/
def Instruction.labelName? : Instruction → Option Bytes
  | label name _ => some name
  | _ => none

def labelNames (code : List Instruction) : List Bytes :=
  code.filterMap Instruction.labelName?

/-- The code from the first label of this name on. -/
def fromLabel? (name : Bytes) : List Instruction → Option (List Instruction)
  | [] => none
  | instruction :: rest =>
      if instruction.labelName? = some name then some (instruction :: rest)
      else fromLabel? name rest

/-- A label is found where it stands if no other one of its name stands in front. -/
theorem fromLabel?_append {name : Bytes} {count : Int} {front : List Instruction}
    (back : List Instruction) (absent : name ∉ labelNames front) :
    fromLabel? name (front ++ .label name count :: back) =
      some (.label name count :: back) := by
  induction front with
  | nil => simp [fromLabel?, Instruction.labelName?]
  | cons instruction rest inductionHypothesis =>
      have other : instruction.labelName? ≠ some name := by
        intro same
        apply absent
        simp [labelNames, same]
      have restAbsent : name ∉ labelNames rest := by
        intro member
        apply absent
        simp only [labelNames, List.filterMap_cons] at member ⊢
        cases instruction.labelName? with
        | none => exact member
        | some => exact List.mem_cons_of_mem _ member
      rw [List.cons_append, fromLabel?, if_neg other, inductionHypothesis restAbsent]

/-- A point of a block, with the state there. -/
structure Point where
  rest : List Instruction
  state : State

section Steps

variable (oracle : Oracle) (block : List Instruction)

/-- The next point; none at the end of the block, at a return, and where the stack
falls short. -/
def step? (point : Point) : Option Point :=
  match point.rest with
  | [] => none
  | .ret :: _ => none
  | .goto name _ :: _ => (fromLabel? name block).map fun rest => { point with rest }
  | .ifGoto name _ :: rest =>
      match point.state.stack with
      | [] => none
      | value :: below =>
          let state := { point.state with stack := below }
          if value = 0 then some { rest, state }
          else (fromLabel? name block).map fun rest => { rest, state }
  | instruction :: rest =>
      (perform oracle point.state instruction).map fun state => { rest, state }

variable {oracle block} in
theorem step?_of_perform {instruction : Instruction} {state next : State}
    (rest : List Instruction) (performed : perform oracle state instruction = some next) :
    step? oracle block ⟨instruction :: rest, state⟩ = some ⟨rest, next⟩ := by
  cases instruction with
  | goto | ifGoto | function | ret => simp [perform] at performed
  | push | pop | arithmetic | call | label => simp only [step?, performed, Option.map_some]

variable {oracle block} in
/-- A value other than 0 jumps. -/
theorem step?_ifGoto_taken {name : Bytes} {count : Int} {target : List Instruction}
    {value : Word} {below : List Word} {store : Store} {element : Word} {temps : Slots}
    (rest : List Instruction) (found : fromLabel? name block = some target)
    (nonzero : value ≠ 0) :
    step? oracle block ⟨.ifGoto name count :: rest, ⟨value :: below, store, element, temps⟩⟩ =
      some ⟨target, ⟨below, store, element, temps⟩⟩ := by
  simp only [step?, found, Option.map_some, if_neg nonzero]

variable {oracle block} in
theorem step?_ifGoto_passed {name : Bytes} {count : Int} {below : List Word} {store : Store}
    {element : Word} {temps : Slots} (rest : List Instruction) :
    step? oracle block ⟨.ifGoto name count :: rest, ⟨0 :: below, store, element, temps⟩⟩ =
      some ⟨rest, ⟨below, store, element, temps⟩⟩ := by
  simp only [step?, if_true]

/-- One point is reached from another in some number of steps. -/
def Reaches : Point → Point → Prop :=
  Relation.ReflTransGen fun point next => step? oracle block point = some next

end Steps

namespace Reaches

variable {oracle : Oracle} {block : List Instruction}

theorem of_step {point next : Point} (step : step? oracle block point = some next) :
    Reaches oracle block point next :=
  Relation.ReflTransGen.single step

theorem trans {first second third : Point} (front : Reaches oracle block first second)
    (back : Reaches oracle block second third) : Reaches oracle block first third :=
  Relation.ReflTransGen.trans front back

theorem refl (point : Point) : Reaches oracle block point point :=
  Relation.ReflTransGen.refl

theorem of_perform {instruction : Instruction} {state next : State}
    (rest : List Instruction) (performed : perform oracle state instruction = some next) :
    Reaches oracle block ⟨instruction :: rest, state⟩ ⟨rest, next⟩ :=
  of_step (step?_of_perform rest performed)

/-- Code that can be run from its first instruction to its last is. -/
theorem of_performAll {code : List Instruction} {state final : State}
    (rest : List Instruction) (performed : performAll oracle state code = some final) :
    Reaches oracle block ⟨code ++ rest, state⟩ ⟨rest, final⟩ := by
  induction code generalizing state with
  | nil =>
      obtain rfl : state = final := Option.some.inj performed
      exact refl _
  | cons instruction others inductionHypothesis =>
      rw [performAll_cons] at performed
      obtain ⟨next, first, remaining⟩ := Option.bind_eq_some_iff.mp performed
      exact (of_perform (others ++ rest) first).trans (inductionHypothesis remaining)

theorem label {name : Bytes} {count : Int} {state : State} (rest : List Instruction) :
    Reaches oracle block ⟨.label name count :: rest, state⟩ ⟨rest, state⟩ :=
  of_perform rest rfl

/-- A jump leads to its label, wherever that stands in the block. -/
theorem goto {name : Bytes} {count : Int} {target : List Instruction} {state : State}
    (rest : List Instruction) (found : fromLabel? name block = some target) :
    Reaches oracle block ⟨.goto name count :: rest, state⟩ ⟨target, state⟩ := by
  apply of_step
  simp only [step?, found, Option.map_some]

/-- Any value but zero makes a conditional jump. -/
theorem ifGoto_taken {name : Bytes} {count : Int} {target : List Instruction}
    {value : Word} {below : List Word} {store : Store} {element : Word} {temps : Slots}
    (rest : List Instruction) (found : fromLabel? name block = some target)
    (nonzero : value ≠ 0) :
    Reaches oracle block ⟨.ifGoto name count :: rest, ⟨value :: below, store, element, temps⟩⟩
      ⟨target, ⟨below, store, element, temps⟩⟩ :=
  of_step (step?_ifGoto_taken rest found nonzero)

/-- With zero, a conditional jump goes on. -/
theorem ifGoto_passed {name : Bytes} {count : Int} {below : List Word} {store : Store}
    {element : Word} {temps : Slots} (rest : List Instruction) :
    Reaches oracle block ⟨.ifGoto name count :: rest, ⟨0 :: below, store, element, temps⟩⟩
      ⟨rest, ⟨below, store, element, temps⟩⟩ :=
  of_step (step?_ifGoto_passed rest)

end Reaches

end Jack.Machine
