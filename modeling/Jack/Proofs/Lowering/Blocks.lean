import Jack.Proofs.Lowering.Instructions

/-!
Contract: the code of a class is the blocks of its subroutines, one behind the other.

Owns: blocks, which reach from one function instruction to the next, and the blocks of
a class.

Does not own: in which order instructions stand within a block.
-/

set_option autoImplicit false

namespace Jack.Machine.Instruction

def isFunction : Instruction → Bool
  | function .. => true
  | _ => false

end Jack.Machine.Instruction

namespace Jack.Lowering

open Machine (Instruction)

/-! ## Blocks -/

/-- Only the start of a subroutine is a function, so functions cut code into blocks. -/
theorem Emittable.isFunction_eq_false {setting : Setting} {instruction : Instruction}
    (emittable : Emittable setting instruction) : instruction.isFunction = false := by
  cases emittable with
  | computing computing => cases computing <;> rfl
  | _ => rfl

/-- `block` stands in `code` behind the instruction of the function `name`, up to the
next function instruction or the end. -/
def IsBlock (code : List Instruction) (name : Bytes) (locals : Int)
    (block : List Instruction) : Prop :=
  ∃ before after, code = before ++ .function name locals :: (block ++ after) ∧
    (∀ instruction ∈ block, instruction.isFunction = false) ∧
    ∀ first ∈ after.head?, first.isFunction = true

/-- What follows a function instruction is cut in one way only. -/
private theorem eq_of_append_eq {left right leftRest rightRest : List Instruction}
    (same : left ++ leftRest = right ++ rightRest)
    (leftPlain : ∀ instruction ∈ left, instruction.isFunction = false)
    (rightPlain : ∀ instruction ∈ right, instruction.isFunction = false)
    (leftEnds : ∀ first ∈ leftRest.head?, first.isFunction = true)
    (rightEnds : ∀ first ∈ rightRest.head?, first.isFunction = true) : left = right := by
  induction left generalizing right with
  | nil =>
      cases right with
      | nil => rfl
      | cons head tail =>
          subst same
          have starts := leftEnds head (by simp)
          rw [rightPlain head (by simp)] at starts
          contradiction
  | cons head tail inductionHypothesis =>
      cases right with
      | nil =>
          rw [List.nil_append] at same
          subst same
          have starts := rightEnds head (by simp)
          rw [leftPlain head (by simp)] at starts
          contradiction
      | cons other others =>
          obtain ⟨rfl, rest⟩ := List.cons.inj same
          rw [inductionHypothesis rest
            (fun instruction member => leftPlain instruction (by simp [member]))
            (fun instruction member => rightPlain instruction (by simp [member]))]

/-- A function with its block, as it stands in code. -/
structure FunctionCode where
  name : Bytes
  locals : Int
  block : List Instruction

namespace FunctionCode

def code (function : FunctionCode) : List Instruction :=
  .function function.name function.locals :: function.block

/-- No function starts inside another one. -/
def Plain (function : FunctionCode) : Prop :=
  ∀ instruction ∈ function.block, instruction.isFunction = false

end FunctionCode

private theorem head_flatMap_code (functions : List FunctionCode) :
    ∀ first ∈ (functions.flatMap FunctionCode.code).head?, first.isFunction = true := by
  cases functions with
  | nil => simp
  | cons function rest => simp [FunctionCode.code, Instruction.isFunction]

/-- The blocks of functions that stand one behind the other are theirs. -/
theorem mem_of_isBlock_flatMap {functions : List FunctionCode}
    (plain : ∀ function ∈ functions, function.Plain) {name : Bytes} {locals : Int}
    {block : List Instruction}
    (isBlock : IsBlock (functions.flatMap FunctionCode.code) name locals block) :
    ⟨name, locals, block⟩ ∈ functions := by
  induction functions with
  | nil =>
      obtain ⟨before, after, same, -⟩ := isBlock
      simp at same
  | cons function rest inductionHypothesis =>
      have restPlain : ∀ function ∈ rest, function.Plain := fun function member =>
        plain function (by simp [member])
      have headPlain : function.Plain := plain function (by simp)
      obtain ⟨before, after, same, blockPlain, ends⟩ := isBlock
      rw [List.flatMap_cons, FunctionCode.code, List.cons_append] at same
      cases before with
      | nil =>
          obtain ⟨header, remaining⟩ := List.cons.inj same
          obtain ⟨rfl, rfl⟩ := Instruction.function.inj header
          obtain rfl := eq_of_append_eq remaining headPlain blockPlain
            (head_flatMap_code rest) ends
          simp
      | cons head before =>
          obtain ⟨-, remaining⟩ := List.cons.inj same
          apply List.mem_cons_of_mem
          apply inductionHypothesis restPlain
          rcases List.append_eq_append_iff.mp remaining with
            ⟨middle, -, tail⟩ | ⟨middle, inside, tail⟩
          · exact ⟨middle, after, tail, blockPlain, ends⟩
          · cases middle with
            | nil => exact ⟨[], after, tail.symm, blockPlain, ends⟩
            | cons first others =>
                obtain ⟨rfl, -⟩ := List.cons.inj tail
                have never := headPlain (.function name locals) (by simp [inside])
                simp [Instruction.isFunction] at never

/-! ## Blocks of a class -/

/-- The code of a subroutine, with the setting that it was lowered in. -/
structure IsCodeOf (tree : Subroutine) (setting : Setting) (function : FunctionCode) :
    Prop where
  name_eq : function.name = qualified setting.className tree.name
  locals_eq : function.locals = localCount tree.body
  block_eq : ∃ bodyCode next,
    Emits (statements tree.body.statements) setting 0 bodyCode next () ∧
      function.block =
        prologueCode tree.kind (setting.bindings.count .field) ++ bodyCode

/-- Inside the code of a subroutine there is no other function. -/
theorem IsCodeOf.plain {tree : Subroutine} {setting : Setting} {function : FunctionCode}
    (isCode : IsCodeOf tree setting function) : function.Plain := by
  obtain ⟨bodyCode, next, emitted, same⟩ := isCode.block_eq
  intro instruction member
  rw [same, List.mem_append] at member
  rcases member with member | member
  · revert member
    cases tree.kind <;> simp only [prologueCode, List.mem_cons, List.not_mem_nil, or_false]
    · rintro (rfl | rfl | rfl) <;> rfl
    · exact False.elim
    · rintro (rfl | rfl) <;> rfl
  · exact (emittable_of_emits_statements _ emitted instruction member).isFunction_eq_false

namespace Context

/-- Steps that only declare leave all but the bindings. -/
private theorem foldl_declares {Item : Type} (step : Context → Item → Context)
    (declares : ∀ context item, ∃ bindings, step context item = { context with bindings })
    (items : List Item) (context : Context) :
    ∃ bindings, items.foldl step context = { context with bindings } := by
  induction items generalizing context with
  | nil => exact ⟨context.bindings, rfl⟩
  | cons item rest inductionHypothesis =>
      obtain ⟨first, firstEq⟩ := declares context item
      obtain ⟨bindings, restEq⟩ := inductionHypothesis { context with bindings := first }
      exact ⟨bindings, by rw [List.foldl_cons, firstEq, restEq]⟩

/-- Declaring the variables of a subroutine emits nothing. -/
theorem declareSubroutine_eq (context : Context) (tree : Subroutine) :
    ∃ bindings, context.declareSubroutine tree = { context with bindings } := by
  have behind (start : Bindings) : ∃ bindings,
      tree.body.locals.foldl (fun context list => context.declareList .local list)
        (tree.parameters.foldl
          (fun context parameter =>
            context.declare parameter.name .argument parameter.type)
          { context with bindings := start }) = { context with bindings } := by
    obtain ⟨parameters, parametersEq⟩ := foldl_declares
      (fun (context : Context) (parameter : Parameter) =>
        context.declare parameter.name .argument parameter.type)
      (fun _ _ => ⟨_, rfl⟩) tree.parameters { context with bindings := start }
    obtain ⟨locals, localsEq⟩ := foldl_declares
      (fun (context : Context) (list : VariableList) => context.declareList .local list)
      (fun _ _ => ⟨_, rfl⟩) tree.body.locals { context with bindings := parameters }
    exact ⟨locals, by rw [parametersEq, localsEq]⟩
  unfold declareSubroutine
  dsimp only
  split
  · exact behind _
  · exact behind context.bindings

theorem declareClass_eq (context : Context) (tree : ClassTree) :
    ∃ bindings, context.declareClass tree =
      { context with className := tree.name, bindings } :=
  foldl_declares _ (fun _ _ => ⟨_, rfl⟩) tree.declarations
    { context with className := tree.name }

/-- A subroutine that is accepted adds its function at the end. -/
theorem function_of_addSubroutine {context final : Context} {tree : Subroutine}
    (accepted : context.addSubroutine tree = (.ok (), final)) :
    ∃ function setting, IsCodeOf tree setting function ∧
      final.code = context.code ++ function.code := by
  obtain ⟨bindings, prepared⟩ :=
    declareSubroutine_eq (context.enter tree.kind tree.name) tree
  unfold addSubroutine emit at accepted
  rw [prepared] at accepted
  simp only [Prod.mk.injEq] at accepted
  obtain ⟨succeeded, rfl⟩ := accepted
  set setting : Setting :=
    ({ context.enter tree.kind tree.name with bindings } : Context).setting
  obtain ⟨-, bodyCode, bodyEmits, codeEq⟩ :=
    emits_subroutine_iff.mp (emits_of_result succeeded)
  refine ⟨⟨_, _, _⟩, setting, ⟨rfl, rfl, bodyCode, _, bodyEmits, rfl⟩, ?_⟩
  exact congrArg (context.code ++ ·) codeEq

/-- Subroutines that are accepted add their functions in order. -/
theorem functions_of_addSubroutines {context final : Context} {trees : List Subroutine}
    (accepted : context.addSubroutines trees = (.ok (), final)) :
    ∃ functions : List FunctionCode,
      List.Forall₂ (fun tree function => ∃ setting, IsCodeOf tree setting function)
        trees functions ∧
      final.code = context.code ++ functions.flatMap FunctionCode.code := by
  induction trees generalizing context with
  | nil =>
      obtain rfl : context = final := (Prod.mk.inj accepted).2
      exact ⟨[], .nil, by simp⟩
  | cons tree rest inductionHypothesis =>
      rw [addSubroutines] at accepted
      rcases step : context.addSubroutine tree with ⟨outcome, middle⟩
      rw [step] at accepted
      cases outcome with
      | error diagnostic => simp at accepted
      | ok =>
          obtain ⟨function, setting, isCode, middleCode⟩ := function_of_addSubroutine step
          obtain ⟨functions, restCodes, finalCode⟩ := inductionHypothesis accepted
          refine ⟨function :: functions, .cons ⟨setting, isCode⟩ restCodes, ?_⟩
          rw [finalCode, middleCode, List.flatMap_cons, List.append_assoc]

/-- A class that is accepted adds the functions of its subroutines in order. -/
theorem functions_of_addClass {context final : Context} {tree : ClassTree}
    (accepted : context.addClass tree = (.ok (), final)) :
    ∃ functions : List FunctionCode,
      List.Forall₂ (fun tree function => ∃ setting, IsCodeOf tree setting function)
        tree.subroutines functions ∧
      final.code = context.code ++ functions.flatMap FunctionCode.code := by
  obtain ⟨bindings, declared⟩ := declareClass_eq context tree
  unfold addClass at accepted
  rw [declared] at accepted
  obtain ⟨functions, codes, finalCode⟩ := functions_of_addSubroutines accepted
  exact ⟨functions, codes, finalCode⟩

private theorem exists_tree_of_mem {trees : List Subroutine} {functions : List FunctionCode}
    (codes : List.Forall₂ (fun tree function => ∃ setting, IsCodeOf tree setting function)
      trees functions) {function : FunctionCode} (member : function ∈ functions) :
    ∃ tree ∈ trees, ∃ setting, IsCodeOf tree setting function := by
  induction codes with
  | nil => simp at member
  | @cons tree head _ _ isCode _ inductionHypothesis =>
      rcases List.mem_cons.mp member with rfl | member
      · exact ⟨tree, by simp, isCode⟩
      · obtain ⟨other, inRest, found⟩ := inductionHypothesis member
        exact ⟨other, by simp [inRest], found⟩

/-- All code that a class adds stands in blocks, and each block is that of one of its
subroutines. -/
theorem blocks_of_addClass {context final : Context} {tree : ClassTree}
    (accepted : context.addClass tree = (.ok (), final)) :
    ∃ emitted, final.code = context.code ++ emitted ∧
      (∀ first ∈ emitted.head?, first.isFunction = true) ∧
      ∀ name locals block, IsBlock emitted name locals block →
        ∃ subroutine ∈ tree.subroutines, ∃ setting,
          IsCodeOf subroutine setting ⟨name, locals, block⟩ := by
  obtain ⟨functions, codes, finalCode⟩ := functions_of_addClass accepted
  refine ⟨_, finalCode, head_flatMap_code functions, ?_⟩
  intro name locals block isBlock
  have plain : ∀ function ∈ functions, function.Plain := by
    intro function member
    obtain ⟨_, _, _, isCode⟩ := exists_tree_of_mem codes member
    exact isCode.plain
  exact exists_tree_of_mem codes (mem_of_isBlock_flatMap plain isBlock)

end Context

end Jack.Lowering
