import Jack.Proofs.Lowering.Refusals
import Jack.Proofs.Lowering.StackHeight

/-!
Contract: at which positions a call passes its arguments, and at which ones the function
that is called looks for its parameters.

Owns: that a call pushes its receiver and then its arguments in order, one value each; the
slot of a parameter; and that every reference to a parameter is an access to its slot.

Does not own: whether a call passes as many arguments as there are parameters.

A parameter is looked for behind the receiver, if there is one, and behind the distinct
names in front of it. That is its own position as long as no name in front of it is
repeated.
-/

set_option autoImplicit false

namespace Jack

open Machine (Instruction Segment accesses)

/-! ## Positions of parameters -/

namespace Subroutine

def parameterNames (tree : Subroutine) : List Bytes :=
  tree.parameters.map Parameter.name

/-- Where a call passes the value for the parameter at a position. -/
def passedAt (tree : Subroutine) (position : Nat) : Nat :=
  position + tree.kind.receivers

/-- The slot of the parameter at a position: names that are repeated take none. -/
def slotOf (tree : Subroutine) (position : Nat) : Nat :=
  (tree.parameterNames.take position).dedup.length + tree.kind.receivers

/-- As long as no name comes twice, parameters are where their arguments are passed. -/
theorem slotOf_eq_passedAt {tree : Subroutine} {position : Nat}
    (inRange : position ≤ tree.parameters.length)
    (distinct : (tree.parameterNames.take position).Nodup) :
    tree.slotOf position = tree.passedAt position := by
  rw [slotOf, distinct.dedup, List.length_take, parameterNames, List.length_map,
    Nat.min_eq_left inRange, passedAt]

variable {tree : Subroutine} {className : Bytes} {position : Nat} {parameter : Parameter}

theorem identifier_of_mem_parameters (wellFormed : tree.wellFormed = true)
    (member : parameter ∈ tree.parameters) : isIdentifier parameter.name = true := by
  simp only [Subroutine.wellFormed, Bool.and_eq_true, List.all_eq_true,
    Parameter.wellFormed] at wellFormed
  exact (wellFormed.1.2 parameter member).2

/-- The declarations of the receiver and of parameters behind it. -/
def frontDeclared (kind : SubroutineKind) (className : Bytes) (before : List Parameter) :
    List Declaration :=
  kind.receiver className ++ before.map Parameter.declaration

theorem names_frontDeclared (kind : SubroutineKind) (before : List Parameter) :
    Declaration.names (frontDeclared kind className before) =
      Declaration.names (kind.receiver className) ++ before.map Parameter.name := by
  rw [frontDeclared, Declaration.names_append]
  simp [Declaration.names, Parameter.declaration, Function.comp_def]

/-- Parameters that are identifiers take a slot for each name, behind the receiver. -/
theorem tallied_frontDeclared {kind : SubroutineKind} {before : List Parameter}
    (named : ∀ parameter ∈ before, isIdentifier parameter.name = true) :
    Declaration.tallied .argument (frontDeclared kind className before) =
      (before.map Parameter.name).dedup.length + kind.receivers := by
  have alike : ∀ declaration ∈ frontDeclared kind className before,
      declaration.storage = .argument := by
    simp only [frontDeclared, List.forall_mem_append, List.forall_mem_map]
    refine ⟨?_, fun _ _ => rfl⟩
    cases kind <;> simp [SubroutineKind.receiver]
  rw [Declaration.tallied_eq_of_forall alike, names_frontDeclared]
  cases kind with
  | method =>
      have fresh : utf8 "this" ∉ before.map Parameter.name := by
        intro member
        obtain ⟨parameter, inFront, same⟩ := List.mem_map.mp member
        exact absurd (named parameter inFront) (by rw [same]; decide)
      exact congrArg List.length (List.dedup_cons_of_notMem fresh)
  | constructor | function => rfl

/-- A parameter whose name is not repeated is bound to its slot. -/
theorem find?_parameter (wellFormed : tree.wellFormed = true)
    (found : tree.parameters[position]? = some parameter)
    (once : tree.parameterNames.count parameter.name = 1) :
    (Scope.ofDeclarations (tree.declared className)).find? parameter.name =
      some ⟨parameter.name, .argument, tree.slotOf position, parameter.type⟩ := by
  obtain ⟨before, behind, split, rfl⟩ : ∃ before behind,
      tree.parameters = before ++ parameter :: behind ∧ before.length = position := by
    obtain ⟨inRange, rfl⟩ := List.getElem?_eq_some_iff.mp found
    refine ⟨tree.parameters.take position, tree.parameters.drop (position + 1), ?_,
      List.length_take_of_le inRange.le⟩
    rw [← List.drop_eq_getElem_cons inRange, List.take_append_drop]
  have fresh : parameter.name ∉
      Declaration.names (frontDeclared tree.kind className before) := by
    have named := identifier_of_mem_parameters wellFormed (List.mem_of_getElem? found)
    rw [names_frontDeclared, List.mem_append, not_or]
    refine ⟨tree.kind.not_mem_names_receiver named className, ?_⟩
    rw [parameterNames, split, List.map_append, List.map_cons, List.count_append,
      List.count_cons_self] at once
    exact List.not_mem_of_count_eq_zero (by omega)
  have slot : Declaration.tallied .argument (frontDeclared tree.kind className before) =
      tree.slotOf before.length := by
    have inFront : tree.parameterNames.take before.length = before.map Parameter.name := by
      rw [parameterNames, split, List.map_append, List.take_left' (List.length_map ..)]
    rw [slotOf, inFront]
    refine tallied_frontDeclared fun other member => ?_
    exact identifier_of_mem_parameters wellFormed (by simp [split, member])
  have declared_eq : tree.declared className =
      frontDeclared tree.kind className before ++ parameter.declaration ::
        (behind.map Parameter.declaration ++
          tree.body.locals.flatMap (VariableList.declarations .local)) := by
    simp [declared, ownDeclared, frontDeclared, split]
  rw [declared_eq, ← slot]
  exact Scope.find?_ofDeclarations_append fresh

end Subroutine

/-! ## References -/

namespace ClassTree

instance (tree : ClassTree) (subroutine : Subroutine) (name : Bytes) :
    Decidable (tree.Declares subroutine name) :=
  inferInstanceAs (Decidable (_ ∨ _ ∨ _))

/-- The variable that a mention refers to, if it does. A qualifier need not. -/
def reference? (tree : ClassTree) (subroutine : Subroutine) : Mention → Option (Use × Bytes)
  | .name use word => if tree.Declares subroutine word then some (use, word) else none
  | .string _ => none

/-- All references to variables in a subroutine, in the order of their code. -/
def references (tree : ClassTree) (subroutine : Subroutine) : List (Use × Bytes) :=
  subroutine.mentions.filterMap (tree.reference? subroutine)

variable {tree : ClassTree} {subroutine : Subroutine}

/-- Each reference has its access, in the same order. -/
theorem references_match_accesses {mentions : List Mention}
    (wellFormed : ∀ mention ∈ mentions, mention.wellFormed = true) :
    List.Forall₂
      (fun reference instruction => ∃ binding,
        (tree.setting subroutine).bindings.resolve? reference.2 = some binding ∧
          instruction = reference.1.instruction binding.storage.segment binding.index)
      (mentions.filterMap (tree.reference? subroutine))
      (mentions.flatMap (Mention.accesses (tree.setting subroutine).bindings)) := by
  induction mentions with
  | nil => exact .nil
  | cons mention rest inductionHypothesis =>
      obtain ⟨formed, restFormed⟩ := List.forall_mem_cons.mp wellFormed
      have behind := inductionHypothesis restFormed
      cases mention with
      | string value => exact behind
      | name use word =>
          have unbound : (tree.setting subroutine).bindings.resolve? word = none ↔
              ¬ tree.Declares subroutine word := resolve?_eq_none_iff formed
          cases found : (tree.setting subroutine).bindings.resolve? word with
          | none =>
              have free := unbound.mp found
              simpa [reference?, Mention.accesses, found, free] using behind
          | some binding =>
              have declared : tree.Declares subroutine word := by
                by_contra free
                rw [unbound.mpr free] at found
                cases found
              simp only [List.filterMap_cons, reference?, declared, if_true, List.flatMap_cons,
                Mention.accesses, found, Option.map_some, Option.toList_some, List.singleton_append]
              exact .cons ⟨binding, found, rfl⟩ behind

/-- In the code of a class, each subroutine has its function, and in the body of the
function each reference has its access, in order. A reference to a parameter whose name
stands once is an access to the argument that `place` gives for its position. -/
def ParametersAt (place : Subroutine → Nat → Nat) (tree : ClassTree)
    (code : List Instruction) : Prop :=
  ∃ functions : List Lowering.FunctionCode, code = functions.flatMap Lowering.FunctionCode.code ∧
    List.Forall₂
      (fun subroutine function =>
        function.name = Lowering.qualified tree.name subroutine.name ∧ function.Plain ∧
        ∃ body, function.block = Lowering.prologueCode subroutine.kind tree.fieldCount ++ body ∧
          List.Forall₂
            (fun reference instruction => ∀ position parameter,
              subroutine.parameters[position]? = some parameter →
              subroutine.parameterNames.count parameter.name = 1 →
              reference.2 = parameter.name →
              instruction = reference.1.instruction .argument (place subroutine position))
            (tree.references subroutine) (accesses body))
      tree.subroutines functions

/-- References to parameters are accesses to their slots. -/
theorem ReadFrom.parametersAt_slotOf {length : Nat} {compiled : CompiledClass}
    (readFrom : tree.ReadFrom length) (lowered : lowerClass tree = .ok compiled) :
    ParametersAt Subroutine.slotOf tree compiled.code := by
  obtain ⟨accepted, rfl⟩ := lowerClass_eq_ok_iff.mp lowered
  refine ⟨tree.subroutines.map tree.functionOf, flatMap_code_functionOf accepted, ?_⟩
  rw [List.forall₂_map_right_iff, List.forall₂_same]
  intro subroutine member
  have isCode := (isCodeOf_functionOf (accepted subroutine member)).2
  obtain ⟨body, next, bodyEmits, block⟩ := isCode.block_eq
  rw [count_field_setting] at block
  refine ⟨rfl, isCode.plain, body, block, ?_⟩
  have subroutineFormed := readFrom.subroutine_wellFormed member
  rw [((readFrom.accountsFor member).accepted bodyEmits).1]
  refine (references_match_accesses
    (Subroutine.wellFormed_of_mem_mentions subroutineFormed)).imp ?_
  rintro reference instruction ⟨binding, bound, rfl⟩ position parameter found once same
  have slot : (Scope.ofDeclarations (subroutine.declared tree.name)).find? parameter.name =
      some ⟨parameter.name, .argument, subroutine.slotOf position, parameter.type⟩ :=
    Subroutine.find?_parameter subroutineFormed found once
  rw [same, Bindings.resolve?, setting, Subroutine.settingIn, slot] at bound
  obtain rfl := Option.some.inj bound
  rfl

end ClassTree

/-! ## Calls -/

namespace Lowering

/-- The code of a call: the receiver if there is one, then argument after argument, each
of which leaves one value, and the call with the count of them all. -/
def PassesInOrder (setting : Setting) (qualifier : Option Bytes) (name : Bytes)
    (arguments : List Expression) (code : List Instruction) : Prop :=
  ∃ receiverCode target argumentCodes,
    Receives setting name qualifier receiverCode target ∧
    (∀ height, Settles height receiverCode (height + receiverCode.length)) ∧
    List.Forall₂
      (fun argument argumentCode =>
        (∃ label next, Emits (expression argument) setting label argumentCode next ()) ∧
          ∀ height, Settles height argumentCode (height + 1))
      arguments argumentCodes ∧
    code = receiverCode ++ argumentCodes.flatten ++
      [.call target ((arguments.length + receiverCode.length : Nat) : Int)]

/-- Arguments are lowered one by one. -/
theorem exists_argumentCodes {setting : Setting} {arguments : List Expression}
    {label next : Nat} {code : List Instruction}
    (emitted : Emits (expressions arguments) setting label code next ()) :
    ∃ argumentCodes : List (List Instruction), code = argumentCodes.flatten ∧
      List.Forall₂
        (fun argument argumentCode =>
          (∃ label next, Emits (expression argument) setting label argumentCode next ()) ∧
            ∀ height, Settles height argumentCode (height + 1))
        arguments argumentCodes := by
  induction arguments generalizing label code with
  | nil =>
      obtain ⟨rfl, -⟩ := emits_expressions_nil_iff.mp emitted
      exact ⟨[], rfl, .nil⟩
  | cons argument rest inductionHypothesis =>
      obtain ⟨argumentCode, middle, restCode, argumentEmits, restEmits, rfl⟩ :=
        emits_expressions_cons_iff.mp emitted
      obtain ⟨restCodes, rfl, restMatch⟩ := inductionHypothesis restEmits
      refine ⟨argumentCode :: restCodes, rfl, .cons ⟨⟨label, middle, argumentEmits⟩, ?_⟩ restMatch⟩
      exact settles_of_emits_expression argument argumentEmits

/-- The receiver, if there is one, is pushed first; then come the arguments from left to right. -/
theorem passesInOrder_of_emits_call {setting : Setting} {qualifier : Option Bytes}
    {name : Bytes} {arguments : List Expression} {line : Int} {label next : Nat}
    {code : List Instruction}
    (emitted : Emits (call (.mk qualifier name arguments line)) setting label code next ()) :
    PassesInOrder setting qualifier name arguments code := by
  obtain ⟨receiverCode, target, _, receives, argumentsEmit, rfl⟩ := emits_call_iff.mp emitted
  obtain ⟨argumentCodes, rfl, argumentsMatch⟩ := exists_argumentCodes argumentsEmit
  refine ⟨receiverCode, target, argumentCodes, receives, receives.settles, argumentsMatch, ?_⟩
  rw [List.append_assoc]

end Lowering

/-- Calls pass their arguments in order, behind the receiver if there is one; and what
refers to a parameter in the code of a class is an access to its slot, which is the position
where it is passed as long as no name in front of it is repeated. -/
theorem arguments_passed_and_found {source : Bytes} {compiled : CompiledClass}
    (compiles : compileClass source = .ok compiled) :
    (∀ (setting : Lowering.Setting) (qualifier : Option Bytes) (name : Bytes)
      (arguments : List Expression) (line : Int) (label next : Nat) (code : List Instruction),
      Lowering.Emits (Lowering.call (.mk qualifier name arguments line)) setting label code
        next () →
      Lowering.PassesInOrder setting qualifier name arguments code) ∧
    ∃ tree, readClass source = .ok tree ∧
      tree.ParametersAt Subroutine.slotOf compiled.code ∧
      ∀ subroutine ∈ tree.subroutines, ∀ position ≤ subroutine.parameters.length,
        (subroutine.parameterNames.take position).Nodup →
        subroutine.slotOf position = subroutine.passedAt position := by
  refine ⟨fun _ _ _ _ _ _ _ _ => Lowering.passesInOrder_of_emits_call, ?_⟩
  cases read : readClass source with
  | error diagnostic =>
      rw [compileClass, read] at compiles
      cases compiles
  | ok tree =>
      rw [compileClass, read] at compiles
      exact ⟨tree, rfl, (readFrom_of_readClass read).parametersAt_slotOf compiles,
        fun _ _ _ inRange distinct => Subroutine.slotOf_eq_passedAt inRange distinct⟩

/-- A function with a repeated name in front of its last parameter. -/
def repeatedSource : Bytes :=
  utf8 "class A\x7bfunction int f(int a,int a,int b)\x7breturn b;\x7d\x7d"

def repeatedClass : CompiledClass :=
  ⟨utf8 "A", [.function (utf8 "A.f") 0, .push .argument 1, .ret]⟩

/-- A class with a repeated parameter, whose parameters are found at their slots. -/
theorem repeated_passed_and_found :
    compileClass repeatedSource = .ok repeatedClass ∧
      ∃ tree, readClass repeatedSource = .ok tree ∧
        tree.ParametersAt Subroutine.slotOf repeatedClass.code := by
  have compiles : compileClass repeatedSource = .ok repeatedClass := by decide +kernel
  obtain ⟨-, tree, read, slots, -⟩ := arguments_passed_and_found compiles
  exact ⟨compiles, tree, read, slots⟩

/-- The last parameter is passed as argument 2, and looked for as argument 1. -/
theorem repeated_not_found_where_passed :
    ∃ tree, readClass repeatedSource = .ok tree ∧
      compileClass repeatedSource = .ok repeatedClass ∧
      ¬ tree.ParametersAt Subroutine.passedAt repeatedClass.code := by
  have shapes : (readClass repeatedSource).toOption.map (fun tree =>
      tree.subroutines.map fun subroutine => (subroutine.kind, subroutine.parameters)) =
      some [(.function, [⟨utf8 "int", utf8 "a"⟩, ⟨utf8 "int", utf8 "a"⟩,
        ⟨utf8 "int", utf8 "b"⟩])] := by decide +kernel
  have referred : (readClass repeatedSource).toOption.map (fun tree =>
      tree.subroutines.map tree.references) = some [[(.value, utf8 "b")]] := by decide +kernel
  cases read : readClass repeatedSource with
  | error diagnostic =>
      rw [read] at shapes
      cases shapes
  | ok tree =>
      rw [read] at shapes referred
      obtain ⟨subroutine, subroutines, shape⟩ :=
        List.map_eq_singleton_iff.mp (Option.some.inj shapes)
      obtain ⟨kind, parameters⟩ := Prod.mk.inj shape
      have references : tree.references subroutine = [(.value, utf8 "b")] := by
        simpa [Except.toOption, subroutines] using referred
      refine ⟨tree, rfl, by decide +kernel, ?_⟩
      rintro ⟨functions, code, matched⟩
      rw [subroutines] at matched
      obtain ⟨function, others, ⟨-, -, body, block, accessed⟩, unmatched, rfl⟩ :=
        List.forall₂_cons_left_iff.mp matched
      obtain rfl := List.forall₂_nil_left_iff.mp unmatched
      rw [List.flatMap_singleton, Lowering.FunctionCode.code, block, kind] at code
      obtain ⟨-, body_eq⟩ := List.cons.inj code
      obtain rfl : body = [.push .argument 1, .ret] := body_eq.symm
      rw [references] at accessed
      have access := (List.forall₂_cons.mp accessed).1 2 ⟨utf8 "int", utf8 "b"⟩
        (by rw [parameters]; rfl) (by rw [Subroutine.parameterNames, parameters]; decide) rfl
      rw [Subroutine.passedAt, kind] at access
      revert access
      decide

end Jack
