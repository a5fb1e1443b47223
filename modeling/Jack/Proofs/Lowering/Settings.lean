import Jack.Compilation
import Jack.Proofs.Binding
import Jack.Proofs.Lowering.Blocks
import Jack.Proofs.Tree.Spelling

/-!
Contract: the setting that each subroutine of a class is lowered in.

Owns: the declarations that a class and a subroutine make, the setting that follows from
them, and the code or the fault of a class as those of its subroutines, each in its
setting.

Does not own: the code of a subroutine.

The setting of a subroutine depends on the class variables and on the subroutine itself.
Nothing is left over from the subroutines before it.
-/

set_option autoImplicit false

namespace Jack

/-! ## Declarations of a program -/

def VariableList.declarations (storage : Storage) (list : VariableList) :
    List Declaration :=
  list.names.map fun name => ⟨name, storage, list.type⟩

def Parameter.declaration (parameter : Parameter) : Declaration :=
  ⟨parameter.name, .argument, parameter.type⟩

/-- The receiver of a method is declared in front of its parameters. -/
def SubroutineKind.receiver (kind : SubroutineKind) (className : Bytes) :
    List Declaration :=
  match kind with
  | .method => [⟨utf8 "this", .argument, className⟩]
  | _ => []

/-- How many values stand in front of the parameters. -/
def SubroutineKind.receivers : SubroutineKind → Nat
  | .method => 1
  | .constructor | .function => 0

namespace Subroutine

def ownDeclared (tree : Subroutine) : List Declaration :=
  tree.parameters.map Parameter.declaration ++
    tree.body.locals.flatMap (VariableList.declarations .local)

/-- The declarations of the subroutine scope. -/
def declared (tree : Subroutine) (className : Bytes) : List Declaration :=
  tree.kind.receiver className ++ tree.ownDeclared

/-- The setting of a subroutine in a class of this name and scope. -/
def settingIn (tree : Subroutine) (className : Bytes) (ofClass : Scope) :
    Lowering.Setting where
  className := className
  bindings := { ofClass, ofSubroutine := Scope.ofDeclarations (tree.declared className) }
  hasReceiver := tree.kind != .function

end Subroutine

namespace ClassTree

/-- The declarations of the class scope. -/
def declared (tree : ClassTree) : List Declaration :=
  tree.declarations.flatMap fun declaration =>
    declaration.list.declarations (Lowering.Context.storageOf declaration.kind)

def setting (tree : ClassTree) (subroutine : Subroutine) : Lowering.Setting :=
  subroutine.settingIn tree.name (Scope.ofDeclarations tree.declared)

/-- Whether a name is a variable of the class, or a parameter or local of the
subroutine. -/
def Declares (tree : ClassTree) (subroutine : Subroutine) (name : Bytes) : Prop :=
  (∃ declaration ∈ tree.declarations, name ∈ declaration.list.names) ∨
    (∃ parameter ∈ subroutine.parameters, parameter.name = name) ∨
    ∃ list ∈ subroutine.body.locals, name ∈ list.names

/-- The fields that a class declares: names that are fields where they first stand. -/
def fieldCount (tree : ClassTree) : Nat :=
  Declaration.tallied .field tree.declared

/-- What lowering a subroutine in its setting gives. -/
def emission (tree : ClassTree) (subroutine : Subroutine) : Lowering.Emission Unit :=
  Lowering.subroutine subroutine (tree.setting subroutine) 0

end ClassTree

theorem VariableList.names_declarations (storage : Storage) (list : VariableList) :
    Declaration.names (list.declarations storage) = list.names := by
  simp [Declaration.names, declarations, Function.comp_def]

theorem ClassTree.mem_names_declared_iff {tree : ClassTree} {name : Bytes} :
    name ∈ Declaration.names tree.declared ↔
      ∃ declaration ∈ tree.declarations, name ∈ declaration.list.names := by
  have names (declaration : ClassVariables) :
      (declaration.list.declarations (Lowering.Context.storageOf declaration.kind)).map
        Declaration.name = declaration.list.names := VariableList.names_declarations _ _
  rw [Declaration.names, declared, List.map_flatMap, List.mem_flatMap]
  simp only [names]

theorem Subroutine.mem_names_ownDeclared_iff {tree : Subroutine} {name : Bytes} :
    name ∈ Declaration.names tree.ownDeclared ↔
      (∃ parameter ∈ tree.parameters, parameter.name = name) ∨
        ∃ list ∈ tree.body.locals, name ∈ list.names := by
  have names (list : VariableList) :
      (list.declarations .local).map Declaration.name = list.names :=
    VariableList.names_declarations _ _
  rw [Declaration.names, ownDeclared, List.map_append, List.mem_append, List.map_flatMap,
    List.mem_flatMap, List.map_map, List.mem_map]
  simp only [names]
  rfl

/-- No identifier is the name of the receiver. -/
theorem SubroutineKind.not_mem_names_receiver {name : Bytes} (named : isIdentifier name = true)
    (kind : SubroutineKind) (className : Bytes) :
    name ∉ Declaration.names (kind.receiver className) := by
  have differs : name ≠ utf8 "this" := by
    rintro rfl
    exact absurd named (by decide)
  cases kind <;> simp [receiver, Declaration.names, differs]

/-- A method declares its receiver too, but no name of the language is `this`. -/
theorem Subroutine.mem_names_declared_iff {tree : Subroutine} {className name : Bytes}
    (named : isIdentifier name = true) :
    name ∈ Declaration.names (tree.declared className) ↔
      name ∈ Declaration.names tree.ownDeclared := by
  rw [declared, Declaration.names_append, List.mem_append]
  exact or_iff_right (tree.kind.not_mem_names_receiver named className)

/-- An identifier stands for a variable exactly if it is declared. -/
theorem ClassTree.resolve?_eq_none_iff {tree : ClassTree} {subroutine : Subroutine}
    {name : Bytes} (named : isIdentifier name = true) :
    (tree.setting subroutine).bindings.resolve? name = none ↔
      ¬ tree.Declares subroutine name := by
  rw [Bindings.resolve?, Option.or_eq_none_iff]
  simp only [setting, Subroutine.settingIn, Scope.find?_ofDeclarations_eq_none_iff,
    Subroutine.mem_names_declared_iff named, Subroutine.mem_names_ownDeclared_iff,
    mem_names_declared_iff]
  rw [Declares, not_or, not_or, not_or, and_comm]

/-- The number of fields is the same in every subroutine of a class. -/
theorem ClassTree.count_field_setting (tree : ClassTree) (subroutine : Subroutine) :
    (tree.setting subroutine).bindings.count .field = tree.fieldCount :=
  Scope.count_ofDeclarations tree.declared .field

/-! ## Declaring -/

namespace Bindings

theorem declare_ofClass {storage : Storage} (inClass : storage.isOfClass = true)
    (table : Bindings) (name type : Bytes) :
    (table.declare name storage type).2 =
      { table with ofClass := (table.ofClass.declare name storage type).2 } := by
  rw [declare, if_pos inClass]

theorem declare_ofSubroutine {storage : Storage} (inSubroutine : storage.isOfClass = false)
    (table : Bindings) (name type : Bytes) :
    (table.declare name storage type).2 =
      { table with ofSubroutine := (table.ofSubroutine.declare name storage type).2 } := by
  rw [declare, if_neg (by simp [inSubroutine])]

theorem declareAll_ofClass {storage : Storage} (inClass : storage.isOfClass = true)
    (table : Bindings) (list : VariableList) :
    table.declareAll list.names storage list.type =
      { table with ofClass := table.ofClass.declareAll (list.declarations storage) } := by
  rw [declareAll, Scope.declareAll, VariableList.declarations, List.foldl_map]
  refine List.foldl_hom (fun scope => { table with ofClass := scope }) ?_
  intro scope name
  exact declare_ofClass inClass { table with ofClass := scope } name list.type

theorem declareAll_ofSubroutine {storage : Storage} (inSubroutine : storage.isOfClass = false)
    (table : Bindings) (list : VariableList) :
    table.declareAll list.names storage list.type =
      { table with
        ofSubroutine := table.ofSubroutine.declareAll (list.declarations storage) } := by
  rw [declareAll, Scope.declareAll, VariableList.declarations, List.foldl_map]
  refine List.foldl_hom (fun scope => { table with ofSubroutine := scope }) ?_
  intro scope name
  exact declare_ofSubroutine inSubroutine { table with ofSubroutine := scope } name list.type

end Bindings

namespace Lowering.Context

/-- The context with more declarations in its class scope. -/
def inClass (context : Context) (declarations : List Declaration) : Context :=
  { context with bindings.ofClass := context.bindings.ofClass.declareAll declarations }

/-- The context with more declarations in its subroutine scope. -/
def inSubroutine (context : Context) (declarations : List Declaration) : Context :=
  { context with
    bindings.ofSubroutine := context.bindings.ofSubroutine.declareAll declarations }

/-- Declaring item by item is declaring all at once. -/
theorem foldl_eq_of_append {Item : Type} (extend : Context → List Declaration → Context)
    (extend_nil : ∀ context, extend context [] = context)
    (extend_append : ∀ context front back,
      extend context (front ++ back) = extend (extend context front) back)
    (step : Context → Item → Context) (declared : Item → List Declaration)
    (steps : ∀ context item, step context item = extend context (declared item))
    (items : List Item) (context : Context) :
    items.foldl step context = extend context (items.flatMap declared) := by
  induction items generalizing context with
  | nil => rw [List.flatMap_nil, extend_nil, List.foldl_nil]
  | cons item rest inductionHypothesis =>
      rw [List.foldl_cons, steps, inductionHypothesis, List.flatMap_cons, extend_append]

theorem inSubroutine_append (context : Context) (front back : List Declaration) :
    context.inSubroutine (front ++ back) =
      (context.inSubroutine front).inSubroutine back := by
  simp only [inSubroutine, Scope.declareAll_append]

/-- Declaring a class is declaring its variables one after the other, in a new scope. -/
theorem declareClass_eq_inClass (context : Context) (tree : ClassTree) :
    context.declareClass tree =
      { context with className := tree.name }.inClass tree.declared := by
  refine foldl_eq_of_append inClass (fun _ => rfl) ?_ _ _ ?_ tree.declarations _
  · intro context front back
    simp only [inClass, Scope.declareAll_append]
  · intro context declaration
    have inScope : (storageOf declaration.kind).isOfClass = true := by
      cases declaration.kind <;> rfl
    rw [declareList, Bindings.declareAll_ofClass inScope]
    rfl

theorem declareSubroutine_eq_inSubroutine (context : Context) (tree : Subroutine) :
    context.declareSubroutine tree =
      context.inSubroutine (tree.declared context.className) := by
  have parameters (context : Context) :
      tree.parameters.foldl
        (fun context parameter => context.declare parameter.name .argument parameter.type)
        context = context.inSubroutine (tree.parameters.map Parameter.declaration) := by
    rw [List.map_eq_flatMap]
    refine foldl_eq_of_append inSubroutine (fun _ => rfl) inSubroutine_append _ _ ?_ _ _
    intro context parameter
    rw [declare, Bindings.declare_ofSubroutine rfl]
    rfl
  have locals (context : Context) :
      tree.body.locals.foldl (fun context list => context.declareList .local list) context =
        context.inSubroutine
          (tree.body.locals.flatMap (VariableList.declarations .local)) := by
    refine foldl_eq_of_append inSubroutine (fun _ => rfl) inSubroutine_append _ _ ?_ _ _
    intro context list
    rw [declareList, Bindings.declareAll_ofSubroutine rfl]
    rfl
  rw [declareSubroutine]
  simp only [parameters, locals]
  rw [Subroutine.declared, inSubroutine_append, Subroutine.ownDeclared, inSubroutine_append]
  cases tree.kind with
  | method =>
      dsimp only [SubroutineKind.receiver]
      rw [declare, Bindings.declare_ofSubroutine rfl]
      rfl
  | constructor | function => rfl

/-! ## Lowering subroutines one after the other -/

/-- A subroutine is lowered in a scope of its own, on top of that of the class. -/
theorem addSubroutine_eq (context : Context) (tree : Subroutine) :
    context.addSubroutine tree =
      let emission :=
        subroutine tree (tree.settingIn context.className context.bindings.ofClass) 0
      (emission.result,
        { className := context.className
          bindings :=
            { context.bindings with
              ofSubroutine := Scope.ofDeclarations (tree.declared context.className) }
          activation := some ⟨tree.kind, tree.name, emission.nextLabel⟩
          code := context.code ++ emission.code }) := by
  rw [addSubroutine, declareSubroutine_eq_inSubroutine]
  rfl

/-- Subroutines leave the class scope as it is. -/
theorem ofClass_addSubroutines (context : Context) (trees : List Subroutine) :
    (context.addSubroutines trees).2.bindings.ofClass = context.bindings.ofClass := by
  induction trees generalizing context with
  | nil => rfl
  | cons tree rest inductionHypothesis =>
      have kept : (context.addSubroutine tree).2.bindings.ofClass = context.bindings.ofClass := by
        rw [addSubroutine_eq]
      rw [addSubroutines]
      generalize context.addSubroutine tree = step at kept ⊢
      obtain ⟨result, middle⟩ := step
      cases result with
      | error diagnostic => exact kept
      | ok => exact (inductionHypothesis middle).trans kept

/-- Subroutines leave the scope of the class as it is. -/
theorem ofClass_addClass (tree : ClassTree) :
    (({} : Context).addClass tree).2.bindings.ofClass = Scope.ofDeclarations tree.declared := by
  rw [addClass, ofClass_addSubroutines, declareClass_eq_inClass]
  rfl

/-- Either all subroutines are lowered, one behind the other, or a first one fails: its fault
is that of the whole, and its code up to the fault stands behind that of the ones before. -/
theorem addSubroutines_cases (context : Context) (trees : List Subroutine) :
    let emission (tree : Subroutine) :=
      subroutine tree (tree.settingIn context.className context.bindings.ofClass) 0
    ((∀ tree ∈ trees, (emission tree).result = .ok ()) ∧
      ∃ final, context.addSubroutines trees = (.ok (), final) ∧
        final.code = context.code ++ trees.flatMap fun tree => (emission tree).code) ∨
    ∃ front failing back diagnostic, trees = front ++ failing :: back ∧
      (∀ tree ∈ front, (emission tree).result = .ok ()) ∧
      (emission failing).result = .error diagnostic ∧
      ∃ final, context.addSubroutines trees = (.error diagnostic, final) ∧
        final.code = context.code ++
          ((front.flatMap fun tree => (emission tree).code) ++ (emission failing).code) := by
  induction trees generalizing context with
  | nil => exact .inl ⟨by simp, context, rfl, by simp⟩
  | cons tree rest inductionHypothesis =>
      intro emission
      have step := addSubroutine_eq context tree
      cases outcome : (emission tree).result with
      | error diagnostic =>
          have added : context.addSubroutine tree =
              (.error diagnostic, (context.addSubroutine tree).2) :=
            Prod.ext (by rw [step]; exact outcome) rfl
          refine .inr ⟨[], tree, rest, diagnostic, rfl, by simp, outcome,
            (context.addSubroutine tree).2, ?_, ?_⟩
          · rw [addSubroutines, added]
          · rw [step]
            rfl
      | ok =>
          -- The next context has the same class name and class scope.
          have added : context.addSubroutine tree = (.ok (), (context.addSubroutine tree).2) :=
            Prod.ext (by rw [step]; exact outcome) rfl
          have behind := inductionHypothesis (context.addSubroutine tree).2
          rw [step] at behind
          rw [addSubroutines, added]
          rcases behind with ⟨accepted, final, same, code⟩ |
            ⟨front, failing, back, diagnostic, rfl, accepted, refused, final, same, code⟩
          · refine .inl ⟨List.forall_mem_cons.mpr ⟨outcome, accepted⟩, final, ?_, ?_⟩
            · rw [← same, step]
            · rw [code, List.flatMap_cons, List.append_assoc]
          · refine .inr ⟨tree :: front, failing, back, diagnostic, rfl,
              List.forall_mem_cons.mpr ⟨outcome, accepted⟩, refused, final, ?_, ?_⟩
            · rw [← same, step]
            · rw [code, List.flatMap_cons, List.append_assoc, List.append_assoc]

/-- The same for a class, whose subroutines are lowered each in its own setting. -/
theorem addClass_cases (tree : ClassTree) :
    ((∀ subroutine ∈ tree.subroutines, (tree.emission subroutine).result = .ok ()) ∧
      ∃ final, ({} : Context).addClass tree = (.ok (), final) ∧
        final.code =
          tree.subroutines.flatMap fun subroutine => (tree.emission subroutine).code) ∨
    ∃ front failing back diagnostic, tree.subroutines = front ++ failing :: back ∧
      (∀ subroutine ∈ front, (tree.emission subroutine).result = .ok ()) ∧
      (tree.emission failing).result = .error diagnostic ∧
      ∃ final, ({} : Context).addClass tree = (.error diagnostic, final) ∧
        final.code = (front.flatMap fun subroutine => (tree.emission subroutine).code) ++
          (tree.emission failing).code := by
  have cases := addSubroutines_cases (({} : Context).declareClass tree) tree.subroutines
  rw [declareClass_eq_inClass] at cases
  rw [addClass, declareClass_eq_inClass]
  exact cases

end Lowering.Context

/-- A class is lowered if all of its subroutines are, each in its own setting; otherwise the
fault is that of one of them. -/
theorem lowerClass_cases (tree : ClassTree) :
    ((∀ subroutine ∈ tree.subroutines, (tree.emission subroutine).result = .ok ()) ∧
      lowerClass tree = .ok
        ⟨tree.name, tree.subroutines.flatMap fun subroutine => (tree.emission subroutine).code⟩) ∨
    ∃ subroutine ∈ tree.subroutines, ∃ diagnostic,
      (tree.emission subroutine).result = .error diagnostic ∧
      lowerClass tree = .error diagnostic := by
  rcases Lowering.Context.addClass_cases tree with ⟨accepted, final, same, code⟩ |
    ⟨front, failing, back, diagnostic, parts, _, refused, final, same, _⟩
  · refine .inl ⟨accepted, ?_⟩
    rw [lowerClass, same]
    simp only [code]
  · refine .inr ⟨failing, by simp [parts], diagnostic, refused, ?_⟩
    rw [lowerClass, same]

/-- The code of a class that is lowered. -/
theorem lowerClass_eq_ok_iff {tree : ClassTree} {compiled : CompiledClass} :
    lowerClass tree = .ok compiled ↔
      (∀ subroutine ∈ tree.subroutines, (tree.emission subroutine).result = .ok ()) ∧
      compiled = ⟨tree.name,
        tree.subroutines.flatMap fun subroutine => (tree.emission subroutine).code⟩ := by
  rcases lowerClass_cases tree with ⟨accepted, same⟩ | ⟨failing, member, diagnostic, refused, same⟩
  · rw [same, Except.ok.injEq]
    exact ⟨fun lowered => ⟨accepted, lowered.symm⟩, fun lowered => lowered.2.symm⟩
  · rw [same]
    constructor
    · intro lowered
      cases lowered
    · rintro ⟨accepted, -⟩
      rw [accepted failing member] at refused
      cases refused

/-! ## Functions of a class -/

namespace ClassTree

variable {tree : ClassTree} {subroutine : Subroutine}

def functionOf (tree : ClassTree) (subroutine : Subroutine) : Lowering.FunctionCode where
  name := Lowering.qualified tree.name subroutine.name
  locals := Lowering.localCount subroutine.body
  block := (tree.emission subroutine).code.tail

/-- The function of a subroutine that has code. -/
theorem isCodeOf_functionOf (succeeded : (tree.emission subroutine).result = .ok ()) :
    (tree.emission subroutine).code = (tree.functionOf subroutine).code ∧
      Lowering.IsCodeOf subroutine (tree.setting subroutine) (tree.functionOf subroutine) := by
  obtain ⟨-, bodyCode, bodyEmits, codeEq⟩ :=
    Lowering.emits_subroutine_iff.mp (Lowering.emits_of_result succeeded)
  have block : (tree.functionOf subroutine).block =
      Lowering.prologueCode subroutine.kind
        ((tree.setting subroutine).bindings.count .field) ++ bodyCode :=
    congrArg List.tail codeEq
  refine ⟨?_, rfl, rfl, bodyCode, _, bodyEmits, block⟩
  rw [Lowering.FunctionCode.code, block]
  exact codeEq

/-- The code of a class is the code of its functions, in the order of its subroutines. -/
theorem flatMap_code_functionOf
    (accepted : ∀ subroutine ∈ tree.subroutines, (tree.emission subroutine).result = .ok ()) :
    (tree.subroutines.flatMap fun subroutine => (tree.emission subroutine).code) =
      (tree.subroutines.map tree.functionOf).flatMap Lowering.FunctionCode.code := by
  rw [List.flatMap_map]
  exact List.flatMap_congr fun subroutine member =>
    (isCodeOf_functionOf (accepted subroutine member)).1

end ClassTree

end Jack
