import Jack.Proofs.Lowering.Settings
import Jack.Proofs.Tree.Renaming

/-!
Contract: names of variables matter only through what they stand for.

Owns: scopes, settings and steps that agree up to a renaming, and that the code of a renamed
class is the code of the class.

Does not own: the code of any construct.

Renaming keeps apart what was apart, so a name is declared again, hides another one or is
missing exactly if it was before. Code never holds the name of a variable, but the name of a
class in front of a call: there the renaming has to leave alone what is no variable.
-/

set_option autoImplicit false

namespace Jack

/-! ## Scopes -/

def Declaration.renamed (rename : Renaming) (declaration : Declaration) : Declaration :=
  { declaration with name := rename.map declaration.name }

def Binding.renamed (rename : Renaming) (binding : Binding) : Binding :=
  { binding with name := rename.map binding.name }

/-- Scopes that bind the same variables, under their old and their new names. -/
structure Scope.Renamed (rename : Renaming) (one other : Scope) : Prop where
  finds : ∀ name, other.find? (rename.map name) = (one.find? name).map (Binding.renamed rename)
  tally : other.tally = one.tally

namespace Scope.Renamed

variable {rename : Renaming} {one other : Scope}

/-- A declaration is the first of its name in both scopes or in none. -/
theorem declare (renamed : Renamed rename one other) (name : Bytes) (storage : Storage)
    (type : Bytes) :
    Renamed rename (one.declare name storage type).2
      (other.declare (rename.map name) storage type).2 := by
  have found := renamed.finds name
  cases bound : one.find? name with
  | some binding =>
      rw [bound] at found
      rwa [declare_of_bound bound, declare_of_bound found]
  | none =>
      rw [bound] at found
      constructor
      · intro queried
        by_cases same : name = queried
        · subst same
          rw [find?_declare_self bound, find?_declare_self found, renamed.tally]
          rfl
        · have differs : rename.map name ≠ rename.map queried := fun equal =>
            same (rename.injective equal)
          rw [find?_declare_other same, find?_declare_other differs, renamed.finds]
      · rw [Scope.declare, Scope.declare, bound, found]
        exact congrArg (fun tally : Tally => tally.increment storage) renamed.tally

/-- A renaming keeps names apart, so the same declarations are the first of their name. -/
theorem declareAll (renamed : Renamed rename one other) (declarations : List Declaration) :
    Renamed rename (one.declareAll declarations)
      (other.declareAll (declarations.map (Declaration.renamed rename))) := by
  induction declarations generalizing one other with
  | nil => exact renamed
  | cons first rest inductionHypothesis =>
      exact inductionHypothesis (renamed.declare first.name first.storage first.type)

theorem ofDeclarations (rename : Renaming) (declarations : List Declaration) :
    Renamed rename (Scope.ofDeclarations declarations)
      (Scope.ofDeclarations (declarations.map (Declaration.renamed rename))) := by
  refine declareAll ⟨fun name => ?_, rfl⟩ declarations
  simp [find?]

end Scope.Renamed

theorem VariableList.declarations_renamed (rename : Renaming) (storage : Storage)
    (list : VariableList) :
    (list.renamed rename).declarations storage =
      (list.declarations storage).map (Declaration.renamed rename) := by
  rw [declarations, renamed, declarations, List.map_map, List.map_map]
  rfl

/-- The receiver keeps its name under every renaming, since `this` does. -/
theorem Subroutine.declared_renamed (rename : Renaming) (tree : Subroutine)
    (className : Bytes) :
    (tree.renamed rename).declared className =
      (tree.declared className).map (Declaration.renamed rename) := by
  have receiver : (tree.kind.receiver className).map (Declaration.renamed rename) =
      tree.kind.receiver className := by
    cases tree.kind with
    | method =>
        simp only [SubroutineKind.receiver, List.map_cons, List.map_nil, Declaration.renamed,
          rename.receiver]
    | constructor | function => rfl
  have parameters :
      (tree.parameters.map (Parameter.renamed rename)).map Parameter.declaration =
        (tree.parameters.map Parameter.declaration).map (Declaration.renamed rename) := by
    rw [List.map_map, List.map_map]
    rfl
  have locals :
      (tree.body.locals.map (VariableList.renamed rename)).flatMap
          (VariableList.declarations .local) =
        (tree.body.locals.flatMap (VariableList.declarations .local)).map
          (Declaration.renamed rename) := by
    rw [List.flatMap_map, List.map_flatMap]
    exact List.flatMap_congr fun list _ => list.declarations_renamed rename .local
  rw [declared, declared, ownDeclared, ownDeclared, List.map_append, List.map_append, receiver,
    ← parameters, ← locals]
  rfl

theorem ClassTree.declared_renamed (rename : Renaming) (tree : ClassTree) :
    (tree.renamed rename).declared = tree.declared.map (Declaration.renamed rename) := by
  rw [declared, declared, renamed, List.flatMap_map, List.map_flatMap]
  exact List.flatMap_congr fun declaration _ =>
    declaration.list.declarations_renamed rename _

/-! ## Faults -/

/-- The fault about a variable under its new name. -/
def CodegenFault.renamed (rename : Renaming) : CodegenFault → CodegenFault
  | .undeclared name => .undeclared (rename.map name)
  | .unknownOperator symbol => .unknownOperator symbol
  | .unknownUnaryOperator symbol => .unknownUnaryOperator symbol
  | .unknownKeywordConstant word => .unknownKeywordConstant word
  | .invalidTarget target => .invalidTarget target
  | .invalidInstruction instruction flaw => .invalidInstruction instruction flaw

def Diagnostic.renamed (rename : Renaming) (diagnostic : Diagnostic) : Diagnostic :=
  match diagnostic.cause with
  | .codegen fault => { diagnostic with cause := .codegen (fault.renamed rename) }
  | .lexical _ | .syntactic _ => diagnostic

namespace Lowering

open Emit Machine

variable {Value Other : Type} {rename : Renaming}

/-! ## Steps -/

/-- Settings that differ in the names of variables. -/
structure Setting.Renamed (rename : Renaming) (one other : Setting) : Prop where
  className : other.className = one.className
  hasReceiver : other.hasReceiver = one.hasReceiver
  fields : other.bindings.count .field = one.bindings.count .field
  resolves : ∀ name, other.bindings.resolve? (rename.map name) =
    (one.bindings.resolve? name).map (Binding.renamed rename)

/-- The same code and labels, and the value or the fault renamed. -/
def Emission.renamed (rename : Renaming) (onValue : Value → Value) (emission : Emission Value) :
    Emission Value :=
  { emission with
    result := (emission.result.map onValue).mapError (Diagnostic.renamed rename) }

/-- Steps that emit the same, the one in the old setting and the other in the new one. -/
def Emit.Renamed (rename : Renaming) (one other : Setting) (onValue : Value → Value)
    (step otherStep : Emit Value) : Prop :=
  ∀ label, otherStep other label = (step one label).renamed rename onValue

section Steps

variable {one other : Setting}

/-- Two steps in two settings stay alike if the second ones do on renamed values. -/
theorem Emit.Renamed.bind {onValue : Value → Value} {onOther : Other → Other}
    {step otherStep : Emit Value} {second otherSecond : Value → Emit Other}
    (first : Emit.Renamed rename one other onValue step otherStep)
    (rest : ∀ value,
      Emit.Renamed rename one other onOther (second value) (otherSecond (onValue value))) :
    Emit.Renamed rename one other onOther (step >>= second) (otherStep >>= otherSecond) := by
  intro label
  change andThen otherStep otherSecond other label =
    (andThen step second one label).renamed rename onOther
  unfold andThen
  rw [first label]
  generalize step one label = before
  obtain ⟨code, nextLabel, result⟩ := before
  cases result with
  | error diagnostic => rfl
  | ok value =>
      simp only [Emission.renamed, Except.map, Except.mapError]
      rw [rest value nextLabel]
      rfl

/-- A step, and then one that does not depend on it. -/
theorem Emit.Renamed.next {onOther : Other → Other} {step otherStep : Emit Unit}
    {second otherSecond : Emit Other}
    (first : Emit.Renamed rename one other id step otherStep)
    (rest : Emit.Renamed rename one other onOther second otherSecond) :
    Emit.Renamed rename one other onOther (do step; second) (do otherStep; otherSecond) :=
  first.bind fun _ => rest

/-- A step that depends on the setting is compared in the two settings only. -/
theorem setting_renamed {onValue : Value → Value} {step otherStep : Setting → Emit Value}
    (rest : Emit.Renamed rename one other onValue (step one) (otherStep other)) :
    Emit.Renamed rename one other onValue (setting >>= step) (setting >>= otherStep) :=
  rest

theorem pure_renamed (value : Value) :
    Emit.Renamed rename one other id (pure value) (pure value) :=
  fun _ => rfl

theorem append_renamed (code : List Instruction) :
    Emit.Renamed rename one other id (append code) (append code) :=
  fun _ => rfl

theorem labels_renamed (first second : Bytes) :
    Emit.Renamed rename one other id (labels first second) (labels first second) :=
  fun _ => rfl

/-- A fault that is not about a variable. -/
theorem fail_renamed {fault : CodegenFault} (same : fault.renamed rename = fault) (line : Int) :
    Emit.Renamed rename one other id (fail fault line : Emit Value) (fail fault line) := by
  intro label
  simp only [fail, Emission.renamed, Except.map, Except.mapError, Diagnostic.renamed, same]

/-- Instructions hold no names of variables, so nothing changes. -/
theorem checked_renamed (instruction : Instruction) (line : Int) :
    Emit.Renamed rename one other id (checked instruction line) (checked instruction line) := by
  unfold checked
  cases instruction.flaw? with
  | some flaw => exact fail_renamed rfl line
  | none => exact append_renamed _

theorem binary_renamed (operator : Operator) :
    Emit.Renamed rename one other id (binary operator) (binary operator) := by
  unfold binary
  cases binaryInstruction? operator.symbol with
  | some instruction => exact append_renamed _
  | none => exact fail_renamed rfl _

theorem unary_renamed (operator : Operator) :
    Emit.Renamed rename one other id (unary operator) (unary operator) := by
  unfold unary
  split
  · exact append_renamed _
  · split
    · exact append_renamed _
    · exact fail_renamed rfl _

theorem keyword_renamed (word : Bytes) (line : Int) :
    Emit.Renamed rename one other id (keyword word line) (keyword word line) := by
  unfold keyword
  split
  · exact (checked_renamed _ line).next (append_renamed _)
  · split
    · exact checked_renamed _ line
    · split
      · exact checked_renamed _ line
      · exact fail_renamed rfl line

theorem string_renamed (value : Bytes) (line : Int) :
    Emit.Renamed rename one other id (string value line) (string value line) :=
  (checked_renamed _ line).next ((append_renamed _).next (append_renamed _))

/-! ## Steps that look at the setting -/

variable (renamed : Setting.Renamed rename one other)

include renamed

/-- A name is found in the old setting if its new name is found in the new one, with the same
slot. -/
theorem resolve_renamed (name : Bytes) (line : Int) :
    Emit.Renamed rename one other (Binding.renamed rename) (resolve name line)
      (resolve (rename.map name) line) := by
  refine setting_renamed ?_
  rw [renamed.resolves name]
  cases one.bindings.resolve? name with
  | none => exact fun _ => rfl
  | some binding => exact fun _ => rfl

theorem elementAddress_renamed (array : Bytes) {index otherIndex : Emit Unit}
    (inner : Emit.Renamed rename one other id index otherIndex) (line : Int) :
    Emit.Renamed rename one other id (elementAddress array index line)
      (elementAddress (rename.map array) otherIndex line) :=
  (resolve_renamed renamed array line).bind fun _ =>
    inner.next ((checked_renamed _ line).next (append_renamed _))

/-- A qualifier that is no variable has to keep its name, for it is in the code. -/
theorem receiver_renamed {qualifier : Option Bytes}
    (kept : ∀ word ∈ qualifier, one.bindings.resolve? word = none → rename.map word = word)
    (name : Bytes) (line : Int) :
    Emit.Renamed rename one other id (receiver qualifier name line)
      (receiver (qualifier.map rename.map) name line) := by
  refine setting_renamed ?_
  cases qualifier with
  | none =>
      simp only [Option.map_none, renamed.className, renamed.hasReceiver]
      split
      · exact (checked_renamed _ line).next (pure_renamed _)
      · exact pure_renamed _
  | some word =>
      simp only [Option.map_some, renamed.resolves word]
      cases resolved : one.bindings.resolve? word with
      | none =>
          simp only [Option.map_none, kept word rfl resolved]
          exact pure_renamed _
      | some binding => exact (checked_renamed _ line).next (pure_renamed _)

theorem prologue_renamed (kind : SubroutineKind) (line : Int) :
    Emit.Renamed rename one other id (prologue kind line) (prologue kind line) := by
  cases kind with
  | constructor =>
      refine setting_renamed ?_
      rw [renamed.fields]
      exact (checked_renamed _ line).next ((append_renamed _).next (checked_renamed _ line))
  | method => exact (checked_renamed _ line).next (checked_renamed _ line)
  | function => exact pure_renamed _

end Steps

/-! ## Constructs -/

section Constructs

variable {one other : Setting}

/-- Whether the qualifiers among mentions that are no variables keep their names. -/
def Setting.Keeps (rename : Renaming) (setting : Setting) (mentions : List Mention) : Prop :=
  ∀ word ∈ Mention.qualifiers mentions,
    setting.bindings.resolve? word = none → rename.map word = word

theorem keeps_append {front back : List Mention} :
    one.Keeps rename (front ++ back) ↔ one.Keeps rename front ∧ one.Keeps rename back := by
  rw [Setting.Keeps, Mention.qualifiers_append, List.forall_mem_append]
  rfl

mutual

/-- A renamed term has the same code in the renamed setting. -/
theorem term_renamed (renamed : Setting.Renamed rename one other) :
    (tree : Term) → one.Keeps rename tree.mentions →
    Emit.Renamed rename one other id (term tree) (term (tree.renamed rename))
  | .integer value line, _ => by
      simp only [Term.renamed, term]
      exact checked_renamed _ line
  | .string value line, _ => by
      simp only [Term.renamed, term]
      exact string_renamed value line
  | .keyword word line, _ => by
      simp only [Term.renamed, term]
      exact keyword_renamed word line
  | .name name line, _ => by
      simp only [Term.renamed, term]
      exact (resolve_renamed renamed name line).bind fun _ => checked_renamed _ line
  | .element array index line, kept => by
      simp only [Term.mentions, keeps_append] at kept
      simp only [Term.renamed, term]
      have indexRenamed := expression_renamed renamed index kept.1
      exact (elementAddress_renamed renamed array indexRenamed line).next
        ((checked_renamed _ line).next (checked_renamed _ line))
  | .call called, kept => by
      rw [Term.mentions] at kept
      simp only [Term.renamed, term]
      exact call_renamed renamed called kept
  | .group inner _, kept => by
      rw [Term.mentions] at kept
      simp only [Term.renamed, term]
      exact expression_renamed renamed inner kept
  | .unary operator operand _, kept => by
      rw [Term.mentions] at kept
      simp only [Term.renamed, term]
      exact (term_renamed renamed operand kept).next (unary_renamed operator)

theorem expression_renamed (renamed : Setting.Renamed rename one other) :
    (tree : Expression) → one.Keeps rename tree.mentions →
    Emit.Renamed rename one other id (expression tree) (expression (tree.renamed rename))
  | .mk head tail, kept => by
      simp only [Expression.mentions, keeps_append] at kept
      simp only [Expression.renamed, expression]
      exact (term_renamed renamed head kept.1).next (operations_renamed renamed tail kept.2)

theorem operations_renamed (renamed : Setting.Renamed rename one other) :
    (tail : List (Operator × Term)) →
    one.Keeps rename (Expression.tailMentions tail) →
    Emit.Renamed rename one other id (operations tail)
      (operations (Expression.tailRenamed rename tail))
  | [], _ => by
      simp only [Expression.tailRenamed, operations]
      exact pure_renamed _
  | (operator, operand) :: rest, kept => by
      simp only [Expression.tailMentions, keeps_append] at kept
      simp only [Expression.tailRenamed, operations]
      exact (term_renamed renamed operand kept.1).next
        ((binary_renamed operator).next (operations_renamed renamed rest kept.2))

/-- A qualifier that is a variable is renamed; one that is a class has to keep its name. -/
theorem call_renamed (renamed : Setting.Renamed rename one other) :
    (tree : Call) → one.Keeps rename tree.mentions →
    Emit.Renamed rename one other id (call tree) (call (tree.renamed rename))
  | .mk qualifier name arguments line, kept => by
      simp only [Call.mentions, keeps_append] at kept
      have keptQualifier : ∀ word ∈ qualifier,
          one.bindings.resolve? word = none → rename.map word = word := by
        rintro word rfl
        exact kept.1 word (List.mem_singleton_self word)
      simp only [Call.renamed, call, Expression.length_allRenamed]
      exact (receiver_renamed renamed keptQualifier name line).bind fun _ =>
        (expressions_renamed renamed arguments kept.2).next (append_renamed _)

theorem expressions_renamed (renamed : Setting.Renamed rename one other) :
    (trees : List Expression) →
    one.Keeps rename (Expression.allMentions trees) →
    Emit.Renamed rename one other id (expressions trees)
      (expressions (Expression.allRenamed rename trees))
  | [], _ => by
      simp only [Expression.allRenamed, expressions]
      exact pure_renamed _
  | first :: rest, kept => by
      simp only [Expression.allMentions, keeps_append] at kept
      simp only [Expression.allRenamed, expressions]
      exact (expression_renamed renamed first kept.1).next (expressions_renamed renamed rest kept.2)

end

theorem assignment_renamed (renamed : Setting.Renamed rename one other)
    {target : Term} {value : Expression}
    (kept : one.Keeps rename (target.targetMentions value.mentions)) (line : Int) :
    Emit.Renamed rename one other id (assignment target value line)
      (assignment (target.renamed rename) (value.renamed rename) line) := by
  cases target with
  | name name targetLine =>
      simp only [Term.targetMentions, keeps_append] at kept
      simp only [Term.renamed, assignment]
      exact (resolve_renamed renamed name targetLine).bind fun _ =>
        (expression_renamed renamed value kept.1).next (checked_renamed _ line)
  | element array index targetLine =>
      simp only [Term.targetMentions, Term.mentions, keeps_append] at kept
      have inner := expression_renamed renamed index kept.1.1
      simp only [Term.renamed, assignment]
      exact (elementAddress_renamed renamed array inner targetLine).next
        ((expression_renamed renamed value kept.2).next ((checked_renamed _ line).next
          ((checked_renamed _ line).next ((checked_renamed _ line).next
            (checked_renamed _ line)))))
  | integer | string | keyword | call | group | unary =>
      simp only [Term.renamed, assignment]
      exact fail_renamed rfl line

mutual

theorem statement_renamed (renamed : Setting.Renamed rename one other) :
    (tree : Statement) → one.Keeps rename tree.mentions →
    Emit.Renamed rename one other id (statement tree) (statement (tree.renamed rename))
  | .letTo target value line, kept => by
      rw [Statement.mentions] at kept
      simp only [Statement.renamed, statement]
      exact assignment_renamed renamed kept line
  | .ifElse condition whenTrue otherwise _, kept => by
      simp only [Statement.mentions, keeps_append] at kept
      simp only [Statement.renamed, statement]
      exact (expression_renamed renamed condition kept.1).next
        ((labels_renamed _ _).bind fun _ => (append_renamed _).next
          ((alternative_renamed renamed otherwise kept.2.1).next ((append_renamed _).next
            ((statements_renamed renamed whenTrue kept.2.2).next (append_renamed _)))))
  | .whileDo condition body _, kept => by
      simp only [Statement.mentions, keeps_append] at kept
      simp only [Statement.renamed, statement]
      exact (labels_renamed _ _).bind fun _ => (append_renamed _).next
        ((expression_renamed renamed condition kept.1).next ((append_renamed _).next
          ((statements_renamed renamed body kept.2).next (append_renamed _))))
  | .doCall called line, kept => by
      rw [Statement.mentions] at kept
      simp only [Statement.renamed, statement]
      exact (call_renamed renamed called kept).next (checked_renamed _ line)
  | .giveBack none line, _ => by
      simp only [Statement.renamed, Option.map_none, statement]
      exact (checked_renamed _ line).next (append_renamed _)
  | .giveBack (some value) _, kept => by
      rw [Statement.mentions] at kept
      simp only [Statement.renamed, Option.map_some, statement]
      exact (expression_renamed renamed value kept).next (append_renamed _)

theorem statements_renamed (renamed : Setting.Renamed rename one other) :
    (trees : List Statement) →
    one.Keeps rename (Statement.allMentions trees) →
    Emit.Renamed rename one other id (statements trees)
      (statements (Statement.allRenamed rename trees))
  | [], _ => by
      simp only [Statement.allRenamed, statements]
      exact pure_renamed _
  | first :: rest, kept => by
      simp only [Statement.allMentions, keeps_append] at kept
      simp only [Statement.allRenamed, statements]
      exact (statement_renamed renamed first kept.1).next (statements_renamed renamed rest kept.2)

theorem alternative_renamed (renamed : Setting.Renamed rename one other) :
    (otherwise : Option (List Statement)) →
    one.Keeps rename (Statement.elseMentions otherwise) →
    Emit.Renamed rename one other id (alternative otherwise)
      (alternative (Statement.elseRenamed rename otherwise))
  | none, _ => by
      simp only [Statement.elseRenamed, alternative]
      exact pure_renamed _
  | some body, kept => by
      rw [Statement.elseMentions] at kept
      simp only [Statement.elseRenamed, alternative]
      exact statements_renamed renamed body kept

end

theorem subroutine_renamed (renamed : Setting.Renamed rename one other) {tree : Subroutine}
    (kept : one.Keeps rename tree.mentions) :
    Emit.Renamed rename one other id (subroutine tree) (subroutine (tree.renamed rename)) := by
  have count : localCount (tree.renamed rename).body = localCount tree.body := by
    simp [localCount, Subroutine.renamed, SubroutineBody.renamed, List.flatMap_map,
      VariableList.renamed]
  refine setting_renamed ?_
  rw [count, renamed.className]
  exact (checked_renamed _ tree.line).next ((prologue_renamed renamed tree.kind tree.line).next
    (statements_renamed renamed tree.body.statements kept))

end Constructs

end Lowering

/-! ## Classes -/

/-- The setting of a renamed subroutine is the renamed one. -/
theorem Subroutine.settingIn_renamed {rename : Renaming} {ofClass otherOfClass : Scope}
    (renamed : Scope.Renamed rename ofClass otherOfClass) (tree : Subroutine)
    (className : Bytes) :
    Lowering.Setting.Renamed rename (tree.settingIn className ofClass)
      ((tree.renamed rename).settingIn className otherOfClass) where
  className := rfl
  hasReceiver := rfl
  fields := congrArg Tally.fields renamed.tally
  resolves := by
    intro name
    have own := (Scope.Renamed.ofDeclarations rename (tree.declared className)).finds name
    simp only [settingIn, Bindings.resolve?, declared_renamed, own, renamed.finds, Option.map_or]

namespace Lowering.Context

variable {rename : Renaming}

/-- Contexts between two subroutines that differ in the names of variables. -/
structure Renamed (rename : Renaming) (one other : Context) : Prop where
  className : other.className = one.className
  ofClass : Scope.Renamed rename one.bindings.ofClass other.bindings.ofClass
  code : other.code = one.code

/-- A subroutine that is renamed adds the same code to a renamed context. -/
theorem Renamed.addSubroutine {one other : Context} (renamed : Renamed rename one other)
    {tree : Subroutine}
    (kept : (tree.settingIn one.className one.bindings.ofClass).Keeps rename tree.mentions) :
    (other.addSubroutine (tree.renamed rename)).1 =
        (one.addSubroutine tree).1.mapError (Diagnostic.renamed rename) ∧
      Renamed rename (one.addSubroutine tree).2 (other.addSubroutine (tree.renamed rename)).2 := by
  have settings := tree.settingIn_renamed renamed.ofClass one.className
  have same := subroutine_renamed settings kept 0
  rw [addSubroutine_eq, addSubroutine_eq, renamed.className]
  dsimp only
  rw [same]
  generalize subroutine tree (tree.settingIn one.className one.bindings.ofClass) 0 = emission
  obtain ⟨code, nextLabel, result⟩ := emission
  constructor
  · cases result <;> rfl
  · exact ⟨rfl, renamed.ofClass, congrArg (· ++ code) renamed.code⟩

/-- Subroutines are lowered one after the other; the names of one do not reach the next. -/
theorem Renamed.addSubroutines {one other : Context} (renamed : Renamed rename one other)
    {trees : List Subroutine}
    (kept : ∀ tree ∈ trees,
      (tree.settingIn one.className one.bindings.ofClass).Keeps rename tree.mentions) :
    (other.addSubroutines (trees.map (Subroutine.renamed rename))).1 =
        (one.addSubroutines trees).1.mapError (Diagnostic.renamed rename) ∧
      Renamed rename (one.addSubroutines trees).2
        (other.addSubroutines (trees.map (Subroutine.renamed rename))).2 := by
  induction trees generalizing one other with
  | nil => exact ⟨rfl, renamed⟩
  | cons tree rest inductionHypothesis =>
      obtain ⟨firstKept, restKept⟩ := List.forall_mem_cons.mp kept
      obtain ⟨result, behind⟩ := renamed.addSubroutine firstKept
      -- The settings of the subroutines that follow are the same behind this one.
      have className : (one.addSubroutine tree).2.className = one.className := by
        rw [addSubroutine_eq]
      have ofClass : (one.addSubroutine tree).2.bindings.ofClass = one.bindings.ofClass := by
        rw [addSubroutine_eq]
      rw [← className, ← ofClass] at restKept
      rw [List.map_cons, Context.addSubroutines, Context.addSubroutines]
      generalize one.addSubroutine tree = added at result behind restKept ⊢
      generalize other.addSubroutine (tree.renamed rename) = otherAdded at result behind ⊢
      obtain ⟨outcome, final⟩ := added
      obtain ⟨otherOutcome, otherFinal⟩ := otherAdded
      dsimp only at result behind restKept
      subst result
      cases outcome with
      | error diagnostic => exact ⟨rfl, behind⟩
      | ok => exact inductionHypothesis behind restKept

/-- A class and the class with its variables renamed have the same code, up to a fault if there
is one. They fail alike, and the fault is the same but for the name of an undeclared variable.
Only a qualifier that stands for no variable where it is used has to keep its name. -/
theorem addClass_renamed {tree : ClassTree}
    (kept : ∀ subroutine ∈ tree.subroutines, ∀ qualifier ∈ subroutine.qualifiers,
      (tree.setting subroutine).bindings.resolve? qualifier = none →
        rename.map qualifier = qualifier) :
    let before := ({} : Context).addClass tree
    let after := ({} : Context).addClass (tree.renamed rename)
    (after.1 = .ok () ↔ before.1 = .ok ()) ∧ after.2.code = before.2.code ∧
      ∀ diagnostic, before.1 = .error diagnostic →
        after.1 = .error (diagnostic.renamed rename) := by
  intro before after
  have declared : Renamed rename (({} : Context).declareClass tree)
      (({} : Context).declareClass (tree.renamed rename)) := by
    rw [declareClass_eq_inClass, declareClass_eq_inClass, ClassTree.declared_renamed]
    exact ⟨rfl, Scope.Renamed.ofDeclarations rename tree.declared, rfl⟩
  have keptInSetting : ∀ subroutine ∈ tree.subroutines,
      (subroutine.settingIn (({} : Context).declareClass tree).className
        (({} : Context).declareClass tree).bindings.ofClass).Keeps rename
          subroutine.mentions := by
    rw [declareClass_eq_inClass]
    exact kept
  obtain ⟨result, final⟩ := declared.addSubroutines keptInSetting
  have outcome : after.1 = before.1.mapError (Diagnostic.renamed rename) := result
  refine ⟨?_, final.code, ?_⟩
  · rw [outcome]
    cases before.1 with
    | ok => exact Iff.rfl
    | error diagnostic => simp [Except.mapError]
  · intro diagnostic failed
    rw [outcome, failed]
    rfl

/-- A field `x` and a static `y`. A method hides them by a parameter `y`, which it declares
twice, and a local `x`; a function uses them. -/
def hidingClass : ClassTree where
  name := utf8 "A"
  declarations :=
    [⟨.field, ⟨utf8 "Point", [utf8 "x"], 1⟩⟩, ⟨.static, ⟨utf8 "Array", [utf8 "y", utf8 "x"], 1⟩⟩]
  subroutines :=
    [{ kind := .method, result := utf8 "void", name := utf8 "f"
       parameters := [⟨utf8 "Point", utf8 "y"⟩, ⟨utf8 "int", utf8 "y"⟩]
       body := {
         locals := [⟨utf8 "Array", [utf8 "x"], 2⟩]
         statements :=
           [.letTo (.element (utf8 "x") (.mk (.integer 1 3) []) 3)
              (.mk (.call (.mk (some (utf8 "y")) (utf8 "size") [] 3)) []) 3,
             .doCall (.mk (some (utf8 "Output")) (utf8 "print")
               [.mk (.name (utf8 "x") 4) []] 4) 4,
             .giveBack none 5] }
       line := 2 },
     { kind := .function, result := utf8 "int", name := utf8 "g", parameters := []
       body := {
         locals := []
         statements :=
           [.letTo (.name (utf8 "y") 7) (.mk (.name (utf8 "x") 7) []) 7,
             .doCall (.mk (some (utf8 "x")) (utf8 "draw") [] 8) 8,
             .giveBack (some (.mk (.name (utf8 "y") 9) [])) 9] }
       line := 6 }]
  line := 1

theorem x_ne_nil : utf8 "x" ≠ [] := by decide

theorem y_ne_nil : utf8 "y" ≠ [] := by decide

/-- The names `x` and `y` exchanged. -/
def exchanged : Equiv.Perm { name : Bytes // name ≠ [] } :=
  Equiv.swap ⟨utf8 "x", x_ne_nil⟩ ⟨utf8 "y", y_ne_nil⟩

theorem exchanged_receiver :
    exchanged ⟨utf8 "this", receiver_ne_nil⟩ = ⟨utf8 "this", receiver_ne_nil⟩ := by
  decide

def exchange : Renaming :=
  .ofPerm exchanged exchanged_receiver

/-- The names `x` and `y` exchanged, where they hide each other. -/
theorem hiding_renamed :
    (∀ subroutine ∈ hidingClass.subroutines, ∀ qualifier ∈ subroutine.qualifiers,
      (hidingClass.setting subroutine).bindings.resolve? qualifier = none →
        exchange.map qualifier = qualifier) ∧
    (({} : Context).addClass hidingClass).1 = .ok () ∧
    (({} : Context).addClass (hidingClass.renamed exchange)).1 = .ok () ∧
    (({} : Context).addClass (hidingClass.renamed exchange)).2.code =
      (({} : Context).addClass hidingClass).2.code := by
  have kept : ∀ subroutine ∈ hidingClass.subroutines, ∀ qualifier ∈ subroutine.qualifiers,
      (hidingClass.setting subroutine).bindings.resolve? qualifier = none →
        exchange.map qualifier = qualifier := by decide +kernel
  have accepted : (({} : Context).addClass hidingClass).1 = .ok () := by decide +kernel
  obtain ⟨alike, code, -⟩ := addClass_renamed kept
  exact ⟨kept, accepted, alike.mpr accepted, code⟩

end Lowering.Context

end Jack
