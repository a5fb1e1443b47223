import Jack.Proofs.Tree.Mentions
import Mathlib.Algebra.Group.End

/-!
Contract: other names for the variables of a program.

Owns: renamings, the tree in which every variable has its new name, and the qualifiers of
calls.

Does not own: what a name stands for.

A variable is named where it is declared, alone as a term or as a target, in front of an
index, and as the qualifier of a call. Types, classes and subroutines keep their names.
-/

set_option autoImplicit false

namespace Jack

/-- New names for variables, different ones for different variables. The receiver of a method
is declared without being named in the tree, so its name stays. -/
structure Renaming where
  map : Bytes → Bytes
  injective : Function.Injective map
  receiver : map (utf8 "this") = utf8 "this"

theorem receiver_ne_nil : utf8 "this" ≠ [] := by decide

/-- A bijection of the non-empty names is a renaming that leaves the empty name alone. -/
def Renaming.ofPerm (names : Equiv.Perm { name : Bytes // name ≠ [] })
    (receiver : names ⟨utf8 "this", receiver_ne_nil⟩ = ⟨utf8 "this", receiver_ne_nil⟩) :
    Renaming where
  map := Equiv.Perm.ofSubtype names
  injective := (Equiv.Perm.ofSubtype names).injective
  receiver := by
    rw [Equiv.Perm.ofSubtype_apply_of_mem names receiver_ne_nil, receiver]

/-! ## Trees -/

mutual

def Term.renamed (rename : Renaming) : Term → Term
  | .integer value line => .integer value line
  | .string value line => .string value line
  | .keyword word line => .keyword word line
  | .name name line => .name (rename.map name) line
  | .element array index line => .element (rename.map array) (index.renamed rename) line
  | .call called => .call (called.renamed rename)
  | .group inner line => .group (inner.renamed rename) line
  | .unary operator operand line => .unary operator (operand.renamed rename) line

def Expression.renamed (rename : Renaming) : Expression → Expression
  | .mk head tail => .mk (head.renamed rename) (Expression.tailRenamed rename tail)

def Expression.tailRenamed (rename : Renaming) :
    List (Operator × Term) → List (Operator × Term)
  | [] => []
  | (operator, operand) :: rest =>
      (operator, operand.renamed rename) :: Expression.tailRenamed rename rest

def Call.renamed (rename : Renaming) : Call → Call
  | .mk qualifier name arguments line =>
      .mk (qualifier.map rename.map) name (Expression.allRenamed rename arguments) line

def Expression.allRenamed (rename : Renaming) : List Expression → List Expression
  | [] => []
  | first :: rest => first.renamed rename :: Expression.allRenamed rename rest

end

theorem Expression.length_allRenamed (rename : Renaming) (trees : List Expression) :
    (allRenamed rename trees).length = trees.length := by
  induction trees with
  | nil => rw [allRenamed]
  | cons first rest inductionHypothesis =>
      rw [allRenamed, List.length_cons, inductionHypothesis, List.length_cons]

mutual

def Statement.renamed (rename : Renaming) : Statement → Statement
  | .letTo target value line => .letTo (target.renamed rename) (value.renamed rename) line
  | .ifElse condition whenTrue otherwise line =>
      .ifElse (condition.renamed rename) (Statement.allRenamed rename whenTrue)
        (Statement.elseRenamed rename otherwise) line
  | .whileDo condition body line =>
      .whileDo (condition.renamed rename) (Statement.allRenamed rename body) line
  | .doCall called line => .doCall (called.renamed rename) line
  | .giveBack value line => .giveBack (value.map (Expression.renamed rename)) line

def Statement.allRenamed (rename : Renaming) : List Statement → List Statement
  | [] => []
  | first :: rest => first.renamed rename :: Statement.allRenamed rename rest

def Statement.elseRenamed (rename : Renaming) :
    Option (List Statement) → Option (List Statement)
  | none => none
  | some body => some (Statement.allRenamed rename body)

end

def VariableList.renamed (rename : Renaming) (list : VariableList) : VariableList :=
  { list with names := list.names.map rename.map }

def ClassVariables.renamed (rename : Renaming) (declaration : ClassVariables) :
    ClassVariables :=
  { declaration with list := declaration.list.renamed rename }

def Parameter.renamed (rename : Renaming) (parameter : Parameter) : Parameter :=
  { parameter with name := rename.map parameter.name }

def SubroutineBody.renamed (rename : Renaming) (body : SubroutineBody) : SubroutineBody where
  locals := body.locals.map (VariableList.renamed rename)
  statements := Statement.allRenamed rename body.statements

def Subroutine.renamed (rename : Renaming) (tree : Subroutine) : Subroutine :=
  { tree with
    parameters := tree.parameters.map (Parameter.renamed rename)
    body := tree.body.renamed rename }

def ClassTree.renamed (rename : Renaming) (tree : ClassTree) : ClassTree :=
  { tree with
    declarations := tree.declarations.map (ClassVariables.renamed rename)
    subroutines := tree.subroutines.map (Subroutine.renamed rename) }

/-! ## Qualifiers -/

/-- The name in front of a call, if that is what is mentioned. -/
def Mention.qualifier? : Mention → Option Bytes
  | .name .qualifier word => some word
  | .name .value _ | .name .base _ | .name .target _ | .string _ => none

def Mention.qualifiers (mentions : List Mention) : List Bytes :=
  mentions.filterMap Mention.qualifier?

theorem Mention.qualifiers_append (front back : List Mention) :
    qualifiers (front ++ back) = qualifiers front ++ qualifiers back :=
  List.filterMap_append

def Subroutine.qualifiers (tree : Subroutine) : List Bytes :=
  Mention.qualifiers tree.mentions

end Jack
