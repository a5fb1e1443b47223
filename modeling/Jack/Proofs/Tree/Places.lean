import Jack.Token
import Jack.Tree

/-!
Contract: trees whose lines are those of tokens.

Owns: the lines that tokens stand on, the lines that a name stands on, and for every kind of
tree that each of its lines is the line of a token, and that of a variable the line of its
name.

Does not own: how trees are read, and which line a message names.
-/

set_option autoImplicit false

namespace Jack

def OnLine (tokens : Array Token) (line : Int) : Prop :=
  ∃ token ∈ tokens, (token.line : Int) = line

def NamedOn (tokens : Array Token) (name : Bytes) (line : Int) : Prop :=
  ∃ token ∈ tokens, token.kind = .identifier ∧ token.content = name ∧ (token.line : Int) = line

theorem NamedOn.onLine {tokens : Array Token} {name : Bytes} {line : Int}
    (named : NamedOn tokens name line) : OnLine tokens line := by
  obtain ⟨token, member, -, -, same⟩ := named
  exact ⟨token, member, same⟩

mutual

/-- All lines of the term are lines of tokens, and variables are on the lines of their names. -/
inductive Term.Anchored (tokens : Array Token) : Term → Prop where
  | integer {value line : Int} (here : OnLine tokens line) :
      Term.Anchored tokens (.integer value line)
  | string {value : Bytes} {line : Int} (here : OnLine tokens line) :
      Term.Anchored tokens (.string value line)
  | keyword {word : Bytes} {line : Int} (here : OnLine tokens line) :
      Term.Anchored tokens (.keyword word line)
  | name {name : Bytes} {line : Int} (named : NamedOn tokens name line) :
      Term.Anchored tokens (.name name line)
  | element {array : Bytes} {index : Expression} {line : Int}
      (named : NamedOn tokens array line) (inside : Expression.Anchored tokens index) :
      Term.Anchored tokens (.element array index line)
  | call {called : Call} (inside : Call.Anchored tokens called) :
      Term.Anchored tokens (.call called)
  | group {inner : Expression} {line : Int} (here : OnLine tokens line)
      (inside : Expression.Anchored tokens inner) : Term.Anchored tokens (.group inner line)
  | unary {operator : Operator} {operand : Term} {line : Int} (here : OnLine tokens line)
      (operates : OnLine tokens operator.line) (inside : Term.Anchored tokens operand) :
      Term.Anchored tokens (.unary operator operand line)

inductive Expression.Anchored (tokens : Array Token) : Expression → Prop where
  | mk {head : Term} {tail : List (Operator × Term)} (first : Term.Anchored tokens head)
      (operators : ∀ operation ∈ tail, OnLine tokens operation.1.line)
      (operands : ∀ operation ∈ tail, Term.Anchored tokens operation.2) :
      Expression.Anchored tokens (.mk head tail)

inductive Call.Anchored (tokens : Array Token) : Call → Prop where
  | mk {qualifier : Option Bytes} {name : Bytes} {arguments : List Expression} {line : Int}
      (here : OnLine tokens line)
      (inside : ∀ argument ∈ arguments, Expression.Anchored tokens argument) :
      Call.Anchored tokens (.mk qualifier name arguments line)

end

inductive Statement.Anchored (tokens : Array Token) : Statement → Prop where
  | letTo {target : Term} {value : Expression} {line : Int} (here : OnLine tokens line)
      (targetAnchored : target.Anchored tokens) (valueAnchored : value.Anchored tokens) :
      Statement.Anchored tokens (.letTo target value line)
  | ifElse {condition : Expression} {whenTrue : List Statement}
      {otherwise : Option (List Statement)} {line : Int} (here : OnLine tokens line)
      (test : condition.Anchored tokens)
      (inside : ∀ statement ∈ whenTrue, Statement.Anchored tokens statement)
      (other : ∀ block ∈ otherwise, ∀ statement ∈ block, Statement.Anchored tokens statement) :
      Statement.Anchored tokens (.ifElse condition whenTrue otherwise line)
  | whileDo {condition : Expression} {body : List Statement} {line : Int}
      (here : OnLine tokens line) (test : condition.Anchored tokens)
      (inside : ∀ statement ∈ body, Statement.Anchored tokens statement) :
      Statement.Anchored tokens (.whileDo condition body line)
  | doCall {called : Call} {line : Int} (here : OnLine tokens line)
      (inside : called.Anchored tokens) : Statement.Anchored tokens (.doCall called line)
  | giveBack {value : Option Expression} {line : Int} (here : OnLine tokens line)
      (inside : ∀ expression ∈ value, expression.Anchored tokens) :
      Statement.Anchored tokens (.giveBack value line)

/-- The lines of a subroutine that code depends on: its own and those of its statements. -/
structure Subroutine.Anchored (tokens : Array Token) (tree : Subroutine) : Prop where
  here : OnLine tokens tree.line
  inside : ∀ statement ∈ tree.body.statements, statement.Anchored tokens

end Jack
