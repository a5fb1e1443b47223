import Jack.Text.Bytes

/-!
Contract: syntax trees of programs.

Owns: classes, subroutines, statements, expressions and terms, each with the line
that messages about it name.

Does not own: which trees are written by some program. A tree can hold any name,
number, operator or keyword.
-/

set_option autoImplicit false

namespace Jack

structure Operator where
  symbol : Bytes
  line : Int
deriving DecidableEq, Repr

mutual

inductive Term where
  | integer (value : Int) (line : Int)
  | string (value : Bytes) (line : Int)
  | keyword (word : Bytes) (line : Int)
  | name (name : Bytes) (line : Int)
  | element (array : Bytes) (index : Expression) (line : Int)
  | call (call : Call)
  | group (inner : Expression) (line : Int)
  | unary (operator : Operator) (operand : Term) (line : Int)

/-- A chain of terms with operators between them. No operator binds closer than
another: the chain is evaluated from left to right. -/
inductive Expression where
  | mk (head : Term) (tail : List (Operator × Term))

/-- A call. The qualifier is a name, of a variable or of a class. -/
inductive Call where
  | mk (qualifier : Option Bytes) (name : Bytes) (arguments : List Expression)
      (line : Int)

end

deriving instance Repr for Term, Expression, Call

namespace Expression

def head : Expression → Term
  | mk head _ => head

def tail : Expression → List (Operator × Term)
  | mk _ tail => tail

/-- How many terms and operators the chain has. -/
def length (expression : Expression) : Nat :=
  1 + 2 * expression.tail.length

end Expression

inductive Statement where
  | letTo (target : Term) (value : Expression) (line : Int)
  | ifElse (condition : Expression) (whenTrue : List Statement)
      (otherwise : Option (List Statement)) (line : Int)
  | whileDo (condition : Expression) (body : List Statement) (line : Int)
  | doCall (call : Call) (line : Int)
  | giveBack (value : Option Expression) (line : Int)
deriving Repr

/-- The types that are no classes. -/
def isPrimitive (type : Bytes) : Bool :=
  (["int", "char", "boolean", "void"].map utf8).contains type

/-- Variables of one type that are declared together. -/
structure VariableList where
  type : Bytes
  names : List Bytes
  line : Int
deriving DecidableEq, Repr

/-- Whether a variable belongs to the class or to each object. -/
inductive ClassVariableKind where
  | static
  | field
deriving DecidableEq, Repr

def ClassVariableKind.name : ClassVariableKind → String
  | static => "static"
  | field => "field"

structure ClassVariables where
  kind : ClassVariableKind
  list : VariableList
deriving DecidableEq, Repr

structure Parameter where
  type : Bytes
  name : Bytes
deriving DecidableEq, Repr

inductive SubroutineKind where
  | constructor
  | function
  | method
deriving DecidableEq, Repr

namespace SubroutineKind

def all : List SubroutineKind :=
  [constructor, function, method]

def name : SubroutineKind → String
  | constructor => "constructor"
  | function => "function"
  | method => "method"

end SubroutineKind

structure SubroutineBody where
  locals : List VariableList
  statements : List Statement
deriving Repr

structure Subroutine where
  kind : SubroutineKind
  result : Bytes
  name : Bytes
  parameters : List Parameter
  body : SubroutineBody
  line : Int
deriving Repr

structure ClassTree where
  name : Bytes
  declarations : List ClassVariables
  subroutines : List Subroutine
  line : Int
deriving Repr

end Jack
