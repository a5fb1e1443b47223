import Jack.Lowering.Emission
import Jack.Tree

/-!
Contract: the code of expressions, statements and subroutines.

Owns: one function per construct that gives its instructions.

Does not own: in which order classes are lowered and what is kept in between.

The code of an expression leaves one value on the stack, the code of a statement
none. The value for an array element waits in `temp 0`, because its own code may
move `pointer 1`.
-/

set_option autoImplicit false

namespace Jack.Lowering

open Emit Machine

/-! ## Expressions -/

/-- The instruction of a binary operator. Products and quotients are calls. -/
def binaryInstruction? (symbol : Bytes) : Option Instruction :=
  if symbol = utf8 "+" then some (.arithmetic .add)
  else if symbol = utf8 "-" then some (.arithmetic .sub)
  else if symbol = utf8 "&" then some (.arithmetic .and)
  else if symbol = utf8 "|" then some (.arithmetic .or)
  else if symbol = utf8 "<" then some (.arithmetic .lt)
  else if symbol = utf8 ">" then some (.arithmetic .gt)
  else if symbol = utf8 "=" then some (.arithmetic .eq)
  else if symbol = utf8 "*" then some (.call (utf8 "Math.multiply") 2)
  else if symbol = utf8 "/" then some (.call (utf8 "Math.divide") 2)
  else none

def binary (operator : Operator) : Emit Unit :=
  match binaryInstruction? operator.symbol with
  | some instruction => append [instruction]
  | none => fail (.unknownOperator operator.symbol) operator.line

def unary (operator : Operator) : Emit Unit :=
  if operator.symbol = utf8 "-" then append [.arithmetic .neg]
  else if operator.symbol = utf8 "~" then append [.arithmetic .not]
  else fail (.unknownUnaryOperator operator.symbol) operator.line

/-- A keyword constant: false and null are 0, true is its complement, this is the
receiver. -/
def keyword (word : Bytes) (line : Int) : Emit Unit :=
  if word = utf8 "true" then do
    push .constant 0 line
    append [.arithmetic .not]
  else if word = utf8 "false" || word = utf8 "null" then push .constant 0 line
  else if word = utf8 "this" then push .pointer 0 line
  else fail (.unknownKeywordConstant word) line

/-- A string: a new one of the right capacity, then one byte after the other. -/
def string (value : Bytes) (line : Int) : Emit Unit := do
  push .constant value.length line
  append [.call (utf8 "String.new") 1]
  append (value.flatMap fun byte =>
    [.push .constant byte.toNat, .call (utf8 "String.appendChar") 2])

/-- The address of an array element: the index first, then the base. -/
def elementAddress (array : Bytes) (index : Emit Unit) (line : Int) : Emit Unit := do
  let base ← resolve array line
  index
  pushBinding base line
  append [.arithmetic .add]

def qualified (className name : Bytes) : Bytes :=
  className ++ utf8 "." ++ name

/-- Pushes the receiver of a call, if it has one, and tells the function called and
how many values were pushed. -/
def receiver (qualifier : Option Bytes) (name : Bytes) (line : Int) :
    Emit (Bytes × Nat) := do
  let setting ← setting
  match qualifier with
  | none =>
      let target := qualified setting.className name
      if setting.hasReceiver then
        push .pointer 0 line
        return (target, 1)
      else return (target, 0)
  | some qualifier =>
      match setting.bindings.resolve? qualifier with
      | none => return (qualified qualifier name, 0)
      | some binding =>
          pushBinding binding line
          return (qualified binding.type name, 1)

mutual

def term : Term → Emit Unit
  | .integer value line => push .constant value line
  | .string value line => string value line
  | .keyword word line => keyword word line
  | .name name line => do
      let binding ← resolve name line
      pushBinding binding line
  | .element array index line => do
      elementAddress array (expression index) line
      pop .pointer 1 line
      push .that 0 line
  | .call called => call called
  | .group inner _ => expression inner
  | .unary operator operand _ => do
      term operand
      unary operator

def expression : Expression → Emit Unit
  | .mk head tail => do
      term head
      operations tail

/-- The operators of a chain, each behind its right operand. -/
def operations : List (Operator × Term) → Emit Unit
  | [] => pure ()
  | (operator, operand) :: rest => do
      term operand
      binary operator
      operations rest

def call : Call → Emit Unit
  | .mk qualifier name arguments line => do
      let (target, received) ← receiver qualifier name line
      expressions arguments
      append [.call target ((arguments.length + received : Nat) : Int)]

/-- The arguments of a call, from left to right. -/
def expressions : List Expression → Emit Unit
  | [] => pure ()
  | argument :: rest => do
      expression argument
      expressions rest

end

/-! ## Statements -/

def assignment (target : Term) (value : Expression) (line : Int) : Emit Unit :=
  match target with
  | .name name targetLine => do
      let binding ← resolve name targetLine
      expression value
      popBinding binding line
  | .element array index targetLine => do
      elementAddress array (expression index) targetLine
      expression value
      pop .temp 0 line
      pop .pointer 1 line
      push .temp 0 line
      pop .that 0 line
  | .integer .. => fail (.invalidTarget .integer) line
  | .string .. => fail (.invalidTarget .string) line
  | .keyword .. => fail (.invalidTarget .keyword) line
  | .call .. => fail (.invalidTarget .call) line
  | .group .. => fail (.invalidTarget .group) line
  | .unary .. => fail (.invalidTarget .unary) line

mutual

def statement : Statement → Emit Unit
  | .letTo target value line => assignment target value line
  | .ifElse condition whenTrue otherwise _ => do
      expression condition
      let (trueLabel, endLabel) ← labels (utf8 "IF_TRUE") (utf8 "IF_END")
      append [.ifGoto trueLabel]
      alternative otherwise
      append [.goto endLabel, .label trueLabel]
      statements whenTrue
      append [.label endLabel]
  | .whileDo condition body _ => do
      let (startLabel, endLabel) ← labels (utf8 "WHILE_EXP") (utf8 "WHILE_END")
      append [.label startLabel]
      expression condition
      append [.arithmetic .not, .ifGoto endLabel]
      statements body
      append [.goto startLabel, .label endLabel]
  | .doCall called line => do
      call called
      pop .temp 0 line
  | .giveBack value line => do
      match value with
      | some value => expression value
      | none => push .constant 0 line
      append [.ret]

def statements : List Statement → Emit Unit
  | [] => pure ()
  | first :: rest => do
      statement first
      statements rest

/-- The statements behind an else, if there are any. -/
def alternative : Option (List Statement) → Emit Unit
  | none => pure ()
  | some body => statements body

end

/-! ## Subroutines -/

/-- How many names a body declares, repetitions included. -/
def localCount (body : SubroutineBody) : Nat :=
  (body.locals.flatMap fun list => list.names).length

/-- What a subroutine does before its statements: a constructor makes room for the
fields, a method takes its receiver from the first argument. -/
def prologue (kind : SubroutineKind) (line : Int) : Emit Unit :=
  match kind with
  | .constructor => do
      push .constant ((← setting).bindings.count .field) line
      append [.call (utf8 "Memory.alloc") 1]
      pop .pointer 0 line
  | .method => do
      push .argument 0 line
      pop .pointer 0 line
  | .function => pure ()

def subroutine (tree : Subroutine) : Emit Unit := do
  let className := (← setting).className
  checked (.function (qualified className tree.name) (localCount tree.body)) tree.line
  prologue tree.kind tree.line
  statements tree.body.statements

end Jack.Lowering
