import Jack.Text.Numeral
import Jack.Text.Quoted

/-!
Contract: the instructions of the stack machine.

Owns: operations, segments, commands and instructions with their written form, and
the test for the index ranges that the machine relies on.

Does not own: reading written code, or what running it does.
-/

set_option autoImplicit false

namespace Jack.Machine

/-- The arithmetic and logical operations on the top of the stack. -/
inductive Operation where
  | add
  | sub
  | neg
  | eq
  | gt
  | lt
  | and
  | or
  | not
deriving DecidableEq, Repr

namespace Operation

def all : List Operation :=
  [add, sub, neg, eq, gt, lt, and, or, not]

def name : Operation → String
  | add => "add"
  | sub => "sub"
  | neg => "neg"
  | eq => "eq"
  | gt => "gt"
  | lt => "lt"
  | and => "and"
  | or => "or"
  | not => "not"

end Operation

/-- The memory segments that values are pushed from and popped to. -/
inductive Segment where
  | constant
  | argument
  | local
  | static
  | this
  | that
  | pointer
  | temp
deriving DecidableEq, Repr

namespace Segment

def all : List Segment :=
  [constant, argument, .local, static, this, that, pointer, temp]

def name : Segment → String
  | constant => "constant"
  | argument => "argument"
  | .local => "local"
  | static => "static"
  | this => "this"
  | that => "that"
  | pointer => "pointer"
  | temp => "temp"

end Segment

/-- What an instruction does, without its operands. -/
inductive Command where
  | push
  | pop
  | arithmetic (operation : Operation)
  | label
  | goto
  | ifGoto
  | function
  | call
  | ret
deriving DecidableEq, Repr

namespace Command

def all : List Command :=
  [push, pop] ++ Operation.all.map arithmetic ++
    [label, goto, ifGoto, function, call, ret]

def name : Command → String
  | push => "push"
  | pop => "pop"
  | arithmetic operation => operation.name
  | label => "label"
  | goto => "goto"
  | ifGoto => "if-goto"
  | function => "function"
  | call => "call"
  | ret => "return"

def isArithmetic : Command → Bool
  | arithmetic _ => true
  | _ => false

end Command

/-- One instruction. Every instruction with a name carries a count: the locals of
a function, the arguments of a call. The count of a label or a jump is never
written, and is 0 wherever code is generated or read. -/
inductive Instruction where
  | push (segment : Segment) (index : Int)
  | pop (segment : Segment) (index : Int)
  | arithmetic (operation : Operation)
  | label (name : Bytes) (count : Int := 0)
  | goto (name : Bytes) (count : Int := 0)
  | ifGoto (name : Bytes) (count : Int := 0)
  | function (name : Bytes) (locals : Int)
  | call (name : Bytes) (arguments : Int)
  | ret
deriving DecidableEq, Repr

def maxConstant : Int := 32767

def pointerSize : Int := 2

def tempSize : Int := 8

inductive Flaw where
  | negativeIndex
  | popToConstant
  | constantTooLarge
  | noSuchPointer
  | noSuchTemp
  | missingName
  | negativeCount
deriving DecidableEq, Repr

def Flaw.message : Flaw → Bytes
  | negativeIndex => utf8 "negative index"
  | popToConstant => utf8 "cannot pop to constant segment"
  | constantTooLarge => utf8 "constant is larger than " ++ Numeral.signed maxConstant
  | noSuchPointer => utf8 "pointer index must be 0 or 1"
  | noSuchTemp => utf8 "temp index must be less than " ++ Numeral.signed tempSize
  | missingName => utf8 "missing name"
  | negativeCount => utf8 "negative count"

namespace Instruction

def command : Instruction → Command
  | push .. => .push
  | pop .. => .pop
  | arithmetic operation => .arithmetic operation
  | label .. => .label
  | goto .. => .goto
  | ifGoto .. => .ifGoto
  | function .. => .function
  | call .. => .call
  | ret => .ret

/-- The operands as words, in the order in which they are written. -/
def operands : Instruction → List Bytes
  | push segment index | pop segment index =>
      [utf8 segment.name, Numeral.signed index]
  | label name _ | goto name _ | ifGoto name _ => [name]
  | function name count | call name count => [name, Numeral.signed count]
  | arithmetic _ | ret => []

/-- The written form: the command and the operands, each behind a space. -/
def text (instruction : Instruction) : Bytes :=
  utf8 instruction.command.name ++
    instruction.operands.flatMap fun word => ascii ' ' :: word

/-- The flaw of an index in a segment that is pushed from or popped to. -/
def indexFlaw? (pops : Bool) (segment : Segment) (index : Int) : Option Flaw :=
  if index < 0 then some .negativeIndex
  else
    match segment with
    | .constant =>
        if pops then some .popToConstant
        else if maxConstant < index then some .constantTooLarge
        else none
    | .pointer => if pointerSize ≤ index then some .noSuchPointer else none
    | .temp => if tempSize ≤ index then some .noSuchTemp else none
    | _ => none

/-- The flaw of a name and its count. -/
def nameFlaw? (name : Bytes) (count : Int) : Option Flaw :=
  if name.isEmpty then some .missingName
  else if count < 0 then some .negativeCount
  else none

/-- The first flaw of an instruction, if it has any. -/
def flaw? : Instruction → Option Flaw
  | push segment index => indexFlaw? false segment index
  | pop segment index => indexFlaw? true segment index
  | label name count | goto name count | ifGoto name count
  | function name count | call name count => nameFlaw? name count
  | arithmetic _ | ret => none

def flawMessage (instruction : Instruction) (flaw : Flaw) : Bytes :=
  utf8 "vmcode: invalid instruction " ++ Text.quoted instruction.text ++ utf8 ": " ++
    flaw.message

end Instruction

end Jack.Machine
