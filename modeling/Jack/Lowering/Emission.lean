import Jack.Binding
import Jack.Diagnostic

/-!
Contract: emitting code.

Owns: the setting that code is emitted in, emissions, and the basic steps: append an
instruction, check one first, take two fresh labels, look a name up.

Does not own: the code of any construct.

An emission lists the instructions that it adds, in order. One that fails still lists
those it added before. Labels are numbered within a subroutine; two labels of one
construct take two consecutive numbers.
-/

set_option autoImplicit false

namespace Jack.Lowering

open Machine (Instruction Segment)

/-- What the code of a statement depends on, beside the statement. -/
structure Setting where
  className : Bytes
  bindings : Bindings
  /-- Whether the subroutine runs on an object. -/
  hasReceiver : Bool

/-- The instructions added, the next free label number, and a value or the reason
why there is none. -/
structure Emission (Value : Type) where
  code : List Instruction
  nextLabel : Nat
  result : Except Diagnostic Value

/-- A step that emits code in a setting, from a label number on. -/
def Emit (Value : Type) : Type :=
  Setting → Nat → Emission Value

namespace Emit

variable {Value Other : Type}

def succeed (value : Value) : Emit Value := fun _ label =>
  { code := [], nextLabel := label, result := .ok value }

def fail (fault : CodegenFault) (line : Int) : Emit Value := fun _ label =>
  { code := [], nextLabel := label, result := .error ⟨.codegen fault, line⟩ }

/-- One step, then another one that adds its code behind. -/
def andThen (first : Emit Value) (second : Value → Emit Other) : Emit Other :=
  fun setting label =>
    let before := first setting label
    match before.result with
    | .error diagnostic =>
        { code := before.code, nextLabel := before.nextLabel,
          result := .error diagnostic }
    | .ok value =>
        let after := second value setting before.nextLabel
        { after with code := before.code ++ after.code }

instance : Monad Emit where
  pure := succeed
  bind := andThen

def setting : Emit Setting := fun setting label =>
  { code := [], nextLabel := label, result := .ok setting }

def append (instructions : List Instruction) : Emit Unit := fun _ label =>
  { code := instructions, nextLabel := label, result := .ok () }

/-- Adds an instruction unless it has a flaw. -/
def checked (instruction : Instruction) (line : Int) : Emit Unit :=
  match instruction.flaw? with
  | some flaw => fail (.invalidInstruction instruction flaw) line
  | none => append [instruction]

def push (segment : Segment) (index : Int) (line : Int) : Emit Unit :=
  checked (.push segment index) line

def pop (segment : Segment) (index : Int) (line : Int) : Emit Unit :=
  checked (.pop segment index) line

/-- Two labels of one construct. -/
def labels (first second : Bytes) : Emit (Bytes × Bytes) := fun _ label =>
  { code := []
    nextLabel := label + 2
    result := .ok (first ++ Numeral.decimal label,
      second ++ Numeral.decimal (label + 1)) }

/-- The binding of a variable that has to be declared. -/
def resolve (name : Bytes) (line : Int) : Emit Binding := do
  match (← setting).bindings.resolve? name with
  | some binding => return binding
  | none => fail (.undeclared name) line

def pushBinding (binding : Binding) (line : Int) : Emit Unit :=
  push binding.storage.segment binding.index line

def popBinding (binding : Binding) (line : Int) : Emit Unit :=
  pop binding.storage.segment binding.index line

end Emit

end Jack.Lowering
