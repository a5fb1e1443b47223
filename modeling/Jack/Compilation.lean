import Jack.Lowering.Context
import Jack.Token.Scanner
import Jack.Tree.Grammar

/-!
Contract: from the source of a class to its code.

Owns: compiled classes, and the way through all phases for one source and for
several.

Does not own: where sources come from and where code goes.
-/

set_option autoImplicit false

namespace Jack

structure CompiledClass where
  name : Bytes
  code : List Machine.Instruction
deriving DecidableEq, Repr

def readClass (source : Bytes) : Except Diagnostic ClassTree := do
  let tokens ← tokenize source
  parseClass (withoutComments tokens)

/-- The code of a class on its own. -/
def lowerClass (tree : ClassTree) : Except Diagnostic CompiledClass :=
  match ({} : Lowering.Context).addClass tree with
  | (.ok _, context) => .ok { name := tree.name, code := context.code }
  | (.error diagnostic, _) => .error diagnostic

def compileClass (source : Bytes) : Except Diagnostic CompiledClass := do
  let tree ← readClass source
  lowerClass tree

/-- Compiles sources in order, up to the first that is rejected. -/
def compileAll (sources : List Bytes) : Except Diagnostic (List CompiledClass) :=
  sources.mapM compileClass

end Jack
