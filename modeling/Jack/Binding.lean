import Jack.Machine.Instruction
import Std.Data.TreeMap

/-!
Contract: what the names of variables stand for.

Owns: the four kinds of storage, bindings, and the two scopes in which names are
looked up: the class scope for static and field variables, and the subroutine scope
for arguments and locals.

Does not own: when names are declared.

Indexes count up from 0 for each kind of storage. A name that a scope already holds
keeps its first binding, whatever is declared again.
-/

set_option autoImplicit false

namespace Jack

/-- Where a variable is kept. -/
inductive Storage where
  | static
  | field
  | argument
  | local
deriving DecidableEq, Repr

namespace Storage

def all : List Storage :=
  [static, field, argument, .local]

def name : Storage → String
  | static => "static"
  | field => "field"
  | argument => "argument"
  | .local => "local"

/-- The segment that holds variables of this storage. Fields are reached through the
receiver. -/
def segment : Storage → Machine.Segment
  | static => .static
  | field => .this
  | argument => .argument
  | .local => .local

def isOfClass : Storage → Bool
  | static | field => true
  | argument | .local => false

end Storage

/-- What a name stands for. -/
structure Binding where
  name : Bytes
  storage : Storage
  index : Nat
  type : Bytes
deriving DecidableEq, Repr

/-- How many variables of each storage have been declared. -/
structure Tally where
  statics : Nat := 0
  fields : Nat := 0
  arguments : Nat := 0
  locals : Nat := 0
deriving DecidableEq, Repr

namespace Tally

def count (tally : Tally) : Storage → Nat
  | .static => tally.statics
  | .field => tally.fields
  | .argument => tally.arguments
  | .local => tally.locals

def increment (tally : Tally) : Storage → Tally
  | .static => { tally with statics := tally.statics + 1 }
  | .field => { tally with fields := tally.fields + 1 }
  | .argument => { tally with arguments := tally.arguments + 1 }
  | .local => { tally with locals := tally.locals + 1 }

end Tally

/-- The names declared in one scope. -/
structure Scope where
  bindings : Std.TreeMap Bytes Binding := {}
  tally : Tally := {}

namespace Scope

def find? (scope : Scope) (name : Bytes) : Option Binding :=
  scope.bindings[name]?

/-- The binding of a name after its declaration. A new name takes the next index of
its storage. -/
def declare (scope : Scope) (name : Bytes) (storage : Storage) (type : Bytes) :
    Binding × Scope :=
  match scope.find? name with
  | some binding => (binding, scope)
  | none =>
      let binding := { name, storage, index := scope.tally.count storage, type }
      (binding,
        { bindings := scope.bindings.insert name binding
          tally := scope.tally.increment storage })

end Scope

/-- The two scopes that are in view at once. -/
structure Bindings where
  ofClass : Scope := {}
  ofSubroutine : Scope := {}

namespace Bindings

/-- Declares a name in the scope that its storage belongs to. -/
def declare (table : Bindings) (name : Bytes) (storage : Storage) (type : Bytes) :
    Binding × Bindings :=
  if storage.isOfClass then
    let (binding, scope) := table.ofClass.declare name storage type
    (binding, { table with ofClass := scope })
  else
    let (binding, scope) := table.ofSubroutine.declare name storage type
    (binding, { table with ofSubroutine := scope })

def declareAll (table : Bindings) (names : List Bytes) (storage : Storage)
    (type : Bytes) : Bindings :=
  names.foldl (fun table name => (table.declare name storage type).2) table

/-- The binding of a name: the subroutine scope goes first. -/
def resolve? (table : Bindings) (name : Bytes) : Option Binding :=
  (table.ofSubroutine.find? name).or (table.ofClass.find? name)

/-- Forgets the arguments and locals. -/
def leaveSubroutine (table : Bindings) : Bindings :=
  { table with ofSubroutine := {} }

/-- How many variables of a storage are declared in its scope. -/
def count (table : Bindings) (storage : Storage) : Nat :=
  if storage.isOfClass then table.ofClass.tally.count storage
  else table.ofSubroutine.tally.count storage

end Bindings

end Jack
