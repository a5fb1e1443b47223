import Jack.Lowering.Code

/-!
Contract: lowering classes one subroutine after the other.

Owns: the context, which keeps the class name, the bindings, the subroutine under
way and all code so far; the declarations of a class and of a subroutine.

Does not own: the code of a construct.

Code is only ever added at the end. A failure leaves the context as it was when the
failing step started, but for the code and labels which that step used.
-/

set_option autoImplicit false

namespace Jack.Lowering

open Machine (Instruction)

/-- The subroutine under way. -/
structure Activation where
  kind : SubroutineKind
  name : Bytes
  nextLabel : Nat := 0

/-- What is kept from one step of lowering to the next. -/
structure Context where
  className : Bytes := []
  bindings : Bindings := {}
  activation : Option Activation := none
  code : List Instruction := []

namespace Context

/-- Whether the subroutine under way runs on an object. -/
def hasReceiver (context : Context) : Bool :=
  context.activation.any fun activation => activation.kind != .function

def setting (context : Context) : Setting :=
  { className := context.className
    bindings := context.bindings
    hasReceiver := context.hasReceiver }

def nextLabel (context : Context) : Nat :=
  context.activation.elim 0 Activation.nextLabel

def emit {Value : Type} (context : Context) (step : Emit Value) :
    Except Diagnostic Value × Context :=
  let emission := step context.setting context.nextLabel
  (emission.result,
    { context with
      code := context.code ++ emission.code
      activation := context.activation.map fun activation =>
        { activation with nextLabel := emission.nextLabel } })

/-- Starts a subroutine, with no arguments and locals declared. -/
def enter (context : Context) (kind : SubroutineKind) (name : Bytes) : Context :=
  { context with
    bindings := context.bindings.leaveSubroutine
    activation := some { kind, name } }

def declare (context : Context) (name : Bytes) (storage : Storage) (type : Bytes) :
    Context :=
  { context with bindings := (context.bindings.declare name storage type).2 }

def declareList (context : Context) (storage : Storage) (list : VariableList) :
    Context :=
  { context with bindings := context.bindings.declareAll list.names storage list.type }

/-- Declares the arguments and locals of a subroutine. The receiver of a method is
its first argument. -/
def declareSubroutine (context : Context) (tree : Subroutine) : Context :=
  let context := match tree.kind with
    | .method => context.declare (utf8 "this") .argument context.className
    | _ => context
  let context := tree.parameters.foldl
    (fun context parameter => context.declare parameter.name .argument parameter.type)
    context
  tree.body.locals.foldl (fun context list => context.declareList .local list) context

def addSubroutine (context : Context) (tree : Subroutine) :
    Except Diagnostic Unit × Context :=
  ((context.enter tree.kind tree.name).declareSubroutine tree).emit (subroutine tree)

/-- Adds the code of subroutines up to the first one that fails. -/
def addSubroutines (context : Context) : List Subroutine →
    Except Diagnostic Unit × Context
  | [] => (.ok (), context)
  | tree :: rest =>
      match context.addSubroutine tree with
      | (.ok _, context) => context.addSubroutines rest
      | (.error diagnostic, context) => (.error diagnostic, context)

def storageOf : ClassVariableKind → Storage
  | .static => .static
  | .field => .field

def declareClass (context : Context) (tree : ClassTree) : Context :=
  tree.declarations.foldl
    (fun context declaration =>
      context.declareList (storageOf declaration.kind) declaration.list)
    { context with className := tree.name }

def addClass (context : Context) (tree : ClassTree) : Except Diagnostic Unit × Context :=
  (context.declareClass tree).addSubroutines tree.subroutines

end Context

end Jack.Lowering
