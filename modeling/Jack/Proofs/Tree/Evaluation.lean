import Jack.Lowering.Code
import Jack.Proofs.Machine.Execution

/-!
Contract: what expressions and statements mean, without any code.

Owns: the value of an expression in a store, with the store that its calls leave, and
the evaluation of statements from one store to another.

Does not own: instructions, stacks and labels. Of the machine only the words, the
store that programs can see and the oracle for calls are shared.

An expression has no value where a name is unbound or an operator unknown. Statements
that run forever, or that test a value which is no truth value, have no evaluation.
-/

set_option autoImplicit false

namespace Jack.Meaning

open Machine (Word Store Oracle truth)
open Lowering (Setting qualified)

/-! ## Variables -/

def fieldAddress (store : Store) (index : Nat) : Word :=
  store.receiver + BitVec.ofNat 16 index

def read (store : Store) (binding : Binding) : Word :=
  match binding.storage with
  | .static => store.statics binding.index
  | .field => store.heap (fieldAddress store binding.index)
  | .argument => store.arguments binding.index
  | .local => store.locals binding.index

def write (store : Store) (binding : Binding) (value : Word) : Store :=
  match binding.storage with
  | .static =>
      { store with statics := Function.update store.statics binding.index value }
  | .field =>
      { store with
        heap := Function.update store.heap (fieldAddress store binding.index) value }
  | .argument =>
      { store with arguments := Function.update store.arguments binding.index value }
  | .local =>
      { store with locals := Function.update store.locals binding.index value }

/-! ## Expressions -/

section Expressions

variable (oracle : Oracle) (setting : Setting)

def keyword? (word : Bytes) (store : Store) : Option Word :=
  if word = utf8 "true" then some (truth true)
  else if word = utf8 "false" then some (truth false)
  else if word = utf8 "null" then some 0
  else if word = utf8 "this" then some store.receiver
  else none

def unary? (symbol : Bytes) (value : Word) : Option Word :=
  if symbol = utf8 "-" then some (-value)
  else if symbol = utf8 "~" then some (~~~value)
  else none

/-- Products and quotients are calls. -/
def binary? (symbol : Bytes) (left right : Word) (store : Store) : Option (Word × Store) :=
  if symbol = utf8 "+" then some (left + right, store)
  else if symbol = utf8 "-" then some (left - right, store)
  else if symbol = utf8 "&" then some (left &&& right, store)
  else if symbol = utf8 "|" then some (left ||| right, store)
  else if symbol = utf8 "<" then some (truth (left.slt right), store)
  else if symbol = utf8 ">" then some (truth (right.slt left), store)
  else if symbol = utf8 "=" then some (truth (left == right), store)
  else if symbol = utf8 "*" then
    some (oracle.call (utf8 "Math.multiply") [left, right] store)
  else if symbol = utf8 "/" then
    some (oracle.call (utf8 "Math.divide") [left, right] store)
  else none

def appendByte (text : Word × Store) (byte : UInt8) : Word × Store :=
  oracle.call (utf8 "String.appendChar") [text.1, BitVec.ofNat 16 byte.toNat] text.2

/-- A new string, to which the bytes are appended from left to right. -/
def string (value : Bytes) (store : Store) : Word × Store :=
  value.foldl (appendByte oracle)
    (oracle.call (utf8 "String.new") [BitVec.ofNat 16 value.length] store)

/-- The function that a call goes to, and the receiver that it is given, if any. -/
def receiver (qualifier : Option Bytes) (name : Bytes) (store : Store) :
    Bytes × List Word :=
  match qualifier with
  | none =>
      (qualified setting.className name,
        if setting.hasReceiver then [store.receiver] else [])
  | some qualifier =>
      match setting.bindings.resolve? qualifier with
      | none => (qualified qualifier name, [])
      | some binding => (qualified binding.type name, [read store binding])

mutual

/-- The value of a term, and the store afterwards. -/
def term : Term → Store → Option (Word × Store)
  | .integer value _, store => some (BitVec.ofInt 16 value, store)
  | .string value _, store => some (string oracle value store)
  | .keyword word _, store => (keyword? word store).map fun value => (value, store)
  | .name name _, store =>
      (setting.bindings.resolve? name).map fun binding => (read store binding, store)
  | .element array index _, store => do
      let binding ← setting.bindings.resolve? array
      let (offset, store) ← expression index store
      return (store.heap (read store binding + offset), store)
  | .call called, store => call called store
  | .group inner _, store => expression inner store
  | .unary operator operand _, store => do
      let (value, store) ← term operand store
      let result ← unary? operator.symbol value
      return (result, store)

def expression : Expression → Store → Option (Word × Store)
  | .mk head tail, store => do
      let (value, store) ← term head store
      operations tail value store

/-- The operations of a chain on the value so far, from left to right. -/
def operations : List (Operator × Term) → Word → Store → Option (Word × Store)
  | [], value, store => some (value, store)
  | (operator, operand) :: rest, left, store => do
      let (right, store) ← term operand store
      let (value, store) ← binary? oracle operator.symbol left right store
      operations rest value store

/-- The receiver is read before the arguments are evaluated. -/
def call : Call → Store → Option (Word × Store)
  | .mk qualifier name arguments _, store => do
      let (target, received) := receiver setting qualifier name store
      let (values, store) ← expressions arguments store
      return oracle.call target (received ++ values) store

def expressions : List Expression → Store → Option (List Word × Store)
  | [], store => some ([], store)
  | argument :: rest, store => do
      let (value, store) ← expression argument store
      let (values, store) ← expressions rest store
      return (value :: values, store)

end

end Expressions

/-! ## Statements -/

/-- How statements end: behind the last one, or at a return. -/
inductive Ending where
  | finished
  | returned (value : Word)
deriving DecidableEq, Repr

mutual

/-- A statement leads from one store to another. -/
inductive Executes (oracle : Oracle) (setting : Setting) :
    Statement → Store → Ending → Store → Prop where
  | letName {name : Bytes} {value : Expression} {targetLine line : Int} {binding : Binding}
      {store after : Store} {result : Word}
      (bound : setting.bindings.resolve? name = some binding)
      (evaluated : expression oracle setting value store = some (result, after)) :
      Executes oracle setting (.letTo (.name name targetLine) value line) store .finished
        (write after binding result)
  /-- The index comes first, then the base is read, then the value is evaluated. -/
  | letElement {array : Bytes} {index value : Expression} {targetLine line : Int}
      {binding : Binding} {store middle after : Store} {offset result : Word}
      (bound : setting.bindings.resolve? array = some binding)
      (indexed : expression oracle setting index store = some (offset, middle))
      (evaluated : expression oracle setting value middle = some (result, after)) :
      Executes oracle setting (.letTo (.element array index targetLine) value line) store
        .finished
        { after with
          heap := Function.update after.heap (read middle binding + offset) result }
  | ifTrue {condition : Expression} {whenTrue : List Statement}
      {otherwise : Option (List Statement)} {line : Int} {store middle final : Store}
      {ending : Ending}
      (tested : expression oracle setting condition store = some (truth true, middle))
      (branch : ExecutesAll oracle setting whenTrue middle ending final) :
      Executes oracle setting (.ifElse condition whenTrue otherwise line) store ending final
  | ifFalse {condition : Expression} {whenTrue : List Statement}
      {otherwise : Option (List Statement)} {line : Int} {store middle final : Store}
      {ending : Ending}
      (tested : expression oracle setting condition store = some (truth false, middle))
      (branch : ExecutesAll oracle setting (otherwise.getD []) middle ending final) :
      Executes oracle setting (.ifElse condition whenTrue otherwise line) store ending final
  | whileFalse {condition : Expression} {body : List Statement} {line : Int}
      {store final : Store}
      (tested : expression oracle setting condition store = some (truth false, final)) :
      Executes oracle setting (.whileDo condition body line) store .finished final
  | whileTrue {condition : Expression} {body : List Statement} {line : Int}
      {store middle after final : Store} {ending : Ending}
      (tested : expression oracle setting condition store = some (truth true, middle))
      (once : ExecutesAll oracle setting body middle .finished after)
      (again : Executes oracle setting (.whileDo condition body line) after ending final) :
      Executes oracle setting (.whileDo condition body line) store ending final
  | whileReturned {condition : Expression} {body : List Statement} {line : Int}
      {store middle final : Store} {value : Word}
      (tested : expression oracle setting condition store = some (truth true, middle))
      (once : ExecutesAll oracle setting body middle (.returned value) final) :
      Executes oracle setting (.whileDo condition body line) store (.returned value) final
  | doCall {called : Call} {line : Int} {store final : Store} {ignored : Word}
      (evaluated : call oracle setting called store = some (ignored, final)) :
      Executes oracle setting (.doCall called line) store .finished final
  /-- Without a value, 0 is given back. -/
  | giveBackNothing {line : Int} {store : Store} :
      Executes oracle setting (.giveBack none line) store (.returned 0) store
  | giveBack {value : Expression} {line : Int} {store final : Store} {result : Word}
      (evaluated : expression oracle setting value store = some (result, final)) :
      Executes oracle setting (.giveBack (some value) line) store (.returned result) final

/-- Statements one after the other, up to the first return. -/
inductive ExecutesAll (oracle : Oracle) (setting : Setting) :
    List Statement → Store → Ending → Store → Prop where
  | nil {store : Store} : ExecutesAll oracle setting [] store .finished store
  | next {first : Statement} {rest : List Statement} {store middle final : Store}
      {ending : Ending}
      (head : Executes oracle setting first store .finished middle)
      (tail : ExecutesAll oracle setting rest middle ending final) :
      ExecutesAll oracle setting (first :: rest) store ending final
  | stop {first : Statement} {rest : List Statement} {store final : Store} {value : Word}
      (head : Executes oracle setting first store (.returned value) final) :
      ExecutesAll oracle setting (first :: rest) store (.returned value) final

end

end Jack.Meaning
