import Jack.Toml.Reader

/-!
Contract: the document that the entries of a TOML text make.

Owns: tables and values, and the rules on what may be said twice.

Does not own: what a program reads from a document.

A path is implied as long as only longer paths name it. Naming an implied table itself
is fine, once. Anything else that is there already can not be given again. A path that
runs through an array of tables goes on in the last of them.

Tables have numbers, because one table can stand in two places. An inline table is made
twice: a table in the document takes its pairs one by one, so that they meet what is
there already, and a table of its own gathers them and becomes the value. As a rule the
first of the two stays in the document. Where the second takes its place, an inline
table around it and the document hold the same table from then on.
-/

set_option autoImplicit false

namespace Jack.Toml

/-- A value in a document. Tables are given by their numbers; those of an array of
tables stand latest first. -/
inductive Value where
  | scalar (value : Scalar)
  | array (elements : List Value)
  | table (number : Nat)
  | tables (latestFirst : List Nat)
deriving Repr

/-- Whether a value is an array of values; an array of tables is none. -/
def Value.isArray : Value → Bool
  | array _ => true
  | _ => false

/-- The keys of a table with their values, in the order in which they came. -/
abbrev Table := List (Bytes × Value)

/-- The table with a value for a key, in the place of the old one if there is one. -/
def Table.set (table : Table) (key : Bytes) (value : Value) : Table :=
  if (table.lookup key).isSome then
    table.map fun (other, old) => if other = key then (other, value) else (other, old)
  else table ++ [(key, value)]

/-- Numbered tables. The first is the document's own. -/
structure Document where
  tables : Array Table := #[[]]
deriving Repr

namespace Document

def root : Nat :=
  0

def table (document : Document) (number : Nat) : Table :=
  document.tables[number]?.getD []

def get? (document : Document) (number : Nat) (key : Bytes) : Option Value :=
  (document.table number).lookup key

def set (document : Document) (number : Nat) (key : Bytes) (value : Value) : Document :=
  { tables := document.tables.modify number (·.set key value) }

/-- One more table, with its number. -/
def addTable (document : Document) : Document × Nat :=
  ({ tables := document.tables.push [] }, document.tables.size)

/-- The number of the table at the end of a path that starts in a table. -/
def find? (document : Document) (number : Nat) : KeyPath → Option Nat
  | [] => some number
  | key :: path =>
      match document.get? number key with
      | some (.table inner) => document.find? inner path
      | some (.tables (inner :: _)) => document.find? inner path
      | _ => none

/-- Sets the value of a key in the table at the end of a path that starts in a table.
Missing tables on the way are made; what is no table is in the way. -/
def gather? (document : Document) (number : Nat) (key : Bytes) (value : Value) :
    KeyPath → Option Document
  | [] => some (document.set number key value)
  | next :: path =>
      match document.get? number next with
      | some (.table inner) => document.gather? inner key value path
      | some _ => none
      | none =>
          let (document, inner) := document.addTable
          (document.set number next (.table inner)).gather? inner key value path

end Document

/-- A document that is being made: its tables, the paths that are only implied, and
those that were last given an array. -/
structure Draft where
  document : Document := {}
  implied : List KeyPath := []
  arrays : List KeyPath := []

namespace Draft

def imply (draft : Draft) (path : KeyPath) : Draft :=
  { draft with implied := path :: draft.implied }

/-- Notes whether the value at a path is an array. -/
def noteKind (draft : Draft) (path : KeyPath) (isArray : Bool) : Draft :=
  let others := draft.arrays.filter (· != path)
  { draft with arrays := if isArray then path :: others else others }

/-- The path under which the kind of a key's value is noted. A key without a name
stands for the table that it is in, unless that is the document's own. -/
def kindPath (context : KeyPath) (key : Bytes) : KeyPath :=
  if key.isEmpty && !context.isEmpty then context else context ++ [key]

/-- Gives a key a value. Where an implied path is named, its table stays, and what is
noted as an array makes room. -/
def assign? (draft : Draft) (context : KeyPath) (key : Bytes) (value : Value) :
    Option Draft := do
  let path := context ++ [key]
  let number ← draft.document.find? Document.root context
  let changed := draft.document.set number key value
  if (draft.document.get? number key).isNone then return { draft with document := changed }
  else if !draft.implied.contains path then none
  else
    let named := { draft with implied := draft.implied.filter (· != path) }
    return if draft.arrays.contains path then { named with document := changed } else named

/-- Makes the tables on the way to a path, as far as they are missing. The path
starts at the end of `context`. -/
def reach? (draft : Draft) (context : KeyPath) : KeyPath → Option Draft
  | [] => (draft.document.find? Document.root context).map fun _ => draft
  | key :: path => do
      let number ← draft.document.find? Document.root context
      let next := context ++ [key]
      match draft.document.get? number key with
      | some _ => draft.reach? next path
      | none =>
          let (document, inner) := draft.document.addTable
          let draft := { draft with document := document.set number key (.table inner) }
          (draft.imply next).reach? next path

/-- Adds a table to the array of tables at a key. -/
def addToTables? (draft : Draft) (context : KeyPath) (key : Bytes) : Option Draft := do
  let number ← draft.document.find? Document.root context
  let earlier ←
    match draft.document.get? number key with
    | none => some []
    | some (.tables earlier) => some earlier
    | some _ => none
  let (document, inner) := draft.document.addTable
  return { draft with document := document.set number key (.tables (inner :: earlier)) }

/-- Opens the table at the end of a path, or one more table of an array. -/
def open? (draft : Draft) (path : KeyPath) (inArray : Bool) : Option Draft := do
  let context := path.dropLast
  let key ← path.getLast?
  let draft ← draft.reach? [] context
  if inArray then draft.addToTables? context key
  else
    let (document, inner) := draft.document.addTable
    { draft with document }.assign? context key (.table inner)

/-- Opens the tables that a dotted key runs through, one after the other. -/
def openImplied? (draft : Draft) (context : KeyPath) : KeyPath → Option Draft
  | [] => some draft
  | key :: path => do
      let next := context ++ [key]
      let draft ← (draft.imply next).open? next false
      draft.openImplied? next path

mutual

/-- The value that is written for a key in the table at the end of `context`. -/
def settle? (context : KeyPath) (key : Bytes) (inArray : Bool) (draft : Draft) :
    Written → Option (Draft × Value)
  | .scalar value => some (draft, .scalar value)
  | .array elements => do
      let draft := draft.noteKind (kindPath context key) true
      let (draft, values) ← settleElements? context key draft elements
      return (draft, .array values)
  | .inlineTable pairs => do
      let path := context ++ [key]
      let draft ← (draft.imply path).open? path inArray
      let (document, gathered) := draft.document.addTable
      let draft ← settlePairs? path (some gathered) { draft with document } pairs
      return (draft, .table gathered)

def settleElements? (context : KeyPath) (key : Bytes) (draft : Draft) :
    List Written → Option (Draft × List Value)
  | [] => some (draft, [])
  | element :: elements => do
      let (draft, value) ← settle? context key true draft element
      let (draft, values) ← settleElements? context key draft elements
      return (draft, value :: values)

/-- Gives keys their values in the document, in the table at the end of `context`, and
in the table that gathers them, if there is one. -/
def settlePairs? (context : KeyPath) (gathered : Option Nat) (draft : Draft) :
    List (KeyPath × Written) → Option Draft
  | [] => some draft
  | (path, written) :: pairs => do
      let inner := context ++ path.dropLast
      let key ← path.getLast?
      let draft ← draft.openImplied? context path.dropLast
      let (draft, value) ← settle? inner key false draft written
      let draft ← draft.assign? inner key value
      let draft := draft.noteKind (kindPath inner key) value.isArray
      let document ←
        match gathered with
        | none => some draft.document
        | some number => draft.document.gather? number key value path.dropLast
      settlePairs? context gathered { draft with document } pairs

end

/-- Takes one more entry. The second part is the table that keys go to. -/
def add? (state : Draft × KeyPath) (entry : Entry) : Option (Draft × KeyPath) :=
  let (draft, context) := state
  match entry with
  | .table path => (draft.open? path false).map fun draft => (draft.noteKind path false, path)
  | .tableInArray path =>
      (draft.open? path true).map fun draft => (draft.noteKind path false, path)
  | .assignment path value =>
      (settlePairs? context none draft [(path, value)]).map fun draft => (draft, context)

end Draft

def document? (text : Bytes) : Option Document := do
  let entries ← entries? text
  let (draft, _) ← entries.foldlM Draft.add? ({}, [])
  return draft.document

end Jack.Toml
