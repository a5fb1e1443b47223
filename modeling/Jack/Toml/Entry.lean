import Jack.Text.Bytes

/-!
Contract: what a TOML text says, line by line.

Owns: scalars, values as they are written, and the entries of a text.

Does not own: the document that the entries make together, and which of them
contradict each other.
-/

set_option autoImplicit false

namespace Jack.Toml

/-- A dotted key: the names on the way, outermost first. -/
abbrev KeyPath := List Bytes

/-- A value without parts. Numbers with a fraction or an exponent and moments in time
are kept as they are written. -/
inductive Scalar where
  | string (text : Bytes)
  | integer (number : Int)
  | float (literal : Bytes)
  | boolean (value : Bool)
  | moment (literal : Bytes)
deriving DecidableEq, Repr

/-- A value as it is written. -/
inductive Written where
  | scalar (value : Scalar)
  | array (elements : List Written)
  | inlineTable (pairs : List (KeyPath × Written))
deriving Repr

/-- An entry of a text: the header of a table, the header of one more table in an
array, or a key with its value. -/
inductive Entry where
  | table (path : KeyPath)
  | tableInArray (path : KeyPath)
  | assignment (path : KeyPath) (value : Written)
deriving Repr

end Jack.Toml
