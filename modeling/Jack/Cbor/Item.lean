import Jack.Text.Bytes

/-!
Contract: CBOR data items and how they are written.

Owns: items, and their encoding with heads as short as possible and all lengths
known in advance.

Does not own: reading, and what items stand for.
-/

set_option autoImplicit false

namespace Jack.Cbor

/-- A data item. A negative item stands for -1 less its value. Strings come in
chunks: one when the length is known in advance, any number otherwise. -/
inductive Item where
  | unsigned (value : Nat)
  | negative (value : Nat)
  | bytes (chunks : List Bytes)
  | text (chunks : List Bytes)
  | array (items : List Item)
  | map (entries : List (Item × Item))
  | tag (number : Nat) (content : Item)
  | simple (value : Nat)
  | float (bits : Bytes)
deriving Repr

/-- The bytes of a number, the most significant first. -/
def bigEndian : Nat → Nat → Bytes
  | 0, _ => []
  | width + 1, value => bigEndian width (value / 256) ++ [UInt8.ofNat (value % 256)]

/-- The head of an item: its major type and its argument. -/
def head (major argument : Nat) : Bytes :=
  let initial (info : Nat) : UInt8 := UInt8.ofNat (major * 32 + info)
  if argument < 24 then [initial argument]
  else if argument < 0x100 then initial 24 :: bigEndian 1 argument
  else if argument < 0x10000 then initial 25 :: bigEndian 2 argument
  else if argument < 0x100000000 then initial 26 :: bigEndian 4 argument
  else initial 27 :: bigEndian 8 argument

namespace Item

def null : Item :=
  .simple 22

def ofText (text : Bytes) : Item :=
  .text [text]

/-- A list, or null when there is none. -/
def ofList? (items : Option (List Item)) : Item :=
  items.elim null array

mutual

def encode : Item → Bytes
  | .unsigned value => head 0 value
  | .negative value => head 1 value
  | .bytes chunks => head 2 chunks.flatten.length ++ chunks.flatten
  | .text chunks => head 3 chunks.flatten.length ++ chunks.flatten
  | .array items => head 4 items.length ++ encodeItems items
  | .map entries => head 5 entries.length ++ encodeEntries entries
  | .tag number content => head 6 number ++ encode content
  | .simple value => head 7 value
  | .float bits =>
      let info := if bits.length = 2 then 25 else if bits.length = 4 then 26 else 27
      UInt8.ofNat (7 * 32 + info) :: bits

def encodeItems : List Item → Bytes
  | [] => []
  | item :: items => encode item ++ encodeItems items

def encodeEntries : List (Item × Item) → Bytes
  | [] => []
  | (key, value) :: entries => encode key ++ encode value ++ encodeEntries entries

end

end Item

end Jack.Cbor
