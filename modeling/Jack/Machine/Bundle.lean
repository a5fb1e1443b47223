import Jack.Cbor.Decoder
import Jack.Machine.Listing

/-!
Contract: bundles, which carry the code of several classes in one file.

Owns: bundles and their units, adding classes, reading a unit's code back, the
identifiers of bundles, and the CBOR form.

Does not own: CBOR itself.

A bundle is a map with the keys `id` and `units`, a unit a map with the keys `class`
and `instructions`. A list that was never made is null.
-/

set_option autoImplicit false

namespace Jack.Machine

/-- The code of one class, as lines. -/
structure ClassUnit where
  name : Bytes := []
  lines : Option (List Bytes) := none
deriving DecidableEq, Repr

structure Bundle where
  id : Bytes := []
  units : Option (List ClassUnit) := none
deriving DecidableEq, Repr

/-- A unit with a listing that does not read back. -/
structure UnitFault where
  name : Bytes
  listing : ListingFault
deriving DecidableEq, Repr

def UnitFault.message (fault : UnitFault) : Bytes :=
  utf8 "vmcode: unit " ++ fault.name ++ utf8 ": " ++ fault.listing.message

namespace ClassUnit

def ofCode (name : Bytes) (code : List Instruction) : ClassUnit :=
  { name, lines := some (Machine.lines code) }

def code (unit : ClassUnit) : Except UnitFault (List Instruction) :=
  match readListing (joinLines (unit.lines.getD [])) with
  | .ok code => .ok code
  | .error listing => .error { name := unit.name, listing }

end ClassUnit

namespace Bundle

/-- The bundle with one more class at its end. -/
def add (bundle : Bundle) (name : Bytes) (code : List Instruction) : Bundle :=
  { bundle with units := some (bundle.units.getD [] ++ [ClassUnit.ofCode name code]) }

/-! ## Identifiers -/

/-- The identifier that random bytes give: version and variant are set, and the
sixteen bytes are written as hexadecimal digits in five groups. -/
def identifier (random : Bytes) : Bytes :=
  let marked := random.mapIdx fun index byte =>
    if index = 6 then (byte &&& 0x0F) ||| 0x40
    else if index = 8 then (byte &&& 0x3F) ||| 0x80
    else byte
  let group (start width : Nat) : Bytes :=
    (marked.drop start |>.take width).flatMap fun byte =>
      Numeral.hexadecimal 2 byte.toNat
  List.intercalate (utf8 "-") [group 0 4, group 4 2, group 6 2, group 8 2, group 10 6]

/-- An empty bundle with the identifier that random bytes give. -/
def fresh (random : Bytes) : Bundle :=
  { id := identifier random }

/-! ## CBOR form -/

def unitItem (unit : ClassUnit) : Cbor.Item :=
  .map
    [(.ofText (utf8 "class"), .ofText unit.name),
      (.ofText (utf8 "instructions"), .ofList? (unit.lines.map fun lines =>
        lines.map Cbor.Item.ofText))]

def item (bundle : Bundle) : Cbor.Item :=
  .map
    [(.ofText (utf8 "id"), .ofText bundle.id),
      (.ofText (utf8 "units"), .ofList? (bundle.units.map fun units =>
        units.map unitItem))]

def encode (bundle : Bundle) : Bytes :=
  bundle.item.encode

/-- The item behind tags. A tag for numbers can not lead to anything that a bundle is
made of, and a tag for a date in text form needs a text right behind it. -/
def untagged? : Cbor.Item → Option Cbor.Item
  | .tag number content =>
      if number = 1 ∨ number = 2 ∨ number = 3 then none
      else if number = 0 then
        match content with
        | .text _ => some content
        | _ => none
      else untagged? content
  | item => some item

/-- Whether an item stands for nothing: null or undefined. -/
def isNothing : Cbor.Item → Bool
  | .simple value => value == 22 || value == 23
  | _ => false

/-- A text, provided that each of its chunks is well formed. Nothing counts as the
empty text. -/
def text? (item : Cbor.Item) : Option Bytes := do
  let item ← untagged? item
  match item with
  | .text chunks => if chunks.all Utf8.isWellFormed then some chunks.flatten else none
  | _ => if isNothing item then some [] else none

/-- A list of which every element can be read. Nothing counts as no list. -/
def list? {Value : Type} (read? : Cbor.Item → Option Value) (item : Cbor.Item) :
    Option (Option (List Value)) := do
  let item ← untagged? item
  match item with
  | .array items => (items.mapM read?).map some
  | _ => if isNothing item then some none else none

/-- The key of an entry: a text, or a number, which names no field. -/
def key? : Cbor.Item → Option (Option Bytes)
  | .text chunks =>
      if chunks.all Utf8.isWellFormed then some (some chunks.flatten) else none
  | .unsigned _ => some none
  | .negative value => if value < 0x8000000000000000 then some none else none
  | _ => none

/-- The entries of a map with text for a key. Nothing counts as the empty map. -/
def entries? (item : Cbor.Item) : Option (List (Bytes × Cbor.Item)) := do
  let item ← untagged? item
  match item with
  | .map entries => do
      let keyed ← entries.mapM fun (key, value) =>
        (key? key).map fun name => name.map (·, value)
      return keyed.filterMap fun entry => entry
  | _ => if isNothing item then some [] else none

/-- The first entry for a field. Letter case does not matter. -/
def field? (name : String) (entries : List (Bytes × Cbor.Item)) : Option Cbor.Item :=
  (entries.find? fun (key, _) =>
    key.length == (utf8 name).length && Text.sameFolded key (utf8 name)).map (·.2)

def unit? (item : Cbor.Item) : Option ClassUnit := do
  let entries ← entries? item
  let name ← text? ((field? "class" entries).getD .null)
  let lines ← list? text? ((field? "instructions" entries).getD .null)
  return { name, lines }

/-- The bundle that an item stands for. Missing fields are empty, unknown ones do not
count. -/
def ofItem? (item : Cbor.Item) : Option Bundle := do
  let entries ← entries? item
  let id ← text? ((field? "id" entries).getD .null)
  let units ← list? unit? ((field? "units" entries).getD .null)
  return { id, units }

def decode? (bytes : Bytes) : Option Bundle :=
  (Cbor.decode? bytes).bind ofItem?

end Bundle

end Jack.Machine
