import Jack.Machine.Bundle
import Jack.Proofs.Cbor.RoundTrip

/-!
Contract: reading a bundle from the bytes it is written as.

Owns: the limits of what can be read, the fields of maps with two entries, and the round
trip, which gives the bundle back if it is within the limits and nothing otherwise.

Does not own: the round trip of CBOR items, and where the texts of a bundle come from.

There is no limit on what can be written.
-/

set_option autoImplicit false

namespace Jack.Machine

open Cbor (Item maxElements maxLevels maxArgument)

/-! ## Texts and limits -/

namespace ClassUnit

/-- Whether the name and the lines of a unit are UTF-8. -/
def isText (unit : ClassUnit) : Bool :=
  Utf8.isWellFormed unit.name && (unit.lines.getD []).all Utf8.isWellFormed

/-- Whether a unit is short enough to be read. -/
def withinLimits (unit : ClassUnit) : Bool :=
  (unit.lines.getD []).length ≤ maxElements

end ClassUnit

namespace Bundle

def isText (bundle : Bundle) : Bool :=
  Utf8.isWellFormed bundle.id && (bundle.units.getD []).all ClassUnit.isText

def withinLimits (bundle : Bundle) : Bool :=
  (bundle.units.getD []).length ≤ maxElements &&
    (bundle.units.getD []).all ClassUnit.withinLimits

/-! ## Items -/

theorem isPlain_ofList? {Value : Type} (write : Value → Item)
    (plain : ∀ value, (write value).isPlain = true) (values : Option (List Value)) :
    (Item.ofList? (values.map fun values => values.map write)).isPlain = true := by
  cases values with
  | none => rfl
  | some values =>
      show Item.allPlain (values.map write) = true
      rw [Item.allPlain_eq_all, List.all_map]
      exact List.all_eq_true.mpr fun value _ => plain value

/-- A list counts as a level, and its elements are counted. -/
theorem fits_ofList? {Value : Type} (write : Value → Item) (levels : Nat)
    (values : Option (List Value)) :
    (Item.ofList? (values.map fun values => values.map write)).fits (levels + 1) =
      (decide ((values.getD []).length ≤ maxElements) &&
        (values.getD []).all fun value => (write value).fits levels) := by
  cases values with
  | none => rfl
  | some values =>
      show Item.fits (levels + 1) (.array (values.map write)) = _
      rw [Item.fits, Item.allFit_eq_all, List.all_map, List.length_map]
      rfl

theorem isPlain_unitItem (unit : ClassUnit) : (unitItem unit).isPlain = true := by
  have lines := isPlain_ofList? Item.ofText (fun _ => rfl) unit.lines
  simp only [unitItem, Item.isPlain, Item.entriesPlain, lines]
  rfl

/-- All items of a bundle have one written form: no chunks, no open lengths. -/
theorem isPlain_item (bundle : Bundle) : bundle.item.isPlain = true := by
  have units := isPlain_ofList? unitItem isPlain_unitItem bundle.units
  simp only [item, Item.isPlain, Item.entriesPlain, units]
  rfl

/-- A unit nests two levels deep, so depth is never in the way. -/
theorem fits_unitItem (unit : ClassUnit) (levels : Nat) :
    (unitItem unit).fits (levels + 2) = unit.withinLimits := by
  have texts : (unit.lines.getD []).all (fun line => (Item.ofText line).fits levels) = true :=
    List.all_eq_true.mpr fun _ _ => rfl
  have lines := fits_ofList? Item.ofText levels unit.lines
  rw [texts, Bool.and_true] at lines
  simp only [unitItem, Item.fits, Item.entriesFit, Nat.add_succ_sub_one, lines]
  simp [Item.ofText, Item.fits, maxElements, ClassUnit.withinLimits]

/-- The limits of the reader, as limits on a bundle. -/
theorem fits_item (bundle : Bundle) : bundle.item.fits maxLevels = bundle.withinLimits := by
  have units := fits_ofList? unitItem 30 bundle.units
  simp only [fits_unitItem] at units
  simp only [item, maxLevels, Item.fits, Item.entriesFit, Nat.reduceSub, units]
  simp [Item.ofText, Item.fits, maxElements, withinLimits]

/-! ## Fields -/

theorem text?_ofText {text : Bytes} (wellFormed : Utf8.isWellFormed text = true) :
    text? (.ofText text) = some text := by
  simp [text?, Item.ofText, untagged?, wellFormed]

theorem mapM_map_eq_some {Value : Type} {write : Value → Item} {read? : Item → Option Value}
    {values : List Value}
    (reads : ∀ value ∈ values, read? (write value) = some value) :
    (values.map write).mapM read? = some values := by
  induction values with
  | nil => rfl
  | cons first rest inductionHypothesis =>
      obtain ⟨readsFirst, readsRest⟩ := List.forall_mem_cons.mp reads
      rw [List.map_cons, List.mapM_cons, readsFirst, inductionHypothesis readsRest]
      rfl

/-- A list is read back if its elements are; a list that was never made comes back as such. -/
theorem list?_ofList? {Value : Type} {write : Value → Item} {read? : Item → Option Value}
    {values : Option (List Value)}
    (reads : ∀ value ∈ values.getD [], read? (write value) = some value) :
    list? read? (.ofList? (values.map fun values => values.map write)) = some values := by
  cases values with
  | none => rfl
  | some values =>
      show ((values.map write).mapM read?).map some = _
      rw [Option.getD_some] at reads
      rw [mapM_map_eq_some reads]
      rfl

variable {first second : String} {firstValue secondValue : Item}

theorem entries?_pair (firstText : Utf8.isWellFormed (utf8 first) = true)
    (secondText : Utf8.isWellFormed (utf8 second) = true) :
    entries? (.map [(.ofText (utf8 first), firstValue), (.ofText (utf8 second), secondValue)]) =
      some [(utf8 first, firstValue), (utf8 second, secondValue)] := by
  simp [entries?, untagged?, key?, Item.ofText, firstText, secondText]

theorem field?_first (rest : List (Bytes × Item)) :
    field? first ((utf8 first, firstValue) :: rest) = some firstValue := by
  simp [field?, Text.sameFolded]

/-- Keys of different lengths are not mistaken for each other. -/
theorem field?_second (apart : (utf8 first).length ≠ (utf8 second).length) :
    field? second [(utf8 first, firstValue), (utf8 second, secondValue)] = some secondValue := by
  simp [field?, Text.sameFolded, apart]

theorem unit?_unitItem {unit : ClassUnit} (isText : unit.isText = true) :
    unit? (unitItem unit) = some unit := by
  simp only [ClassUnit.isText, Bool.and_eq_true, List.all_eq_true] at isText
  have apart : (utf8 "class").length ≠ (utf8 "instructions").length := by decide
  have lines : list? text? (.ofList? (unit.lines.map fun lines => lines.map Item.ofText)) =
      some unit.lines := list?_ofList? fun line member => text?_ofText (isText.2 line member)
  rw [unit?, unitItem, entries?_pair (by decide +kernel) (by decide +kernel)]
  simp only [Option.bind_eq_bind, Option.bind_some, field?_first, field?_second apart,
    Option.getD_some, text?_ofText isText.1, lines]
  rfl

/-- A bundle is read back from its item, units that were never added included. -/
theorem ofItem?_item {bundle : Bundle} (isText : bundle.isText = true) :
    ofItem? bundle.item = some bundle := by
  simp only [Bundle.isText, Bool.and_eq_true, List.all_eq_true] at isText
  have apart : (utf8 "id").length ≠ (utf8 "units").length := by decide
  have units : list? unit? (.ofList? (bundle.units.map fun units => units.map unitItem)) =
      some bundle.units := list?_ofList? fun unit member => unit?_unitItem (isText.2 unit member)
  rw [ofItem?, item, entries?_pair (by decide +kernel) (by decide +kernel)]
  simp only [Option.bind_eq_bind, Option.bind_some, field?_first, field?_second apart,
    Option.getD_some, text?_ofText isText.1, units]
  rfl

/-- A bundle of UTF-8 texts is read from its bytes if it is within the limits, and can not
be read otherwise. -/
theorem decode?_encode {bundle : Bundle} (isText : bundle.isText = true)
    (held : bundle.encode.length < maxArgument) :
    decode? bundle.encode = if bundle.withinLimits = true then some bundle else none := by
  rw [decode?, encode, Cbor.decode?_encode bundle.isPlain_item held, fits_item]
  by_cases within : bundle.withinLimits = true
  · rw [if_pos within, if_pos within]
    exact ofItem?_item isText
  · rw [if_neg within, if_neg within]
    rfl

end Bundle

end Jack.Machine
