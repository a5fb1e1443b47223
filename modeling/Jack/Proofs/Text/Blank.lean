import Jack.Proofs.Text.Utf8
import Jack.Text.Blank
import Mathlib.Data.List.DropRight
import Mathlib.Data.List.TakeWhile

/-!
Contract: what trimming leaves.

Owns: texts with something visible at both ends, which trimming leaves alone, what tells
them, and blanks at the ends, which trimming drops; and texts that have no other blanks than
those of ASCII, where trimming is a matter of bytes.
-/

set_option autoImplicit false

namespace Jack.Text

open Utf8 (Piece pieces)

variable {text front back : Bytes} {byte : UInt8}

/-- Whether a text neither starts nor ends with a blank character. -/
structure IsTight (text : Bytes) : Prop where
  starts : ∀ piece ∈ (pieces text).head?, isBlankPiece piece = false
  ends : ∀ piece ∈ (pieces text).getLast?, isBlankPiece piece = false

def StartsVisible (text : Bytes) : Prop :=
  ∀ piece ∈ (pieces text).head?, isBlankPiece piece = false

def EndsVisible (text : Bytes) : Prop :=
  ∀ piece ∈ (pieces text).getLast?, isBlankPiece piece = false

instance (text : Bytes) : Decidable (IsTight text) :=
  decidable_of_iff
    ((∀ piece ∈ (pieces text).head?, isBlankPiece piece = false) ∧
      ∀ piece ∈ (pieces text).getLast?, isBlankPiece piece = false)
    ⟨fun ends => ⟨ends.1, ends.2⟩, fun tight => ⟨tight.starts, tight.ends⟩⟩

theorem dropWhile_eq_self {Item : Type} {drops : Item → Bool} {items : List Item}
    (starts : ∀ item ∈ items.head?, drops item = false) : items.dropWhile drops = items := by
  cases items with
  | nil => rfl
  | cons first rest => exact List.dropWhile_cons_of_neg (by simp [starts first rfl])

theorem trim_of_isTight (tight : IsTight text) : trim text = text := by
  have ends : ∀ piece ∈ (pieces text).reverse.head?, isBlankPiece piece = false := by
    rw [List.head?_reverse]
    exact tight.ends
  rw [trim]
  rw [dropWhile_eq_self tight.starts, dropWhile_eq_self ends, List.reverse_reverse,
    Utf8.flatMap_bytes_pieces]

/-- The blanks of ASCII are the blank characters among its bytes. -/
theorem isBlank_ofUInt8 (small : byte.toNat < 0x80) :
    isBlank (Char.ofUInt8 byte) = isAsciiBlank byte := by
  have code : (Char.ofUInt8 byte).toNat = byte.toNat := rfl
  rw [Bool.eq_iff_iff]
  simp only [isBlank, isAsciiBlank, code, Bool.or_eq_true, Bool.and_eq_true, decide_eq_true_eq,
    beq_iff_eq, ← UInt8.toNat_inj, UInt8.le_iff_toNat_le, UInt8.reduceToNat]
  omega

theorem small_of_isAsciiBlank (blank : isAsciiBlank byte = true) : byte.toNat < 0x80 := by
  simp only [isAsciiBlank, Bool.or_eq_true, Bool.and_eq_true, decide_eq_true_eq,
    beq_iff_eq, ← UInt8.toNat_inj, UInt8.le_iff_toNat_le, UInt8.reduceToNat] at blank
  omega

/-- A blank of ASCII in front of a text is trimmed, whatever follows it. -/
theorem trim_blank_cons (blank : isAsciiBlank byte = true) (text : Bytes) :
    trim (byte :: text) = trim text := by
  have small := small_of_isAsciiBlank blank
  rw [trim, trim]
  rw [Utf8.pieces_ascii_cons small, List.dropWhile_cons_of_pos]
  rwa [isBlankPiece, isBlank_ofUInt8 small]

/-! ## Tight texts -/

theorem pieces_ne_nil (nonempty : text ≠ []) : pieces text ≠ [] := by
  intro none
  apply nonempty
  rw [← Utf8.flatMap_bytes_pieces text, none, List.flatMap_nil]

/-- A text of which the start can be seen and one of which the end can be seen are tight
together, with a byte of ASCII between them. -/
theorem isTight_append_cons (starts : StartsVisible front) (ends : EndsVisible back)
    (frontNonempty : front ≠ []) (backNonempty : back ≠ []) (small : byte.toNat < 0x80) :
    IsTight (front ++ byte :: back) where
  starts := by
    rw [Utf8.pieces_append_ascii small, List.head?_append_of_ne_nil _ (pieces_ne_nil frontNonempty)]
    exact starts
  ends := by
    rw [Utf8.pieces_append_ascii small, List.getLast?_append_of_ne_nil _ (List.cons_ne_nil _ _),
      List.getLast?_cons_of_ne_nil (pieces_ne_nil backNonempty)]
    exact ends

section Parts

variable (boundary : ∀ byte ∈ back.head?, byte.toNat < 0x80)

include boundary

/-- In front of a byte of ASCII, and at its end, a text is always cut. -/
theorem pieces_append_of_boundary :
    pieces (front ++ back) = pieces front ++ pieces back := by
  cases back with
  | nil => rw [Utf8.pieces_nil, List.append_nil, List.append_nil]
  | cons byte rest => exact Utf8.pieces_append_lead (.inl (boundary byte rfl)) front rest

theorem StartsVisible.of_append (starts : StartsVisible (front ++ back)) :
    StartsVisible front := by
  intro piece first
  apply starts
  rw [pieces_append_of_boundary boundary, Option.mem_def, List.head?_append,
    Option.mem_def.mp first, Option.some_or]

theorem EndsVisible.of_append (ends : EndsVisible (front ++ back)) : EndsVisible back := by
  intro piece last
  apply ends
  rw [pieces_append_of_boundary boundary, Option.mem_def, List.getLast?_append,
    Option.mem_def.mp last, Option.some_or]

end Parts

/-- The pieces of ASCII are its bytes. -/
theorem pieces_of_ascii (small : ∀ byte ∈ text, byte.toNat < 0x80) :
    pieces text = text.map fun byte => .character (Char.ofUInt8 byte) := by
  induction text with
  | nil => exact Utf8.pieces_nil
  | cons first rest inductionHypothesis =>
      obtain ⟨firstSmall, restSmall⟩ := List.forall_mem_cons.mp small
      rw [Utf8.pieces_ascii_cons firstSmall, inductionHypothesis restSmall, List.map_cons]

theorem isWellFormed_of_ascii (small : ∀ byte ∈ text, byte.toNat < 0x80) :
    Utf8.isWellFormed text = true := by
  rw [Utf8.isWellFormed, pieces_of_ascii small, List.all_map]
  exact List.all_eq_true.mpr fun _ _ => rfl

theorem isTight_of_ascii (small : ∀ byte ∈ text, byte.toNat < 0x80)
    (visible : ∀ byte ∈ text, isAsciiBlank byte = false) : IsTight text := by
  have seen : ∀ piece ∈ pieces text, isBlankPiece piece = false := by
    rw [pieces_of_ascii small, List.forall_mem_map]
    intro byte member
    rw [isBlankPiece, isBlank_ofUInt8 (small byte member), visible byte member]
  exact ⟨fun piece first => seen piece (List.mem_of_head? first),
    fun piece last => seen piece (List.mem_of_getLast? last)⟩

/-- A text is tight if no encoding of a blank character stands at one of its ends. -/
theorem isTight_iff :
    IsTight text ↔ ∀ character, isBlank character = true →
      ¬ String.utf8EncodeChar character <+: text ∧
        ¬ String.utf8EncodeChar character <:+ text := by
  constructor
  · intro tight character blank
    constructor
    · rintro ⟨after, rfl⟩
      have starts := tight.starts
      rw [Utf8.pieces_utf8EncodeChar_append] at starts
      have visible := starts _ rfl
      rw [isBlankPiece, blank] at visible
      cases visible
    · intro ends
      have visible := tight.ends _ (Utf8.getLast?_pieces_of_suffix ends)
      rw [isBlankPiece, blank] at visible
      cases visible
  · intro visible
    have parts := Utf8.flatMap_bytes_pieces text
    constructor
    · intro piece first
      cases piece with
      | stray byte => rfl
      | character value =>
          by_contra blank
          obtain ⟨others, split⟩ := List.head?_eq_some_iff.mp first
          rw [split, List.flatMap_cons] at parts
          exact (visible value (by simpa [isBlankPiece] using blank)).1 ⟨_, parts⟩
    · intro piece last
      cases piece with
      | stray byte => rfl
      | character value =>
          by_contra blank
          obtain ⟨others, split⟩ := List.getLast?_eq_some_iff.mp last
          rw [split, List.flatMap_append, List.flatMap_singleton] at parts
          exact (visible value (by simpa [isBlankPiece] using blank)).2 ⟨_, parts⟩

/-! ## What trimming leaves -/

/-- Trimming, as pieces dropped from both ends. -/
theorem trim_eq (text : Bytes) :
    trim text =
      (((pieces text).dropWhile isBlankPiece).rdropWhile isBlankPiece).flatMap Piece.bytes :=
  rfl

/-- Trimming never joins bytes into new characters. -/
theorem pieces_trim (text : Bytes) :
    pieces (trim text) = ((pieces text).dropWhile isBlankPiece).rdropWhile isBlankPiece := by
  have started : pieces (((pieces text).dropWhile isBlankPiece).flatMap Piece.bytes) =
      (pieces text).dropWhile isBlankPiece :=
    Utf8.pieces_of_append_left List.takeWhile_append_dropWhile.symm
  exact Utf8.pieces_of_append_right (started.trans List.rdropWhile_append_rtakeWhile.symm)

/-- Trimming drops blank pieces at the two ends. -/
theorem exists_pieces_trim (text : Bytes) :
    ∃ front back, pieces text = front ++ (pieces (trim text) ++ back) ∧
      (∀ piece ∈ front, isBlankPiece piece = true) ∧
      ∀ piece ∈ back, isBlankPiece piece = true := by
  refine ⟨(pieces text).takeWhile isBlankPiece,
    ((pieces text).dropWhile isBlankPiece).rtakeWhile isBlankPiece, ?_, ?_, ?_⟩
  · rw [pieces_trim, List.rdropWhile_append_rtakeWhile, List.takeWhile_append_dropWhile]
  · exact fun piece => List.mem_takeWhile_imp
  · exact fun piece => List.mem_rtakeWhile_imp

/-- No blank is left at the ends. -/
theorem isTight_trim (text : Bytes) : IsTight (trim text) where
  starts := by
    intro piece first
    rw [pieces_trim] at first
    have start : ((pieces text).dropWhile isBlankPiece).head? = some piece := by
      have parts : ((pieces text).dropWhile isBlankPiece).rdropWhile isBlankPiece ++ _ = _ :=
        List.rdropWhile_append_rtakeWhile
      rw [← parts, List.head?_append, Option.mem_def.mp first, Option.some_or]
    have refused := List.head?_dropWhile_not isBlankPiece (pieces text)
    rwa [start] at refused
  ends := by
    intro piece last
    rw [pieces_trim, List.rdropWhile, List.getLast?_reverse] at last
    have refused := List.head?_dropWhile_not isBlankPiece
      ((pieces text).dropWhile isBlankPiece).reverse
    rwa [Option.mem_def.mp last] at refused

/-- A blank of ASCII behind a text is trimmed, whatever is in front of it. -/
theorem trim_append_blank (blank : isAsciiBlank byte = true) (text : Bytes) :
    trim (text ++ [byte]) = trim text := by
  have small := small_of_isAsciiBlank blank
  have isBlank : isBlankPiece (.character (Char.ofUInt8 byte)) = true := by
    rwa [isBlankPiece, isBlank_ofUInt8 small]
  rw [trim_eq, trim_eq, Utf8.pieces_append_ascii small, Utf8.pieces_nil, List.dropWhile_append]
  split_ifs with allBlank
  · rw [List.isEmpty_iff.mp allBlank, List.dropWhile_cons_of_pos isBlank, List.dropWhile_nil]
  · rw [List.rdropWhile_concat_pos _ _ _ isBlank]

/-- What trimming leaves stands in the text as it is. -/
theorem trim_within (text : Bytes) : trim text <:+: text := by
  obtain ⟨front, back, parts, -⟩ := exists_pieces_trim text
  have whole := Utf8.eq_append_of_pieces parts
  rw [← List.append_assoc] at whole
  exact ⟨_, _, whole.symm⟩

/-- A text that ends in something visible is not trimmed to nothing. -/
theorem EndsVisible.eq_nil_of_trim (ends : EndsVisible text) (blank : trim text = []) :
    text = [] := by
  by_contra nonempty
  obtain ⟨front, back, parts, frontBlank, backBlank⟩ := exists_pieces_trim text
  rw [blank, Utf8.pieces_nil, List.nil_append] at parts
  obtain ⟨piece, last⟩ : ∃ piece, (pieces text).getLast? = some piece :=
    ⟨_, List.getLast?_eq_some_getLast (pieces_ne_nil nonempty)⟩
  have visible := ends piece last
  have member := List.mem_of_getLast? last
  rw [parts, List.mem_append] at member
  rcases member with inFront | inBack
  · simp [frontBlank piece inFront] at visible
  · simp [backBlank piece inBack] at visible

theorem IsTight.not_isAsciiBlank_head (tight : IsTight text) :
    ∀ byte ∈ text.head?, isAsciiBlank byte = false := by
  intro byte first
  obtain ⟨rest, rfl⟩ := List.head?_eq_some_iff.mp first
  by_contra blank
  rw [Bool.not_eq_false] at blank
  have small := small_of_isAsciiBlank blank
  have visible := tight.starts (.character (Char.ofUInt8 byte))
  rw [Utf8.pieces_ascii_cons small, isBlankPiece, isBlank_ofUInt8 small, blank] at visible
  simpa using visible rfl

/-! ## Texts with no other blanks than those of ASCII -/

/-- Whether no blank character outside ASCII stands anywhere in the text. -/
def BlanksAreAscii (text : Bytes) : Prop :=
  ∀ character, isBlank character = true → 0x80 ≤ character.toNat →
    ¬ String.utf8EncodeChar character <:+: text

theorem BlanksAreAscii.of_within {part : Bytes} (blanks : BlanksAreAscii text)
    (within : part <:+: text) : BlanksAreAscii part :=
  fun character blank large occurs => blanks character blank large (occurs.trans within)

def isForeignBlank : Piece → Bool
  | .character value => isBlank value && 0x80 ≤ value.toNat
  | .stray _ => false

theorem blanksAreAscii_iff :
    BlanksAreAscii text ↔ (pieces text).all (!isForeignBlank ·) = true := by
  rw [List.all_eq_true]
  constructor
  · intro blanks piece member
    cases piece with
    | stray byte => rfl
    | character value =>
        by_contra foreign
        simp only [isForeignBlank, Bool.not_eq_true', Bool.not_eq_false, Bool.and_eq_true,
          decide_eq_true_eq] at foreign
        exact blanks value foreign.1 foreign.2 (Utf8.infix_of_mem_pieces member)
  · intro visible character blank large occurs
    have member := visible _ (Utf8.character_mem_pieces occurs)
    simp [isForeignBlank, blank, large] at member

instance (text : Bytes) : Decidable (BlanksAreAscii text) :=
  decidable_of_iff _ blanksAreAscii_iff.symm

/-- In such a text, blank pieces are blank bytes. -/
theorem BlanksAreAscii.isAsciiBlank_of_mem (blanks : BlanksAreAscii text) {run : List Piece}
    (within : ∀ piece ∈ run, piece ∈ pieces text)
    (areBlank : ∀ piece ∈ run, isBlankPiece piece = true) :
    ∀ byte ∈ run.flatMap Piece.bytes, isAsciiBlank byte = true := by
  intro byte member
  obtain ⟨piece, inRun, inPiece⟩ := List.mem_flatMap.mp member
  have blank := areBlank piece inRun
  cases piece with
  | stray => cases blank
  | character value =>
      have small : value.toNat < 0x80 := by
        by_contra large
        exact blanks value blank (by omega) (Utf8.infix_of_mem_pieces (within _ inRun))
      rw [Piece.bytes] at inPiece
      have encoding := Utf8.encoding_utf8EncodeChar value
      generalize String.utf8EncodeChar value = bytes at inPiece encoding
      cases encoding with
      | one _ first =>
          obtain rfl := List.mem_singleton.mp inPiece
          have same : Char.ofUInt8 byte = value := Char.ext (UInt32.toNat_inj.mp first)
          rwa [← isBlank_ofUInt8 (by omega), same]
      | two | three | four => omega

/-- So trimming drops blank bytes only. -/
theorem BlanksAreAscii.exists_trim (blanks : BlanksAreAscii text) :
    ∃ front back, text = front ++ (trim text ++ back) ∧
      (∀ byte ∈ front, isAsciiBlank byte = true) ∧ ∀ byte ∈ back, isAsciiBlank byte = true := by
  obtain ⟨front, back, parts, frontBlank, backBlank⟩ := exists_pieces_trim text
  refine ⟨_, _, Utf8.eq_append_of_pieces parts, ?_, ?_⟩
  · exact blanks.isAsciiBlank_of_mem (by simp +contextual [parts]) frontBlank
  · exact blanks.isAsciiBlank_of_mem (by simp +contextual [parts]) backBlank

end Jack.Text
