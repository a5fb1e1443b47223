import Jack.Text.Bytes
import Mathlib.Data.List.TakeWhile
import Mathlib.Tactic.Common

/-!
Contract: how a text is cut.

Owns: the longest run of accepted bytes in front, the run of one byte at the end, the
first occurrence of a marker, and the pieces between separators, each told by what the
parts are.

Does not own: what any byte stands for.
-/

set_option autoImplicit false

namespace Jack.Bytes

section Runs

variable {accepts : UInt8 → Bool} {front back : Bytes}

/-- A run ends where a byte is not accepted. -/
theorem takeWhile_append_of_boundary (inside : ∀ byte ∈ front, accepts byte = true)
    (boundary : ∀ byte ∈ back.head?, accepts byte = false) :
    (front ++ back).takeWhile accepts = front := by
  rw [List.takeWhile_append_of_pos inside]
  cases back with
  | nil => simp
  | cons byte rest => simp [boundary byte rfl]

theorem dropWhile_append_of_boundary (inside : ∀ byte ∈ front, accepts byte = true)
    (boundary : ∀ byte ∈ back.head?, accepts byte = false) :
    (front ++ back).dropWhile accepts = back := by
  rw [List.dropWhile_append_of_pos inside]
  cases back with
  | nil => rfl
  | cons byte rest => simp [boundary byte rfl]

/-- What is left behind a run does not start with an accepted byte. -/
theorem not_accepts_head_dropWhile (accepts : UInt8 → Bool) (text : Bytes) :
    ∀ byte ∈ (text.dropWhile accepts).head?, accepts byte = false := by
  intro byte starts
  have refused := List.head?_dropWhile_not accepts text
  rw [Option.mem_def.mp starts] at refused
  exact refused

end Runs

/-! ## The end of a text -/

/-- Only a run of the unwanted byte is cut off at the end. -/
theorem trimEnd_append (unwanted : UInt8) (text : Bytes) :
    ∃ trimmed, text = trimEnd unwanted text ++ trimmed ∧ ∀ byte ∈ trimmed, byte = unwanted := by
  refine ⟨(text.reverse.takeWhile (· == unwanted)).reverse, ?_, ?_⟩
  · rw [trimEnd, ← List.reverse_append, List.takeWhile_append_dropWhile, List.reverse_reverse]
  · intro byte member
    have accepted := List.mem_takeWhile_imp (List.mem_reverse.mp member)
    simpa using accepted

/-- The unwanted byte is not left at the end. -/
theorem getLast?_trimEnd_ne (unwanted : UInt8) (text : Bytes) :
    (trimEnd unwanted text).getLast? ≠ some unwanted := by
  intro last
  rw [trimEnd, List.getLast?_reverse] at last
  have refused := not_accepts_head_dropWhile (· == unwanted) text.reverse unwanted last
  simp at refused

theorem trimEnd_eq {unwanted : UInt8} {front trimmed : Bytes}
    (last : front.getLast? ≠ some unwanted) (run : ∀ byte ∈ trimmed, byte = unwanted) :
    trimEnd unwanted (front ++ trimmed) = front := by
  rw [trimEnd, List.reverse_append, dropWhile_append_of_boundary, List.reverse_reverse]
  · intro byte member
    simpa using run byte (List.mem_reverse.mp member)
  · intro byte starts
    rw [List.head?_reverse] at starts
    have other : byte ≠ unwanted := by
      rintro rfl
      exact last starts
    simpa using other

/-! ## The first occurrence of a marker -/

/-- `front` is what stands before the first occurrence of `marker` in the text. -/
structure IsBefore (marker text front : Bytes) : Prop where
  occurs : front ++ marker <+: text
  first : ∀ other, other ++ marker <+: text → front.length ≤ other.length

theorem IsBefore.exists_back {marker text front : Bytes}
    (found : IsBefore marker text front) : ∃ back, text = front ++ (marker ++ back) := by
  obtain ⟨back, same⟩ := found.occurs
  exact ⟨back, by rw [← same, List.append_assoc]⟩

/-- An occurrence is the first one if the text up to its end has no other one. -/
theorem isBefore_append_iff {marker front back : Bytes} :
    IsBefore marker (front ++ (marker ++ back)) front ↔
      ∀ other rest, front ++ marker = other ++ (marker ++ rest) → rest = [] := by
  rw [← List.append_assoc]
  constructor
  · intro found other rest same
    have occurs : other ++ marker <+: (front ++ marker) ++ back :=
      ⟨rest ++ back, by rw [same]; simp⟩
    have shorter := found.first other occurs
    have lengths := congrArg List.length same
    simp only [List.length_append] at lengths
    exact List.length_eq_zero_iff.mp (by omega)
  · intro once
    refine ⟨List.prefix_append _ _, fun other occurs => ?_⟩
    by_contra shorter
    have within : other ++ marker <+: front ++ marker :=
      List.prefix_of_prefix_length_le occurs (List.prefix_append _ _) (by simp; omega)
    obtain ⟨rest, same⟩ := within
    have empty := once other rest (by rw [← same, List.append_assoc])
    have lengths := congrArg List.length same
    simp only [empty, List.length_append, List.length_nil] at lengths
    omega

theorem isBefore_nil_iff {marker front : Bytes} :
    IsBefore marker [] front ↔ marker = [] ∧ front = [] := by
  constructor
  · intro found
    simpa [and_comm] using found.occurs
  · rintro ⟨rfl, rfl⟩
    exact ⟨List.nil_prefix, fun _ _ => Nat.zero_le _⟩

/-- The marker may stand right in front. -/
theorem isBefore_cons_iff_of_starts {marker rest front : Bytes} {byte : UInt8}
    (inFront : marker <+: byte :: rest) :
    IsBefore marker (byte :: rest) front ↔ front = [] := by
  constructor
  · intro found
    exact List.length_eq_zero_iff.mp (Nat.le_zero.mp (found.first [] inFront))
  · rintro rfl
    exact ⟨inFront, fun _ _ => Nat.zero_le _⟩

theorem isBefore_cons_iff_of_not_starts {marker rest front : Bytes} {byte : UInt8}
    (notInFront : ¬ marker <+: byte :: rest) :
    IsBefore marker (byte :: rest) front ↔
      ∃ tail, front = byte :: tail ∧ IsBefore marker rest tail := by
  have shifted {other : Bytes} (occurs : other ++ marker <+: byte :: rest) :
      ∃ tail, other = byte :: tail ∧ tail ++ marker <+: rest := by
    cases other with
    | nil => exact absurd occurs notInFront
    | cons head tail =>
        obtain ⟨rfl, inRest⟩ := List.cons_prefix_cons.mp occurs
        exact ⟨tail, rfl, inRest⟩
  constructor
  · intro found
    obtain ⟨tail, rfl, inRest⟩ := shifted found.occurs
    refine ⟨tail, rfl, inRest, fun other occurs => ?_⟩
    have shorter := found.first (byte :: other) (List.cons_prefix_cons.mpr ⟨rfl, occurs⟩)
    simpa using shorter
  · rintro ⟨tail, rfl, found⟩
    refine ⟨List.cons_prefix_cons.mpr ⟨rfl, found.occurs⟩, fun other occurs => ?_⟩
    obtain ⟨others, rfl, inRest⟩ := shifted occurs
    simpa using found.first others inRest

/-- The search counts from its base, and stops at the first occurrence. -/
theorem offsetFrom?_eq_some_iff {marker text : Bytes} {base offset : Nat} :
    offsetFrom? marker base text = some offset ↔
      ∃ front, IsBefore marker text front ∧ offset = base + front.length := by
  induction text generalizing base with
  | nil =>
      simp only [offsetFrom?, isBefore_nil_iff, List.isEmpty_iff]
      split_ifs with empty
      · simp [empty, eq_comm]
      · simp [empty]
  | cons byte rest inductionHypothesis =>
      rw [offsetFrom?]
      split_ifs with inFront
      · simp only [isBefore_cons_iff_of_starts (List.isPrefixOf_iff_prefix.mp inFront)]
        simp [eq_comm]
      · have notInFront : ¬ marker <+: byte :: rest := fun occurs =>
          inFront (List.isPrefixOf_iff_prefix.mpr occurs)
        simp only [inductionHypothesis, isBefore_cons_iff_of_not_starts notInFront]
        constructor
        · rintro ⟨tail, found, rfl⟩
          exact ⟨byte :: tail, ⟨tail, rfl, found⟩, by simp; omega⟩
        · rintro ⟨_, ⟨tail, rfl, found⟩, rfl⟩
          exact ⟨tail, found, by simp; omega⟩

/-- The search finds the first occurrence, and one that there is. -/
theorem offsetOf?_eq_some_iff {marker text : Bytes} {offset : Nat} :
    offsetOf? marker text = some offset ↔
      ∃ front, IsBefore marker text front ∧ offset = front.length := by
  simp [offsetOf?, offsetFrom?_eq_some_iff]

theorem not_infix_of_offsetFrom?_eq_none {marker text : Bytes} {base : Nat}
    (missing : offsetFrom? marker base text = none) : ¬ marker <:+: text := by
  induction text generalizing base with
  | nil =>
      intro occurs
      simp [offsetFrom?, List.infix_nil.mp occurs] at missing
  | cons byte rest inductionHypothesis =>
      rw [offsetFrom?] at missing
      by_cases inFront : marker.isPrefixOf (byte :: rest) = true
      · simp [inFront] at missing
      · rw [if_neg inFront] at missing
        intro occurs
        rcases List.infix_cons_iff.mp occurs with starts | inRest
        · exact inFront (List.isPrefixOf_iff_prefix.mpr starts)
        · exact inductionHypothesis missing inRest

/-- The search finds nothing if the marker does not occur. -/
theorem offsetOf?_eq_none_iff {marker text : Bytes} :
    offsetOf? marker text = none ↔ ¬ marker <:+: text := by
  refine ⟨not_infix_of_offsetFrom?_eq_none, fun absent => ?_⟩
  cases found : offsetOf? marker text with
  | none => rfl
  | some offset =>
      obtain ⟨front, isBefore, -⟩ := offsetOf?_eq_some_iff.mp found
      obtain ⟨back, same⟩ := isBefore.occurs
      exact absurd ⟨front, back, same⟩ absent

theorem before_of_absent {marker text : Bytes} (absent : ¬ marker <:+: text) :
    before marker text = text := by
  rw [before, offsetOf?_eq_none_iff.mpr absent]

/-- A text goes on behind the first occurrence of a marker as it likes. -/
theorem IsBefore.append {marker text front : Bytes} (found : IsBefore marker text front)
    (more : Bytes) : IsBefore marker (text ++ more) front where
  occurs := found.occurs.trans (List.prefix_append text more)
  first := by
    intro other occurs
    by_contra shorter
    have within : other ++ marker <+: text := by
      refine List.prefix_of_prefix_length_le occurs (List.prefix_append text more) ?_
      have bound := found.occurs.length_le
      simp only [List.length_append] at bound ⊢
      omega
    exact shorter (found.first other within)

theorem IsBefore.before_eq {marker text front : Bytes} (found : IsBefore marker text front) :
    before marker text = front := by
  obtain ⟨back, same⟩ := found.exists_back
  rw [before, offsetOf?_eq_some_iff.mpr ⟨front, found, rfl⟩, same]
  exact List.take_left

theorem isBefore_of_occurs {marker text : Bytes} (occurs : marker <:+: text) :
    IsBefore marker text (before marker text) := by
  cases missing : offsetOf? marker text with
  | none => exact absurd occurs (offsetOf?_eq_none_iff.mp missing)
  | some offset =>
      obtain ⟨front, found, -⟩ := offsetOf?_eq_some_iff.mp missing
      rwa [found.before_eq]

theorem before_starts (marker text : Bytes) : before marker text <+: text := by
  by_cases occurs : marker <:+: text
  · exact (List.prefix_append _ _).trans (isBefore_of_occurs occurs).occurs
  · have whole := before_of_absent occurs
    exact ⟨[], by rw [whole, List.append_nil]⟩

/-- The marker itself is never before its first occurrence. -/
theorem not_infix_before {marker : Bytes} (nonempty : marker ≠ []) (text : Bytes) :
    ¬ marker <:+: before marker text := by
  by_cases occurs : marker <:+: text
  · rintro ⟨other, rest, same⟩
    have found := isBefore_of_occurs occurs
    have earlier : other ++ marker <+: text :=
      (List.prefix_append (other ++ marker) rest).trans (same ▸ before_starts marker text)
    have first := found.first other earlier
    have lengths := congrArg List.length same
    have positive := List.length_pos_iff.mpr nonempty
    simp only [List.length_append] at lengths
    omega
  · rwa [before_of_absent occurs]

/-- A marker does not go over a byte that is not in it. -/
theorem infix_or_of_infix_append_cons {marker front back : Bytes} {separator : UInt8}
    (other : separator ∉ marker) (occurs : marker <:+: front ++ separator :: back) :
    marker <:+: front ∨ marker <:+: back := by
  obtain ⟨before, after, same⟩ := occurs
  rcases List.append_eq_append_iff.mp same with ⟨middle, inFront, -⟩ | ⟨middle, split, rest⟩
  · exact .inl ⟨before, middle, inFront.symm⟩
  -- What follows the front starts with the separator, in the marker or in front of it.
  rcases List.append_eq_append_iff.mp split with ⟨part, ends, rfl⟩ | ⟨part, -, rfl⟩
  · cases middle with
    | nil => exact .inl ⟨before, [], by simp [ends]⟩
    | cons first others =>
        obtain ⟨rfl, -⟩ := List.cons.inj rest
        exact absurd (by simp) other
  · cases part with
    | nil =>
        cases marker with
        | nil => exact .inr (List.nil_infix)
        | cons first others =>
            obtain ⟨rfl, -⟩ := List.cons.inj rest
            exact absurd (by simp) other
    | cons first others =>
        obtain ⟨-, inBack⟩ := List.cons.inj rest
        exact .inr ⟨others, after, inBack.symm⟩

/-! ## Pieces between separators -/

/-- Splitting is the splitting of the library, without an accumulator. -/
theorem split_eq_splitOnP (separator : UInt8) (text : Bytes) :
    split separator text = text.splitOnP (· == separator) := by
  induction text with
  | nil => rfl
  | cons byte rest inductionHypothesis =>
      rw [split] at inductionHypothesis
      rw [split, List.foldr_cons, inductionHypothesis, List.splitOnP_cons_eq_if_modifyHead]
      by_cases same : byte = separator
      · simp [same]
      · rw [if_neg same, if_neg (by simpa using same)]
        cases pieces : rest.splitOnP (· == separator) with
        | nil => exact absurd pieces (List.splitOnP_ne_nil _ rest)
        | cons piece others => rfl

/-- A separator ends one piece and starts the next. -/
theorem split_append_cons (separator : UInt8) (front back : Bytes) :
    split separator (front ++ separator :: back) =
      split separator front ++ split separator back := by
  rw [split_eq_splitOnP, split_eq_splitOnP, split_eq_splitOnP]
  exact List.splitOnP_append_cons front back (beq_self_eq_true separator)

theorem split_of_not_mem {separator : UInt8} {text : Bytes} (unbroken : separator ∉ text) :
    split separator text = [text] := by
  rw [split_eq_splitOnP]
  refine List.splitOnP_eq_singleton fun byte member => ?_
  rw [beq_eq_false_iff_ne]
  rintro rfl
  exact unbroken member

theorem infix_of_mem_split {separator : UInt8} {text piece : Bytes}
    (member : piece ∈ split separator text) : piece <:+: text := by
  induction length : text.length using Nat.strongRecOn generalizing text with
  | ind size inductionHypothesis =>
      by_cases occurs : separator ∈ text
      · obtain ⟨front, back, rfl, unbroken⟩ := List.eq_append_cons_of_mem occurs
        rw [split_append_cons, split_of_not_mem unbroken, List.singleton_append,
          List.mem_cons] at member
        rcases member with rfl | inBack
        · exact (List.prefix_append _ _).isInfix
        · have shorter : back.length < size := by
            simp only [← length, List.length_append, List.length_cons]
            omega
          have within := inductionHypothesis _ shorter inBack rfl
          exact within.trans ((List.suffix_cons _ _).trans (List.suffix_append _ _)).isInfix
      · rw [split_of_not_mem occurs, List.mem_singleton] at member
        exact member ▸ List.infix_refl text

end Jack.Bytes
