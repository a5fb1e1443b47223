import Jack.Text.Utf8
import Mathlib.Data.List.Basic

/-!
Contract: cutting a text into characters undoes writing them.

Owns: that a sequence is decoded exactly if it is the encoding of a character, that the
pieces of a text give the text back, that a part of a text made of some of its pieces is cut
into these, and that a text is always cut in front of a byte that can start a sequence, so
around every character in it.

Does not own: what the characters mean.
-/

set_option autoImplicit false

namespace Jack.Utf8

variable {lead : UInt8} {rest after : Bytes} {character : Char}

/-! ## Sequences -/

/-- A byte that continues a character carries six bits. -/
theorem continuation?_eq_some_iff {byte : UInt8} {bits : Nat} :
    continuation? byte = some bits ↔ bits < 64 ∧ byte.toNat = bits + 128 := by
  have small := byte.toNat_lt
  simp only [continuation?, Bool.and_eq_true, decide_eq_true_eq, UInt8.le_iff_toNat_le]
  change (if 128 ≤ byte.toNat ∧ byte.toNat ≤ 191 then _ else _) = _ ↔ _
  split_ifs with inRange
  · rw [Option.some.injEq]
    omega
  · simp only [false_iff]
    omega

theorem character?_eq_some_iff {least code : Nat} :
    character? least code = some character ↔ character.toNat = code ∧ least ≤ code := by
  by_cases valid : code.isValidChar
  · rw [character?, dif_pos valid]
    by_cases reached : least ≤ code
    · rw [if_pos reached, Option.some.injEq]
      constructor
      · rintro rfl
        exact ⟨rfl, reached⟩
      · rintro ⟨rfl, -⟩
        exact Char.ext (UInt32.toNat_inj.mp rfl)
    · rw [if_neg reached]
      exact iff_of_false (by simp) fun found => reached found.2
  · rw [character?, dif_neg valid]
    refine iff_of_false (by simp) ?_
    rintro ⟨rfl, -⟩
    exact valid character.valid

/-- A byte is given by its value. -/
theorem ofNat_eq_iff {value : Nat} (small : value < 256) {byte : UInt8} :
    UInt8.ofNat value = byte ↔ byte.toNat = value := by
  rw [← UInt8.toNat_inj, UInt8.toNat_ofNat_of_lt' small, eq_comm]

/-- The encoding of a character, by the range of its code. -/
inductive Encoding (character : Char) : Bytes → Prop where
  | one {first : UInt8} (small : character.toNat < 0x80)
      (first_eq : first.toNat = character.toNat) :
      Encoding character [first]
  | two {first second : UInt8} (least : 0x80 ≤ character.toNat)
      (small : character.toNat < 0x800)
      (first_eq : first.toNat = character.toNat / 64 + 192)
      (second_eq : second.toNat = character.toNat % 64 + 128) :
      Encoding character [first, second]
  | three {first second third : UInt8} (least : 0x800 ≤ character.toNat)
      (small : character.toNat < 0x10000)
      (first_eq : first.toNat = character.toNat / 4096 + 224)
      (second_eq : second.toNat = character.toNat / 64 % 64 + 128)
      (third_eq : third.toNat = character.toNat % 64 + 128) :
      Encoding character [first, second, third]
  | four {first second third fourth : UInt8} (least : 0x10000 ≤ character.toNat)
      (first_eq : first.toNat = character.toNat / 262144 + 240)
      (second_eq : second.toNat = character.toNat / 4096 % 64 + 128)
      (third_eq : third.toNat = character.toNat / 64 % 64 + 128)
      (fourth_eq : fourth.toNat = character.toNat % 64 + 128) :
      Encoding character [first, second, third, fourth]

theorem toNat_lt (character : Char) : character.toNat < 0x110000 := by
  have valid := character.valid
  simp only [UInt32.isValidChar, Nat.isValidChar] at valid
  change character.val.toNat < _
  omega

/-- The encoding of the library has the bytes that the relation asks for, in each of its four
lengths. -/
theorem encoding_utf8EncodeChar (character : Char) :
    Encoding character (String.utf8EncodeChar character) := by
  have bound := toNat_lt character
  have byte {value : Nat} (small : value < 256) : (UInt8.ofNat value).toNat = value :=
    (ofNat_eq_iff small).mp rfl
  have code : character.val.toNat = character.toNat := rfl
  unfold String.utf8EncodeChar
  simp only [code]
  split_ifs with ofOne ofTwo ofThree
  · exact .one (by omega) (byte (by omega))
  · refine .two (by omega) (by omega) ?_ (byte (by omega))
    rw [byte (by omega)]
    omega
  · refine .three (by omega) (by omega) ?_ (byte (by omega)) (byte (by omega))
    rw [byte (by omega)]
    omega
  · refine .four (by omega) ?_ (byte (by omega)) (byte (by omega)) (byte (by omega))
    rw [byte (by omega)]
    omega

/-- A character has one encoding. -/
theorem Encoding.eq {bytes : Bytes} (encoding : Encoding character bytes) :
    bytes = String.utf8EncodeChar character := by
  have same {left right : UInt8} {value : Nat} (leftEq : left.toNat = value)
      (rightEq : right.toNat = value) : left = right :=
    UInt8.toNat_inj.mp (leftEq.trans rightEq.symm)
  generalize string : String.utf8EncodeChar character = other
  have canonical := string ▸ encoding_utf8EncodeChar character
  cases encoding with
  | one small first =>
      cases canonical with
      | one _ otherFirst => rw [same first otherFirst]
      | two | three | four => omega
  | two least small first second =>
      cases canonical with
      | two _ _ otherFirst otherSecond => rw [same first otherFirst, same second otherSecond]
      | one | three | four => omega
  | three least small first second third =>
      cases canonical with
      | three _ _ otherFirst otherSecond otherThird =>
          rw [same first otherFirst, same second otherSecond, same third otherThird]
      | one | two | four => omega
  | four least first second third fourth =>
      cases canonical with
      | four _ otherFirst otherSecond otherThird otherFourth =>
          rw [same first otherFirst, same second otherSecond, same third otherThird,
            same fourth otherFourth]
      | one | two | three => omega

/-- What decodes to a character encodes it. -/
theorem encoding_of_sequence? (found : sequence? lead rest = some (character, after)) :
    ∃ bytes, Encoding character bytes ∧ lead :: rest = bytes ++ after := by
  have leadSmall := lead.toNat_lt
  simp only [sequence?, UInt8.lt_iff_toNat_lt, UInt8.reduceToNat] at found
  split_ifs at found with ofOne ofNone ofTwo ofThree ofFour
  · simp only [Option.map_eq_some_iff, Prod.mk.injEq, character?_eq_some_iff] at found
    obtain ⟨_, ⟨code, -⟩, rfl, rfl⟩ := found
    exact ⟨[lead], .one (by omega) code.symm, rfl⟩
  · split at found
    · rename_i second behind
      simp only [Option.bind_eq_bind, Option.bind_eq_some_iff, Option.pure_def, Option.some.injEq,
        Prod.mk.injEq, continuation?_eq_some_iff, character?_eq_some_iff] at found
      obtain ⟨low, ⟨lowSmall, secondEq⟩, _, ⟨code, least⟩, rfl, rfl⟩ := found
      exact ⟨[lead, second],
        .two (by omega) (by omega) (by omega) (by omega), rfl⟩
    · cases found
  · split at found
    · rename_i second third behind
      simp only [Option.bind_eq_bind, Option.bind_eq_some_iff, Option.pure_def, Option.some.injEq,
        Prod.mk.injEq, continuation?_eq_some_iff, character?_eq_some_iff] at found
      obtain ⟨middle, ⟨middleSmall, secondEq⟩, low, ⟨lowSmall, thirdEq⟩, _, ⟨code, least⟩,
        rfl, rfl⟩ := found
      exact ⟨[lead, second, third],
        .three (by omega) (by omega) (by omega) (by omega) (by omega), rfl⟩
    · cases found
  · split at found
    · rename_i second third fourth behind
      simp only [Option.bind_eq_bind, Option.bind_eq_some_iff, Option.pure_def, Option.some.injEq,
        Prod.mk.injEq, continuation?_eq_some_iff, character?_eq_some_iff] at found
      obtain ⟨high, ⟨highSmall, secondEq⟩, middle, ⟨middleSmall, thirdEq⟩, low,
        ⟨lowSmall, fourthEq⟩, _, ⟨code, least⟩, rfl, rfl⟩ := found
      exact ⟨[lead, second, third, fourth],
        .four (by omega) (by omega) (by omega) (by omega) (by omega), rfl⟩
    · cases found

/-- What encodes a character decodes to it. -/
theorem Encoding.sequence?_eq {bytes : Bytes} (encoding : Encoding character bytes)
    (same : lead :: rest = bytes ++ after) :
    sequence? lead rest = some (character, after) := by
  have bound := toNat_lt character
  have payload {byte : UInt8} {bits : Nat} (byte_eq : byte.toNat = bits % 64 + 128) :
      continuation? byte = some (bits % 64) :=
    continuation?_eq_some_iff.mpr ⟨Nat.mod_lt _ (by decide), byte_eq⟩
  have decoded {least code : Nat} (code_eq : character.toNat = code) (reached : least ≤ code) :
      character? least code = some character := character?_eq_some_iff.mpr ⟨code_eq, reached⟩
  simp only [sequence?, UInt8.lt_iff_toNat_lt, UInt8.reduceToNat]
  cases encoding with
  | one small first =>
      simp only [List.cons_append, List.nil_append, List.cons.injEq] at same
      obtain ⟨rfl, rfl⟩ := same
      rw [if_pos (by omega), decoded first.symm (Nat.zero_le _)]
      rfl
  | two least small first second =>
      simp only [List.cons_append, List.nil_append, List.cons.injEq] at same
      obtain ⟨rfl, rfl⟩ := same
      rw [if_neg (by omega), if_neg (by omega), if_pos (by omega)]
      dsimp only
      rw [payload second]
      simp only [Option.bind_eq_bind, Option.bind_some]
      rw [decoded (by omega) (by omega)]
      rfl
  | three least small first second third =>
      simp only [List.cons_append, List.nil_append, List.cons.injEq] at same
      obtain ⟨rfl, rfl⟩ := same
      rw [if_neg (by omega), if_neg (by omega), if_neg (by omega), if_pos (by omega)]
      dsimp only
      rw [payload second, payload third]
      simp only [Option.bind_eq_bind, Option.bind_some]
      rw [decoded (by omega) (by omega)]
      rfl
  | four least first second third fourth =>
      simp only [List.cons_append, List.nil_append, List.cons.injEq] at same
      obtain ⟨rfl, rfl⟩ := same
      rw [if_neg (by omega), if_neg (by omega), if_neg (by omega), if_neg (by omega),
        if_pos (by omega)]
      dsimp only
      rw [payload second, payload third, payload fourth]
      simp only [Option.bind_eq_bind, Option.bind_some]
      rw [decoded (by omega) (by omega)]
      rfl

/-- A character is decoded from the bytes that encode it, and from no others. -/
theorem sequence?_eq_some_iff :
    sequence? lead rest = some (character, after) ↔
      lead :: rest = String.utf8EncodeChar character ++ after := by
  constructor
  · intro found
    obtain ⟨bytes, encoding, same⟩ := encoding_of_sequence? found
    rw [same, encoding.eq]
  · exact (encoding_utf8EncodeChar character).sequence?_eq

/-- The first byte of an encoding is of another range than those behind it. -/
theorem Encoding.ranges {others : Bytes} (encoding : Encoding character (lead :: others)) :
    (lead.toNat < 0x80 ∨ 0xC0 ≤ lead.toNat) ∧
      ∀ byte ∈ others, 0x80 ≤ byte.toNat ∧ byte.toNat < 0xC0 := by
  cases encoding with
  | one =>
      refine ⟨by omega, ?_⟩
      simp
  | two _ _ _ second =>
      refine ⟨by omega, fun byte member => ?_⟩
      obtain rfl := List.mem_singleton.mp member
      omega
  | three _ _ _ second third =>
      refine ⟨by omega, fun byte member => ?_⟩
      simp only [List.mem_cons, List.not_mem_nil, or_false] at member
      rcases member with rfl | rfl <;> omega
  | four _ _ second third fourth =>
      refine ⟨by omega, fun byte member => ?_⟩
      simp only [List.mem_cons, List.not_mem_nil, or_false] at member
      rcases member with rfl | rfl | rfl <;> omega

/-! ## Pieces -/

theorem piecesOnto_eq (done : List Piece) (text : Bytes) :
    piecesOnto done text = done.reverse ++ pieces text := by
  suffices general : ∀ done before, piecesOnto (done ++ before) text =
      before.reverse ++ piecesOnto done text by
    have started := general [] done
    rwa [List.nil_append] at started
  intro done before
  fun_induction piecesOnto done text with
  | case1 done => rw [piecesOnto, List.reverse_append]
  | case2 done lead rest character after found inductionHypothesis =>
      rw [piecesOnto, found]
      exact inductionHypothesis
  | case3 done lead rest missing inductionHypothesis =>
      rw [piecesOnto, missing]
      exact inductionHypothesis

theorem pieces_nil : pieces [] = [] := by
  rw [pieces, piecesOnto]
  rfl

theorem pieces_of_sequence? (found : sequence? lead rest = some (character, after)) :
    pieces (lead :: rest) = .character character :: pieces after := by
  rw [pieces, piecesOnto, found]
  exact piecesOnto_eq [.character character] after

/-- A byte that starts no character is a piece on its own. -/
theorem pieces_of_stray (missing : sequence? lead rest = none) :
    pieces (lead :: rest) = .stray lead :: pieces rest := by
  rw [pieces, piecesOnto, missing]
  exact piecesOnto_eq [.stray lead] rest

/-- A text is cut into characters and stray bytes from its start on. -/
theorem pieces_induction {holds : Bytes → Prop} (empty : holds [])
    (decoded : ∀ {lead rest character after},
      sequence? lead rest = some (character, after) → holds after → holds (lead :: rest))
    (stray : ∀ {lead rest}, sequence? lead rest = none → holds rest → holds (lead :: rest))
    (text : Bytes) : holds text := by
  induction length : text.length using Nat.strongRecOn generalizing text with
  | ind size inductionHypothesis =>
      cases text with
      | nil => exact empty
      | cons lead rest =>
          rw [List.length_cons] at length
          cases found : sequence? lead rest with
          | none => exact stray found (inductionHypothesis _ (by omega) rest rfl)
          | some read =>
              have shorter := sequence?_length_le found
              exact decoded found (inductionHypothesis _ (by omega) read.2 rfl)

/-- The pieces of a text give it back. -/
theorem flatMap_bytes_pieces (text : Bytes) : (pieces text).flatMap Piece.bytes = text := by
  induction text using pieces_induction with
  | empty => rw [pieces_nil, List.flatMap_nil]
  | decoded found inductionHypothesis =>
      rw [pieces_of_sequence? found, List.flatMap_cons, inductionHypothesis]
      exact (sequence?_eq_some_iff.mp found).symm
  | stray missing inductionHypothesis =>
      rw [pieces_of_stray missing, List.flatMap_cons, inductionHypothesis]
      rfl

theorem eq_append_of_pieces {text part : Bytes} {front back : List Piece}
    (parts : pieces text = front ++ (pieces part ++ back)) :
    text = front.flatMap Piece.bytes ++ (part ++ back.flatMap Piece.bytes) := by
  rw [← flatMap_bytes_pieces text, parts, List.flatMap_append, List.flatMap_append,
    flatMap_bytes_pieces]

theorem infix_of_mem_pieces {text : Bytes} {piece : Piece} (member : piece ∈ pieces text) :
    piece.bytes <:+: text := by
  obtain ⟨front, back, parts⟩ := List.append_of_mem member
  refine ⟨front.flatMap Piece.bytes, back.flatMap Piece.bytes, ?_⟩
  rw [← flatMap_bytes_pieces text, parts, List.flatMap_append, List.flatMap_cons,
    List.append_assoc]

/-- A character that is complete stays one, whatever comes behind it. -/
theorem sequence?_append (found : sequence? lead rest = some (character, after)) (more : Bytes) :
    sequence? lead (rest ++ more) = some (character, after ++ more) := by
  rw [sequence?_eq_some_iff] at found ⊢
  rw [← List.cons_append, found, List.append_assoc]

theorem utf8EncodeChar_ne_nil (character : Char) : String.utf8EncodeChar character ≠ [] := by
  intro empty
  have encoding := empty ▸ encoding_utf8EncodeChar character
  cases encoding

/-- An encoded character is one piece, and the cut behind it is clean. -/
theorem pieces_utf8EncodeChar_append (character : Char) (after : Bytes) :
    pieces (String.utf8EncodeChar character ++ after) =
      .character character :: pieces after := by
  cases encoded : String.utf8EncodeChar character with
  | nil => exact absurd encoded (utf8EncodeChar_ne_nil character)
  | cons lead rest =>
      rw [List.cons_append]
      apply pieces_of_sequence?
      rw [sequence?_eq_some_iff, encoded, List.cons_append]

/-! ## Parts of a text -/

/-- The last pieces of a text are those of a text that starts with them. -/
theorem pieces_of_append_left {text : Bytes} {front back : List Piece}
    (parts : pieces text = front ++ back) : pieces (back.flatMap Piece.bytes) = back := by
  induction front generalizing text with
  | nil =>
      rw [List.nil_append] at parts
      rw [← parts, flatMap_bytes_pieces]
  | cons first others inductionHypothesis =>
      cases text with
      | nil => simp [pieces_nil] at parts
      | cons lead rest =>
          cases found : sequence? lead rest with
          | none =>
              rw [pieces_of_stray found, List.cons_append] at parts
              exact inductionHypothesis (List.cons.inj parts).2
          | some read =>
              rw [pieces_of_sequence? found, List.cons_append] at parts
              exact inductionHypothesis (List.cons.inj parts).2

/-- The first pieces of a text are those of a text that ends with them: a stray byte does not
become a character where less follows it. -/
theorem pieces_of_append_right {text : Bytes} {front back : List Piece}
    (parts : pieces text = front ++ back) : pieces (front.flatMap Piece.bytes) = front := by
  induction front generalizing text with
  | nil => rw [List.flatMap_nil, pieces_nil]
  | cons first others inductionHypothesis =>
      cases text with
      | nil => simp [pieces_nil] at parts
      | cons lead rest =>
          cases found : sequence? lead rest with
          | none =>
              rw [pieces_of_stray found, List.cons_append] at parts
              obtain ⟨rfl, behind⟩ := List.cons.inj parts
              have missing : sequence? lead (others.flatMap Piece.bytes) = none := by
                by_contra decodes
                obtain ⟨read, decodes⟩ := Option.ne_none_iff_exists'.mp decodes
                have longer := sequence?_append decodes (back.flatMap Piece.bytes)
                rw [← List.flatMap_append, ← behind, flatMap_bytes_pieces, found] at longer
                cases longer
              change pieces (lead :: others.flatMap Piece.bytes) = _
              rw [pieces_of_stray missing, inductionHypothesis behind]
          | some read =>
              rw [pieces_of_sequence? found, List.cons_append] at parts
              obtain ⟨rfl, behind⟩ := List.cons.inj parts
              rw [List.flatMap_cons, Piece.bytes, pieces_utf8EncodeChar_append,
                inductionHypothesis behind]

/-! ## Where a text is always cut -/

variable {byte : UInt8} {front back : Bytes}

theorem encoding_ascii (small : byte.toNat < 0x80) : Encoding (Char.ofUInt8 byte) [byte] :=
  .one small rfl

theorem pieces_ascii_cons (small : byte.toNat < 0x80) (back : Bytes) :
    pieces (byte :: back) = .character (Char.ofUInt8 byte) :: pieces back :=
  pieces_of_sequence? ((encoding_ascii small).sequence?_eq rfl)

/-- No sequence goes on over a byte that can start one. -/
theorem sequence?_append_of_stray (missing : sequence? lead rest = none)
    (leads : byte.toNat < 0x80 ∨ 0xC0 ≤ byte.toNat) :
    sequence? lead (rest ++ byte :: back) = none := by
  by_contra found
  obtain ⟨⟨character, after⟩, found⟩ := Option.ne_none_iff_exists'.mp found
  have decodes {other : Bytes} (same : lead :: rest = String.utf8EncodeChar character ++ other) :
      False := by
    rw [sequence?_eq_some_iff.mpr same] at missing
    cases missing
  rw [sequence?_eq_some_iff, ← List.cons_append] at found
  rcases List.append_eq_append_iff.mp found with ⟨middle, encoded, split⟩ | ⟨middle, whole, -⟩
  · cases middle with
    | nil =>
        have whole : lead :: rest = String.utf8EncodeChar character ++ [] := by
          simpa using encoded.symm
        exact decodes whole
    | cons first others =>
        obtain ⟨rfl, -⟩ := List.cons.inj split
        have encoding := encoded ▸ encoding_utf8EncodeChar character
        have continues := encoding.ranges.2 byte (by simp)
        omega
  · exact decodes whole

/-- A byte that can start a sequence cuts a text in two. -/
theorem pieces_append_lead (leads : byte.toNat < 0x80 ∨ 0xC0 ≤ byte.toNat)
    (front back : Bytes) :
    pieces (front ++ byte :: back) = pieces front ++ pieces (byte :: back) := by
  induction front using pieces_induction with
  | empty => rw [pieces_nil, List.nil_append, List.nil_append]
  | decoded found inductionHypothesis =>
      rw [List.cons_append, pieces_of_sequence? (sequence?_append found _), inductionHypothesis,
        pieces_of_sequence? found, List.cons_append]
  | stray missing inductionHypothesis =>
      rw [List.cons_append, pieces_of_stray (sequence?_append_of_stray missing leads),
        inductionHypothesis, pieces_of_stray missing, List.cons_append]

/-- A byte of ASCII is always a piece of its own, even behind a character that breaks off. -/
theorem pieces_append_ascii (small : byte.toNat < 0x80) (front back : Bytes) :
    pieces (front ++ byte :: back) =
      pieces front ++ .character (Char.ofUInt8 byte) :: pieces back := by
  rw [pieces_append_lead (.inl small), pieces_ascii_cons small]

/-- Wherever the encoding of a character stands in a text, the text is cut around it. -/
theorem pieces_append_utf8EncodeChar (front : Bytes) (character : Char) (back : Bytes) :
    pieces (front ++ (String.utf8EncodeChar character ++ back)) =
      pieces front ++ .character character :: pieces back := by
  rw [← pieces_utf8EncodeChar_append]
  cases encoded : String.utf8EncodeChar character with
  | nil => exact absurd encoded (utf8EncodeChar_ne_nil character)
  | cons lead rest =>
      have encoding := encoded ▸ encoding_utf8EncodeChar character
      exact pieces_append_lead encoding.ranges.1 front (rest ++ back)

/-- The bytes of a character are that character wherever they occur. No other one overlaps them. -/
theorem character_mem_pieces {text : Bytes}
    (occurs : String.utf8EncodeChar character <:+: text) :
    .character character ∈ pieces text := by
  obtain ⟨front, back, rfl⟩ := occurs
  rw [List.append_assoc, pieces_append_utf8EncodeChar]
  simp

/-- A text that ends with the encoding of a character has it for its last piece. -/
theorem getLast?_pieces_of_suffix {text : Bytes}
    (ends : String.utf8EncodeChar character <:+ text) :
    (pieces text).getLast? = some (.character character) := by
  obtain ⟨front, rfl⟩ := ends
  rw [← List.append_nil (String.utf8EncodeChar character), pieces_append_utf8EncodeChar,
    pieces_nil, List.getLast?_concat]

end Jack.Utf8
