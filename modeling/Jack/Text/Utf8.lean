import Jack.Text.Bytes

/-!
Contract: the reading of bytes as UTF-8 characters.

Owns: the character a text starts with, the cut of any text into characters and
stray bytes, and the test for well-formed text.

Does not own: what the characters mean.

A stray byte is one that starts no well-formed sequence: a continuation byte out
of place, a cut-off sequence, an overlong form, a surrogate, or a value past the
last code point. Concatenating the pieces of a text gives the text back.
-/

set_option autoImplicit false

namespace Jack.Utf8

/-- The six payload bits of a continuation byte. -/
def continuation? (byte : UInt8) : Option Nat :=
  if 0x80 ≤ byte && byte ≤ 0xBF then some (byte.toNat - 0x80) else none

/-- The character with this code, provided that the sequence was not longer than
needed for it. -/
def character? (least code : Nat) : Option Char :=
  if valid : code.isValidChar then
    if least ≤ code then some (Char.ofNatAux code valid) else none
  else none

/-- The character that starts with `lead`, and the bytes that follow it. -/
def sequence? (lead : UInt8) (rest : Bytes) : Option (Char × Bytes) :=
  if lead < 0x80 then
    (character? 0 lead.toNat).map (·, rest)
  else if lead < 0xC0 then none
  else if lead < 0xE0 then
    match rest with
    | second :: rest => do
        let low ← continuation? second
        let character ← character? 0x80 ((lead.toNat - 0xC0) * 0x40 + low)
        return (character, rest)
    | _ => none
  else if lead < 0xF0 then
    match rest with
    | second :: third :: rest => do
        let middle ← continuation? second
        let low ← continuation? third
        let character ←
          character? 0x800 (((lead.toNat - 0xE0) * 0x40 + middle) * 0x40 + low)
        return (character, rest)
    | _ => none
  else if lead < 0xF8 then
    match rest with
    | second :: third :: fourth :: rest => do
        let high ← continuation? second
        let middle ← continuation? third
        let low ← continuation? fourth
        let character ←
          character? 0x10000
            ((((lead.toNat - 0xF0) * 0x40 + high) * 0x40 + middle) * 0x40 + low)
        return (character, rest)
    | _ => none
  else none

/-- A sequence uses up bytes of the text behind its lead, never more than there
are. -/
theorem sequence?_length_le {lead : UInt8} {rest after : Bytes} {character : Char}
    (found : sequence? lead rest = some (character, after)) :
    after.length ≤ rest.length := by
  unfold sequence? at found
  split at found
  · simp only [Option.map_eq_some_iff, Prod.mk.injEq] at found
    obtain ⟨_, _, _, rfl⟩ := found
    exact Nat.le_refl _
  · repeat' split at found
    all_goals
      simp only [Option.bind_eq_bind, Option.bind_eq_some_iff, Option.pure_def,
        Option.some.injEq, Prod.mk.injEq, reduceCtorEq] at found
    · obtain ⟨_, _, _, _, _, rfl⟩ := found
      simp
    · obtain ⟨_, _, _, _, _, _, _, rfl⟩ := found
      simp; omega
    · obtain ⟨_, _, _, _, _, _, _, _, _, rfl⟩ := found
      simp; omega

/-- One piece of a text: a character, or a byte that starts none. -/
inductive Piece where
  | character (value : Char)
  | stray (byte : UInt8)
deriving DecidableEq, Repr

def Piece.bytes : Piece → Bytes
  | .character value => String.utf8EncodeChar value
  | .stray byte => [byte]

/-- Cuts a text into pieces, behind those already cut (latest first). -/
def piecesOnto (done : List Piece) : Bytes → List Piece
  | [] => done.reverse
  | lead :: rest =>
      match _ : sequence? lead rest with
      | some (character, after) => piecesOnto (.character character :: done) after
      | none => piecesOnto (.stray lead :: done) rest
termination_by text => text.length
decreasing_by
  · exact Nat.lt_succ_of_le (sequence?_length_le ‹_›)
  · exact Nat.lt_succ_self _

def pieces (text : Bytes) : List Piece :=
  piecesOnto [] text

/-- Whether a text is made of characters only. -/
def isWellFormed (text : Bytes) : Bool :=
  (pieces text).all fun
    | .character _ => true
    | .stray _ => false

end Jack.Utf8
