import Jack.Proofs.Token.Lexeme

/-!
Contract: which texts are no lexemes, and why.

Owns: one rule per lexical fault, with what an attempt reads over before it gives up, and
all that an attempt at a lexeme can come to.

Does not own: what a scanner does about a fault.

The rules say where reading goes on. Nothing is read over where no lexeme starts at all or
where a comment never ends; elsewhere reading stops behind the number, at the line break in
the string, or at the end of the source.
-/

set_option autoImplicit false

namespace Jack

/-- A text that shows a fault. `taken` is read over and `after` is left. -/
inductive Malformed : LexicalFault → Bytes → Bytes → Prop where
  | integerTooLarge {digits after : Bytes} (nonempty : digits ≠ [])
      (decimal : ∀ byte ∈ digits, Alphabet.isDigit byte = true)
      (tooLarge : maxInteger < Numeral.valueOf digits)
      (ends : ∀ byte ∈ after.head?, Alphabet.isDigit byte = false) :
      Malformed (.integerTooLarge digits) digits after
  | lineBreakInString {content after : Bytes} {byte : UInt8}
      (inside : ∀ byte ∈ content,
        byte ≠ ascii '"' ∧ byte ≠ ascii '\n' ∧ byte ≠ ascii '\r')
      (breaks : byte = ascii '\n' ∨ byte = ascii '\r') :
      Malformed .lineBreakInString (ascii '"' :: content) (byte :: after)
  | unterminatedString {content : Bytes}
      (inside : ∀ byte ∈ content,
        byte ≠ ascii '"' ∧ byte ≠ ascii '\n' ∧ byte ≠ ascii '\r') :
      Malformed .unterminatedString (ascii '"' :: content) []
  | unterminatedComment {body : Bytes} (neverCloses : ¬ utf8 "*/" <:+: body) :
      Malformed .unterminatedComment [] (utf8 "/*" ++ body)
  | unexpectedByte {byte : UInt8} {after : Bytes}
      (noDigit : Alphabet.isDigit byte = false) (noQuote : byte ≠ ascii '"')
      (noWord : Alphabet.startsWord byte = false)
      (noSymbol : Alphabet.isSymbol byte = false) :
      Malformed (.unexpectedByte byte) [] (byte :: after)

/-- Whether an attempt gives up where it started. -/
def LexicalFault.isStuck : LexicalFault → Bool
  | unterminatedComment | unexpectedByte _ => true
  | integerTooLarge _ | lineBreakInString | unterminatedString => false

section Taken

variable {fault : LexicalFault} {taken after : Bytes}

/-- Nothing is read over exactly where an attempt is stuck. -/
theorem Malformed.taken_eq_nil_iff (malformed : Malformed fault taken after) :
    taken = [] ↔ fault.isStuck = true := by
  cases malformed with
  | integerTooLarge nonempty => simpa [LexicalFault.isStuck] using nonempty
  | lineBreakInString => simp [LexicalFault.isStuck]
  | unterminatedString => simp [LexicalFault.isStuck]
  | unterminatedComment => simp [LexicalFault.isStuck]
  | unexpectedByte => simp [LexicalFault.isStuck]

/-- A fault is noticed on the line on which it starts. -/
theorem Malformed.lineBreaks_taken (malformed : Malformed fault taken after) :
    Bytes.lineBreaks taken = 0 := by
  apply List.count_eq_zero.mpr
  intro member
  cases malformed with
  | integerTooLarge _ decimal =>
      exact (Alphabet.class_of_isDigit _ (decimal _ member)).2 rfl
  | lineBreakInString inside | unterminatedString inside =>
      rcases List.mem_cons.mp member with quote | inContent
      · exact absurd quote (by decide)
      · exact (inside _ inContent).2.1 rfl
  | unterminatedComment => cases member
  | unexpectedByte => cases member

end Taken

namespace Attempt

variable {line : Nat} {first : UInt8} {tail : Bytes} {fault : LexicalFault}

/-- The attempt fails in the way that the text calls for. -/
def Fails (attempt : Attempt) (fault : LexicalFault) (line : Nat) (text : Bytes) : Prop :=
  attempt.line = line ∧ ∃ taken, text = taken ++ attempt.rest ∧
    Malformed fault taken attempt.rest

/-- A number that is too large is read over to its last digit. -/
theorem fails_of_integer (digit : Alphabet.isDigit first = true)
    (failed : (integer line first tail).outcome = .error fault) :
    Fails (integer line first tail) fault line (first :: tail) := by
  unfold integer at failed ⊢
  dsimp only at failed ⊢
  by_cases large : maxInteger < Numeral.valueOf (first :: tail.takeWhile Alphabet.isDigit)
  · rw [if_pos large] at failed ⊢
    obtain rfl := Except.error.inj failed
    refine ⟨rfl, first :: tail.takeWhile Alphabet.isDigit, ?_, ?_⟩
    · show first :: tail = _ ++ tail.dropWhile Alphabet.isDigit
      rw [List.cons_append, List.takeWhile_append_dropWhile]
    · apply Malformed.integerTooLarge (List.cons_ne_nil _ _) _ large
      · exact Bytes.not_accepts_head_dropWhile _ _
      · exact List.forall_mem_cons.mpr ⟨digit, fun _ => List.mem_takeWhile_imp⟩
  · rw [if_neg large] at failed
    cases failed

/-- A string stops at a line break, or at the end of the source. -/
theorem fails_of_string (failed : (string line tail).outcome = .error fault) :
    Fails (string line tail) fault line (ascii '"' :: tail) := by
  have inside : ∀ byte ∈ tail.takeWhile inString,
      byte ≠ ascii '"' ∧ byte ≠ ascii '\n' ∧ byte ≠ ascii '\r' := by
    intro byte member
    simpa [inString, and_assoc] using List.mem_takeWhile_imp member
  have parts := List.takeWhile_append_dropWhile (p := inString) (l := tail)
  have stops := Bytes.not_accepts_head_dropWhile inString tail
  unfold string at failed ⊢
  cases remaining : tail.dropWhile inString with
  | nil =>
      simp only [remaining] at failed ⊢
      obtain rfl := Except.error.inj failed
      rw [remaining] at parts
      exact ⟨rfl, ascii '"' :: tail.takeWhile inString, congrArg _ parts.symm,
        .unterminatedString inside⟩
  | cons byte behind =>
      simp only [remaining] at failed ⊢
      rw [remaining] at parts stops
      by_cases quote : byte = ascii '"'
      · rw [if_pos quote] at failed
        cases failed
      · rw [if_neg quote] at failed ⊢
        obtain rfl := Except.error.inj failed
        have breaks : byte = ascii '\n' ∨ byte = ascii '\r' := by
          have refused := stops byte rfl
          simp only [inString, Bool.and_eq_false_iff, bne_eq_false_iff_eq] at refused
          tauto
        exact ⟨rfl, ascii '"' :: tail.takeWhile inString, congrArg _ parts.symm,
          .lineBreakInString inside breaks⟩

/-- A comment without an end is not read over at all. -/
theorem fails_of_blockComment {body : Bytes}
    (failed : (blockComment line (ascii '/') (ascii '*' :: body)).outcome = .error fault) :
    Fails (blockComment line (ascii '/') (ascii '*' :: body)) fault line
      (ascii '/' :: ascii '*' :: body) := by
  unfold blockComment at failed ⊢
  rw [List.drop_one, List.tail_cons] at failed ⊢
  cases found : Bytes.offsetOf? (utf8 "*/") body with
  | some offset =>
      simp only [found] at failed
      cases failed
  | none =>
      simp only [found] at failed ⊢
      obtain rfl := Except.error.inj failed
      exact ⟨rfl, [], rfl, .unterminatedComment (Bytes.offsetOf?_eq_none_iff.mp found)⟩

/-- A fault that an attempt reports is one that the text shows. -/
theorem fails_of_start (failed : (start line first tail).outcome = .error fault) :
    Fails (start line first tail) fault line (first :: tail) := by
  unfold start at failed ⊢
  split_ifs at failed ⊢ with isDigit opensLine opensBlock isQuote isLetter isSymbol
  · exact fails_of_integer isDigit failed
  · cases failed
  · obtain ⟨body, same⟩ := List.isPrefixOf_iff_prefix.mp opensBlock
    obtain ⟨rfl, rfl⟩ := List.cons.inj same
    exact fails_of_blockComment failed
  · subst isQuote
    exact fails_of_string failed
  · cases failed
  · cases failed
  · obtain rfl := Except.error.inj failed
    refine ⟨rfl, [], rfl, ?_⟩
    apply Malformed.unexpectedByte _ isQuote
    · simpa using isLetter
    · simpa using isSymbol
    · simpa using isDigit

end Attempt

end Jack
