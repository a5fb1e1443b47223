import Jack.Text.Numeral
import Mathlib.Tactic.IntervalCases

/-!
Contract: decimal digits denote the number they were written for.

Owns: what the digits of a number are, that reading them gives the number back, with its
sign if it has one, and which texts can be read as an integer.
-/

set_option autoImplicit false

namespace Jack.Numeral

theorem isDigit_digit {value : Nat} (small : value < 10) : isDigit (digit value) = true := by
  interval_cases value <;> decide

theorem toNat_digit {value : Nat} (small : value < 10) :
    (digit value).toNat - 48 = value := by
  interval_cases value <;> decide

theorem isDigit_of_mem_decimal {number : Nat} {byte : UInt8}
    (member : byte ∈ decimal number) : isDigit byte = true := by
  induction number using Nat.strongRecOn with
  | ind number inductionHypothesis =>
      rw [decimal] at member
      split_ifs at member with small
      · rw [List.mem_singleton.mp member]
        exact isDigit_digit small
      · rcases List.mem_append.mp member with inFront | last
        · exact inductionHypothesis (number / 10) (by omega) inFront
        · rw [List.mem_singleton.mp last]
          exact isDigit_digit (Nat.mod_lt _ (by decide))

/-- Reading the decimal digits of a number gives it back. -/
theorem valueOf_decimal (number : Nat) : valueOf (decimal number) = number := by
  induction number using Nat.strongRecOn with
  | ind number inductionHypothesis =>
      rw [decimal]
      split_ifs with small
      · simp [valueOf, toNat_digit small]
      · have front := inductionHypothesis (number / 10) (by omega)
        unfold valueOf at front ⊢
        rw [List.foldl_append, front]
        simp only [List.foldl_cons, List.foldl_nil]
        rw [toNat_digit (Nat.mod_lt _ (by decide))]
        omega

theorem decimal_ne_nil (number : Nat) : decimal number ≠ [] := by
  rw [decimal]
  split_ifs <;> simp

/-- Digits have no sign in front of them. -/
theorem takeSign_of_digits {digits : Bytes} (plain : ∀ byte ∈ digits, isDigit byte = true) :
    takeSign digits = (false, digits) := by
  cases digits with
  | nil => rfl
  | cons first rest =>
      have isDigitFirst := plain first (by simp)
      have notMinus : first ≠ ascii '-' := by
        rintro rfl
        exact absurd isDigitFirst (by decide)
      have notPlus : first ≠ ascii '+' := by
        rintro rfl
        exact absurd isDigitFirst (by decide)
      rw [takeSign, if_neg notMinus, if_neg notPlus]

structure IsDigits (digits : Bytes) : Prop where
  nonempty : digits ≠ []
  allDigits : ∀ byte ∈ digits, isDigit byte = true

/-- A number that is written can be read: it has a digit at least, and nothing else. -/
theorem isDigits_decimal (number : Nat) : IsDigits (decimal number) :=
  ⟨decimal_ne_nil number, fun _ member => isDigit_of_mem_decimal member⟩

/-- What is read when the sign has been split off. -/
theorem readInteger?_eq_some_iff_of_takeSign {text digits : Bytes} {negative : Bool} {number : Int}
    (split : takeSign text = (negative, digits)) :
    readInteger? text = some number ↔
      IsDigits digits ∧ InWord number ∧ withSign negative (valueOf digits) = number := by
  have digital : IsDigits digits ↔ (digits.isEmpty || !digits.all isDigit) = false := by
    rw [Bool.or_eq_false_iff, Bool.not_eq_false', List.all_eq_true, ← Bool.not_eq_true,
      List.isEmpty_iff]
    exact ⟨fun isDigits => ⟨isDigits.nonempty, isDigits.allDigits⟩,
      fun parts => ⟨parts.1, parts.2⟩⟩
  rw [readInteger?, digital]
  cases refused : digits.isEmpty || !digits.all isDigit with
  | true => simp only [split, refused, if_true, reduceCtorEq, false_and]
  | false =>
      simp only [split, refused, Bool.false_eq_true, if_false, Option.ite_none_right_eq_some,
        Option.some.injEq, true_and]
      constructor
      · rintro ⟨inWord, rfl⟩
        exact ⟨inWord, rfl⟩
      · rintro ⟨inWord, rfl⟩
        exact ⟨inWord, rfl⟩

/-- Reading an integer of a machine word gives it back. -/
theorem readInteger?_signed {number : Int} (inWord : InWord number) :
    readInteger? (signed number) = some number := by
  cases number with
  | ofNat magnitude =>
      have digits := isDigits_decimal magnitude
      rw [signed, readInteger?_eq_some_iff_of_takeSign (takeSign_of_digits digits.allDigits),
        valueOf_decimal]
      exact ⟨digits, inWord, rfl⟩
  | negSucc magnitude =>
      have minus : takeSign (ascii '-' :: decimal (magnitude + 1)) =
          (true, decimal (magnitude + 1)) := by rw [takeSign, if_pos rfl]
      rw [signed, readInteger?_eq_some_iff_of_takeSign minus, valueOf_decimal]
      exact ⟨isDigits_decimal _, inWord, rfl⟩

/-- The integer of a machine word that a text denotes: digits, behind a sign or not. Zeros may
stand in front of the other digits. -/
inductive Denotes : Bytes → Int → Prop where
  | unsigned {digits : Bytes} (isDigits : IsDigits digits) (inWord : InWord (valueOf digits)) :
      Denotes digits (valueOf digits)
  | plus {digits : Bytes} (isDigits : IsDigits digits) (inWord : InWord (valueOf digits)) :
      Denotes (ascii '+' :: digits) (valueOf digits)
  | minus {digits : Bytes} (isDigits : IsDigits digits) (inWord : InWord (-valueOf digits)) :
      Denotes (ascii '-' :: digits) (-valueOf digits)

/-- Reading a number, said without how it is done: a sign, digits, and a value that fits. -/
theorem readInteger?_eq_some_iff {text : Bytes} {number : Int} :
    readInteger? text = some number ↔ Denotes text number := by
  constructor
  · intro found
    cases text with
    | nil => cases found
    | cons first rest =>
        by_cases isMinus : first = ascii '-'
        · subst isMinus
          obtain ⟨isDigits, inWord, rfl⟩ :=
            (readInteger?_eq_some_iff_of_takeSign rfl).mp found
          exact .minus isDigits inWord
        · by_cases isPlus : first = ascii '+'
          · subst isPlus
            obtain ⟨isDigits, inWord, rfl⟩ :=
              (readInteger?_eq_some_iff_of_takeSign rfl).mp found
            exact .plus isDigits inWord
          · have whole : takeSign (first :: rest) = (false, first :: rest) := by
              rw [takeSign, if_neg isMinus, if_neg isPlus]
            obtain ⟨isDigits, inWord, rfl⟩ :=
              (readInteger?_eq_some_iff_of_takeSign whole).mp found
            exact .unsigned isDigits inWord
  · intro denotes
    cases denotes with
    | unsigned isDigits inWord =>
        rw [readInteger?_eq_some_iff_of_takeSign (takeSign_of_digits isDigits.allDigits)]
        exact ⟨isDigits, inWord, rfl⟩
    | plus isDigits inWord =>
        exact (readInteger?_eq_some_iff_of_takeSign rfl).mpr ⟨isDigits, inWord, rfl⟩
    | minus isDigits inWord =>
        exact (readInteger?_eq_some_iff_of_takeSign rfl).mpr ⟨isDigits, inWord, rfl⟩

theorem Denotes.inWord {text : Bytes} {number : Int} (denotes : Denotes text number) :
    InWord number := by
  cases denotes with
  | unsigned _ inWord | plus _ inWord | minus _ inWord => exact inWord

theorem mem_signed {number : Int} {byte : UInt8} (member : byte ∈ signed number) :
    isDigit byte = true ∨ byte = ascii '-' := by
  cases number with
  | ofNat magnitude => exact .inl (isDigit_of_mem_decimal member)
  | negSucc magnitude =>
      rcases List.mem_cons.mp member with rfl | member
      · exact .inr rfl
      · exact .inl (isDigit_of_mem_decimal member)

theorem signed_ne_nil (number : Int) : signed number ≠ [] := by
  cases number with
  | ofNat magnitude => exact decimal_ne_nil magnitude
  | negSucc magnitude => exact List.cons_ne_nil _ _

end Jack.Numeral
