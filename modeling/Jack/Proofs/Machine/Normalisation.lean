import Jack.Proofs.Machine.Listing

/-!
Contract: code that was read from any text is what its own listing reads back as.

Owns: what is known of the words that reading takes from a line, the instructions that can be
read, and that one normalisation of a text is enough.

Does not own: which lines are accepted.

Trimming is what makes words from a line special. It reaches both ends of what is left of a
line whenever a word is taken, so that every word starts with something visible, and so does
the rest end. A name with a blank character at its end can therefore be read in front of a
number only, and there it is written again.
-/

set_option autoImplicit false

namespace Jack.Machine

namespace Line

namespace TakesWord

variable {line word rest : Bytes} (taken : TakesWord line word rest)

include taken

/-- Behind a word comes a blank of ASCII, or nothing. -/
theorem boundary_small : ∀ byte ∈ rest.head?, byte.toNat < 0x80 :=
  fun byte first => Text.small_of_isAsciiBlank (taken.boundary byte first)

/-- The rest of a line ends where the trimmed line ends. -/
theorem endsVisible_rest : Text.EndsVisible rest := by
  have tight := Text.isTight_trim line
  rw [taken.trimmed] at tight
  exact Text.EndsVisible.of_append taken.boundary_small tight.ends

/-- A word starts where the trimmed line starts. -/
theorem isStem (uncommented : ¬ utf8 "//" <:+: line) (nonempty : word ≠ []) : IsStem word where
  nonempty := nonempty
  starts := by
    have tight := Text.isTight_trim line
    rw [taken.trimmed] at tight
    exact Text.StartsVisible.of_append taken.boundary_small tight.starts
  unbroken := taken.unbroken
  uncommented := fun commented => uncommented (commented.trans taken.word_within)

/-- If no word is left, nothing is: blanks were trimmed before. -/
theorem rest_eq_nil (ended : (takeWord rest).1 = []) : rest = [] := by
  have blank := takesWord_takeWord rest
  refine taken.endsVisible_rest.eq_nil_of_trim ?_
  rw [blank.trimmed, ended, blank.blank ended, List.nil_append]

/-- The last word of a line ends where the trimmed line ends, too. -/
theorem isWord (uncommented : ¬ utf8 "//" <:+: line) (nonempty : word ≠ [])
    (ended : (takeWord rest).1 = []) : IsWord word := by
  have tight := Text.isTight_trim line
  rw [taken.trimmed, taken.rest_eq_nil ended, List.append_nil] at tight
  exact ⟨nonempty, tight, taken.unbroken, (taken.isStem uncommented nonempty).uncommented⟩

end TakesWord

variable {line rest : Bytes}

theorem takesWord_of_name {name : Bytes} (taken : operand name? line = .ok (name, rest)) :
    TakesWord line name rest ∧ name ≠ [] := by
  obtain ⟨word, takes, named⟩ := operand_eq_ok_iff.mp taken
  obtain ⟨nonempty, rfl⟩ := name?_eq_some_iff.mp named
  exact ⟨takesWord_of_takeWord takes, nonempty⟩

/-- A number that is read fits into a word, since a larger one is a fault. -/
theorem inWord_of_integer {number : Int}
    (taken : operand Numeral.readInteger? line = .ok (number, rest)) : Numeral.InWord number := by
  obtain ⟨word, -, spelled⟩ := operand_eq_ok_iff.mp taken
  exact (Numeral.readInteger?_eq_some_iff.mp spelled).inWord

/-- All that an instruction takes from a line can be written. -/
theorem TakesOperands.isTold {command : Command} {instruction : Instruction}
    (taken : TakesOperands command line instruction rest)
    (uncommented : ¬ utf8 "//" <:+: line) (ended : (takeWord rest).1 = []) :
    instruction.IsTold := by
  cases taken with
  | push _ second | pop _ second => exact inWord_of_integer second
  | label only | goto only | ifGoto only =>
      obtain ⟨taken, nonempty⟩ := takesWord_of_name only
      exact ⟨taken.isWord uncommented nonempty ended, rfl⟩
  | function first second | call first second =>
      obtain ⟨taken, nonempty⟩ := takesWord_of_name first
      exact ⟨taken.isStem uncommented nonempty, inWord_of_integer second⟩
  | arithmetic | ret => trivial

/-- An instruction on a line has no flaw and is told by its written form. -/
theorem Carries.isTold {instruction : Instruction} (carries : Carries line instruction) :
    instruction.IsTold ∧ instruction.flaw? = none := by
  obtain ⟨taken, _, _, operands, ended, sound⟩ := carries
  have uncommented : ¬ utf8 "//" <:+: Bytes.before (utf8 "//") line :=
    Bytes.not_infix_before (by decide) line
  refine ⟨operands.isTold (fun occurs => ?_) ended, sound⟩
  exact uncommented (occurs.trans (takesWord_of_takeWord taken).rest_within)

end Line

/-- So is all the code that lines stand for. -/
theorem Transcribes.isTold {lines : List Bytes} {code : List Instruction}
    (transcribes : Transcribes lines code) :
    ∀ instruction ∈ code, instruction.IsTold ∧ instruction.flaw? = none := by
  induction transcribes with
  | nil => simp
  | blank _ _ inductionHypothesis => exact inductionHypothesis
  | instruction read _ inductionHypothesis =>
      exact List.forall_mem_cons.mpr
        ⟨(Line.read_eq_ok_some_iff.mp read).isTold, inductionHypothesis⟩

/-- One normalisation is enough: whatever text code was read from, its listing reads as the
same code. -/
theorem read_code_reads_back {text : Bytes} {code : List Instruction}
    (accepted : readListing text = .ok code) : readListing (listing code) = .ok code := by
  have told := (readListing_eq_ok_iff.mp accepted).isTold
  exact readListing_listing_of_isTold (fun instruction member => (told instruction member).1)
    fun instruction member => (told instruction member).2

/-- Blanks of all kinds, a long s for an s, signs and zeros in front of numbers, names that end
in a blank character or are no characters, and comments. -/
def wildText : Bytes :=
  utf8 "\u00a0\tPu\u017fh  ConStant +007 // seven\r\n\n // nothing\n" ++
    utf8 "FUNCTION x\u00a0 -0\u2003\u3000\nlabel " ++ [0xC2, 0xFF] ++ utf8 "\u0085\nreturn"

def wildCode : List Instruction :=
  [.push .constant 7, .function (utf8 "x\u00a0") 0, .label [0xC2, 0xFF], .ret]

/-- A listing with blanks of other scripts and bytes that are no text. -/
theorem wild_code_reads_back :
    readListing wildText = .ok wildCode ∧ readListing (listing wildCode) = .ok wildCode := by
  have accepted : readListing wildText = .ok wildCode := by
    decide +kernel
  exact ⟨accepted, read_code_reads_back accepted⟩

end Jack.Machine
