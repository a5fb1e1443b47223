import Jack.Proofs.Token.Lexeme

/-!
Contract: the tokens of a source, with white space between them, are the source.

Owns: how lexemes and gaps follow each other in a text, on which lines, and that this
is exactly what the scanner finds.

Does not own: which texts are lexemes.
-/

set_option autoImplicit false

namespace Jack

/-- `rest` is made of the sources of the tokens, with gaps of white space in front of
each one and at the end. `before` is the text in front of `rest`, in which line breaks
are counted too. -/
inductive Tiled : Bytes → Bytes → List Token → Prop where
  | finish {before gap : Bytes} (blank : ∀ byte ∈ gap, Alphabet.isSpace byte = true) :
      Tiled before gap []
  | token {before gap after : Bytes} {token : Token} {tokens : List Token}
      (blank : ∀ byte ∈ gap, Alphabet.isSpace byte = true)
      (lexeme : Lexeme token.kind token.content after)
      (line : token.line = 1 + Bytes.lineBreaks (before ++ gap))
      (behind : Tiled (before ++ gap ++ token.source) after tokens) :
      Tiled before (gap ++ (token.source ++ after)) (token :: tokens)

namespace Tiled

variable {before blank rest : Bytes} {tokens : List Token}

/-- White space may be moved from the text in front to the next gap. -/
theorem of_skipped (isBlank : ∀ byte ∈ blank, Alphabet.isSpace byte = true)
    (tiled : Tiled (before ++ blank) rest tokens) : Tiled before (blank ++ rest) tokens := by
  cases tiled with
  | finish gapBlank => exact .finish (List.forall_mem_append.mpr ⟨isBlank, gapBlank⟩)
  | token gapBlank lexeme line behind =>
      rw [List.append_assoc] at line behind
      rw [← List.append_assoc]
      exact .token (List.forall_mem_append.mpr ⟨isBlank, gapBlank⟩) lexeme line
        (by simpa using behind)

/-- All white space in front may be skipped, since no lexeme starts with it. -/
theorem skip (tiled : Tiled before rest tokens) :
    Tiled (before ++ rest.takeWhile Alphabet.isSpace) (rest.dropWhile Alphabet.isSpace)
      tokens := by
  cases tiled with
  | finish gapBlank =>
      have allBlank : rest.dropWhile Alphabet.isSpace = [] := by
        simpa [List.dropWhile_eq_nil_iff] using gapBlank
      rw [allBlank]
      exact .finish (by simp)
  | @token _ gap after token tokens gapBlank lexeme line behind =>
      obtain ⟨first, others, starts, notBlank⟩ := lexeme.source_starts
      have stops : ∀ byte ∈ (token.source ++ after).head?, Alphabet.isSpace byte = false := by
        simpa [starts] using notBlank
      rw [Bytes.takeWhile_append_of_boundary gapBlank stops,
        Bytes.dropWhile_append_of_boundary gapBlank stops]
      have here : Tiled (before ++ gap) ([] ++ (token.source ++ after)) (token :: tokens) :=
        .token (by simp) lexeme (by simpa using line) (by simpa using behind)
      exact here

/-- Whether white space counts as read or as the start of the next gap does not
matter. -/
theorem skipped_iff (isBlank : ∀ byte ∈ blank, Alphabet.isSpace byte = true) :
    Tiled before (blank ++ rest) tokens ↔ Tiled (before ++ blank) rest tokens := by
  refine ⟨fun tiled => ?_, of_skipped isBlank⟩
  have skipped := tiled.skip
  rw [List.takeWhile_append_of_pos isBlank, List.dropWhile_append_of_pos isBlank,
    ← List.append_assoc] at skipped
  have whole := skipped.of_skipped fun _ => List.mem_takeWhile_imp
  rwa [List.takeWhile_append_dropWhile] at whole

theorem skip_iff :
    Tiled before rest tokens ↔
      Tiled (before ++ rest.takeWhile Alphabet.isSpace) (rest.dropWhile Alphabet.isSpace)
        tokens := by
  rw [← skipped_iff fun _ => List.mem_takeWhile_imp, List.takeWhile_append_dropWhile]

theorem nil_iff : Tiled before [] tokens ↔ tokens = [] := by
  constructor
  · intro tiled
    cases tokens with
    | nil => rfl
    | cons token others =>
        generalize empty : ([] : Bytes) = text at tiled
        cases tiled with
        | token _ lexeme =>
            obtain ⟨first, rest, starts, _⟩ := lexeme.source_starts
            simp [starts] at empty
  · rintro rfl
    exact .finish (by simp)

/-- Where no white space is, a token starts. -/
theorem cons_iff {first : UInt8} {tail : Bytes} (notBlank : Alphabet.isSpace first = false) :
    Tiled before (first :: tail) tokens ↔
      ∃ token after others, tokens = token :: others ∧ token.source ++ after = first :: tail ∧
        Lexeme token.kind token.content after ∧
        token.line = 1 + Bytes.lineBreaks before ∧
        Tiled (before ++ token.source) after others := by
  constructor
  · intro tiled
    generalize same : first :: tail = text at tiled
    cases tiled with
    | finish blank =>
        subst same
        simp [blank first (by simp)] at notBlank
    | @token _ gap after token others blank lexeme line behind =>
        cases gap with
        | nil =>
            rw [List.append_nil] at line behind
            exact ⟨token, after, others, rfl, rfl, lexeme, line, behind⟩
        | cons byte rest =>
            obtain ⟨rfl, _⟩ := List.cons.inj same
            simp [blank first (by simp)] at notBlank
  · rintro ⟨token, after, others, rfl, same, lexeme, line, behind⟩
    rw [← same]
    have tiled : Tiled before ([] ++ (token.source ++ after)) (token :: others) :=
      .token (by simp) lexeme (by simpa using line) (by simpa using behind)
    exact tiled

theorem lexeme_of_mem (tiled : Tiled before rest tokens) :
    ∀ token ∈ tokens, ∃ after, Lexeme token.kind token.content after := by
  induction tiled with
  | finish => simp
  | token _ lexeme _ _ inductionHypothesis =>
      exact List.forall_mem_cons.mpr ⟨⟨_, lexeme⟩, inductionHypothesis⟩

section Attempt

variable {first : UInt8} {tail : Bytes} {line : Nat}

/-- Where an attempt fails, no tiling goes on: the lexical grammar has nothing there. -/
theorem not_cons_of_fault {cause : LexicalFault} (notBlank : Alphabet.isSpace first = false)
    (counted : line = 1 + Bytes.lineBreaks before)
    (failed : (Attempt.start line first tail).outcome = .error cause) :
    ¬ Tiled before (first :: tail) tokens := by
  intro tiled
  obtain ⟨token, after, others, rfl, same, lexeme, tokenLine, _⟩ :=
    (cons_iff notBlank).mp tiled
  have reads := Attempt.reads_of_lexeme lexeme same
  rw [tokenLine, ← counted] at reads
  exact nomatch failed.symm.trans reads.outcome

/-- Where an attempt gives a token, only this token can start. `taken` is what the
attempt has read. -/
theorem cons_iff_of_token {token : Token} (notBlank : Alphabet.isSpace first = false)
    (counted : line = 1 + Bytes.lineBreaks before)
    (read : (Attempt.start line first tail).outcome = .ok token) :
    ∃ taken, (Attempt.start line first tail).line = 1 + Bytes.lineBreaks (before ++ taken) ∧
      ∀ tokens, Tiled before (first :: tail) tokens ↔ ∃ others, tokens = token :: others ∧
        Tiled (before ++ taken) (Attempt.start line first tail).rest others := by
  obtain ⟨rfl, after, same, lexeme⟩ := Attempt.found_of_start read
  have reads := Attempt.reads_of_lexeme lexeme same.symm
  obtain ⟨returns, afterParts, run⟩ := reads.rest
  have blank : ∀ byte ∈ returns, Alphabet.isSpace byte = true := by
    intro byte member
    rw [run byte member]
    decide
  have noBreaks : Bytes.lineBreaks returns = 0 := by
    refine List.count_eq_zero.mpr fun member => ?_
    have := run _ member
    revert this
    decide
  refine ⟨token.source ++ returns, ?_, fun tokens => ?_⟩
  · rw [reads.line, counted]
    simp only [Bytes.lineBreaks, List.count_append] at noBreaks ⊢
    omega
  · rw [cons_iff notBlank]
    constructor
    · rintro ⟨other, otherAfter, others, rfl, otherSame, otherLexeme, otherLine, behind⟩
      have otherReads := Attempt.reads_of_lexeme otherLexeme otherSame
      rw [otherLine, ← counted] at otherReads
      obtain rfl : token = other := Except.ok.inj (read.symm.trans otherReads.outcome)
      obtain rfl : after = otherAfter := List.append_cancel_left (same.symm.trans otherSame.symm)
      refine ⟨others, rfl, ?_⟩
      rw [← List.append_assoc, ← skipped_iff blank, ← afterParts]
      exact behind
    · rintro ⟨others, rfl, behind⟩
      refine ⟨token, after, others, rfl, same.symm, lexeme, counted, ?_⟩
      rw [afterParts, skipped_iff blank, List.append_assoc]
      exact behind

end Attempt

end Tiled

/-! ## The scanner -/

namespace Scanner

variable {scanner : Scanner} {first : UInt8} {tail : Bytes}

theorem skipSpace_eq_self (tight : ∀ byte ∈ scanner.rest.head?, Alphabet.isSpace byte = false) :
    scanner.skipSpace = scanner := by
  have none : ∀ byte ∈ ([] : Bytes), Alphabet.isSpace byte = true := by simp
  have taken : scanner.rest.takeWhile Alphabet.isSpace = [] :=
    Bytes.takeWhile_append_of_boundary none tight
  have left : scanner.rest.dropWhile Alphabet.isSpace = scanner.rest :=
    Bytes.dropWhile_append_of_boundary none tight
  rw [skipSpace, taken, left]
  rfl

theorem run_at_end (finished : scanner.skipSpace.rest = []) :
    scanner.run = (.ok scanner.kept, scanner.skipSpace) := by
  rw [run]
  split
  · rfl
  · simp_all

theorem run_at_fault {cause : LexicalFault} (starts : scanner.skipSpace.rest = first :: tail)
    (failed : (Attempt.start scanner.skipSpace.line first tail).outcome = .error cause) :
    scanner.run = (.error (scanner.skipSpace.diagnostic cause),
      scanner.skipSpace.after (Attempt.start scanner.skipSpace.line first tail)) := by
  rw [run]
  split
  · simp_all
  · rename_i byte rest startsAgain
    obtain ⟨rfl, rfl⟩ := List.cons.inj (starts.symm.trans startsAgain)
    dsimp only
    split <;> simp_all

theorem run_at_token {token : Token} (starts : scanner.skipSpace.rest = first :: tail)
    (read : (Attempt.start scanner.skipSpace.line first tail).outcome = .ok token) :
    scanner.run = run { scanner.skipSpace.after (Attempt.start scanner.skipSpace.line first tail)
      with kept := scanner.kept.push token } := by
  rw [run]
  split
  · simp_all
  · rename_i byte rest startsAgain
    obtain ⟨rfl, rfl⟩ := List.cons.inj (starts.symm.trans startsAgain)
    dsimp only
    split
    · simp_all
    · rename_i other readAgain
      obtain rfl := Except.ok.inj (read.symm.trans readAgain)
      rfl

/-- The scanner answers with the tokens that it keeps and those that the rest of the
source is made of. `before` is the text that has been read. -/
theorem run_eq_ok_iff (scanner : Scanner) {tokens : Array Token} (before : Bytes)
    (counted : scanner.line = 1 + Bytes.lineBreaks before) :
    scanner.run.1 = .ok tokens ↔
      ∃ others, tokens.toList = scanner.kept.toList ++ others ∧
        Tiled before scanner.rest others := by
  induction remaining : scanner.rest.length using Nat.strong_induction_on
    generalizing scanner before with
  | _ length inductionHypothesis =>
      have spacedLine : scanner.skipSpace.line = 1 +
          Bytes.lineBreaks (before ++ scanner.rest.takeWhile Alphabet.isSpace) := by
        rw [Bytes.lineBreaks, List.count_append, ← Nat.add_assoc]
        exact congrArg (· + _) counted
      have skipped (others : List Token) : Tiled before scanner.rest others ↔
          Tiled (before ++ scanner.rest.takeWhile Alphabet.isSpace)
            (scanner.rest.dropWhile Alphabet.isSpace) others := Tiled.skip_iff
      simp only [skipped]
      cases starts : scanner.rest.dropWhile Alphabet.isSpace with
      | nil =>
          rw [run_at_end starts]
          simp only [Tiled.nil_iff, Except.ok.injEq, exists_eq_right, List.append_nil,
            Array.toList_inj]
          exact eq_comm
      | cons first tail =>
          have notBlank : Alphabet.isSpace first = false :=
            Bytes.not_accepts_head_dropWhile _ scanner.rest first (by simp [starts])
          cases read : (Attempt.start scanner.skipSpace.line first tail).outcome with
          | error cause =>
              rw [run_at_fault starts read]
              simp [Tiled.not_cons_of_fault notBlank spacedLine read]
          | ok token =>
              obtain ⟨taken, line, cons_iff⟩ := Tiled.cons_iff_of_token notBlank spacedLine read
              have shorter : (Attempt.start scanner.skipSpace.line first tail).rest.length <
                  length := by
                have taken := Attempt.rest_length_le_of_start_ok read
                have skipped := Bytes.length_dropWhile_le Alphabet.isSpace scanner.rest
                rw [starts, List.length_cons] at skipped
                omega
              rw [run_at_token starts read, inductionHypothesis _ shorter _ _ line rfl]
              simp only [cons_iff, Array.toList_push, List.append_assoc,
                List.singleton_append]
              constructor
              · rintro ⟨others, same, tiled⟩
                exact ⟨token :: others, same, others, rfl, tiled⟩
              · rintro ⟨_, same, others, rfl, tiled⟩
                exact ⟨others, same, tiled⟩

end Scanner

/-- The tokens of a source tile it, from its first byte on. -/
theorem tiled_of_tokenize {source : Bytes} {tokens : Array Token}
    (read : tokenize source = .ok tokens) : Tiled [] source tokens.toList := by
  obtain ⟨others, same, tiled⟩ :=
    (Scanner.run_eq_ok_iff (Scanner.ofSource source) [] rfl).mp read
  obtain rfl : tokens.toList = others := same
  exact tiled

/-- A source has exactly the tokens that, with white space between them, make it up. -/
theorem tokenize_eq_ok_iff {source : Bytes} {tokens : Array Token} :
    tokenize source = .ok tokens ↔ Tiled [] source tokens.toList := by
  rw [tokenize, Scanner.run_eq_ok_iff (Scanner.ofSource source) [] rfl]
  simp [Scanner.ofSource]

end Jack
