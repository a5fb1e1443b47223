import Jack.Proofs.Token.Tiling

/-!
Contract: sources that are joined by a line break are cut into tokens one by one.

Owns: what a line break behind a lexeme does to it, what a scanner comes to further down and
behind other tokens; the tokens of two sources with a line break between them, and those of
tokens that are written one below the other.

Does not own: which texts are lexemes.

A line break is no part of any lexeme but a block comment, which has its own end. So whatever
an accepted source ends in, a line break behind it leaves its tokens as they are, and a scanner
that has come there goes on like a new one, but for the lines.
-/

set_option autoImplicit false

namespace Jack

/-! ## Lexemes in front of a line break -/

/-- What may come first behind a lexeme may still come first where a line break is added. -/
theorem Bytes.forall_head?_append_lineBreak {Allowed : UInt8 → Prop} {after : Bytes}
    (ends : ∀ byte ∈ after.head?, Allowed byte) (atBreak : Allowed Bytes.lineBreak)
    (text : Bytes) : ∀ byte ∈ (after ++ Bytes.lineBreak :: text).head?, Allowed byte := by
  cases after with
  | nil => simpa using atBreak
  | cons first rest => simpa using ends

theorem IsWord.append_lineBreak {first : UInt8} {rest after : Bytes}
    (word : IsWord first rest after) (text : Bytes) :
    IsWord first rest (after ++ Bytes.lineBreak :: text) :=
  ⟨word.starts, word.continues,
    Bytes.forall_head?_append_lineBreak word.ends (by decide) text⟩

namespace Lexeme

variable {kind : Token.Kind} {content after : Bytes}

/-- A lexeme stays one where a line break and more text are added at the end. -/
theorem append_lineBreak (lexeme : Lexeme kind content after) (text : Bytes) :
    Lexeme kind content (after ++ Bytes.lineBreak :: text) := by
  cases lexeme with
  | keyword word reserved => exact .keyword (word.append_lineBreak text) reserved
  | identifier word free => exact .identifier (word.append_lineBreak text) free
  | integer nonempty decimal inRange ends =>
      exact .integer nonempty decimal inRange
        (Bytes.forall_head?_append_lineBreak ends (by decide) text)
  | string inside => exact .string inside
  | lineComment opens inLine trimmed unread ends =>
      rw [List.append_assoc]
      exact .lineComment opens inLine trimmed unread
        (Bytes.forall_head?_append_lineBreak ends rfl text)
  | blockComment marked closesOnce => exact .blockComment marked closesOnce
  | symbol known noComment =>
      exact .symbol known fun slash =>
        Bytes.forall_head?_append_lineBreak (noComment slash) (by decide) text

/-- A lexeme is one on its own. -/
theorem alone (lexeme : Lexeme kind content after) : Lexeme kind content [] := by
  have nothing {Allowed : UInt8 → Prop} : ∀ byte ∈ ([] : Bytes).head?, Allowed byte := by simp
  cases lexeme with
  | keyword word reserved => exact .keyword ⟨word.starts, word.continues, nothing⟩ reserved
  | identifier word free => exact .identifier ⟨word.starts, word.continues, nothing⟩ free
  | integer nonempty decimal inRange => exact .integer nonempty decimal inRange nothing
  | string inside => exact .string inside
  | lineComment opens inLine trimmed =>
      exact @Lexeme.lineComment content [] [] opens inLine trimmed (List.forall_mem_nil _) nothing
  | blockComment marked closesOnce => exact .blockComment marked closesOnce
  | symbol known => exact .symbol known fun _ => nothing

end Lexeme

/-! ## Further down -/

/-- The token, this many lines further down. -/
def Token.movedDown (lines : Nat) (token : Token) : Token :=
  { token with line := token.line + lines }

def Diagnostic.movedDown (lines : Nat) (diagnostic : Diagnostic) : Diagnostic :=
  { diagnostic with line := diagnostic.line + lines }

/-- What a scan comes to further down, with other tokens in front. -/
def movedBehind (front : Array Token) (lines : Nat) :
    Except Diagnostic (Array Token) → Except Diagnostic (Array Token)
  | .ok tokens => .ok (front ++ tokens.map (Token.movedDown lines))
  | .error diagnostic => .error (diagnostic.movedDown lines)

namespace Attempt

def movedDown (lines : Nat) (attempt : Attempt) : Attempt where
  outcome := attempt.outcome.map (Token.movedDown lines)
  line := attempt.line + lines
  rest := attempt.rest

variable (line lines : Nat) (first : UInt8) (tail : Bytes)

/-- A line number is only carried along; no attempt looks at it. -/
theorem integer_movedDown :
    integer (line + lines) first tail = (integer line first tail).movedDown lines := by
  unfold integer
  dsimp only
  split_ifs
  · rfl
  · rfl

theorem blockComment_movedDown :
    blockComment (line + lines) first tail = (blockComment line first tail).movedDown lines := by
  unfold blockComment
  cases Bytes.offsetOf? (utf8 "*/") (tail.drop 1) with
  | none => rfl
  | some offset =>
      simp only [movedDown, Attempt.mk.injEq, and_true]
      exact ⟨rfl, Nat.add_right_comm ..⟩

theorem string_movedDown :
    string (line + lines) tail = (string line tail).movedDown lines := by
  unfold string
  cases tail.dropWhile inString with
  | nil => rfl
  | cons byte rest =>
      dsimp only
      split_ifs
      · rfl
      · rfl

/-- An attempt reads the same on every line. -/
theorem start_movedDown :
    start (line + lines) first tail = (start line first tail).movedDown lines := by
  unfold start
  split_ifs
  · exact integer_movedDown line lines first tail
  · rfl
  · exact blockComment_movedDown line lines first tail
  · exact string_movedDown line lines tail
  · rfl
  · rfl
  · rfl

end Attempt

namespace Scanner

variable {scanner other : Scanner} {front : Array Token} {lines : Nat}

/-- The other scanner has the same text to read, further down and with other tokens in front. -/
structure Follows (front : Array Token) (lines : Nat) (scanner other : Scanner) : Prop where
  rest_eq : other.rest = scanner.rest
  line_eq : other.line = scanner.line + lines
  kept_eq : other.kept = front ++ scanner.kept.map (Token.movedDown lines)

/-- White space is skipped in step, since both scanners read the same text. -/
theorem Follows.skipSpace (follows : Follows front lines scanner other) :
    Follows front lines scanner.skipSpace other.skipSpace where
  rest_eq := congrArg (List.dropWhile Alphabet.isSpace) follows.rest_eq
  line_eq := by
    show other.line + _ = scanner.line + _ + lines
    rw [follows.line_eq, follows.rest_eq, Nat.add_right_comm]
  kept_eq := follows.kept_eq

/-- Two scanners on the same text, one with more lines and tokens behind it, come to the same
end. -/
theorem Follows.run_eq (follows : Follows front lines scanner other) :
    other.run.1 = movedBehind front lines scanner.run.1 := by
  induction scanner using Scanner.run.induct generalizing other with
  | case1 scanner =>
      rename_i finished
      have otherFinished := follows.skipSpace.rest_eq.trans finished
      rw [run_at_end finished, run_at_end otherFinished, follows.kept_eq]
      rfl
  | case2 scanner spaced first tail starts attempt fault =>
      rename_i failed
      have otherStarts := follows.skipSpace.rest_eq.trans starts
      have line := follows.skipSpace.line_eq
      have otherFailed :
          (Attempt.start other.skipSpace.line first tail).outcome = .error fault := by
        rw [line, Attempt.start_movedDown, Attempt.movedDown, failed]
        rfl
      rw [run_at_fault starts failed, run_at_fault otherStarts otherFailed]
      simp only [movedBehind, diagnostic, Diagnostic.movedDown, line]
      rfl
  | case3 scanner spaced first tail starts attempt token read =>
      rename_i inductionHypothesis
      have otherStarts := follows.skipSpace.rest_eq.trans starts
      have attempted := Attempt.start_movedDown scanner.skipSpace.line lines first tail
      rw [← follows.skipSpace.line_eq] at attempted
      have otherRead : (Attempt.start other.skipSpace.line first tail).outcome =
          .ok (token.movedDown lines) := by
        rw [attempted, Attempt.movedDown, read]
        rfl
      rw [run_at_token starts read, run_at_token otherStarts otherRead]
      apply inductionHypothesis
      refine ⟨?_, ?_, ?_⟩
      · rw [after, attempted]
        rfl
      · rw [after, attempted]
        rfl
      · simp only [follows.kept_eq, Array.map_push, ← Array.append_push]
        rfl

/-! ## Up to a line break -/

/-- White space in front only moves the line. -/
theorem run_at_blank {blank behind : Bytes}
    (isBlank : ∀ byte ∈ blank, Alphabet.isSpace byte = true)
    (rest : scanner.rest = blank ++ behind) :
    scanner.run = run { scanner with
      rest := behind
      line := scanner.line + Bytes.lineBreaks blank } := by
  have spaced : scanner.skipSpace = skipSpace { scanner with
      rest := behind
      line := scanner.line + Bytes.lineBreaks blank } := by
    simp only [skipSpace, rest, List.takeWhile_append_of_pos isBlank,
      List.dropWhile_append_of_pos isBlank, Bytes.lineBreaks, List.count_append, Nat.add_assoc]
  rw [run, run, spaced]

/-- Where a lexeme comes next, a run keeps its token and goes on behind it. -/
theorem run_at_lexeme {token : Token} {after : Bytes}
    (lexeme : Lexeme token.kind token.content after) (line : token.line = scanner.line)
    (rest : scanner.rest = token.source ++ after) :
    scanner.run = run { scanner with
      rest := after
      line := scanner.line + Bytes.lineBreaks token.source
      kept := scanner.kept.push token } := by
  obtain ⟨first, others, starts, notBlank⟩ := lexeme.source_starts
  have begins : scanner.rest = first :: (others ++ after) := by
    rw [rest, starts, List.cons_append]
  have unspaced : scanner.skipSpace = scanner :=
    skipSpace_eq_self (by simpa [begins] using notBlank)
  have reads := Attempt.reads_of_lexeme lexeme (rest.symm.trans begins)
  rw [line] at reads
  -- The attempt has read over carriage returns, which a run from here would skip.
  obtain ⟨returns, parts, allReturns⟩ := reads.rest
  have blank : ∀ byte ∈ returns, Alphabet.isSpace byte = true := by
    intro byte member
    rw [allReturns byte member]
    decide
  have unbroken : Bytes.lineBreaks returns = 0 :=
    List.count_eq_zero.mpr fun member => absurd (allReturns _ member) (by decide)
  have skipped : run { scanner with
      rest := after
      line := scanner.line + Bytes.lineBreaks token.source
      kept := scanner.kept.push token } = _ := run_at_blank blank parts
  rw [run_at_token (unspaced.symm ▸ begins) (unspaced.symm ▸ reads.outcome), unspaced, skipped,
    unbroken, Nat.add_zero, ← line, ← reads.line, line]
  rfl

/-- A text that is made of tokens is read as such up to a line break behind it. -/
theorem run_over_tiled {before text back : Bytes} {tokens : List Token}
    (tiled : Tiled before text tokens) (counted : scanner.line = 1 + Bytes.lineBreaks before)
    (rest : scanner.rest = text ++ Bytes.lineBreak :: back) :
    scanner.run = run { scanner with
      rest := back
      line := scanner.line + (1 + Bytes.lineBreaks text)
      kept := scanner.kept ++ tokens } := by
  induction tiled generalizing scanner with
  | @finish before gap blank =>
      have lineBreakBlank : Alphabet.isSpace Bytes.lineBreak = true := by decide
      have isBlank : ∀ byte ∈ gap ++ [Bytes.lineBreak], Alphabet.isSpace byte = true :=
        List.forall_mem_append.mpr ⟨blank, List.forall_mem_singleton.mpr lineBreakBlank⟩
      rw [run_at_blank isBlank (rest.trans (List.append_cons ..))]
      simp [Bytes.lineBreaks, Nat.add_comm]
  | @token before gap after token tokens blank lexeme line behind inductionHypothesis =>
      have spaced := run_at_blank blank (rest.trans (List.append_assoc ..))
      have placed : token.line = scanner.line + Bytes.lineBreaks gap := by
        rw [line, counted, Bytes.lineBreaks, List.count_append, Nat.add_assoc]
        rfl
      rw [spaced, run_at_lexeme (lexeme.append_lineBreak back) placed (List.append_assoc ..),
        inductionHypothesis _ rfl]
      · simp [Bytes.lineBreaks, Nat.add_assoc, Nat.add_left_comm]
      · simp [counted, Bytes.lineBreaks, Nat.add_assoc]

end Scanner

/-! ## Two sources -/

/-- Behind an accepted source and a line break, a source gives what it gives on its own, further
down: its tokens behind those in front, or its diagnostic. -/
theorem tokenize_append_lineBreak {front : Bytes} {tokens : Array Token}
    (read : tokenize front = .ok tokens) (back : Bytes) :
    tokenize (front ++ Bytes.lineBreak :: back) =
      movedBehind tokens (1 + Bytes.lineBreaks front) (tokenize back) := by
  have upToBreak := Scanner.run_over_tiled (tiled_of_tokenize read) rfl
    (show (Scanner.ofSource (front ++ Bytes.lineBreak :: back)).rest = _ from rfl)
  rw [tokenize, upToBreak]
  apply Scanner.Follows.run_eq
  exact ⟨rfl, rfl, by simp [Scanner.ofSource]⟩

/-- Ends in a comment that would swallow what follows it on its line. -/
def remarkedSource : Bytes :=
  utf8 "a /* b\n */ // c\r"

/-- A source that is rejected on its second line. -/
def unclosedSource : Bytes :=
  utf8 "/ 12\n\"d"

/-- A source that ends in a comment, and one with a string that is not closed. -/
theorem remarked_then_unclosed :
    ∃ tokens, tokenize remarkedSource = .ok tokens ∧
      tokenize unclosedSource = .error ⟨.lexical .unterminatedString, 2⟩ ∧
      tokenize (remarkedSource ++ Bytes.lineBreak :: unclosedSource) =
        movedBehind tokens 2 (tokenize unclosedSource) := by
  have read : tokenize remarkedSource =
      .ok ((tokenize remarkedSource).toOption.getD #[]) := by decide +kernel
  exact ⟨_, read, by decide +kernel, tokenize_append_lineBreak read unclosedSource⟩

/-! ## Tokens one below the other -/

/-- The texts of the tokens with line breaks between them. -/
def rejoined (tokens : List Token) : Bytes :=
  List.intercalate [Bytes.lineBreak] (tokens.map Token.source)

theorem rejoined_singleton (token : Token) : rejoined [token] = token.source := by
  rw [rejoined, List.map_singleton, List.intercalate_singleton]

theorem rejoined_cons_cons (token next : Token) (others : List Token) :
    rejoined (token :: next :: others) =
      token.source ++ Bytes.lineBreak :: rejoined (next :: others) := by
  rw [rejoined, List.map_cons, List.map_cons, List.intercalate_cons_cons, List.append_assoc]
  rfl

/-- The token on the line of the place behind this text. -/
def Token.placedBehind (before : Bytes) (token : Token) : Token :=
  { token with line := 1 + Bytes.lineBreaks before }

/-- A lexeme in front is a token on the line that has been reached. -/
theorem Tiled.cons_of_lexeme {token : Token} {before after : Bytes} {tokens : List Token}
    (lexeme : Lexeme token.kind token.content after)
    (behind : Tiled (before ++ token.source) after tokens) :
    Tiled before (token.source ++ after) (token.placedBehind before :: tokens) := by
  have noGap : before ++ [] = before := List.append_nil before
  have tiled : Tiled before ([] ++ ((token.placedBehind before).source ++ after))
      (token.placedBehind before :: tokens) :=
    .token (List.forall_mem_nil _) lexeme (by rw [noGap]; rfl) (by rw [noGap]; exact behind)
  exact tiled

/-- Lexemes that are written one below the other are tokens again, on other lines. -/
theorem tiled_rejoined {tokens : List Token}
    (lexemes : ∀ token ∈ tokens, ∃ after, Lexeme token.kind token.content after)
    (before : Bytes) :
    ∃ again : List Token, again.map Token.kind = tokens.map Token.kind ∧
      again.map Token.content = tokens.map Token.content ∧
      Tiled before (rejoined tokens) again := by
  induction tokens generalizing before with
  | nil => exact ⟨[], rfl, rfl, .finish (List.forall_mem_nil _)⟩
  | cons token rest inductionHypothesis =>
      obtain ⟨⟨after, lexeme⟩, restLexemes⟩ := List.forall_mem_cons.mp lexemes
      cases rest with
      | nil =>
          have tiled := Tiled.cons_of_lexeme lexeme.alone
            (.finish (List.forall_mem_nil _) : Tiled (before ++ token.source) [] [])
          rw [List.append_nil, ← rejoined_singleton] at tiled
          exact ⟨[token.placedBehind before], rfl, rfl, tiled⟩
      | cons next others =>
          obtain ⟨again, kinds, contents, behind⟩ :=
            inductionHypothesis restLexemes (before ++ token.source ++ [Bytes.lineBreak])
          have blank : ∀ byte ∈ [Bytes.lineBreak], Alphabet.isSpace byte = true :=
            List.forall_mem_singleton.mpr (by decide)
          have spaced : Tiled (before ++ token.source)
              ([Bytes.lineBreak] ++ rejoined (next :: others)) again := .of_skipped blank behind
          rw [rejoined_cons_cons]
          exact ⟨token.placedBehind before :: again, congrArg (List.cons _) kinds,
            congrArg (List.cons _) contents,
            .cons_of_lexeme (lexeme.alone.append_lineBreak _) spaced⟩

/-- The tokens of a source, written one below the other, are read as the same tokens: as many,
of the same kinds and with the same contents. -/
theorem tokenize_rejoined {source : Bytes} {tokens : Array Token}
    (read : tokenize source = .ok tokens) :
    ∃ again, tokenize (rejoined tokens.toList) = .ok again ∧ again.size = tokens.size ∧
      again.map Token.kind = tokens.map Token.kind ∧
      again.map Token.content = tokens.map Token.content := by
  obtain ⟨again, kinds, contents, tiled⟩ :=
    tiled_rejoined (tiled_of_tokenize read).lexeme_of_mem []
  have readAgain : tokenize (rejoined tokens.toList) = .ok again.toArray :=
    (Scanner.run_eq_ok_iff (Scanner.ofSource _) [] rfl).mpr ⟨again, rfl, tiled⟩
  have length := congrArg List.length kinds
  rw [List.length_map, List.length_map] at length
  refine ⟨again.toArray, readAgain, length, ?_, ?_⟩
  · rw [← Array.toList_inj]
    simpa using kinds
  · rw [← Array.toList_inj]
    simpa using contents

/-- With nothing between them, the division sign and the comment behind it would start a line
comment. -/
def crowdedSource : Bytes :=
  utf8 "12ab/ /*c\n*///d\r\n\"e f\"/"

/-- The source has seven tokens, of which two are comments. -/
theorem crowded_rejoined :
    ∃ tokens, tokenize crowdedSource = .ok tokens ∧ tokens.size = 7 ∧
      ∃ again, tokenize (rejoined tokens.toList) = .ok again ∧ again.size = tokens.size ∧
        again.map Token.kind = tokens.map Token.kind ∧
        again.map Token.content = tokens.map Token.content := by
  have read : tokenize crowdedSource =
      .ok ((tokenize crowdedSource).toOption.getD #[]) := by decide +kernel
  have seven : ((tokenize crowdedSource).toOption.getD #[]).size = 7 := by decide +kernel
  exact ⟨_, read, seven, tokenize_rejoined read⟩

end Jack
