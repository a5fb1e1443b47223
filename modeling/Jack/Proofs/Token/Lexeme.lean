import Jack.Proofs.Text.Bytes
import Jack.Token.Scanner
import Mathlib.Data.FinEnum

/-!
Contract: which texts are lexemes.

Owns: the lexical grammar, one rule per kind of token, each with what may follow; and
that an attempt at a lexeme succeeds exactly on the texts of the grammar.

Does not own: white space, and how lexemes follow each other.

An attempt takes the longest run that it can, so each rule says where a run has to stop.
Carriage returns behind a line comment belong to no token, but the attempt reads over
them.
-/

set_option autoImplicit false

namespace Jack

/-! ## The lexical grammar -/

/-- A word that is not longer, with the text `after` behind it. -/
structure IsWord (first : UInt8) (rest after : Bytes) : Prop where
  starts : Alphabet.startsWord first = true
  continues : ∀ byte ∈ rest, Alphabet.continuesWord byte = true
  ends : ∀ byte ∈ after.head?, Alphabet.continuesWord byte = false

/-- A lexeme of the given kind and content, with the text `after` behind it. -/
inductive Lexeme : Token.Kind → Bytes → Bytes → Prop where
  | keyword {first : UInt8} {rest after : Bytes} (word : IsWord first rest after)
      (reserved : Alphabet.isKeyword (first :: rest) = true) :
      Lexeme .keyword (first :: rest) after
  | identifier {first : UInt8} {rest after : Bytes} (word : IsWord first rest after)
      (free : Alphabet.isKeyword (first :: rest) = false) :
      Lexeme .identifier (first :: rest) after
  | integer {digits after : Bytes} (nonempty : digits ≠ [])
      (decimal : ∀ byte ∈ digits, Alphabet.isDigit byte = true)
      (inRange : Numeral.valueOf digits ≤ maxInteger)
      (ends : ∀ byte ∈ after.head?, Alphabet.isDigit byte = false) :
      Lexeme .integer digits after
  | string {content after : Bytes}
      (inside : ∀ byte ∈ content,
        byte ≠ ascii '"' ∧ byte ≠ ascii '\n' ∧ byte ≠ ascii '\r') :
      Lexeme .string content after
  | lineComment {content returns behind : Bytes} (opens : utf8 "//" <+: content)
      (inLine : ∀ byte ∈ content, byte ≠ Bytes.lineBreak)
      (trimmed : content.getLast? ≠ some (ascii '\r'))
      (unread : ∀ byte ∈ returns, byte = ascii '\r')
      (ends : ∀ byte ∈ behind.head?, byte = Bytes.lineBreak) :
      Lexeme .comment content (returns ++ behind)
  | blockComment {content body after : Bytes}
      (marked : content = utf8 "/*" ++ (body ++ utf8 "*/"))
      (closesOnce : ∀ front back, body ++ utf8 "*/" = front ++ (utf8 "*/" ++ back) →
        back = []) :
      Lexeme .comment content after
  | symbol {byte : UInt8} {after : Bytes} (known : Alphabet.isSymbol byte = true)
      (noComment : byte = ascii '/' →
        ∀ next ∈ after.head?, next ≠ ascii '/' ∧ next ≠ ascii '*') :
      Lexeme .symbol [byte] after

/-! ## Classes of bytes -/

namespace Alphabet

theorem class_of_continuesWord :
    ∀ byte, continuesWord byte = true → isSpace byte = false ∧ byte ≠ Bytes.lineBreak := by
  decide +kernel

theorem class_of_isDigit :
    ∀ byte, isDigit byte = true → isSpace byte = false ∧ byte ≠ Bytes.lineBreak := by
  decide +kernel

/-- A byte that starts a word starts nothing else. -/
theorem class_of_startsWord :
    ∀ byte, startsWord byte = true → continuesWord byte = true ∧ isDigit byte = false ∧
      byte ≠ ascii '/' ∧ byte ≠ ascii '"' := by
  decide +kernel

/-- A symbol is told by its first byte, but for the slash, which may start a comment. -/
theorem class_of_isSymbol :
    ∀ byte, isSymbol byte = true → isDigit byte = false ∧ byte ≠ ascii '"' ∧
      startsWord byte = false ∧ isSpace byte = false ∧ byte ≠ Bytes.lineBreak := by
  decide +kernel

end Alphabet

theorem IsWord.continuesWord {first : UInt8} {rest after : Bytes}
    (word : IsWord first rest after) :
    ∀ byte ∈ first :: rest, Alphabet.continuesWord byte = true :=
  List.forall_mem_cons.mpr
    ⟨(Alphabet.class_of_startsWord first word.starts).1, word.continues⟩

/-- A lexeme starts with a byte that is no white space. -/
theorem Lexeme.source_starts {token : Token} {after : Bytes}
    (lexeme : Lexeme token.kind token.content after) :
    ∃ first rest, token.source = first :: rest ∧ Alphabet.isSpace first = false := by
  obtain ⟨kind, content, line⟩ := token
  cases lexeme with
  | @keyword first rest _ word =>
      have continues := word.continuesWord first (by simp)
      exact ⟨first, rest, rfl, (Alphabet.class_of_continuesWord first continues).1⟩
  | @identifier first rest _ word =>
      have continues := word.continuesWord first (by simp)
      exact ⟨first, rest, rfl, (Alphabet.class_of_continuesWord first continues).1⟩
  | integer nonempty decimal =>
      obtain ⟨first, rest, rfl⟩ := List.exists_cons_of_ne_nil nonempty
      exact ⟨first, rest, rfl, (Alphabet.class_of_isDigit first (decimal first (by simp))).1⟩
  | string => exact ⟨ascii '"', content ++ [ascii '"'], rfl, by decide⟩
  | lineComment opens =>
      obtain ⟨rest, rfl⟩ := opens
      exact ⟨ascii '/', ascii '/' :: rest, rfl, by decide⟩
  | @blockComment _ body _ marked =>
      exact ⟨ascii '/', ascii '*' :: (body ++ utf8 "*/"), marked, by decide⟩
  | @symbol byte _ known =>
      exact ⟨byte, [], rfl, (Alphabet.class_of_isSymbol byte known).2.2.2.1⟩

/-! ## Attempts -/

namespace Attempt

/-- The attempt gives this token. Only carriage returns of `after` are read too. -/
structure Reads (attempt : Attempt) (token : Token) (after : Bytes) : Prop where
  outcome : attempt.outcome = .ok token
  line : attempt.line = token.line + Bytes.lineBreaks token.source
  rest : ∃ returns, after = returns ++ attempt.rest ∧ ∀ byte ∈ returns, byte = ascii '\r'

/-- The token is a lexeme at the start of the text, on this line. -/
def Found (token : Token) (line : Nat) (text : Bytes) : Prop :=
  token.line = line ∧ ∃ after, text = token.source ++ after ∧
    Lexeme token.kind token.content after

/-- A token without line breaks, of which everything behind is left. -/
theorem Reads.of_token {kind : Token.Kind} {content rest : Bytes} {line : Nat}
    (inLine : ∀ byte ∈ (Token.mk kind content line).source, byte ≠ Bytes.lineBreak) :
    Reads (Attempt.token kind content line rest) ⟨kind, content, line⟩ rest where
  outcome := rfl
  line := by
    have noBreaks : Bytes.lineBreaks (Token.mk kind content line).source = 0 :=
      List.count_eq_zero.mpr fun member => inLine _ member rfl
    rw [noBreaks]
    rfl
  rest := ⟨[], rfl, by simp⟩

section Rules

variable {line : Nat} {first : UInt8} {tail rest after : Bytes} {token : Token}

/-- Two bytes tell whether a comment starts. -/
theorem isPrefixOf_pair_iff {one two : UInt8} :
    [one, two].isPrefixOf (first :: tail) = true ↔ first = one ∧ tail.head? = some two := by
  cases tail with
  | nil => simp [List.isPrefixOf]
  | cons second others =>
      simp only [List.isPrefixOf_iff_prefix, List.cons_prefix_cons, List.nil_prefix, and_true,
        List.head?_cons, Option.some.injEq]
      exact and_congr eq_comm eq_comm

/-! Integers -/

/-- A number that is read is the longest run of digits, and in range. -/
theorem found_of_integer (digit : Alphabet.isDigit first = true)
    (read : (integer line first tail).outcome = .ok token) :
    Found token line (first :: tail) := by
  unfold integer at read
  dsimp only at read
  split_ifs at read with large
  · simp [fault] at read
  · obtain rfl := Except.ok.inj read
    refine ⟨rfl, tail.dropWhile Alphabet.isDigit, ?_, .integer (by simp) ?_
      (Nat.le_of_not_lt large) (Bytes.not_accepts_head_dropWhile _ _)⟩
    · simp [Token.source, List.takeWhile_append_dropWhile]
    · exact List.forall_mem_cons.mpr ⟨digit, fun _ => List.mem_takeWhile_imp⟩

theorem reads_integer (decimal : ∀ byte ∈ first :: rest, Alphabet.isDigit byte = true)
    (inRange : Numeral.valueOf (first :: rest) ≤ maxInteger)
    (ends : ∀ byte ∈ after.head?, Alphabet.isDigit byte = false) :
    Reads (start line first (rest ++ after)) ⟨.integer, first :: rest, line⟩ after := by
  obtain ⟨digit, others⟩ := List.forall_mem_cons.mp decimal
  rw [start, if_pos digit, integer, Bytes.takeWhile_append_of_boundary others ends,
    Bytes.dropWhile_append_of_boundary others ends, if_neg (Nat.not_lt.mpr inRange)]
  exact .of_token fun byte member => (Alphabet.class_of_isDigit byte (decimal byte member)).2

/-! Words -/

/-- A word that is read is the longest one, and a keyword or an identifier. -/
theorem found_of_word (starts : Alphabet.startsWord first = true)
    (read : (word line first tail).outcome = .ok token) :
    Found token line (first :: tail) := by
  have isWord : IsWord first (tail.takeWhile Alphabet.continuesWord)
      (tail.dropWhile Alphabet.continuesWord) :=
    ⟨starts, fun _ => List.mem_takeWhile_imp, Bytes.not_accepts_head_dropWhile _ _⟩
  have parts : first :: tail = (first :: tail.takeWhile Alphabet.continuesWord) ++
      tail.dropWhile Alphabet.continuesWord := by
    rw [List.cons_append, List.takeWhile_append_dropWhile]
  unfold word at read
  dsimp only at read
  split_ifs at read with reserved
  · obtain rfl := Except.ok.inj read
    exact ⟨rfl, _, parts, .keyword isWord reserved⟩
  · obtain rfl := Except.ok.inj read
    exact ⟨rfl, _, parts, .identifier isWord (by simpa using reserved)⟩

/-- A letter in front leads to the attempt at a word. -/
theorem start_eq_word (starts : Alphabet.startsWord first = true) :
    start line first tail = word line first tail := by
  obtain ⟨_, notDigit, notSlash, notQuote⟩ := Alphabet.class_of_startsWord first starts
  have noLine : ¬ (utf8 "//").isPrefixOf (first :: tail) = true := fun opens =>
    notSlash (isPrefixOf_pair_iff.mp opens).1
  have noBlock : ¬ (utf8 "/*").isPrefixOf (first :: tail) = true := fun opens =>
    notSlash (isPrefixOf_pair_iff.mp opens).1
  rw [start, if_neg (by simp [notDigit]), if_neg noLine, if_neg noBlock, if_neg notQuote,
    if_pos starts]

/-- Which of the two a word is depends on the list of keywords alone. -/
theorem reads_word (line : Nat) (isWord : IsWord first rest after) :
    Reads (start line first (rest ++ after))
      ⟨if Alphabet.isKeyword (first :: rest) then .keyword else .identifier,
        first :: rest, line⟩ after := by
  have inLine : ∀ byte ∈ first :: rest, byte ≠ Bytes.lineBreak := fun byte member =>
    (Alphabet.class_of_continuesWord byte (isWord.continuesWord byte member)).2
  rw [start_eq_word isWord.starts, word,
    Bytes.takeWhile_append_of_boundary isWord.continues isWord.ends,
    Bytes.dropWhile_append_of_boundary isWord.continues isWord.ends]
  split_ifs
  · exact .of_token inLine
  · exact .of_token inLine

/-! Strings -/

theorem found_of_string (read : (string line tail).outcome = .ok token) :
    Found token line (ascii '"' :: tail) := by
  unfold string at read
  cases remaining : tail.dropWhile inString with
  | nil => simp [remaining, fault] at read
  | cons byte behind =>
      simp only [remaining] at read
      split_ifs at read with quote
      · subst quote
        obtain rfl := Except.ok.inj read
        have parts : tail = tail.takeWhile inString ++ ascii '"' :: behind := by
          rw [← remaining, List.takeWhile_append_dropWhile]
        refine ⟨rfl, behind, ?_, .string ?_⟩
        · simpa [Token.source] using parts
        · intro byte member
          simpa [inString, and_assoc] using List.mem_takeWhile_imp member
      · simp [fault] at read

theorem reads_string {content : Bytes}
    (inside : ∀ byte ∈ content,
      byte ≠ ascii '"' ∧ byte ≠ ascii '\n' ∧ byte ≠ ascii '\r') :
    Reads (start line (ascii '"') (content ++ ascii '"' :: after))
      ⟨.string, content, line⟩ after := by
  have accepted : ∀ byte ∈ content, inString byte = true := by
    simpa [inString, and_assoc] using inside
  have stops : ∀ byte ∈ (ascii '"' :: after).head?, inString byte = false := by
    simp [inString]
  have dispatched : start line (ascii '"') (content ++ ascii '"' :: after) =
      string line (content ++ ascii '"' :: after) := rfl
  rw [dispatched, string, Bytes.takeWhile_append_of_boundary accepted stops,
    Bytes.dropWhile_append_of_boundary accepted stops]
  dsimp only
  rw [if_pos rfl]
  apply Reads.of_token
  intro byte member
  rcases List.mem_append.mp member with member | member
  · rcases List.mem_cons.mp member with rfl | member
    · decide
    · exact (inside byte member).2.1
  · rw [List.mem_singleton.mp member]
    decide

/-! Comments -/

/-- The opening mark is never trimmed. -/
theorem trimEnd_lineMark (text : Bytes) :
    Bytes.trimEnd (ascii '\r') (utf8 "//" ++ text) =
      utf8 "//" ++ Bytes.trimEnd (ascii '\r') text := by
  obtain ⟨returns, parts, run⟩ := Bytes.trimEnd_append (ascii '\r') text
  have last : (utf8 "//" ++ Bytes.trimEnd (ascii '\r') text).getLast? ≠
      some (ascii '\r') := by
    rw [List.getLast?_append]
    cases ending : (Bytes.trimEnd (ascii '\r') text).getLast? with
    | none => decide
    | some byte =>
        rw [Option.some_or, ← ending]
        exact Bytes.getLast?_trimEnd_ne _ _
  conv_lhs => rw [parts, ← List.append_assoc]
  exact Bytes.trimEnd_eq last run

/-- A line comment ends in front of the line break, with the returns before it left out. -/
theorem found_of_lineComment {text : Bytes}
    (read : (lineComment line (ascii '/') (ascii '/' :: text)).outcome = .ok token) :
    Found token line (ascii '/' :: ascii '/' :: text) := by
  obtain ⟨returns, parts, run⟩ :=
    Bytes.trimEnd_append (ascii '\r') (text.takeWhile (· != Bytes.lineBreak))
  have whole : text = Bytes.trimEnd (ascii '\r') (text.takeWhile (· != Bytes.lineBreak)) ++
      (returns ++ text.dropWhile (· != Bytes.lineBreak)) := by
    rw [← List.append_assoc, ← parts, List.takeWhile_append_dropWhile]
  obtain rfl : token = ⟨.comment, utf8 "//" ++
      Bytes.trimEnd (ascii '\r') (text.takeWhile (· != Bytes.lineBreak)), line⟩ := by
    rw [← trimEnd_lineMark]
    exact (Except.ok.inj read).symm
  refine ⟨rfl, returns ++ text.dropWhile (· != Bytes.lineBreak),
    congrArg (fun rest => ascii '/' :: ascii '/' :: rest) whole,
    .lineComment (List.prefix_append _ _) ?_ ?_ run ?_⟩
  · intro byte member
    rcases List.mem_append.mp member with member | member
    · have markInLine : ∀ byte ∈ utf8 "//", byte ≠ Bytes.lineBreak := by
        decide +kernel
      exact markInLine byte member
    · have inRun : byte ∈ text.takeWhile (· != Bytes.lineBreak) := by
        rw [parts]
        exact List.mem_append_left _ member
      simpa using List.mem_takeWhile_imp inRun
  · rw [← trimEnd_lineMark]
    exact Bytes.getLast?_trimEnd_ne _ _
  · intro byte starts
    simpa using Bytes.not_accepts_head_dropWhile _ _ byte starts

theorem reads_lineComment {text returns behind : Bytes}
    (inLine : ∀ byte ∈ utf8 "//" ++ text, byte ≠ Bytes.lineBreak)
    (trimmed : (utf8 "//" ++ text).getLast? ≠ some (ascii '\r'))
    (unread : ∀ byte ∈ returns, byte = ascii '\r')
    (ends : ∀ byte ∈ behind.head?, byte = Bytes.lineBreak) :
    Reads (start line (ascii '/') (ascii '/' :: (text ++ (returns ++ behind))))
      ⟨.comment, utf8 "//" ++ text, line⟩ (returns ++ behind) := by
  have parts : ascii '/' :: (text ++ (returns ++ behind)) =
      (ascii '/' :: (text ++ returns)) ++ behind := by simp
  have accepted : ∀ byte ∈ ascii '/' :: (text ++ returns),
      (byte != Bytes.lineBreak) = true := by
    intro byte member
    rw [bne_iff_ne]
    rcases List.mem_append.mp (List.cons_append ▸ member) with member | member
    · exact inLine byte (List.mem_cons_of_mem _ member)
    · rw [unread byte member]
      decide
  have stops : ∀ byte ∈ behind.head?, (byte != Bytes.lineBreak) = false := by
    intro byte starts
    simpa using ends byte starts
  have dispatched : start line (ascii '/') (ascii '/' :: (text ++ (returns ++ behind))) =
      lineComment line (ascii '/') (ascii '/' :: (text ++ (returns ++ behind))) := rfl
  have content : Bytes.trimEnd (ascii '\r') (ascii '/' :: ascii '/' :: (text ++ returns)) =
      utf8 "//" ++ text := Bytes.trimEnd_eq trimmed unread
  rw [dispatched, lineComment, parts, Bytes.takeWhile_append_of_boundary accepted stops,
    Bytes.dropWhile_append_of_boundary accepted stops, content]
  have read : Reads (Attempt.token .comment (utf8 "//" ++ text) line behind) _ behind :=
    .of_token inLine
  exact ⟨read.outcome, read.line, returns, rfl, unread⟩

/-- A block comment ends two bytes behind the offset of its closing mark. -/
theorem take_comment (body after : Bytes) :
    ascii '/' :: (ascii '*' :: (body ++ (utf8 "*/" ++ after))).take (body.length + 3) =
      utf8 "/*" ++ (body ++ utf8 "*/") := by
  have marked : (body ++ (utf8 "*/" ++ after)).take (body.length + 2) = body ++ utf8 "*/" := by
    rw [← List.append_assoc]
    exact List.take_left' (by simp; rfl)
  rw [List.take_succ_cons, marked]
  rfl

theorem drop_comment (body after : Bytes) :
    (ascii '*' :: (body ++ (utf8 "*/" ++ after))).drop (body.length + 3) = after := by
  rw [List.drop_succ_cons, ← List.append_assoc]
  exact List.drop_left' (by simp; rfl)

/-- A block comment ends at the first end mark. -/
theorem found_of_blockComment {text : Bytes}
    (read : (blockComment line (ascii '/') (ascii '*' :: text)).outcome = .ok token) :
    Found token line (ascii '/' :: ascii '*' :: text) := by
  unfold blockComment at read
  rw [List.drop_one, List.tail_cons] at read
  cases found : Bytes.offsetOf? (utf8 "*/") text with
  | none => simp [found, fault] at read
  | some offset =>
      simp only [found] at read
      obtain ⟨body, isBefore, rfl⟩ := Bytes.offsetOf?_eq_some_iff.mp found
      obtain ⟨after, rfl⟩ := isBefore.exists_back
      rw [take_comment] at read
      obtain rfl := Except.ok.inj read
      refine ⟨rfl, after, ?_, .blockComment rfl (Bytes.isBefore_append_iff.mp isBefore)⟩
      simp only [Token.source, List.append_assoc]
      rfl

theorem reads_blockComment {body : Bytes}
    (closesOnce : ∀ front back, body ++ utf8 "*/" = front ++ (utf8 "*/" ++ back) →
      back = []) :
    Reads (start line (ascii '/') (ascii '*' :: (body ++ (utf8 "*/" ++ after))))
      ⟨.comment, utf8 "/*" ++ (body ++ utf8 "*/"), line⟩ after := by
  have found : Bytes.offsetOf? (utf8 "*/") (body ++ (utf8 "*/" ++ after)) = some body.length :=
    Bytes.offsetOf?_eq_some_iff.mpr ⟨body, Bytes.isBefore_append_iff.mpr closesOnce, rfl⟩
  have dispatched : start line (ascii '/') (ascii '*' :: (body ++ (utf8 "*/" ++ after))) =
      blockComment line (ascii '/') (ascii '*' :: (body ++ (utf8 "*/" ++ after))) := rfl
  rw [dispatched, blockComment, List.drop_one, List.tail_cons, found]
  dsimp only
  rw [take_comment, drop_comment]
  exact ⟨rfl, rfl, [], rfl, by simp⟩

/-! Symbols, and all rules together -/

/-- A slash is a symbol unless it starts a comment. -/
theorem reads_symbol (known : Alphabet.isSymbol first = true)
    (noComment : first = ascii '/' →
      ∀ next ∈ tail.head?, next ≠ ascii '/' ∧ next ≠ ascii '*') :
    Reads (start line first tail) ⟨.symbol, [first], line⟩ tail := by
  obtain ⟨notDigit, notQuote, notWord, _, inLine⟩ := Alphabet.class_of_isSymbol first known
  have noLine : ¬ (utf8 "//").isPrefixOf (first :: tail) = true := fun opens => by
    obtain ⟨slash, second⟩ := isPrefixOf_pair_iff.mp opens
    exact (noComment slash _ second).1 rfl
  have noBlock : ¬ (utf8 "/*").isPrefixOf (first :: tail) = true := fun opens => by
    obtain ⟨slash, second⟩ := isPrefixOf_pair_iff.mp opens
    exact (noComment slash _ second).2 rfl
  rw [start, if_neg (by simp [notDigit]), if_neg noLine, if_neg noBlock, if_neg notQuote,
    if_neg (by simp [notWord]), if_pos known]
  apply Reads.of_token
  intro byte member
  rw [List.mem_singleton.mp member]
  exact inLine

/-- A token that an attempt gives is a lexeme. -/
theorem found_of_start (read : (start line first tail).outcome = .ok token) :
    Found token line (first :: tail) := by
  unfold start at read
  split_ifs at read with isDigit opensLine opensBlock isQuote isLetter isSymbol
  · exact found_of_integer isDigit read
  · obtain ⟨text, same⟩ := List.isPrefixOf_iff_prefix.mp opensLine
    obtain ⟨rfl, rfl⟩ := List.cons.inj same
    exact found_of_lineComment read
  · obtain ⟨text, same⟩ := List.isPrefixOf_iff_prefix.mp opensBlock
    obtain ⟨rfl, rfl⟩ := List.cons.inj same
    exact found_of_blockComment read
  · subst isQuote
    exact found_of_string read
  · exact found_of_word isLetter read
  · obtain rfl := Except.ok.inj read
    refine ⟨rfl, tail, rfl, .symbol isSymbol ?_⟩
    rintro rfl next starts
    constructor
    · rintro rfl
      exact opensLine (isPrefixOf_pair_iff.mpr ⟨rfl, starts⟩)
    · rintro rfl
      exact opensBlock (isPrefixOf_pair_iff.mpr ⟨rfl, starts⟩)
  · simp [fault] at read

/-- A lexeme in front is what the attempt gives. -/
theorem reads_of_lexeme (lexeme : Lexeme token.kind token.content after)
    (same : token.source ++ after = first :: tail) :
    Reads (start token.line first tail) token after := by
  obtain ⟨kind, content, line⟩ := token
  cases lexeme with
  | @keyword head others _ word reserved =>
      obtain ⟨rfl, rfl⟩ := List.cons.inj same
      have read := reads_word line word
      rw [if_pos reserved] at read
      exact read
  | @identifier head others _ word free =>
      obtain ⟨rfl, rfl⟩ := List.cons.inj same
      have read := reads_word line word
      rw [if_neg (by simp [free])] at read
      exact read
  | integer nonempty decimal inRange ends =>
      obtain ⟨head, others, rfl⟩ := List.exists_cons_of_ne_nil nonempty
      obtain ⟨rfl, rfl⟩ := List.cons.inj same
      exact reads_integer decimal inRange ends
  | string inside =>
      have parts : ascii '"' :: (content ++ ascii '"' :: after) = first :: tail := by
        rw [← same]
        simp [Token.source]
      obtain ⟨rfl, rfl⟩ := List.cons.inj parts
      exact reads_string inside
  | @lineComment _ returns behind opens inLine trimmed unread ends =>
      obtain ⟨text, rfl⟩ := opens
      obtain ⟨rfl, rfl⟩ := List.cons.inj same
      exact reads_lineComment inLine trimmed unread ends
  | @blockComment _ body _ marked closesOnce =>
      obtain rfl : content = utf8 "/*" ++ (body ++ utf8 "*/") := marked
      have parts : ascii '/' :: ascii '*' :: (body ++ (utf8 "*/" ++ after)) =
          first :: tail := by
        rw [← same]
        simp only [Token.source, List.append_assoc]
        rfl
      obtain ⟨rfl, rfl⟩ := List.cons.inj parts
      exact reads_blockComment closesOnce
  | symbol known noComment =>
      obtain ⟨rfl, rfl⟩ := List.cons.inj same
      exact reads_symbol known noComment

end Rules

end Attempt

end Jack
