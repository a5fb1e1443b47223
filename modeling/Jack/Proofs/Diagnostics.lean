import Jack.Proofs.Grammar.Places
import Jack.Proofs.Grammar.SyntaxErrors
import Jack.Proofs.Lowering.Places
import Jack.Proofs.Token.Histories

/-!
Contract: diagnostics point into the source.

Owns: that lines of tokens and of faults are lines of the source, what a message tells about
its cause, and for every rejected source what its line and its message refer to.

Does not own: which sources are rejected.
-/

set_option autoImplicit false

namespace Jack

/-! ## Lines -/

/-- The line is one of the source. -/
def Bytes.HasLine (source : Bytes) (line : Int) : Prop :=
  1 ≤ line ∧ line ≤ 1 + Bytes.lineBreaks source

theorem Bytes.HasLine.ne_zero {source : Bytes} {line : Int} (hasLine : source.HasLine line) :
    line ≠ 0 := by
  have first := hasLine.1
  omega

/-- A part of the source has no more lines. -/
theorem Bytes.hasLine_of_sublist {part source : Bytes} (isPart : part.Sublist source) :
    source.HasLine ((1 + Bytes.lineBreaks part : Nat) : Int) := by
  have fewer : Bytes.lineBreaks part ≤ Bytes.lineBreaks source := isPart.count_le _
  constructor <;> omega

/-- A token stands on one of the lines of its source. By induction on the tiling, with the text read
so far. -/
theorem Tiled.hasLine {before rest : Bytes} {tokens : List Token}
    (tiled : Tiled before rest tokens) :
    ∀ token ∈ tokens, (before ++ rest).HasLine token.line := by
  induction tiled with
  | finish => exact List.forall_mem_nil _
  | @token before gap after token tokens _ _ line _ inductionHypothesis =>
      rw [List.append_assoc, List.append_assoc] at inductionHypothesis
      refine List.forall_mem_cons.mpr ⟨?_, inductionHypothesis⟩
      rw [line, ← List.append_assoc]
      exact Bytes.hasLine_of_sublist (List.sublist_append_left _ _)

theorem hasLine_of_tokenize {source : Bytes} {tokens : Array Token}
    (read : tokenize source = .ok tokens) {line : Int} (onLine : OnLine tokens line) :
    source.HasLine line := by
  obtain ⟨token, member, rfl⟩ := onLine
  exact (tiled_of_tokenize read).hasLine token (Array.mem_toList_iff.mpr member)

/-- A lexical fault is reported on a line of the source, the one on which the fault starts. -/
theorem hasLine_of_lexical {source : Bytes} {diagnostic : Diagnostic}
    (rejected : tokenize source = .error diagnostic) :
    source.HasLine diagnostic.line ∧ diagnostic.cause.phase = .lexical := by
  obtain ⟨offset, -, -, inSource, -⟩ :=
    (Scanner.sound_ofSource source).fault_behind_kept rejected
  obtain ⟨fault, -, -, cause, -⟩ := inSource.fault
  rw [inSource.line, cause]
  exact ⟨by simpa using Bytes.hasLine_of_sublist (List.take_sublist offset source), rfl⟩

/-! ## Messages -/

/-- How messages start that are neither about an unknown name nor about a token. -/
def otherOpenings : List String :=
  ["integer ", "unterminated block comment", "string literal contains a line break",
    "unterminated string literal", "unexpected character ", "unexpected end of input",
    "unknown operator ", "unknown unary operator ", "unknown keyword constant ",
    "invalid let target *internal.", "vmcode: invalid instruction "]

/-- No message about a lexical fault starts as one about a token or an unknown name does. -/
theorem LexicalFault.exists_opening (fault : LexicalFault) :
    ∃ opening ∈ otherOpenings, utf8 opening <+: fault.message := by
  cases fault with
  | integerTooLarge digits =>
      exact ⟨"integer ", by simp [otherOpenings], by simp [message]⟩
  | unterminatedComment =>
      exact ⟨"unterminated block comment", by simp [otherOpenings], List.prefix_refl _⟩
  | lineBreakInString =>
      exact ⟨"string literal contains a line break", by simp [otherOpenings], List.prefix_refl _⟩
  | unterminatedString =>
      exact ⟨"unterminated string literal", by simp [otherOpenings], List.prefix_refl _⟩
  | unexpectedByte byte =>
      exact ⟨"unexpected character ", by simp [otherOpenings], List.prefix_append _ _⟩

theorem CodegenFault.exists_opening {fault : CodegenFault}
    (other : ∀ name, fault ≠ .undeclared name) :
    ∃ opening ∈ otherOpenings, utf8 opening <+: fault.message := by
  cases fault with
  | undeclared name => exact absurd rfl (other name)
  | unknownOperator symbol =>
      exact ⟨"unknown operator ", by simp [otherOpenings], List.prefix_append _ _⟩
  | unknownUnaryOperator symbol =>
      exact ⟨"unknown unary operator ", by simp [otherOpenings], List.prefix_append _ _⟩
  | unknownKeywordConstant word =>
      exact ⟨"unknown keyword constant ", by simp [otherOpenings], List.prefix_append _ _⟩
  | invalidTarget target =>
      exact ⟨"invalid let target *internal.", by simp [otherOpenings], List.prefix_append _ _⟩
  | invalidInstruction instruction flaw =>
      exact ⟨"vmcode: invalid instruction ", by simp [otherOpenings],
        by simp [message, Machine.Instruction.flawMessage]⟩

/-- Messages are told apart by how they start. -/
theorem Cause.message_cases (cause : Cause) :
    (∃ name, cause = .codegen (.undeclared name)) ∨
    (∃ source, cause = .syntactic (.near source)) ∨
    ∃ opening ∈ otherOpenings, utf8 opening <+: cause.message := by
  cases cause with
  | lexical fault => exact .inr (.inr fault.exists_opening)
  | syntactic fault =>
      cases fault with
      | near source => exact .inr (.inl ⟨source, rfl⟩)
      | endOfInput =>
          exact .inr (.inr ⟨"unexpected end of input", by simp [otherOpenings], List.prefix_refl _⟩)
  | codegen fault =>
      by_cases unknown : ∃ name, fault = .undeclared name
      · obtain ⟨name, rfl⟩ := unknown
        exact .inl ⟨name, rfl⟩
      · exact .inr (.inr (CodegenFault.exists_opening (not_exists.mp unknown)))

/-- No opening starts with another, so that a text has at most one of them. -/
theorem opening_unique {first second : String} {text : Bytes}
    (isOpening : first ∈ "undeclared identifier " :: "syntax error near " :: otherOpenings)
    (isOther : second ∈ "undeclared identifier " :: "syntax error near " :: otherOpenings)
    (starts : utf8 first <+: text) (startsToo : utf8 second <+: text) : first = second := by
  have apart : ∀ one ∈ "undeclared identifier " :: "syntax error near " :: otherOpenings,
      ∀ other ∈ "undeclared identifier " :: "syntax error near " :: otherOpenings,
        utf8 one <+: utf8 other → one = other := by
    decide +kernel
  rcases List.prefix_or_prefix_of_prefix starts startsToo with shorter | longer
  · exact apart first isOpening second isOther shorter
  · exact (apart second isOther first isOpening longer).symm

/-- From the message about an unknown name, the cause can be read back. -/
theorem Cause.eq_undeclared {cause : Cause} {name : Bytes}
    (same : cause.message = utf8 "undeclared identifier " ++ name) :
    cause = .codegen (.undeclared name) := by
  have begins : utf8 "undeclared identifier " <+: cause.message := ⟨name, same.symm⟩
  rcases cause.message_cases with ⟨other, rfl⟩ | ⟨source, rfl⟩ | ⟨opening, listed, starts⟩
  · rw [List.append_cancel_left same]
  · have near : utf8 "syntax error near " <+: _ := List.prefix_append _ source
    exact absurd (opening_unique (by simp) (by simp) begins near) (by decide)
  · obtain rfl := opening_unique (by simp [listed]) (by simp) starts begins
    exact absurd listed (by decide)

theorem Cause.eq_near {cause : Cause} {source : Bytes}
    (same : cause.message = utf8 "syntax error near " ++ source) :
    cause = .syntactic (.near source) := by
  have begins : utf8 "syntax error near " <+: cause.message := ⟨source, same.symm⟩
  rcases cause.message_cases with ⟨name, rfl⟩ | ⟨other, rfl⟩ | ⟨opening, listed, starts⟩
  · have unknown : utf8 "undeclared identifier " <+: _ := List.prefix_append _ name
    exact absurd (opening_unique (by simp) (by simp) begins unknown) (by decide)
  · rw [List.append_cancel_left same]
  · obtain rfl := opening_unique (by simp [listed]) (by simp) starts begins
    exact absurd listed (by decide)

/-! ## Rejected sources -/

section Rejection

variable {source : Bytes} {tokens : Array Token} {diagnostic : Diagnostic}

/-- Without tokens the line is 0. Otherwise it is the line of a token. -/
theorem Diagnostic.Names.line_cases {offset : Nat} (names : diagnostic.Names tokens offset) :
    tokens = #[] ∧ diagnostic.line = 0 ∨ OnLine tokens diagnostic.line := by
  have line := names.line
  cases here : tokens[offset]? with
  | some token =>
      rw [here, Option.some_or] at line
      exact .inr ⟨token, Array.mem_of_getElem? here, line.symm⟩
  | none =>
      rw [here, Option.none_or] at line
      cases last : tokens.back? with
      | none =>
          rw [last] at line
          exact .inl ⟨by simpa using last, line⟩
      | some token =>
          rw [last] at line
          exact .inr ⟨token, Array.mem_of_back? last, line.symm⟩

/-- A token that a message quotes stands on the line of the message. -/
theorem Diagnostic.Names.exists_near {offset : Nat} {text : Bytes}
    (names : diagnostic.Names tokens offset)
    (near : diagnostic.cause.message = utf8 "syntax error near " ++ text) :
    ∃ token ∈ tokens, token.source = text ∧ (token.line : Int) = diagnostic.line := by
  have line := names.line
  have message := names.message.symm.trans near
  cases here : tokens[offset]? with
  | none =>
      rw [here] at message
      have ends : utf8 "syntax error near " <+: utf8 "unexpected end of input" :=
        ⟨text, message.symm⟩
      exact absurd ends (by decide +kernel)
  | some token =>
      rw [here] at message line
      exact ⟨token, Array.mem_of_getElem? here, List.append_cancel_left message, line.symm⟩

/-- The phase in which a source is rejected. -/
inductive Rejection (source : Bytes) (diagnostic : Diagnostic) : Prop where
  | lexical (rejected : tokenize source = .error diagnostic)
  | syntactic {tokens : Array Token} {offset : Nat} (read : tokenize source = .ok tokens)
      (names : diagnostic.Names (withoutComments tokens) offset)
  | codegen {tokens : Array Token} (read : tokenize source = .ok tokens)
      (points : diagnostic.PointsInto (withoutComments tokens))

/-- A source is rejected in one of three phases, each with what is known then. -/
theorem rejection_of_compileClass (rejected : compileClass source = .error diagnostic) :
    Rejection source diagnostic := by
  rw [compileClass, readClass] at rejected
  cases read : tokenize source with
  | error other =>
      rw [read] at rejected
      cases rejected
      exact .lexical read
  | ok tokens =>
      rw [read] at rejected
      cases parsed : parseClass (withoutComments tokens) with
      | error other =>
          simp only [bind, Except.bind, parsed] at rejected
          cases rejected
          rcases parseClass_error_cases parsed with ⟨_, -, names⟩ | ⟨_, _, -, -, names⟩
          · exact .syntactic read names
          · exact .syntactic read names
      | ok tree =>
          simp only [bind, Except.bind, parsed] at rejected
          obtain ⟨rest, found, -⟩ := parseClass_eq_ok_iff_finds.mp parsed
          exact .codegen read
            (pointsInto_of_lowerClass (Production.yields_classTree found) rejected)

theorem OnLine.of_withoutComments {line : Int} (onLine : OnLine (withoutComments tokens) line) :
    OnLine tokens line := by
  obtain ⟨token, member, same⟩ := onLine
  exact ⟨token, (Array.mem_filter.mp member).1, same⟩

theorem OnLine.ne_empty {line : Int} (onLine : OnLine tokens line) : tokens ≠ #[] := by
  obtain ⟨token, member, -⟩ := onLine
  exact Array.ne_empty_of_mem member

/-- Nothing is left if there were only comments. -/
theorem withoutComments_eq_empty_iff :
    withoutComments tokens = #[] ↔ ∀ token ∈ tokens, token.kind = .comment := by
  simp [withoutComments, Token.isCode]

/-- The line is 0 and there is no code, or it is a line of the source and there is code. -/
theorem Rejection.line_cases (rejection : Rejection source diagnostic) :
    (diagnostic.line = 0 ∧ diagnostic.cause.phase = .syntactic ∧
      ∃ tokens, tokenize source = .ok tokens ∧ withoutComments tokens = #[]) ∨
    (source.HasLine diagnostic.line ∧
      ∀ tokens, tokenize source = .ok tokens → withoutComments tokens ≠ #[]) := by
  cases rejection with
  | lexical rejected =>
      refine .inr ⟨(hasLine_of_lexical rejected).1, fun tokens read => ?_⟩
      rw [rejected] at read
      cases read
  | @syntactic tokens offset read names =>
      rcases names.line_cases with ⟨empty, zero⟩ | onLine
      · exact .inl ⟨zero, names.phase, tokens, read, empty⟩
      · refine .inr ⟨hasLine_of_tokenize read onLine.of_withoutComments, fun others again => ?_⟩
        obtain rfl := Except.ok.inj (read.symm.trans again)
        exact onLine.ne_empty
  | codegen read points =>
      refine .inr ⟨hasLine_of_tokenize read points.line.of_withoutComments,
        fun others again => ?_⟩
      obtain rfl := Except.ok.inj (read.symm.trans again)
      exact points.line.ne_empty

theorem Rejection.names (rejection : Rejection source diagnostic)
    (phase : diagnostic.cause.phase = .syntactic) :
    ∃ tokens offset, tokenize source = .ok tokens ∧
      diagnostic.Names (withoutComments tokens) offset := by
  cases rejection with
  | lexical rejected => cases phase.symm.trans (hasLine_of_lexical rejected).2
  | syntactic read names => exact ⟨_, _, read, names⟩
  | codegen _ points => cases phase.symm.trans points.phase

theorem Rejection.pointsInto (rejection : Rejection source diagnostic)
    (phase : diagnostic.cause.phase = .codegen) :
    ∃ tokens, tokenize source = .ok tokens ∧ diagnostic.PointsInto (withoutComments tokens) := by
  cases rejection with
  | lexical rejected => cases phase.symm.trans (hasLine_of_lexical rejected).2
  | syntactic _ names => cases phase.symm.trans names.phase
  | codegen read points => exact ⟨_, read, points⟩

end Rejection

/-- A diagnostic points into the source. Its line is one of the source, but for a source without
any token but comments, where it is 0. An unknown name stands on that line, and a token that is
named as out of place too. -/
theorem diagnostic_points_into_source {source : Bytes} {diagnostic : Diagnostic}
    (rejected : compileClass source = .error diagnostic) :
    (diagnostic.line = 0 ↔
      ∃ tokens, tokenize source = .ok tokens ∧ ∀ token ∈ tokens, token.kind = .comment) ∧
    (diagnostic.line = 0 → diagnostic.cause.phase = .syntactic) ∧
    (diagnostic.line ≠ 0 →
      1 ≤ diagnostic.line ∧ diagnostic.line ≤ 1 + Bytes.lineBreaks source) ∧
    (∀ name, diagnostic.cause.message = utf8 "undeclared identifier " ++ name →
      ∃ tokens, tokenize source = .ok tokens ∧ ∃ token ∈ tokens,
        token.kind = .identifier ∧ token.content = name ∧
        (token.line : Int) = diagnostic.line) ∧
    (∀ text, diagnostic.cause.message = utf8 "syntax error near " ++ text →
      ∃ tokens, tokenize source = .ok tokens ∧ ∃ token ∈ tokens,
        token.source = text ∧ (token.line : Int) = diagnostic.line) := by
  have rejection := rejection_of_compileClass rejected
  simp only [← withoutComments_eq_empty_iff]
  refine ⟨?_, ?_, ?_, fun name unknown => ?_, fun text near => ?_⟩
  · rcases rejection.line_cases with ⟨zero, -, noCode⟩ | ⟨hasLine, code⟩
    · exact iff_of_true zero noCode
    · refine iff_of_false (hasLine.ne_zero) fun noCode => ?_
      obtain ⟨tokens, read, empty⟩ := noCode
      exact code tokens read empty
  · intro zero
    rcases rejection.line_cases with ⟨-, phase, -⟩ | ⟨hasLine, -⟩
    · exact phase
    · exact absurd zero hasLine.ne_zero
  · intro nonzero
    rcases rejection.line_cases with ⟨zero, -⟩ | ⟨hasLine, -⟩
    · exact absurd zero nonzero
    · exact hasLine
  · have cause := Cause.eq_undeclared unknown
    obtain ⟨tokens, read, points⟩ := rejection.pointsInto (by rw [cause]; rfl)
    obtain ⟨token, member, found⟩ := points.named name cause
    exact ⟨tokens, read, token, (Array.mem_filter.mp member).1, found⟩
  · obtain ⟨tokens, offset, read, names⟩ := rejection.names (by rw [Cause.eq_near near]; rfl)
    obtain ⟨token, member, found⟩ := names.exists_near near
    exact ⟨tokens, read, token, (Array.mem_filter.mp member).1, found⟩

/-- A name is unknown on the third line, behind a comment that names it too. -/
def unknownOnThirdLine : Bytes :=
  utf8 "class A\x7b // x\nfunction int f()\x7b\nreturn \"x\"+x;\x7d\x7d"

/-- An unknown name on the third line of a source. -/
theorem unknown_points_into_source :
    compileClass unknownOnThirdLine = .error ⟨.codegen (.undeclared (utf8 "x")), 3⟩ ∧
    (3 : Int) ≤ 1 + Bytes.lineBreaks unknownOnThirdLine ∧
    ∃ tokens, tokenize unknownOnThirdLine = .ok tokens ∧ ∃ token ∈ tokens,
      token.kind = .identifier ∧ token.content = utf8 "x" ∧ (token.line : Int) = 3 := by
  have rejected : compileClass unknownOnThirdLine =
      .error ⟨.codegen (.undeclared (utf8 "x")), 3⟩ := by
    decide +kernel
  obtain ⟨-, -, inside, named, -⟩ := diagnostic_points_into_source rejected
  exact ⟨rejected, (inside (by decide)).2, named (utf8 "x") rfl⟩

end Jack
