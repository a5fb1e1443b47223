import Jack.Proofs.Grammar.Locality
import Jack.Proofs.Lowering.Lines

/-!
Contract: layout, comments and lines have no influence on what a source compiles to.

Owns: reading and compiling two sources with the same words.

Does not own: which sources have the same words.
-/

set_option autoImplicit false

namespace Jack

section Reading

variable {one other : Array Token}

theorem lookAt_eq_getElem?_map (tokens : Array Token) (pos : Nat) :
    lookAt tokens pos = (tokens.map Token.look)[pos]? := by
  rw [lookAt, Array.getElem?_map]

/-- The same words are alike up to every bound. -/
theorem alikeUpTo_of_map_look_eq (same : one.map Token.look = other.map Token.look)
    (bound : Nat) : AlikeUpTo bound one other := by
  have everywhere (pos : Nat) : lookAt one pos = lookAt other pos := by
    rw [lookAt_eq_getElem?_map, lookAt_eq_getElem?_map, same]
  exact ⟨fun pos _ => everywhere pos, fun _ => everywhere (bound + 1)⟩

/-- The whole outcome is the same, the furthest position included. -/
theorem classTree_cases_of_map_look_eq (same : one.map Token.look = other.map Token.look) :
    (∃ furthest, Production.classTree ⟨one, 0⟩ = .missed furthest ∧
      Production.classTree ⟨other, 0⟩ = .missed furthest) ∨
    ∃ tree otherTree rest furthest,
      Production.classTree ⟨one, 0⟩ = .matched tree rest furthest ∧
      Production.classTree ⟨other, 0⟩ = .matched otherTree rest furthest ∧
      tree.withoutLines = otherTree.withoutLines := by
  have alike := Production.alike_classTree
    (alikeUpTo_of_map_look_eq same ((Production.classTree ⟨one, 0⟩).furthest + 1)) 0 (Nat.zero_le _)
  unfold Rule.AlikeAt at alike
  generalize Production.classTree ⟨one, 0⟩ = outcome at alike ⊢
  generalize Production.classTree ⟨other, 0⟩ = otherOutcome at alike ⊢
  generalize bounded : outcome.furthest + 1 = bound at alike
  cases alike with
  | beyond further => omega
  | missed reach =>
      obtain rfl := reach.2 (by rw [← bounded]; exact Nat.lt_succ_self _)
      exact .inl ⟨_, rfl, rfl⟩
  | matched sameTree _ reach =>
      obtain rfl := reach.2 (by rw [← bounded]; exact Nat.lt_succ_self _)
      exact .inr ⟨_, _, _, _, rfl, rfl, sameTree⟩

/-- The cause of a syntax error shows the text of a token, and not its line. -/
theorem cause_syntacticDiagnostic (tokens : Array Token) (position : Nat) :
    (syntacticDiagnostic (.ofTokens tokens) position).cause =
      .syntactic ((lookAt tokens position).elim .endOfInput fun look =>
        .near (Token.source ⟨look.1, look.2, 0⟩)) := by
  unfold syntacticDiagnostic lookAt
  simp only [Cursor.ofTokens]
  cases tokens[position]? with
  | none => rfl
  | some token => rfl

/-- Tokens with the same looks are the same tree, lines aside, or rejected for the same
cause. -/
theorem parseClass_cases_of_map_look_eq (same : one.map Token.look = other.map Token.look) :
    (∃ tree otherTree, parseClass one = .ok tree ∧ parseClass other = .ok otherTree ∧
      tree.withoutLines = otherTree.withoutLines) ∨
    ∃ diagnostic otherDiagnostic, parseClass one = .error diagnostic ∧
      parseClass other = .error otherDiagnostic ∧ diagnostic.cause = otherDiagnostic.cause := by
  have sameSize : one.size = other.size := by
    simpa using congrArg Array.size same
  have sameCause (position : Nat) : (syntacticDiagnostic (.ofTokens one) position).cause =
      (syntacticDiagnostic (.ofTokens other) position).cause := by
    rw [cause_syntacticDiagnostic, cause_syntacticDiagnostic, lookAt_eq_getElem?_map,
      lookAt_eq_getElem?_map, same]
  unfold parseClass
  rcases classTree_cases_of_map_look_eq same with ⟨furthest, missed, otherMissed⟩ |
    ⟨tree, otherTree, rest, furthest, found, otherFound, sameTree⟩
  · simp only [Cursor.ofTokens, missed, otherMissed]
    exact .inr ⟨_, _, rfl, rfl, sameCause furthest⟩
  · simp only [Cursor.ofTokens, found, otherFound, sameSize]
    by_cases unread : rest < other.size
    · simp only [if_pos unread]
      exact .inr ⟨_, _, rfl, rfl, sameCause rest⟩
    · simp only [if_neg unread]
      exact .inl ⟨tree, otherTree, rfl, rfl, sameTree⟩

end Reading

/-! ## Compiling -/

/-- Once a source is read into tokens, only they count. -/
theorem compileClass_of_tokenize {source : Bytes} {tokens : Array Token}
    (read : tokenize source = .ok tokens) :
    compileClass source = parseClass (withoutComments tokens) >>= lowerClass := by
  unfold compileClass readClass
  rw [read]
  rfl

/-- Two sources with the same words, whatever their layout, comments and lines, compile to the
same class, or are rejected in the same phase with the same message. -/
theorem compileClass_of_same_words {source otherSource : Bytes}
    {tokens otherTokens : Array Token} (read : tokenize source = .ok tokens)
    (otherRead : tokenize otherSource = .ok otherTokens)
    (same : (withoutComments tokens).map Token.look =
      (withoutComments otherTokens).map Token.look) :
    (∃ compiled, compileClass source = .ok compiled ∧ compileClass otherSource = .ok compiled) ∨
    ∃ diagnostic otherDiagnostic, compileClass source = .error diagnostic ∧
      compileClass otherSource = .error otherDiagnostic ∧
      diagnostic.cause.phase = otherDiagnostic.cause.phase ∧
      diagnostic.cause.message = otherDiagnostic.cause.message := by
  rw [compileClass_of_tokenize read, compileClass_of_tokenize otherRead]
  rcases parseClass_cases_of_map_look_eq same with ⟨tree, otherTree, parsed, otherParsed, alike⟩ |
    ⟨diagnostic, otherDiagnostic, rejected, otherRejected, sameCause⟩
  · rw [parsed, otherParsed]
    change (∃ compiled, lowerClass tree = .ok compiled ∧ lowerClass otherTree = .ok compiled) ∨
      ∃ diagnostic otherDiagnostic, lowerClass tree = .error diagnostic ∧
        lowerClass otherTree = .error otherDiagnostic ∧ _
    have lowered := lowerClass_of_withoutLines_eq alike
    generalize lowerClass tree = result at lowered ⊢
    generalize lowerClass otherTree = otherResult at lowered ⊢
    cases lowered with
    | value compiled => exact .inl ⟨compiled, rfl, rfl⟩
    | fault sameCause => exact .inr ⟨_, _, rfl, rfl, by rw [sameCause], by rw [sameCause]⟩
  · rw [rejected, otherRejected]
    exact .inr ⟨diagnostic, otherDiagnostic, rfl, rfl, by rw [sameCause], by rw [sameCause]⟩

def crampedSource : Bytes :=
  utf8 "class A\x7bfunction int f()\x7breturn x;\x7d\x7d"

/-- The same words on other lines, with a comment between them. -/
def airySource : Bytes :=
  utf8 "class A \x7b\n  function int f() \x7b // none\n    return x;\n  \x7d\n\x7d\n"

/-- The same words with and without comments, on one line and on several. -/
theorem cramped_and_airy_compile_alike :
    ∃ tokens otherTokens, tokenize crampedSource = .ok tokens ∧
      tokenize airySource = .ok otherTokens ∧
      (withoutComments tokens).map Token.look = (withoutComments otherTokens).map Token.look ∧
      ((∃ compiled, compileClass crampedSource = .ok compiled ∧
          compileClass airySource = .ok compiled) ∨
        ∃ diagnostic otherDiagnostic, compileClass crampedSource = .error diagnostic ∧
          compileClass airySource = .error otherDiagnostic ∧
          diagnostic.cause.phase = otherDiagnostic.cause.phase ∧
          diagnostic.cause.message = otherDiagnostic.cause.message) := by
  have read : tokenize crampedSource =
      .ok ((tokenize crampedSource).toOption.getD #[]) := by decide +kernel
  have otherRead : tokenize airySource =
      .ok ((tokenize airySource).toOption.getD #[]) := by decide +kernel
  have same : (withoutComments ((tokenize crampedSource).toOption.getD #[])).map Token.look =
      (withoutComments ((tokenize airySource).toOption.getD #[])).map Token.look := by
    decide +kernel
  exact ⟨_, _, read, otherRead, same, compileClass_of_same_words read otherRead same⟩

end Jack
