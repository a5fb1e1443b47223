import Jack.Proofs.Grammar.Locality
import Jack.Proofs.Grammar.Viability

/-!
Contract: which token a syntax error names.

Owns: tokens that a class can start with, the first token that offends, and the diagnostic for
tokens that are no class.

Does not own: the message of a diagnostic.

A class that is read up to a token and no further has looked at that token, and what was read
in front of it can be completed. So the furthest token that was looked at is the first that
offends, but for two cases. In `do x;` the rule for a call looks behind the name and tells of
the name. In `let x = if (y)` the rule for a variable tells of the parenthesis, though what
stands in front of that is no name.
-/

set_option autoImplicit false

namespace Jack

open Rule

/-! ## Tokens that a class can start with -/

/-- The tokens of a class. -/
def ClassText (tokens : List Token) : Prop :=
  Lexed tokens.toArray ∧ ∃ tree : ClassTree, tree.wellFormed = true ∧
    List.Forall₂ Piece.Matches tree.spelling tokens

/-- Some class starts with these tokens. -/
def Viable (front : List Token) : Prop :=
  ∃ more, ClassText (front ++ more)

/-- At `offset` stands the first token that no class goes on with. It is the end if there is
none. -/
structure FirstOffending (tokens : Array Token) (offset : Nat) : Prop where
  inside : offset ≤ tokens.size
  viable : ∀ n ≤ offset, Viable (tokens.toList.take n)
  offends : offset < tokens.size → ¬ Viable (tokens.toList.take (offset + 1))

def elementTokens : List Token :=
  [⟨.identifier, utf8 "x", 0⟩, ⟨.symbol, utf8 "[", 0⟩]

/-- Behind the tokens in front of `offset`, some class goes on with an array element. -/
def ElementExpected (tokens : Array Token) (offset : Nat) : Prop :=
  Viable (tokens.toList.take offset ++ elementTokens)

/-- The token to blame where the one at `offset` is the first that offends. -/
inductive Blamed (tokens : Array Token) (offset : Nat) : Nat → Prop where
  | offending : Blamed tokens offset offset
  /-- The name that is called, in front of the token that offends. -/
  | callee {before : Nat} (behind : offset = before + 1) (called : CalleeAt tokens before) :
      Blamed tokens offset before
  /-- Where an element may start, the symbol behind the token that offends. -/
  | suffix (expected : ElementExpected tokens offset) (behind : SuffixAt tokens (offset + 1)) :
      Blamed tokens offset (offset + 1)

/-- The diagnostic names the token at `offset`, or tells of the end behind the last token. -/
structure Diagnostic.Names (diagnostic : Diagnostic) (tokens : Array Token) (offset : Nat) :
    Prop where
  phase : diagnostic.cause.phase = .syntactic
  message : diagnostic.cause.message = (tokens[offset]?).elim (utf8 "unexpected end of input")
    fun token => utf8 "syntax error near " ++ token.source
  line : diagnostic.line = ((tokens[offset]?.or tokens.back?).elim 0 Token.line : Nat)

section Texts

variable {tokens : Array Token}

/-- The message shows the token at the offset, or the end of the tokens. -/
theorem names_syntacticDiagnostic (tokens : Array Token) (offset : Nat) :
    (syntacticDiagnostic (.ofTokens tokens) offset).Names tokens offset := by
  unfold syntacticDiagnostic
  simp only [Cursor.ofTokens]
  cases here : tokens[offset]? with
  | some token => exact ⟨rfl, by rw [here]; rfl, by rw [here]; rfl⟩
  | none =>
      have outside : tokens.size ≤ offset := by simpa using here
      have last : min (offset : Int).toNat (tokens.size - 1) = tokens.size - 1 := by
        rw [Int.toNat_natCast]
        omega
      refine ⟨rfl, by rw [here]; rfl, ?_⟩
      simp only [Cursor.lineAt, last, Array.back?, here, Option.none_or]

/-- What starts the start of a class starts a class. -/
theorem Viable.of_append {front back : List Token} (viable : Viable (front ++ back)) :
    Viable front := by
  obtain ⟨more, text⟩ := viable
  exact ⟨back ++ more, by rwa [← List.append_assoc]⟩

theorem Viable.take {front : List Token} (viable : Viable front) (n : Nat) :
    Viable (front.take n) :=
  Viable.of_append (by rwa [List.take_append_drop])

/-- To be the first offending token, it is enough that the tokens in front of it can be completed
and that with it they can not. All shorter starts follow. -/
theorem firstOffending_of_viable {offset : Nat} (inside : offset ≤ tokens.size)
    (viable : Viable (tokens.toList.take offset))
    (offends : offset < tokens.size → ¬ Viable (tokens.toList.take (offset + 1))) :
    FirstOffending tokens offset where
  inside := inside
  viable n below := by
    have shorter := viable.take n
    rwa [List.take_take, Nat.min_eq_left below] at shorter
  offends := offends

theorem lexed_toArray_iff {tokens : List Token} :
    Lexed tokens.toArray ↔ ∀ token ∈ tokens,
      (∃ after, Lexeme token.kind token.content after) ∧ token.kind ≠ .comment := by
  constructor
  · intro lexed token member
    exact ⟨lexed.lexeme token (by simpa using member), lexed.code token (by simpa using member)⟩
  · intro each
    exact ⟨fun token member => (each token (by simpa using member)).1,
      fun token member => (each token (by simpa using member)).2⟩

/-- Pieces that can be written are the pieces of some tokens. -/
theorem Spelling.Writable.exists_tokens {spelling : Spelling}
    (writable : Spelling.Writable spelling) :
    ∃ tokens, List.Forall₂ Piece.Matches spelling tokens ∧ Lexed tokens.toArray := by
  induction spelling with
  | nil => exact ⟨[], .nil, lexed_toArray_iff.mpr (by simp)⟩
  | cons piece rest inductionHypothesis =>
      obtain ⟨⟨token, after, matched, code, lexeme⟩, others⟩ := cons_iff.mp writable
      obtain ⟨more, restMatched, lexed⟩ := inductionHypothesis others
      refine ⟨token :: more, .cons matched restMatched, lexed_toArray_iff.mpr ?_⟩
      exact List.forall_mem_cons.mpr ⟨⟨⟨after, lexeme⟩, code⟩, lexed_toArray_iff.mp lexed⟩

theorem Lexed.append {front back : List Token} (first : Lexed front.toArray)
    (second : Lexed back.toArray) : Lexed (front ++ back).toArray :=
  lexed_toArray_iff.mpr (List.forall_mem_append.mpr
    ⟨lexed_toArray_iff.mp first, lexed_toArray_iff.mp second⟩)

theorem Lexed.take (lexed : Lexed tokens) (n : Nat) : Lexed (tokens.toList.take n).toArray := by
  refine lexed_toArray_iff.mpr fun token member => ?_
  have inside : token ∈ tokens := by simpa using List.mem_of_mem_take member
  exact ⟨lexed.lexeme token inside, lexed.code token inside⟩

theorem Spans.le_size {spelling : Spelling} {pos rest : Nat}
    (spans : Spans tokens spelling pos rest) (inside : pos ≤ tokens.size) :
    rest ≤ tokens.size := by
  cases spelling with
  | nil =>
      obtain rfl : rest = pos := spans
      exact inside
  | cons => exact (spans.moves (List.cons_ne_nil _ _)).2

theorem SuffixAt.lt_size {pos : Nat} (suffix : SuffixAt tokens pos) : pos < tokens.size := by
  obtain ⟨_, here, _⟩ := suffix
  exact (Array.getElem?_eq_some_iff.mp here).1

/-- A suffix of a name is a symbol, and the name of a callee is not. -/
theorem SuffixAt.not_calleeAt {pos : Nat} (suffix : SuffixAt tokens pos) :
    ¬ CalleeAt tokens pos := by
  obtain ⟨token, here, isSuffix⟩ := suffix
  rintro ⟨_, _, _, _, _, name, nameHere, kind⟩
  obtain rfl : token = name := Option.some.inj (here.symm.trans nameHere)
  simp [Production.isSymbolIn, kind] at isSuffix

/-- A spelling at the start matches the tokens that it spans. -/
theorem forall₂_take_of_spans {spelling : Spelling} {pos rest : Nat}
    (spans : Spans tokens spelling pos rest) :
    List.Forall₂ Piece.Matches spelling ((tokens.toList.drop pos).take (rest - pos)) := by
  induction spelling generalizing pos with
  | nil =>
      obtain rfl : rest = pos := spans
      simp
  | cons piece more inductionHypothesis =>
      have moves := spans.moves (List.cons_ne_nil _ _)
      obtain ⟨⟨token, here, matched⟩, spansMore⟩ := spans
      obtain ⟨within, rfl⟩ := Array.getElem?_eq_some_iff.mp here
      have parts : tokens.toList.drop pos = tokens[pos] :: tokens.toList.drop (pos + 1) :=
        List.drop_eq_getElem_cons within
      have length : rest - pos = rest - (pos + 1) + 1 := by omega
      rw [parts, length, List.take_succ_cons]
      exact .cons matched (inductionHypothesis spansMore)

/-- The tokens read and the tokens made up to complete them are the text of a class. -/
theorem classText_of_spans (lexed : Lexed tokens) {front back : Spelling} {rest : Nat}
    {more : List Token} {tree : ClassTree} (formed : tree.wellFormed = true)
    (spelled : tree.spelling = front ++ back) (spans : Spans tokens front 0 rest)
    (matched : List.Forall₂ Piece.Matches back more) (lexedMore : Lexed more.toArray) :
    ClassText (tokens.toList.take rest ++ more) := by
  refine ⟨(lexed.take rest).append lexedMore, tree, formed, ?_⟩
  rw [spelled]
  exact List.rel_append (by simpa using forall₂_take_of_spans spans) matched

/-- Tokens that are read, and whatever completes them. -/
theorem viable_of_spans (lexed : Lexed tokens) {front back : Spelling} {rest : Nat}
    (member : front ++ back ∈ Phrase.classTree.language) (writable : Spelling.Writable back)
    (spans : Spans tokens front 0 rest) : Viable (tokens.toList.take rest) := by
  obtain ⟨tree, formed, spelled⟩ := member
  obtain ⟨more, matched, lexedMore⟩ := writable.exists_tokens
  exact ⟨more, classText_of_spans lexed formed spelled spans matched lexedMore⟩

theorem lexed_elementTokens : Lexed elementTokens.toArray := by
  refine lexed_toArray_iff.mpr (List.forall_mem_cons.mpr ⟨⟨⟨[], ?_⟩, by simp⟩,
    List.forall_mem_cons.mpr ⟨⟨⟨[], .symbol rfl (by simp)⟩, by simp⟩, by simp⟩⟩)
  exact .identifier ⟨rfl, by simp, by simp⟩ rfl

/-- If a class can go on with an element behind the tokens read, an element is expected there. -/
theorem elementExpected_of_spans (lexed : Lexed tokens) {front back : Spelling} {rest : Nat}
    (member : front ++ elementStart ++ back ∈ Phrase.classTree.language)
    (writable : Spelling.Writable back) (spans : Spans tokens front 0 rest) :
    ElementExpected tokens rest := by
  obtain ⟨tree, formed, spelled⟩ := member
  obtain ⟨more, matched, lexedMore⟩ := writable.exists_tokens
  have start : List.Forall₂ Piece.Matches elementStart elementTokens :=
    .cons ⟨rfl, rfl⟩ (.cons ⟨rfl, rfl⟩ .nil)
  refine ⟨more, ?_⟩
  rw [List.append_assoc] at spelled ⊢
  exact classText_of_spans lexed formed spelled spans (List.rel_append start matched)
    (lexed_elementTokens.append lexedMore)

/-- Tokens that are accepted start a class: nothing needs to be added. -/
theorem viable_of_parseClass (lexed : Lexed tokens)
    (accepted : (parseClass tokens).toOption.isSome = true) : Viable tokens.toList := by
  cases parsed : parseClass tokens with
  | error diagnostic => simp [parsed, Except.toOption] at accepted
  | ok tree =>
      obtain ⟨formed, spans⟩ := (parse_written_iff lexed tree).mp ⟨tree, parsed, rfl⟩
      refine ⟨[], ?_⟩
      rw [List.append_nil]
      exact ⟨lexed, tree, formed, (spans_to_end_iff (Nat.zero_le _)).mp spans⟩

/-- The tokens of a class are found, all of them. -/
theorem ClassText.finds {text : List Token} (isText : ClassText text) :
    ∃ tree, Finds Production.classTree text.toArray 0 tree text.length := by
  obtain ⟨lexed, tree, formed, matched⟩ := isText
  have spans : Spans text.toArray tree.spelling 0 text.toArray.size :=
    (spans_to_end_iff (Nat.zero_le _)).mpr (by simpa using matched)
  obtain ⟨node, found, _⟩ := complete_classTree lexed (Nat.zero_le 0)
    (show Phrase.classTree.Written text.toArray tree 0 text.toArray.size from ⟨formed, spans⟩)
    fun _ _ => rfl
  exact ⟨node, found⟩

theorem getElem?_take_append {n pos : Nat} (below : pos < n) (inside : n ≤ tokens.size)
    (more : List Token) : (tokens.toList.take n ++ more).toArray[pos]? = tokens[pos]? := by
  rw [List.getElem?_toArray, List.getElem?_append_left (by simp; omega),
    List.getElem?_take_of_lt below, Array.getElem?_toList]

theorem lookAt_take_append {n pos : Nat} (below : pos < n) (inside : n ≤ tokens.size)
    (more : List Token) :
    lookAt tokens pos = lookAt (tokens.toList.take n ++ more).toArray pos := by
  unfold lookAt
  rw [getElem?_take_append below inside]

theorem Spans.take_append {spelling : Spelling} {n pos rest : Nat}
    (spans : Spans tokens spelling pos rest) (below : rest ≤ n) (inside : n ≤ tokens.size)
    (more : List Token) : Spans (tokens.toList.take n ++ more).toArray spelling pos rest := by
  induction spelling generalizing pos with
  | nil => exact spans
  | cons piece others inductionHypothesis =>
      have moves := spans.moves (List.cons_ne_nil _ _)
      obtain ⟨⟨token, here, matched⟩, spansOthers⟩ := spans
      refine ⟨⟨token, ?_, matched⟩, inductionHypothesis spansOthers⟩
      rwa [getElem?_take_append (by omega) inside]

/-- Where the class is missed, no class goes on with the furthest token that was looked at. If
that is a name that is called, none goes on with the token behind. -/
theorem not_viable_of_missed {furthest n : Nat}
    (missed : Production.classTree ⟨tokens, 0⟩ = .missed furthest) (below : furthest < n)
    (inside : n ≤ tokens.size) (callee : CalleeAt tokens furthest → furthest + 1 < n) :
    ¬ Viable (tokens.toList.take n) := by
  rintro ⟨more, isText⟩
  have alike : AlikeUpTo furthest tokens (tokens.toList.take n ++ more).toArray :=
    ⟨fun pos here => lookAt_take_append (by omega) inside more,
      fun isCallee => lookAt_take_append (callee isCallee) inside more⟩
  have outcome := Production.alike_classTree alike 0 (Nat.zero_le _)
  obtain ⟨tree, reached, found⟩ := isText.finds
  unfold AlikeAt at outcome
  rw [missed, found] at outcome
  cases outcome with
  | beyond further => exact absurd further (Nat.lt_irrefl _)

/-- Where a class is found, none goes on behind it. -/
theorem not_viable_of_found {tree : ClassTree} {rest : Nat} (lexed : Lexed tokens)
    (found : Finds Production.classTree tokens 0 tree rest) (inside : rest < tokens.size) :
    ¬ Viable (tokens.toList.take (rest + 1)) := by
  rintro ⟨more, isText⟩
  obtain ⟨formed, spans⟩ := sound_classTree lexed found
  have spansToo := spans.take_append (Nat.le_succ rest) inside more
  obtain ⟨whole, foundWhole⟩ := isText.finds
  obtain ⟨again, foundAgain, _⟩ := complete_classTree isText.1 (Nat.zero_le 0)
    (show Phrase.classTree.Written _ tree 0 rest from ⟨formed, spansToo⟩) fun _ _ => rfl
  have ends := (foundAgain.unique foundWhole).2
  rw [List.length_append, List.length_take, Array.length_toList] at ends
  omega

end Texts

/-! ## The token that is named -/

theorem eq_error_of_map_eq_error {Fault Value Other : Type} {result : Except Fault Value}
    {build : Value → Other} {fault : Fault} (failed : result.map build = .error fault) :
    result = .error fault := by
  cases result with
  | error fault => simpa [Except.map] using failed
  | ok value => simp [Except.map] at failed

/-- A parse fails in one of two ways: the rule for a class misses, or it finds a class with tokens
left behind it. -/
theorem parseClass_error_cases {tokens : Array Token} {diagnostic : Diagnostic}
    (rejected : parseClass tokens = .error diagnostic) :
    (∃ furthest, Production.classTree ⟨tokens, 0⟩ = .missed furthest ∧
      diagnostic.Names tokens furthest) ∨
    ∃ tree rest, Finds Production.classTree tokens 0 tree rest ∧ rest < tokens.size ∧
      diagnostic.Names tokens rest := by
  unfold parseClass at rejected
  cases outcome : Production.classTree (.ofTokens tokens) with
  | missed furthest =>
      simp only [outcome, Except.error.injEq] at rejected
      exact .inl ⟨furthest, outcome, rejected ▸ names_syntacticDiagnostic tokens furthest⟩
  | matched tree rest furthest =>
      simp only [outcome] at rejected
      by_cases inside : rest < tokens.size
      · rw [if_pos inside, Except.error.injEq] at rejected
        exact .inr ⟨tree, rest, ⟨furthest, outcome⟩, inside,
          rejected ▸ names_syntacticDiagnostic tokens rest⟩
      · rw [if_neg inside] at rejected
        exact nomatch rejected

section Blaming

variable {tokens : Array Token} {furthest : Nat}

/-- Tokens were read up to the furthest position. -/
theorem blamed_of_viable (missed : Production.classTree ⟨tokens, 0⟩ = .missed furthest)
    (inside : furthest ≤ tokens.size) (viable : Viable (tokens.toList.take furthest)) :
    ∃ offset, FirstOffending tokens offset ∧ Blamed tokens offset furthest := by
  by_cases offends : furthest < tokens.size → ¬ Viable (tokens.toList.take (furthest + 1))
  · exact ⟨furthest, firstOffending_of_viable inside viable offends, .offending⟩
  · obtain ⟨within, viableNext⟩ : furthest < tokens.size ∧
        Viable (tokens.toList.take (furthest + 1)) := by simpa using offends
    -- Only a name that is called is looked behind without being left.
    have callee : CalleeAt tokens furthest := by
      by_contra other
      exact not_viable_of_missed missed (Nat.lt_succ_self _) within
        (fun isCallee => absurd isCallee other) viableNext
    refine ⟨furthest + 1, firstOffending_of_viable within viableNext fun below => ?_,
      .callee rfl callee⟩
    exact not_viable_of_missed missed (by omega) below fun _ => by omega

/-- The symbol behind a token was looked at, where an element could start. -/
theorem blamed_of_expected {last : Nat}
    (missed : Production.classTree ⟨tokens, 0⟩ = .missed (last + 1))
    (expected : ElementExpected tokens last) (suffix : SuffixAt tokens (last + 1)) :
    ∃ offset, FirstOffending tokens offset ∧ Blamed tokens offset (last + 1) := by
  have within : last + 1 < tokens.size := suffix.lt_size
  have offends : ¬ Viable (tokens.toList.take (last + 1 + 1)) :=
    not_viable_of_missed missed (Nat.lt_succ_self _) within
      fun callee => absurd callee suffix.not_calleeAt
  by_cases viable : Viable (tokens.toList.take (last + 1))
  · exact ⟨last + 1, firstOffending_of_viable within.le viable fun _ => offends, .offending⟩
  · exact ⟨last, firstOffending_of_viable (by omega) expected.of_append fun _ => viable,
      .suffix expected suffix⟩

/-- A token behind a whole class offends, since no class goes on behind its closing brace. -/
theorem firstOffending_of_found (lexed : Lexed tokens) {tree : ClassTree} {rest : Nat}
    (found : Finds Production.classTree tokens 0 tree rest) (inside : rest < tokens.size) :
    FirstOffending tokens rest := by
  obtain ⟨formed, spans⟩ := sound_classTree lexed found
  refine firstOffending_of_viable inside.le ?_ fun _ => not_viable_of_found lexed found inside
  exact viable_of_spans lexed ⟨tree, formed, (List.append_nil _).symm⟩ .nil spans

end Blaming

/-- A syntax error names the first token that offends, or tells of the end if none does. There
are two exceptions. Where a name is called, it may be named in place of the token behind it.
Where an array element could start, and the token behind the one that offends would make a name
more than a variable, that one may be named. -/
theorem syntax_error_names_first_offending {source : Bytes} {tokens : Array Token}
    {diagnostic : Diagnostic} (read : tokenize source = .ok tokens)
    (rejected : parseClass (withoutComments tokens) = .error diagnostic) :
    ∃ offset position, FirstOffending (withoutComments tokens) offset ∧
      Blamed (withoutComments tokens) offset position ∧
      diagnostic.Names (withoutComments tokens) position := by
  have lexed := lexed_of_tokenize read
  rcases parseClass_error_cases rejected with ⟨furthest, missed, named⟩ |
    ⟨tree, rest, found, inside, named⟩
  · obtain ⟨front, back, member, writable, probe⟩ := (tracks_classTree lexed).reaches 0
    rw [missed, Outcome.furthest] at probe
    cases probe with
    | read spans =>
        obtain ⟨offset, first, blamed⟩ := blamed_of_viable missed (spans.le_size (Nat.zero_le _))
          (viable_of_spans lexed member writable spans)
        exact ⟨offset, furthest, first, blamed, named⟩
    | ahead spans suffix =>
        obtain ⟨offset, first, blamed⟩ := blamed_of_expected missed
          (elementExpected_of_spans lexed member writable spans) suffix
        exact ⟨offset, _, first, blamed, named⟩
  · exact ⟨rest, rest, firstOffending_of_found lexed found inside, .offending, named⟩

/-- A condition where a value is expected. -/
def misplacedSource : Bytes :=
  utf8 "class A\x7bfunction void f()\x7blet x=if(y)\x7breturn;\x7d\x7d\x7d"

/-- A keyword stands where a value has to start. -/
theorem misplaced_names_first_offending :
    ∃ tokens diagnostic, tokenize misplacedSource = .ok tokens ∧
      parseClass (withoutComments tokens) = .error diagnostic ∧
      ∃ offset position, FirstOffending (withoutComments tokens) offset ∧
        Blamed (withoutComments tokens) offset position ∧
        diagnostic.Names (withoutComments tokens) position := by
  have read : tokenize misplacedSource =
      .ok ((tokenize misplacedSource).toOption.getD #[]) := by decide +kernel
  have rejected := eq_error_of_map_eq_error (show (parseClass (withoutComments
    ((tokenize misplacedSource).toOption.getD #[]))).map (fun _ => ()) =
      .error ⟨.syntactic (.near (utf8 "(")), 1⟩ by decide +kernel)
  exact ⟨_, _, read, rejected, syntax_error_names_first_offending read rejected⟩

/-- A name is called, without arguments. -/
def uncalledSource : Bytes :=
  utf8 "class A\x7bfunction void f()\x7bdo x;\x7d\x7d"

/-- The same, with arguments. -/
def calledSource : Bytes :=
  utf8 "class A\x7bfunction void f()\x7bdo x();\x7d\x7d"

/-- In `do x;` the name is blamed, though a class can go on behind it. -/
theorem uncalled_names_no_first_offending :
    ∃ tokens diagnostic, tokenize uncalledSource = .ok tokens ∧
      parseClass (withoutComments tokens) = .error diagnostic ∧
      ¬ ∃ offset, FirstOffending (withoutComments tokens) offset ∧
        diagnostic.Names (withoutComments tokens) offset := by
  have read : tokenize uncalledSource =
      .ok ((tokenize uncalledSource).toOption.getD #[]) := by decide +kernel
  have called : tokenize calledSource =
      .ok ((tokenize calledSource).toOption.getD #[]) := by decide +kernel
  have rejected := eq_error_of_map_eq_error (show (parseClass (withoutComments
    ((tokenize uncalledSource).toOption.getD #[]))).map (fun _ => ()) =
      .error ⟨.syntactic (.near (utf8 "x")), 1⟩ by decide +kernel)
  have accepted : (parseClass (withoutComments
      ((tokenize calledSource).toOption.getD #[]))).toOption.isSome = true := by decide +kernel
  have viable := (viable_of_parseClass (lexed_of_tokenize called) accepted).take 11
  refine ⟨_, _, read, rejected, ?_⟩
  rintro ⟨offset, first, named⟩
  have size : (withoutComments ((tokenize uncalledSource).toOption.getD #[])).size = 14 := by
    decide +kernel
  have callee : ∀ offset < 15, (Cause.syntactic (.near (utf8 "x"))).message =
      ((withoutComments ((tokenize uncalledSource).toOption.getD #[]))[offset]?).elim
        (utf8 "unexpected end of input") (fun token => utf8 "syntax error near " ++ token.source) →
      offset = 10 := by decide +kernel
  have same : (withoutComments ((tokenize calledSource).toOption.getD #[])).toList.take 11 =
      (withoutComments ((tokenize uncalledSource).toOption.getD #[])).toList.take 11 := by
    decide +kernel
  obtain rfl := callee offset (by have := first.inside; omega) named.message
  exact first.offends (by omega) (same ▸ viable)

end Jack
