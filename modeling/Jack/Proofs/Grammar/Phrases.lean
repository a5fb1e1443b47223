import Jack.Proofs.Grammar.Finds
import Jack.Proofs.Token.Tiling
import Jack.Proofs.Tree.Spelling
import Jack.Tree.Grammar

/-!
Contract: when a rule finds exactly what is written.

Owns: tokens as a source gives them, spellings at positions in them, and what it means
that a rule is sound and complete for a kind of tree; both for a rule that is repeated, that
stands between two symbols, or that refers to itself.

Does not own: the productions.

A rule looks one token ahead at most, and takes what it can. So it is complete only
where the token behind allows it: what is written must not go on.
-/

set_option autoImplicit false

namespace Jack

open Rule

/-! ## Tokens of a source -/

/-- Tokens as a source gives them: each one is a lexeme, and none is a comment. -/
structure Lexed (tokens : Array Token) : Prop where
  lexeme : ∀ token ∈ tokens, ∃ after, Lexeme token.kind token.content after
  code : ∀ token ∈ tokens, token.kind ≠ .comment

/-- The tokens of every source are as the grammar needs them, once its comments are dropped. -/
theorem lexed_of_tokenize {source : Bytes} {tokens : Array Token}
    (read : tokenize source = .ok tokens) : Lexed (withoutComments tokens) := by
  constructor
  · intro token member
    have kept : token ∈ tokens := (Array.mem_filter.mp member).1
    exact (tiled_of_tokenize read).lexeme_of_mem token (Array.mem_toList_iff.mpr kept)
  · intro token member
    simpa [Token.isCode] using (Array.mem_filter.mp member).2

theorem Alphabet.class_of_isKeyword :
    ∀ word ∈ Alphabet.keywords, 2 ≤ word.length ∧
      ∀ byte ∈ word.head?, Alphabet.isDigit byte = false := by
  decide +kernel

def isSymbolText : Bytes → Bool
  | [byte] => Alphabet.isSymbol byte
  | _ => false

namespace Lexed

variable {tokens : Array Token} {pos rest : Nat} {token : Token}

theorem isIdentifier (lexed : Lexed tokens) (here : tokens[pos]? = some token)
    (kind : token.kind = .identifier) : isIdentifier token.content = true := by
  obtain ⟨after, lexeme⟩ := lexed.lexeme token (Array.mem_of_getElem? here)
  rw [kind] at lexeme
  generalize token.content = content at lexeme
  cases lexeme with
  | identifier word free =>
      simpa [Jack.isIdentifier, word.starts, free] using word.continues

/-- Only a keyword is spelled like one, strings aside. -/
theorem keyword_of_content (lexed : Lexed tokens) (here : tokens[pos]? = some token)
    (notString : token.kind ≠ .string)
    (reserved : Alphabet.isKeyword token.content = true) : token.kind = .keyword := by
  have member := Array.mem_of_getElem? here
  have notComment := lexed.code token member
  obtain ⟨after, lexeme⟩ := lexed.lexeme token member
  have isWord := Alphabet.class_of_isKeyword token.content (by
    simpa [Alphabet.isKeyword] using reserved)
  obtain ⟨kind, content, line⟩ := token
  cases lexeme with
  | keyword => rfl
  | identifier _ free => simp [free] at reserved
  | integer nonempty decimal =>
      obtain ⟨first, others, rfl⟩ := List.exists_cons_of_ne_nil nonempty
      simp [decimal first (by simp)] at isWord
  | string => exact absurd rfl notString
  | lineComment | blockComment => exact absurd rfl notComment
  | symbol => simp at isWord

/-- Only a symbol is spelled like one, strings aside. -/
theorem symbol_of_content (lexed : Lexed tokens) (here : tokens[pos]? = some token)
    (notString : token.kind ≠ .string) (known : isSymbolText token.content = true) :
    token.kind = .symbol := by
  have member := Array.mem_of_getElem? here
  have notComment := lexed.code token member
  obtain ⟨after, lexeme⟩ := lexed.lexeme token member
  obtain ⟨byte, single, isSymbol⟩ : ∃ byte, token.content = [byte] ∧
      Alphabet.isSymbol byte = true := by
    unfold isSymbolText at known
    split at known
    · exact ⟨_, ‹_›, known⟩
    · exact absurd known (by simp)
  obtain ⟨notDigit, _, notWord, _⟩ := Alphabet.class_of_isSymbol byte isSymbol
  obtain ⟨kind, content, line⟩ := token
  obtain rfl : content = [byte] := single
  cases lexeme with
  | keyword word => simp [word.starts] at notWord
  | identifier word => simp [word.starts] at notWord
  | integer _ decimal => simp [decimal byte (by simp)] at notDigit
  | string => exact absurd rfl notString
  | lineComment | blockComment => exact absurd rfl notComment
  | symbol => rfl

/-- A rule for a word compares texts. In tokens of a source, only a keyword has the text of one. -/
theorem finds_keyword_iff (lexed : Lexed tokens) (text : String)
    (reserved : Alphabet.isKeyword (utf8 text) = true) :
    Finds (Production.word text) tokens pos token rest ↔
      tokens[pos]? = some token ∧ (Piece.keyword text).Matches token ∧ rest = pos + 1 := by
  rw [Production.word, finds_literal_iff]
  refine and_congr_right fun here => and_congr_left' ⟨?_, ?_⟩
  · rintro ⟨content, notString, _⟩
    exact ⟨lexed.keyword_of_content here notString (content ▸ reserved), content⟩
  · rintro ⟨kind, content⟩
    exact ⟨content, by simp [kind], by simp [kind]⟩

theorem finds_symbol_iff (lexed : Lexed tokens) (text : String)
    (known : isSymbolText (utf8 text) = true) :
    Finds (Production.word text) tokens pos token rest ↔
      tokens[pos]? = some token ∧ (Piece.symbol text).Matches token ∧ rest = pos + 1 := by
  rw [Production.word, finds_literal_iff]
  refine and_congr_right fun here => and_congr_left' ⟨?_, ?_⟩
  · rintro ⟨content, notString, _⟩
    exact ⟨lexed.symbol_of_content here notString (content ▸ known), content⟩
  · rintro ⟨kind, content⟩
    exact ⟨content, by simp [kind], by simp [kind]⟩

end Lexed

/-! ## Spellings at positions -/

/-- The token at `pos` is this piece. -/
def At (tokens : Array Token) (piece : Piece) (pos : Nat) : Prop :=
  ∃ token, tokens[pos]? = some token ∧ piece.Matches token

/-- The tokens from `pos` up to `rest` are spelled so. -/
def Spans (tokens : Array Token) : Spelling → Nat → Nat → Prop
  | [], pos, rest => rest = pos
  | piece :: more, pos, rest => At tokens piece pos ∧ Spans tokens more (pos + 1) rest

section Spans

variable {tokens : Array Token} {pos rest : Nat} {spelling front back : Spelling}

theorem spans_nil_iff : Spans tokens [] pos rest ↔ rest = pos :=
  Iff.rfl

theorem spans_cons_iff {piece : Piece} :
    Spans tokens (piece :: spelling) pos rest ↔
      At tokens piece pos ∧ Spans tokens spelling (pos + 1) rest :=
  Iff.rfl

theorem spans_append_iff :
    Spans tokens (front ++ back) pos rest ↔
      ∃ middle, Spans tokens front pos middle ∧ Spans tokens back middle rest := by
  induction front generalizing pos with
  | nil => simp [spans_nil_iff]
  | cons piece front inductionHypothesis =>
      simp only [List.cons_append, spans_cons_iff, inductionHypothesis]
      constructor
      · rintro ⟨here, middle, inFront, inBack⟩
        exact ⟨middle, ⟨here, inFront⟩, inBack⟩
      · rintro ⟨middle, ⟨here, inFront⟩, inBack⟩
        exact ⟨here, middle, inFront, inBack⟩

/-- A spelling up to the last token. -/
theorem spans_to_end_iff (inside : pos ≤ tokens.size) :
    Spans tokens spelling pos tokens.size ↔
      List.Forall₂ Piece.Matches spelling (tokens.toList.drop pos) := by
  induction spelling generalizing pos with
  | nil =>
      rw [spans_nil_iff, List.forall₂_nil_left_iff, List.drop_eq_nil_iff, Array.length_toList]
      omega
  | cons piece spelling inductionHypothesis =>
      rw [spans_cons_iff]
      by_cases within : pos < tokens.size
      · have here : tokens[pos]? = some tokens[pos] := Array.getElem?_eq_getElem within
        have parts : tokens.toList.drop pos = tokens[pos] :: tokens.toList.drop (pos + 1) :=
          List.drop_eq_getElem_cons within
        rw [parts, List.forall₂_cons, ← inductionHypothesis within]
        simp [At, here]
      · have nothing : tokens[pos]? = none := Array.getElem?_eq_none (by omega)
        have empty : tokens.toList.drop pos = [] := List.drop_eq_nil_of_le (by simp; omega)
        simp [At, nothing, empty]

/-- A spelling that is not empty moves on, and not beyond the tokens. -/
theorem Spans.moves (spans : Spans tokens spelling pos rest) (nonempty : spelling ≠ []) :
    pos < rest ∧ rest ≤ tokens.size := by
  induction spelling generalizing pos with
  | nil => exact absurd rfl nonempty
  | cons piece spelling inductionHypothesis =>
      obtain ⟨⟨token, here, _⟩, more⟩ := spans
      have within : pos < tokens.size := (Array.getElem?_eq_some_iff.mp here).1
      cases spelling with
      | nil =>
          rw [spans_nil_iff] at more
          omega
      | cons =>
          have further := inductionHypothesis more (by simp)
          omega

theorem Spans.le (spans : Spans tokens spelling pos rest) : pos ≤ rest := by
  cases spelling with
  | nil => exact Nat.le_of_eq (spans_nil_iff.mp spans).symm
  | cons => exact Nat.le_of_lt (spans.moves (by simp)).1

end Spans

/-! ## The token behind -/

/-- The token at `pos`, if there is one, is allowed there. -/
def Ahead (tokens : Array Token) (allowed : Token → Bool) (pos : Nat) : Prop :=
  ∀ token, tokens[pos]? = some token → allowed token = true

/-- The line of a token is never asked for. -/
theorem At.ahead {tokens : Array Token} {allowed : Token → Bool} {pos : Nat}
    {kind : Token.Kind} {content : Bytes} (piece : At tokens (.exact kind content) pos)
    (accepted : ∀ line, allowed ⟨kind, content, line⟩ = true) : Ahead tokens allowed pos := by
  intro other there
  obtain ⟨token, here, matched⟩ := piece
  obtain rfl : token = other := Option.some.inj (here.symm.trans there)
  obtain ⟨rfl, rfl⟩ := matched
  exact accepted token.line

theorem Ahead.mono {tokens : Array Token} {allowed wider : Token → Bool} {pos : Nat}
    (ahead : Ahead tokens allowed pos)
    (widens : ∀ token, allowed token = true → wider token = true) : Ahead tokens wider pos :=
  fun token here => widens token (ahead token here)

def isSymbol (text : String) (token : Token) : Bool :=
  token.kind == .symbol && token.content == utf8 text

/-- Only the text of a symbol has to be looked at. -/
theorem forall_isSymbol_iff {text : String} {accepts : Token → Bool} :
    (∀ token, isSymbol text token = true → accepts token = true) ↔
      ∀ line, accepts ⟨.symbol, utf8 text, line⟩ = true := by
  constructor
  · intro all line
    exact all ⟨.symbol, utf8 text, line⟩ (by simp [isSymbol])
  · intro all token same
    obtain ⟨kind, content, line⟩ := token
    simp only [isSymbol, Bool.and_eq_true, beq_iff_eq] at same
    obtain ⟨rfl, rfl⟩ := same
    exact all line

def notComma (token : Token) : Bool :=
  !isSymbol "," token

/-- Whether the text of a token is none of these. -/
def notAmong (texts : List String) (token : Token) : Bool :=
  !isAmong texts token.content

/-- Behind a rule that stops by itself, any token is allowed. -/
def anything (_ : Token) : Bool :=
  true

/-! ## Kinds of trees -/

/-- A kind of tree: how its trees are spelled, which of them the grammar has, and what
they are without lines. -/
structure Phrase (Node : Type) where
  spelling : Node → Spelling
  WellFormed : Node → Prop
  withoutLines : Node → Node

namespace Phrase

variable {Node : Type}

section Definitions

variable (phrase : Phrase Node) (tokens : Array Token)

/-- A tree that the grammar has is written from `pos` up to `rest`. -/
def Written (tree : Node) (pos rest : Nat) : Prop :=
  phrase.WellFormed tree ∧ Spans tokens (phrase.spelling tree) pos rest

/-- What the rule finds is written there. -/
def Sound (rule : Rule Node) : Prop :=
  ∀ ⦃pos node rest⦄, Finds rule tokens pos node rest → phrase.Written tokens node pos rest

/-- What is written from `start` on, with an allowed token behind it, is found, up to
lines. -/
def Complete (start : Nat) (allowed : Token → Bool) (rule : Rule Node) : Prop :=
  ∀ ⦃tree pos rest⦄, start ≤ pos → phrase.Written tokens tree pos rest →
    Ahead tokens allowed rest → ∃ node, Finds rule tokens pos node rest ∧
      phrase.withoutLines node = phrase.withoutLines tree

def list : Phrase (List Node) where
  spelling trees := trees.flatMap phrase.spelling
  WellFormed trees := ∀ tree ∈ trees, phrase.WellFormed tree
  withoutLines trees := trees.map phrase.withoutLines

def commas : Phrase (List Node) where
  spelling trees := separated (trees.map phrase.spelling)
  WellFormed trees := ∀ tree ∈ trees, phrase.WellFormed tree
  withoutLines trees := trees.map phrase.withoutLines

/-- A tree with a piece in front of it. -/
def behind (piece : Piece) : Phrase Node :=
  { phrase with spelling := fun tree => piece :: phrase.spelling tree }

def enclosed (opening closing : String) : Phrase Node :=
  { phrase with
    spelling := fun tree => .symbol opening :: (phrase.spelling tree ++ [.symbol closing]) }

end Definitions

theorem Complete.later {phrase : Phrase Node} {tokens : Array Token} {rule : Rule Node}
    {start later : Nat} {allowed : Token → Bool}
    (complete : phrase.Complete tokens start allowed rule) (further : start ≤ later) :
    phrase.Complete tokens later allowed rule :=
  fun _ _ _ above => complete (further.trans above)

section Lists

variable {phrase : Phrase Node} {tokens : Array Token} {rule : Rule Node} {pos rest : Nat}

theorem written_list_nil_iff : phrase.list.Written tokens [] pos rest ↔ rest = pos := by
  simp [Written, list, spans_nil_iff]

theorem written_list_cons_iff {first : Node} {others : List Node} :
    phrase.list.Written tokens (first :: others) pos rest ↔
      ∃ middle, phrase.Written tokens first pos middle ∧
        phrase.list.Written tokens others middle rest := by
  simp only [Written, list, List.forall_mem_cons, List.flatMap_cons, spans_append_iff]
  constructor
  · rintro ⟨⟨firstFormed, othersFormed⟩, middle, inFirst, inOthers⟩
    exact ⟨middle, ⟨firstFormed, inFirst⟩, othersFormed, inOthers⟩
  · rintro ⟨middle, ⟨firstFormed, inFirst⟩, othersFormed, inOthers⟩
    exact ⟨⟨firstFormed, othersFormed⟩, middle, inFirst, inOthers⟩

/-- A repetition of a sound rule finds a list that is written. The end of the loop needs no
argument, since soundness says nothing about what is not found. -/
theorem Sound.list (sound : phrase.Sound tokens rule) {nodes : List Node}
    (repeats : Repeats rule tokens pos nodes rest) :
    phrase.list.Written tokens nodes pos rest := by
  induction repeats with
  | stop => exact written_list_nil_iff.mpr rfl
  | next found _ _ inductionHypothesis =>
      exact written_list_cons_iff.mpr ⟨_, sound found, inductionHypothesis⟩

/-- What may stand behind a list may stand in front of it, if that holds for each of its
trees. -/
theorem ahead_of_written_list {allowed : Token → Bool}
    (starts : ∀ ⦃tree pos rest⦄, phrase.Written tokens tree pos rest →
      Ahead tokens allowed pos)
    {trees : List Node} (written : phrase.list.Written tokens trees pos rest)
    (ahead : Ahead tokens allowed rest) : Ahead tokens allowed pos := by
  cases trees with
  | nil =>
      obtain rfl := written_list_nil_iff.mp written
      exact ahead
  | cons first others =>
      obtain ⟨_, firstWritten, _⟩ := written_list_cons_iff.mp written
      exact starts firstWritten

/-- Trees are all found, where each of them may stand behind another one, and where the
rule misses at the end. -/
theorem Complete.list {start : Nat} {allowed : Token → Bool}
    (complete : phrase.Complete tokens start allowed rule)
    (starts : ∀ ⦃tree pos rest⦄, phrase.Written tokens tree pos rest →
      Ahead tokens allowed pos ∧ phrase.spelling tree ≠ [])
    {trees : List Node} (further : start ≤ pos)
    (written : phrase.list.Written tokens trees pos rest)
    (ahead : Ahead tokens allowed rest) (stops : Misses rule tokens rest) :
    ∃ nodes, Repeats rule tokens pos nodes rest ∧
      nodes.map phrase.withoutLines = trees.map phrase.withoutLines := by
  induction trees generalizing pos with
  | nil =>
      obtain rfl := written_list_nil_iff.mp written
      exact ⟨[], .stop fun node rest found => absurd found (stops node rest), rfl⟩
  | cons first others inductionHypothesis =>
      obtain ⟨middle, firstWritten, othersWritten⟩ := written_list_cons_iff.mp written
      have moves := firstWritten.2.moves (starts firstWritten).2
      obtain ⟨node, found, same⟩ := complete further firstWritten
        (ahead_of_written_list (fun _ _ _ written => (starts written).1) othersWritten ahead)
      obtain ⟨nodes, repeats, sameOthers⟩ := inductionHypothesis (by omega) othersWritten
      exact ⟨node :: nodes, .next found moves repeats, by simp [same, sameOthers]⟩

/-- Behind the first tree, each further one has a comma in front of it. -/
theorem written_commas_cons_iff {first : Node} {others : List Node} :
    phrase.commas.Written tokens (first :: others) pos rest ↔
      ∃ middle, phrase.Written tokens first pos middle ∧
        (phrase.behind (.symbol ",")).list.Written tokens others middle rest := by
  simp only [Written, commas, list, behind, List.forall_mem_cons, List.map_cons, separated,
    List.flatMap_map, spans_append_iff]
  constructor
  · rintro ⟨⟨firstFormed, othersFormed⟩, middle, inFirst, inOthers⟩
    exact ⟨middle, ⟨firstFormed, inFirst⟩, othersFormed, inOthers⟩
  · rintro ⟨middle, ⟨firstFormed, inFirst⟩, othersFormed, inOthers⟩
    exact ⟨⟨firstFormed, othersFormed⟩, middle, inFirst, inOthers⟩

/-- The rule with a comma in front. -/
theorem finds_comma_iff (lexed : Lexed tokens) {node : Node} :
    Finds (do let _ ← literal (utf8 ","); rule) tokens pos node rest ↔
      At tokens (.symbol ",") pos ∧ Finds rule tokens (pos + 1) node rest := by
  have comma {token : Token} {middle : Nat} :
      Finds (literal (utf8 ",")) tokens pos token middle ↔
        tokens[pos]? = some token ∧ (Piece.symbol ",").Matches token ∧ middle = pos + 1 :=
    lexed.finds_symbol_iff "," rfl
  simp only [finds_bind_iff, comma]
  constructor
  · rintro ⟨token, _, ⟨here, matched, rfl⟩, found⟩
    exact ⟨⟨token, here, matched⟩, found⟩
  · rintro ⟨⟨token, here, matched⟩, found⟩
    exact ⟨token, pos + 1, ⟨here, matched, rfl⟩, found⟩

/-- Trees with commas in between are found as such, and at least one of them. -/
theorem Sound.commas (sound : phrase.Sound tokens rule) (lexed : Lexed tokens)
    {nodes : List Node}
    (found : Finds (separatedBy rule (utf8 ",")) tokens pos nodes rest) :
    nodes ≠ [] ∧ phrase.commas.Written tokens nodes pos rest := by
  obtain ⟨first, others, middle, rfl, firstFound, repeats⟩ := finds_separatedBy_iff.mp found
  have soundBehind : (phrase.behind (.symbol ",")).Sound tokens
      (do let _ ← literal (utf8 ","); rule) := by
    intro pos node rest found
    obtain ⟨comma, found⟩ := (finds_comma_iff lexed).mp found
    obtain ⟨formed, spans⟩ := sound found
    exact ⟨formed, comma, spans⟩
  exact ⟨by simp, written_commas_cons_iff.mpr
    ⟨middle, sound firstFound, soundBehind.list repeats⟩⟩

/-- A list with commas is read whole, if a comma may stand behind one of its trees. -/
theorem Complete.commas {start : Nat} {allowed : Token → Bool}
    (complete : phrase.Complete tokens start allowed rule) (lexed : Lexed tokens)
    (allowsComma : ∀ line, allowed ⟨.symbol, utf8 ",", line⟩ = true)
    {trees : List Node} (nonempty : trees ≠ []) (further : start ≤ pos)
    (written : phrase.commas.Written tokens trees pos rest)
    (ahead : Ahead tokens allowed rest) (noComma : Ahead tokens notComma rest) :
    ∃ nodes, Finds (separatedBy rule (utf8 ",")) tokens pos nodes rest ∧
      nodes.map phrase.withoutLines = trees.map phrase.withoutLines := by
  obtain ⟨first, others, rfl⟩ := List.exists_cons_of_ne_nil nonempty
  obtain ⟨middle, firstWritten, othersWritten⟩ := written_commas_cons_iff.mp written
  have completeBehind : (phrase.behind (.symbol ",")).Complete tokens start allowed
      (do let _ ← literal (utf8 ","); rule) := by
    rintro tree pos rest further ⟨formed, comma, spans⟩ ahead
    obtain ⟨node, found, same⟩ := complete (Nat.le_succ_of_le further) ⟨formed, spans⟩ ahead
    exact ⟨node, (finds_comma_iff lexed).mpr ⟨comma, found⟩, same⟩
  have starts ⦃tree : Node⦄ ⦃pos rest : Nat⦄
      (written : (phrase.behind (.symbol ",")).Written tokens tree pos rest) :
      Ahead tokens allowed pos ∧ (phrase.behind (.symbol ",")).spelling tree ≠ [] := by
    obtain ⟨_, comma, _⟩ := written
    exact ⟨comma.ahead allowsComma, by simp [behind]⟩
  have stops : Misses (do let _ ← literal (utf8 ","); rule) tokens rest := by
    intro node last found
    obtain ⟨⟨token, here, kind, content⟩, _⟩ := (finds_comma_iff lexed).mp found
    have refused := noComma token here
    simp [notComma, isSymbol, kind, content] at refused
  obtain ⟨node, found, same⟩ := complete further firstWritten
    (ahead_of_written_list (fun _ _ _ written => (starts written).1) othersWritten ahead)
  obtain ⟨nodes, repeats, sameOthers⟩ := completeBehind.list starts
    (further.trans firstWritten.2.le) othersWritten ahead stops
  refine ⟨node :: nodes, ?_, ?_⟩
  · exact finds_separatedBy_iff.mpr ⟨node, nodes, middle, rfl, found, repeats⟩
  · rw [List.map_cons, List.map_cons, same]
    exact congrArg _ sameOthers

/-- The rule with commas in between, or nothing at all. -/
def optionalCommas (rule : Rule Node) : Rule (List Node) := do
  let nodes ← optional (separatedBy rule (utf8 ","))
  return nodes.getD []

theorem finds_optionalCommas_iff {nodes : List Node} :
    Finds (optionalCommas rule) tokens pos nodes rest ↔
      ∃ answer, Finds (optional (separatedBy rule (utf8 ","))) tokens pos answer rest ∧
        nodes = answer.getD [] := by
  simp only [optionalCommas, finds_bind_iff, finds_pure_iff]
  constructor
  · rintro ⟨answer, _, found, rfl, rfl⟩
    exact ⟨answer, found, rfl⟩
  · rintro ⟨answer, found, rfl⟩
    exact ⟨answer, rest, found, rfl, rfl⟩

theorem Sound.optionalCommas (sound : phrase.Sound tokens rule) (lexed : Lexed tokens) :
    phrase.commas.Sound tokens (optionalCommas rule) := by
  intro pos nodes rest found
  obtain ⟨answer, inside, rfl⟩ := finds_optionalCommas_iff.mp found
  obtain ⟨nodes, rfl, inList⟩ | ⟨rfl, rfl, _⟩ := finds_optional_iff.mp inside
  · exact (sound.commas lexed inList).2
  · exact ⟨by simp [Phrase.commas], rfl⟩

/-- The closing symbol ends the last tree, is no comma, and starts no tree. -/
theorem Complete.optionalCommas {start : Nat} {allowed : Token → Bool} {closing : String}
    (complete : phrase.Complete tokens start allowed rule) (lexed : Lexed tokens)
    (allowsComma : ∀ line, allowed ⟨.symbol, utf8 ",", line⟩ = true)
    (allowsClosing : ∀ line, allowed ⟨.symbol, utf8 closing, line⟩ = true)
    (noComma : ∀ line, notComma ⟨.symbol, utf8 closing, line⟩ = true)
    (stops : ∀ ⦃pos⦄, Ahead tokens (isSymbol closing) pos → Misses rule tokens pos) :
    phrase.commas.Complete tokens start (isSymbol closing) (optionalCommas rule) := by
  intro trees pos rest further written ahead
  cases trees with
  | nil =>
      obtain rfl : rest = pos := written.2
      have misses : Misses (separatedBy rule (utf8 ",")) tokens rest := by
        intro nodes last found
        obtain ⟨first, _, _, _, firstFound, _⟩ := finds_separatedBy_iff.mp found
        exact stops ahead first _ firstFound
      exact ⟨[], finds_optionalCommas_iff.mpr
        ⟨none, finds_optional_iff.mpr (.inr ⟨rfl, rfl, misses⟩), rfl⟩, rfl⟩
  | cons first others =>
      obtain ⟨nodes, found, same⟩ := complete.commas lexed allowsComma (by simp) further written
        (ahead.mono (forall_isSymbol_iff.mpr allowsClosing))
        (ahead.mono (forall_isSymbol_iff.mpr noComma))
      exact ⟨nodes, finds_optionalCommas_iff.mpr
        ⟨some nodes, finds_optional_iff.mpr (.inl ⟨nodes, rfl, found⟩), rfl⟩, same⟩

end Lists

/-! ## First words -/

section FirstWords

variable (phrase : Phrase Node) (tokens : Array Token)

/-- Each tree starts with one of these keywords. -/
def StartsWith (words : List String) : Prop :=
  ∀ ⦃tree pos rest⦄, phrase.Written tokens tree pos rest →
    ∃ text ∈ words, At tokens (.keyword text) pos

variable {phrase tokens} {rule : Rule Node} {words others : List String} {pos rest : Nat}

/-- A sound rule misses wherever the word is none that its trees start with. -/
theorem StartsWith.misses (starts : phrase.StartsWith tokens words)
    (sound : phrase.Sound tokens rule) (ahead : Ahead tokens (notAmong words) pos) :
    Misses rule tokens pos := by
  intro node last found
  obtain ⟨text, member, token, here, _, content⟩ := starts (sound found)
  have refused := ahead token here
  rw [notAmong, content, Bool.not_eq_true'] at refused
  exact absurd (List.mem_map_of_mem member) (by simpa [isAmong] using refused)

/-- A list of trees starts with none of the other words, where none follows it. -/
theorem StartsWith.ahead_of_list (starts : phrase.StartsWith tokens words)
    (apart : ∀ text ∈ words, isAmong others (utf8 text) = false) {trees : List Node}
    (written : phrase.list.Written tokens trees pos rest)
    (ahead : Ahead tokens (notAmong others) rest) : Ahead tokens (notAmong others) pos := by
  refine ahead_of_written_list (fun tree pos rest treeWritten => ?_) written ahead
  obtain ⟨text, member, here⟩ := starts treeWritten
  exact here.ahead fun _ => by simp [notAmong, apart text member]

end FirstWords

/-! ## Trees between two symbols -/

section Enclosed

variable {phrase : Phrase Node} {tokens : Array Token} {rule : Rule Node} {pos rest : Nat}
  {opening closing : String}

theorem written_enclosed_iff {tree : Node} :
    (phrase.enclosed opening closing).Written tokens tree pos rest ↔
      ∃ middle, At tokens (.symbol opening) pos ∧ phrase.Written tokens tree (pos + 1) middle ∧
        At tokens (.symbol closing) middle ∧ rest = middle + 1 := by
  simp only [Written, enclosed, spans_cons_iff, spans_append_iff, spans_nil_iff]
  constructor
  · rintro ⟨formed, opens, middle, spans, closes, rfl⟩
    exact ⟨middle, opens, ⟨formed, spans⟩, closes, rfl⟩
  · rintro ⟨middle, opens, ⟨formed, spans⟩, closes, rfl⟩
    exact ⟨formed, opens, middle, spans, closes, rfl⟩

/-- The rule with a symbol in front and one behind. -/
def between (opening closing : String) (rule : Rule Node) : Rule Node := do
  let _ ← Production.word opening
  let node ← rule
  let _ ← Production.word closing
  return node

/-- A rule between two symbols finds what the rule finds, one token further on. -/
theorem finds_between_iff (lexed : Lexed tokens) (opening closing : String)
    (opens : isSymbolText (utf8 opening) = true)
    (closes : isSymbolText (utf8 closing) = true) {node : Node} :
    Finds (between opening closing rule) tokens pos node rest ↔
      ∃ middle, At tokens (.symbol opening) pos ∧ Finds rule tokens (pos + 1) node middle ∧
        At tokens (.symbol closing) middle ∧ rest = middle + 1 := by
  simp only [between, finds_bind_iff, lexed.finds_symbol_iff opening opens,
    lexed.finds_symbol_iff closing closes, finds_pure_iff]
  constructor
  · rintro ⟨first, _, ⟨firstHere, isFirst, rfl⟩, _, middle, found, last, _,
      ⟨lastHere, isLast, rfl⟩, rfl, rfl⟩
    exact ⟨middle, ⟨first, firstHere, isFirst⟩, found, ⟨last, lastHere, isLast⟩, rfl⟩
  · rintro ⟨middle, ⟨first, firstHere, isFirst⟩, found, ⟨last, lastHere, isLast⟩, rfl⟩
    exact ⟨first, _, ⟨firstHere, isFirst, rfl⟩, node, middle, found, last, _,
      ⟨lastHere, isLast, rfl⟩, rfl, rfl⟩

theorem Sound.enclosed (sound : phrase.Sound tokens rule) (lexed : Lexed tokens)
    (opens : isSymbolText (utf8 opening) = true)
    (closes : isSymbolText (utf8 closing) = true) :
    (phrase.enclosed opening closing).Sound tokens (between opening closing rule) := by
  intro pos node rest found
  obtain ⟨middle, first, inside, last, rfl⟩ :=
    (finds_between_iff lexed opening closing opens closes).mp found
  exact written_enclosed_iff.mpr ⟨middle, first, sound inside, last, rfl⟩

/-- The closing symbol ends the tree, so anything may follow; and behind the opening one, fewer
tokens remain. -/
theorem Complete.enclosed {start : Nat}
    (complete : phrase.Complete tokens (start + 1) (isSymbol closing) rule)
    (lexed : Lexed tokens) (opens : isSymbolText (utf8 opening) = true)
    (closes : isSymbolText (utf8 closing) = true) :
    (phrase.enclosed opening closing).Complete tokens start anything
      (between opening closing rule) := by
  intro tree pos rest further written _
  obtain ⟨middle, first, inside, last, rfl⟩ := written_enclosed_iff.mp written
  obtain ⟨node, found, same⟩ := complete (Nat.succ_le_succ further) inside
    (last.ahead fun _ => by simp [isSymbol])
  exact ⟨node, (finds_between_iff lexed opening closing opens closes).mpr
    ⟨middle, first, found, last, rfl⟩, same⟩

end Enclosed

/-! ## Rules that refer to themselves -/

section Recursion

variable {phrase : Phrase Node} {tokens : Array Token} {body : Rule Node → Rule Node}

/-- A recursive rule is sound if one turn keeps soundness. By induction on the tokens that
remain. -/
theorem Sound.recursive
    (step : ∀ inner, phrase.Sound tokens inner → phrase.Sound tokens (body inner)) :
    phrase.Sound tokens (Rule.recursive body) := by
  intro pos
  -- The inner uses stand further on, where fewer tokens are left.
  induction left : tokens.size - pos using Nat.strong_induction_on generalizing pos with
  | _ left inductionHypothesis =>
      intro node rest found
      refine step _ ?_ (finds_recursive_iff.mp found)
      intro innerPos innerNode innerRest innerFound
      obtain ⟨fewer, innerFound⟩ := finds_behind_iff.mp innerFound
      exact inductionHypothesis _ (by omega) rfl innerFound

/-- A recursive rule is complete if one turn leads from completeness behind a position to
completeness at it. By induction on the tokens that remain; a tree that spells nothing would break
it. -/
theorem Complete.recursive {allowed : Token → Bool}
    (sound : ∀ inner, phrase.Sound tokens inner → phrase.Sound tokens (body inner))
    (nonempty : ∀ tree, phrase.spelling tree ≠ [])
    (step : ∀ inner start, phrase.Sound tokens inner →
      phrase.Complete tokens (start + 1) allowed inner →
      phrase.Complete tokens start allowed (body inner)) :
    phrase.Complete tokens 0 allowed (Rule.recursive body) := by
  intro tree pos
  induction left : tokens.size - pos using Nat.strong_induction_on generalizing pos tree with
  | _ left inductionHypothesis =>
      intro rest _ written ahead
      have innerSound : phrase.Sound tokens (Rule.behind body ⟨tokens, pos⟩) :=
        fun _ _ _ found => Sound.recursive sound (finds_behind_iff.mp found).2
      have innerComplete :
          phrase.Complete tokens (pos + 1) allowed (Rule.behind body ⟨tokens, pos⟩) := by
        intro innerTree innerPos innerRest further innerWritten innerAhead
        have moves := innerWritten.2.moves (nonempty innerTree)
        obtain ⟨node, found, same⟩ := inductionHypothesis _ (by omega) rfl innerPos.zero_le
          innerWritten innerAhead
        exact ⟨node, finds_behind_iff.mpr ⟨by omega, found⟩, same⟩
      obtain ⟨node, found, same⟩ := step _ pos innerSound innerComplete le_rfl written ahead
      exact ⟨node, finds_recursive_iff.mpr found, same⟩

end Recursion

end Phrase

end Jack
