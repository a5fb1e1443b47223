import Jack.Proofs.Grammar.Classes
import Mathlib.Computability.Language
import Mathlib.Order.CompletePartialOrder

/-!
Contract: a rule looks no further than what can still be completed.

Owns: the languages of the productions, what it means that a rule tracks a language, and for
every production that its rule tracks its language.

Does not own: which token an error names.

Wherever a rule looks, the tokens up to there can be completed to a phrase of its language.
There is one exception. The rule for a variable looks at the token behind the one where it
stands, whether that one is a name or not. There an array element could stand in its place.
-/

set_option autoImplicit false

namespace Jack

open Rule Production
open scoped Computability

/-! ## What can be written -/

/-- A piece that some source has a token for. -/
def Piece.Writable (piece : Piece) : Prop :=
  ∃ token after, piece.Matches token ∧ token.kind ≠ .comment ∧
    Lexeme token.kind token.content after

def Spelling.Writable (spelling : Spelling) : Prop :=
  ∀ piece ∈ spelling, piece.Writable

namespace Spelling.Writable

theorem nil : Writable [] := by
  simp [Writable]

theorem cons_iff {piece : Piece} {spelling : Spelling} :
    Writable (piece :: spelling) ↔ piece.Writable ∧ Writable spelling :=
  List.forall_mem_cons

theorem append_iff {front back : Spelling} :
    Writable (front ++ back) ↔ Writable front ∧ Writable back :=
  List.forall_mem_append

end Spelling.Writable

/-- Keywords are words, so they are read as such and not as a number or a symbol. -/
theorem Alphabet.word_of_mem_keywords : ∀ word ∈ Alphabet.keywords,
    word.head?.any Alphabet.startsWord = true ∧ word.tail.all Alphabet.continuesWord = true := by
  decide +kernel

theorem writable_keyword (text : String) (reserved : Alphabet.isKeyword (utf8 text) = true) :
    (Piece.keyword text).Writable := by
  refine ⟨⟨.keyword, utf8 text, 0⟩, [], ⟨rfl, rfl⟩, by simp, ?_⟩
  have word := Alphabet.word_of_mem_keywords (utf8 text)
    (by simpa [Alphabet.isKeyword] using reserved)
  dsimp only
  generalize utf8 text = content at reserved word ⊢
  cases content with
  | nil => simp at word
  | cons first rest =>
      simp only [List.head?_cons, Option.any_some, List.tail_cons, List.all_eq_true] at word
      exact .keyword ⟨word.1, word.2, by simp⟩ reserved

theorem writable_symbol (text : String) (known : isSymbolText (utf8 text) = true) :
    (Piece.symbol text).Writable := by
  refine ⟨⟨.symbol, utf8 text, 0⟩, [], ⟨rfl, rfl⟩, by simp, ?_⟩
  dsimp only
  generalize utf8 text = content at known ⊢
  unfold isSymbolText at known
  split at known
  · exact .symbol known (by simp)
  · exact absurd known (by simp)

theorem writable_name {name : Bytes} (named : isIdentifier name = true) :
    (Piece.name name).Writable := by
  refine ⟨⟨.identifier, name, 0⟩, [], ⟨rfl, rfl⟩, by simp, ?_⟩
  cases name with
  | nil => simp [isIdentifier] at named
  | cons first rest =>
      simp only [isIdentifier, Bool.and_eq_true, List.all_eq_true, Bool.not_eq_true'] at named
      exact .identifier ⟨named.1.1, named.1.2, by simp⟩ named.2

theorem writable_zero : (Piece.number 0).Writable := by
  refine ⟨⟨.integer, utf8 "0", 0⟩, [], ⟨rfl, rfl⟩, by simp, ?_⟩
  exact .integer (by decide) (by decide +kernel) (by decide +kernel) (by simp)

/-! ## How far a rule looks -/

/-- The token at `pos` makes a name in front of it more than a variable. -/
def SuffixAt (tokens : Array Token) (pos : Nat) : Prop :=
  ∃ token, tokens[pos]? = some token ∧ isSymbolIn nameSuffixes token = true

def elementStart : Spelling :=
  [.name (utf8 "x"), .symbol "["]

/-- What is taken for granted in front of the furthest position: the tokens up to there, or,
one position further on, that an element starts in place of the last one. -/
inductive Probe (tokens : Array Token) (pos : Nat) : Spelling → Nat → Prop where
  | read {front : Spelling} {furthest : Nat} (spans : Spans tokens front pos furthest) :
      Probe tokens pos front furthest
  | ahead {front : Spelling} {last : Nat} (spans : Spans tokens front pos last)
      (suffix : SuffixAt tokens (last + 1)) :
      Probe tokens pos (front ++ elementStart) (last + 1)

/-- What is read can be completed to a word of the language. -/
def Reaches (language : Language Piece) (tokens : Array Token) (pos furthest : Nat) : Prop :=
  ∃ front back, front ++ back ∈ language ∧ Spelling.Writable back ∧
    Probe tokens pos front furthest

/-- What the rule finds is in the language, and wherever it looks, it can be completed. -/
structure Tracks {Node : Type} (language : Language Piece) (tokens : Array Token)
    (rule : Rule Node) : Prop where
  node : Nonempty Node
  sample : ∃ spelling ∈ language, Spelling.Writable spelling
  found : ∀ ⦃pos node rest⦄, Finds rule tokens pos node rest →
    ∃ spelling ∈ language, Spans tokens spelling pos rest
  reaches : ∀ pos, Reaches language tokens pos (rule ⟨tokens, pos⟩).furthest

section Reaching

variable {language other : Language Piece} {tokens : Array Token} {pos middle furthest : Nat}

theorem Reaches.mono (reaches : Reaches language tokens pos furthest)
    (wider : language ≤ other) : Reaches other tokens pos furthest := by
  obtain ⟨front, back, member, writable, probe⟩ := reaches
  exact ⟨front, back, wider member, writable, probe⟩

/-- Where nothing has been read, any word of the language will do. -/
theorem reaches_start (sample : ∃ spelling ∈ language, Spelling.Writable spelling) :
    Reaches language tokens pos pos := by
  obtain ⟨spelling, member, writable⟩ := sample
  exact ⟨[], spelling, member, writable, .read rfl⟩

theorem reaches_of_spans {spelling : Spelling} (member : spelling ∈ language)
    (spans : Spans tokens spelling pos furthest) : Reaches language tokens pos furthest :=
  ⟨spelling, [], by rwa [List.append_nil], .nil, .read spans⟩

/-- A part that can be completed can be followed by a sample of what comes behind it. -/
theorem Reaches.followed (reaches : Reaches language tokens pos furthest)
    (sample : ∃ spelling ∈ other, Spelling.Writable spelling) :
    Reaches (language * other) tokens pos furthest := by
  obtain ⟨front, back, member, writable, probe⟩ := reaches
  obtain ⟨spelling, memberToo, writableToo⟩ := sample
  refine ⟨front, back ++ spelling, ?_, Spelling.Writable.append_iff.mpr ⟨writable, writableToo⟩,
    probe⟩
  rw [← List.append_assoc]
  exact Language.append_mem_mul member memberToo

theorem Probe.behind {spelling front : Spelling} (spans : Spans tokens spelling pos middle)
    (probe : Probe tokens middle front furthest) :
    Probe tokens pos (spelling ++ front) furthest := by
  cases probe with
  | read inner => exact .read (spans_append_iff.mpr ⟨middle, spans, inner⟩)
  | ahead inner suffix =>
      rw [← List.append_assoc]
      exact .ahead (spans_append_iff.mpr ⟨middle, spans, inner⟩) suffix

/-- Behind a part that is read, what can be completed there can be completed from the start. -/
theorem Reaches.behind {spelling : Spelling} (member : spelling ∈ language)
    (spans : Spans tokens spelling pos middle) (reaches : Reaches other tokens middle furthest) :
    Reaches (language * other) tokens pos furthest := by
  obtain ⟨front, back, memberToo, writable, probe⟩ := reaches
  refine ⟨spelling ++ front, back, ?_, writable, probe.behind spans⟩
  rw [List.append_assoc]
  exact Language.append_mem_mul member memberToo

/-- Of two positions, the further one. -/
theorem Reaches.max {second : Nat} (one : Reaches language tokens pos furthest)
    (two : Reaches language tokens pos second) :
    Reaches language tokens pos (max furthest second) := by
  rcases Nat.le_total furthest second with less | less
  · rwa [Nat.max_eq_right less]
  · rwa [Nat.max_eq_left less]

theorem reaches_reaching {Node : Type} {outcome : Outcome Node} {position : Nat}
    (one : Reaches language tokens pos position)
    (two : Reaches language tokens pos outcome.furthest) :
    Reaches language tokens pos (outcome.reaching position).furthest := by
  cases outcome with
  | matched node rest furthest => exact one.max two
  | missed furthest => exact one.max two

end Reaching

/-! ## Building rules -/

section Combinators

variable {Node Other : Type} {language other : Language Piece} {tokens : Array Token}
  {rule : Rule Node}

theorem Tracks.mono (tracks : Tracks language tokens rule) (wider : language ≤ other) :
    Tracks other tokens rule where
  node := tracks.node
  sample := by
    obtain ⟨spelling, member, writable⟩ := tracks.sample
    exact ⟨spelling, wider member, writable⟩
  found _ _ _ found := by
    obtain ⟨spelling, member, spans⟩ := tracks.found found
    exact ⟨spelling, wider member, spans⟩
  reaches pos := (tracks.reaches pos).mono wider

theorem tracks_pure (node : Node) : Tracks 1 tokens (pure node) where
  node := ⟨node⟩
  sample := ⟨[], Language.nil_mem_one, .nil⟩
  found _ _ _ found := ⟨[], Language.nil_mem_one, (finds_pure_iff.mp found).2⟩
  reaches _ := reaches_start ⟨[], Language.nil_mem_one, .nil⟩

/-- A sequence of rules tracks the product of their languages. If the first one misses, a sample of
the second language completes it. -/
theorem Tracks.bind {second : Node → Rule Other} (first : Tracks language tokens rule)
    (next : ∀ node, Tracks other tokens (second node)) :
    Tracks (language * other) tokens (rule >>= second) where
  node := first.node.elim fun node => (next node).node
  sample := by
    obtain ⟨front, member, writable⟩ := first.sample
    obtain ⟨back, memberToo, writableToo⟩ := first.node.elim fun node => (next node).sample
    exact ⟨front ++ back, Language.append_mem_mul member memberToo,
      Spelling.Writable.append_iff.mpr ⟨writable, writableToo⟩⟩
  found _ _ _ found := by
    obtain ⟨node, middle, firstFound, nextFound⟩ := finds_bind_iff.mp found
    obtain ⟨front, member, spans⟩ := first.found firstFound
    obtain ⟨back, memberToo, spansToo⟩ := (next node).found nextFound
    exact ⟨front ++ back, Language.append_mem_mul member memberToo,
      spans_append_iff.mpr ⟨middle, spans, spansToo⟩⟩
  reaches pos := by
    have sample := first.node.elim fun node => (next node).sample
    have reaches := (first.reaches pos).followed sample
    change Reaches _ tokens pos (andThen rule second ⟨tokens, pos⟩).furthest
    unfold andThen
    cases outcome : rule ⟨tokens, pos⟩ with
    | missed furthest =>
        rw [outcome] at reaches
        exact reaches
    | matched node middle furthest =>
        rw [outcome] at reaches
        obtain ⟨spelling, member, spans⟩ := first.found ⟨furthest, outcome⟩
        exact reaches_reaching reaches (.behind member spans ((next node).reaches middle))

theorem Tracks.build {build : Node → Other} (tracks : Tracks language tokens rule) :
    Tracks language tokens (do let node ← rule; return build node) := by
  have built := tracks.bind fun node => tracks_pure (build node)
  rwa [mul_one] at built

/-- A token that is accepted is a piece of the language. -/
theorem tracks_token {accepts : Token → Bool}
    (sample : ∃ spelling ∈ language, Spelling.Writable spelling)
    (piece : ∀ (pos : Nat) (token : Token), tokens[pos]? = some token → accepts token = true →
      ∃ piece, [piece] ∈ language ∧ piece.Matches token) :
    Tracks language tokens (token accepts) where
  node := ⟨⟨.comment, [], 0⟩⟩
  sample := sample
  found pos node _ found := by
    obtain ⟨here, accepted, rfl⟩ := finds_token_iff.mp found
    obtain ⟨piece, member, matched⟩ := piece pos node here accepted
    exact ⟨[piece], member, ⟨node, here, matched⟩, rfl⟩
  reaches pos := by
    rcases token_cases accepts tokens pos with ⟨token, here, accepted, outcome⟩ | ⟨_, outcome⟩
    · obtain ⟨piece, member, matched⟩ := piece pos token here accepted
      rw [outcome]
      exact reaches_of_spans member ⟨⟨token, here, matched⟩, rfl⟩
    · rw [outcome]
      exact reaches_start sample

/-- Two alternatives of one language look as far as the one that looks further. -/
theorem Tracks.orElse {others : List (Rule Node)} (first : Tracks language tokens rule)
    (rest : Tracks language tokens (firstOf others)) :
    Tracks language tokens (firstOf (rule :: others)) where
  node := first.node
  sample := first.sample
  found _ _ _ found := by
    rcases finds_firstOf_cons_iff.mp found with found | ⟨_, found⟩
    · exact first.found found
    · exact rest.found found
  reaches pos := by
    have reaches := first.reaches pos
    rw [firstOf]
    dsimp only
    cases outcome : rule ⟨tokens, pos⟩ with
    | missed furthest =>
        rw [outcome] at reaches
        exact reaches_reaching reaches (rest.reaches pos)
    | matched node rest furthest =>
        rw [outcome] at reaches
        exact reaches

theorem tracks_firstOf {alternatives : List (Rule Node)} (nonempty : alternatives ≠ [])
    (each : ∀ alternative ∈ alternatives, Tracks language tokens alternative) :
    Tracks language tokens (firstOf alternatives) := by
  induction alternatives with
  | nil => exact absurd rfl nonempty
  | cons first others inductionHypothesis =>
      obtain ⟨known, rest⟩ := List.forall_mem_cons.mp each
      refine known.orElse ?_
      cases others with
      | nil =>
          exact ⟨known.node, known.sample, fun _ _ _ found => absurd found not_finds_firstOf_nil,
            fun pos => reaches_start known.sample⟩
      | cons second others => exact inductionHypothesis (List.cons_ne_nil _ _) rest

/-- Nothing at all is in the language of an optional part. -/
theorem Tracks.optional (tracks : Tracks language tokens rule) :
    Tracks (1 + language) tokens (Rule.optional rule) where
  node := ⟨none⟩
  sample := ⟨[], .inl rfl, .nil⟩
  found _ _ _ found := by
    rcases finds_optional_iff.mp found with ⟨node, rfl, inside⟩ | ⟨rfl, rfl, _⟩
    · obtain ⟨spelling, member, spans⟩ := tracks.found inside
      exact ⟨spelling, .inr member, spans⟩
    · exact ⟨[], .inl rfl, rfl⟩
  reaches pos := by
    have reaches : Reaches (1 + language) tokens pos (rule ⟨tokens, pos⟩).furthest :=
      (tracks.reaches pos).mono fun _ member => .inr member
    unfold Rule.optional
    cases outcome : rule ⟨tokens, pos⟩ with
    | missed furthest =>
        rw [outcome] at reaches
        exact reaches
    | matched node rest furthest =>
        rw [outcome] at reaches
        exact reaches

/-! ## Repetition -/

theorem Tracks.repeats (tracks : Tracks language tokens rule) {pos rest : Nat}
    {nodes : List Node} (repeats : Repeats rule tokens pos nodes rest) :
    ∃ spelling ∈ language∗, Spans tokens spelling pos rest := by
  induction repeats with
  | stop => exact ⟨[], Language.nil_mem_kstar language, rfl⟩
  | next found _ _ inductionHypothesis =>
      obtain ⟨first, member, spans⟩ := tracks.found found
      obtain ⟨others, membersToo, spansToo⟩ := inductionHypothesis
      have wider : language * language∗ ≤ language∗ := mul_kstar_le_kstar
      exact ⟨first ++ others, wider (Language.append_mem_mul member membersToo),
        spans_append_iff.mpr ⟨_, spans, spansToo⟩⟩

/-- Behind what was repeated so far, one more attempt. -/
theorem Tracks.reaches_manyFrom (tracks : Tracks language tokens rule) {start pos : Nat}
    {found : List Node} {reached : Nat} {spelling : Spelling} (member : spelling ∈ language∗)
    (spans : Spans tokens spelling start pos) (before : Reaches language∗ tokens start reached) :
    Reaches language∗ tokens start (manyFrom rule tokens pos found reached).furthest := by
  have wider : language∗ * language ≤ language∗ := kstar_mul_le_kstar
  have attempt (pos : Nat) {spelling : Spelling} (member : spelling ∈ language∗)
      (spans : Spans tokens spelling start pos) :
      Reaches language∗ tokens start (rule ⟨tokens, pos⟩).furthest :=
    (Reaches.behind member spans (tracks.reaches pos)).mono wider
  fun_induction manyFrom rule tokens pos found reached generalizing spelling with
  | case1 pos found reached further outcome =>
      have reaches := attempt pos member spans
      rw [outcome] at reaches
      exact before.max reaches
  | case2 pos found reached node middle further outcome _ inductionHypothesis =>
      have reaches := attempt pos member spans
      rw [outcome] at reaches
      obtain ⟨last, lastMember, lastSpans⟩ := tracks.found ⟨further, outcome⟩
      exact inductionHypothesis (wider (Language.append_mem_mul member lastMember))
        (spans_append_iff.mpr ⟨pos, spans, lastSpans⟩) (before.max reaches)
  | case3 pos found reached node middle further outcome _ =>
      have reaches := attempt pos member spans
      rw [outcome] at reaches
      exact before.max reaches

/-- Behind the turns that find something comes one that misses. What it looks at can be completed to
one more turn. -/
theorem Tracks.many (tracks : Tracks language tokens rule) :
    Tracks language∗ tokens (Rule.many rule) where
  node := ⟨[]⟩
  sample := ⟨[], Language.nil_mem_kstar language, .nil⟩
  found _ _ _ found := tracks.repeats (finds_many_iff.mp found)
  reaches _ := tracks.reaches_manyFrom (Language.nil_mem_kstar language) rfl
    (reaches_start ⟨[], Language.nil_mem_kstar language, .nil⟩)

/-- What is completed to nothing can be completed to one word more. -/
theorem Reaches.once {pos furthest : Nat} (reaches : Reaches language∗ tokens pos furthest)
    (sample : ∃ spelling ∈ language, Spelling.Writable spelling) :
    Reaches (language * language∗) tokens pos furthest := by
  have more := reaches.followed sample
  rwa [Language.mul_self_kstar_comm] at more

theorem Tracks.many1 (tracks : Tracks language tokens rule) :
    Tracks (language * language∗) tokens (Rule.many1 rule) where
  node := ⟨[]⟩
  sample := by
    obtain ⟨spelling, member, writable⟩ := tracks.sample
    exact ⟨spelling ++ [], Language.append_mem_mul member (Language.nil_mem_kstar language),
      by rwa [List.append_nil]⟩
  found _ nodes _ found := by
    obtain ⟨nonempty, repeats⟩ := finds_many1_iff.mp found
    cases repeats with
    | stop => exact absurd rfl nonempty
    | next firstFound _ more =>
        obtain ⟨first, member, spans⟩ := tracks.found firstFound
        obtain ⟨others, membersToo, spansToo⟩ := tracks.repeats more
        exact ⟨first ++ others, Language.append_mem_mul member membersToo,
          spans_append_iff.mpr ⟨_, spans, spansToo⟩⟩
  reaches pos := by
    have reaches := (tracks.many.reaches pos).once tracks.sample
    unfold Rule.many1
    cases outcome : Rule.many rule ⟨tokens, pos⟩ with
    | missed furthest =>
        rw [outcome] at reaches
        exact reaches
    | matched nodes rest furthest =>
        rw [outcome] at reaches
        cases nodes with
        | nil => exact reaches
        | cons first others => exact reaches

/-! ## Recursion -/

/-- The inner uses of a rule stand further on, where fewer tokens are left. -/
theorem tracks_recursive {body : Rule Node → Rule Node} (node : Nonempty Node)
    (sample : ∃ spelling ∈ language, Spelling.Writable spelling)
    (step : ∀ inner, Tracks language tokens inner → Tracks language tokens (body inner)) :
    Tracks language tokens (recursive body) := by
  have each (pos : Nat) : (∀ node rest, Finds (recursive body) tokens pos node rest →
      ∃ spelling ∈ language, Spans tokens spelling pos rest) ∧
      Reaches language tokens pos (recursive body ⟨tokens, pos⟩).furthest := by
    induction left : tokens.size - pos using Nat.strong_induction_on generalizing pos with
    | _ left inductionHypothesis =>
        have inner : Tracks language tokens (behind body ⟨tokens, pos⟩) := by
          refine ⟨node, sample, ?_, ?_⟩
          · intro innerPos innerNode innerRest found
            obtain ⟨fewer, found⟩ := finds_behind_iff.mp found
            exact (inductionHypothesis _ (by omega) innerPos rfl).1 innerNode innerRest found
          · intro innerPos
            unfold behind
            split
            · rename_i fewer
              have fewer : tokens.size - innerPos < tokens.size - pos := fewer
              exact (inductionHypothesis _ (by omega) innerPos rfl).2
            · exact reaches_start sample
        have outer := step _ inner
        rw [recursive_eq_behind]
        exact ⟨fun node rest found => outer.found (finds_recursive_iff.mp found),
          outer.reaches pos⟩
  exact ⟨node, sample, fun pos node rest => (each pos).1 node rest, fun pos => (each pos).2⟩

theorem Tracks.ite {test : Cursor → Bool} {second : Rule Node}
    (first : Tracks language tokens rule) (next : Tracks language tokens second) :
    Tracks language tokens
      (fun cursor => if test cursor then rule cursor else second cursor) where
  node := first.node
  sample := first.sample
  found _ _ _ found := by
    rcases finds_ite_iff.mp found with ⟨_, found⟩ | ⟨_, found⟩
    · exact first.found found
    · exact next.found found
  reaches pos := by
    split
    · exact first.reaches pos
    · exact next.reaches pos

theorem tracks_missed (node : Nonempty Node)
    (sample : ∃ spelling ∈ language, Spelling.Writable spelling) :
    Tracks language tokens (fun cursor => (.missed cursor.pos : Outcome Node)) where
  node := node
  sample := sample
  found _ _ _ found := absurd found not_finds_missed
  reaches _ := reaches_start sample

end Combinators

/-! ## Languages of trees -/

namespace Phrase

variable {Node : Type}

/-- All spellings of trees that the grammar has. -/
def language (phrase : Phrase Node) : Language Piece :=
  {spelling | ∃ tree, phrase.WellFormed tree ∧ phrase.spelling tree = spelling}

variable {phrase : Phrase Node}

theorem kstar_language_le : phrase.language∗ ≤ phrase.list.language := by
  rintro _ ⟨spellings, rfl, each⟩
  induction spellings with
  | nil => exact ⟨[], by simp [list], rfl⟩
  | cons first others inductionHypothesis =>
      obtain ⟨⟨tree, formed, rfl⟩, rest⟩ := List.forall_mem_cons.mp each
      obtain ⟨trees, allFormed, spelled⟩ := inductionHypothesis rest
      refine ⟨tree :: trees, List.forall_mem_cons.mpr ⟨formed, allFormed⟩, ?_⟩
      rw [List.flatten_cons, ← spelled]
      rfl

theorem enclosed_language_le (opening closing : String) :
    {[Piece.symbol opening]} * (phrase.language * ({[Piece.symbol closing]} * 1)) ≤
      (phrase.enclosed opening closing).language := by
  rintro _ ⟨_, rfl, _, ⟨_, ⟨tree, formed, rfl⟩, _, ⟨_, rfl, _, rfl, rfl⟩, rfl⟩, rfl⟩
  exact ⟨tree, formed, rfl⟩

def commas1 (phrase : Phrase Node) : Phrase (List Node) :=
  { phrase.commas with
    WellFormed := fun trees => trees ≠ [] ∧ phrase.commas.WellFormed trees }

/-- The languages of the combinators are those of the trees: here with commas in between. -/
theorem commas_language_le :
    phrase.language * (({[Piece.symbol ","]} * phrase.language)∗ * 1) ≤
      phrase.commas1.language := by
  rintro _ ⟨_, ⟨first, formed, rfl⟩, _, ⟨_, repeated, _, rfl, rfl⟩, rfl⟩
  have behind : {[Piece.symbol ","]} * phrase.language ≤
      (phrase.behind (.symbol ",")).language := by
    rintro _ ⟨_, rfl, _, ⟨tree, formed, rfl⟩, rfl⟩
    exact ⟨tree, formed, rfl⟩
  obtain ⟨others, othersFormed, spelled⟩ := kstar_language_le (kstar_mono behind repeated)
  refine ⟨first :: others,
    ⟨List.cons_ne_nil _ _, List.forall_mem_cons.mpr ⟨formed, othersFormed⟩⟩, ?_⟩
  simp only [List.append_nil, ← spelled]
  simp [commas1, commas, separated, list, Phrase.behind, List.flatMap_map]

theorem one_add_commas1_le : 1 + phrase.commas1.language ≤ phrase.commas.language := by
  rintro _ (rfl | ⟨trees, ⟨_, formed⟩, rfl⟩)
  · exact ⟨[], by simp [commas], rfl⟩
  · exact ⟨trees, formed, rfl⟩

end Phrase

/-! ## Words -/

section Productions

variable {tokens : Array Token}

/-- The sample of a keyword is the keyword itself. -/
theorem tracks_keyword (lexed : Lexed tokens) (text : String)
    (reserved : Alphabet.isKeyword (utf8 text) = true) :
    Tracks {[Piece.keyword text]} tokens (word text) := by
  refine tracks_token ⟨_, rfl, ?_⟩ fun pos token here accepted => ⟨.keyword text, rfl, ?_⟩
  · exact Spelling.Writable.cons_iff.mpr ⟨writable_keyword text reserved, .nil⟩
  · have found : Finds (word text) tokens pos token (pos + 1) :=
      finds_token_iff.mpr ⟨here, accepted, rfl⟩
    exact ((lexed.finds_keyword_iff text reserved).mp found).2.1

theorem tracks_symbol (lexed : Lexed tokens) (text : String)
    (known : isSymbolText (utf8 text) = true) :
    Tracks {[Piece.symbol text]} tokens (word text) := by
  refine tracks_token ⟨_, rfl, ?_⟩ fun pos token here accepted => ⟨.symbol text, rfl, ?_⟩
  · exact Spelling.Writable.cons_iff.mpr ⟨writable_symbol text known, .nil⟩
  · have found : Finds (word text) tokens pos token (pos + 1) :=
      finds_token_iff.mpr ⟨here, accepted, rfl⟩
    exact ((lexed.finds_symbol_iff text known).mp found).2.1

/-- One of some keywords. -/
theorem tracks_words (lexed : Lexed tokens) (words : List String) (nonempty : words ≠ [])
    (reserved : ∀ text ∈ words, Alphabet.isKeyword (utf8 text) = true) :
    Tracks {spelling | ∃ text ∈ words, spelling = [Piece.keyword text]} tokens
      (firstOf (words.map word)) := by
  refine tracks_firstOf (by simpa using nonempty) ?_
  simp only [List.forall_mem_map]
  intro text member
  refine (tracks_keyword lexed text (reserved text member)).mono ?_
  rintro _ rfl
  exact ⟨text, member, rfl⟩

def Phrase.name : Phrase Bytes where
  spelling name := [.name name]
  WellFormed name := isIdentifier name = true
  withoutLines := id

theorem tracks_identifier (lexed : Lexed tokens) :
    Tracks Phrase.name.language tokens identifier := by
  refine tracks_token ⟨[.name (utf8 "x")], ⟨utf8 "x", rfl, rfl⟩, ?_⟩
    fun pos token here accepted => ?_
  · exact Spelling.Writable.cons_iff.mpr ⟨writable_name rfl, .nil⟩
  · have kind : token.kind = .identifier := by simpa using accepted
    exact ⟨.name token.content, ⟨_, lexed.isIdentifier here kind, rfl⟩, kind, rfl⟩

/-! ## Expressions -/

def symbolLanguage (symbols : List String) : Language Piece :=
  {spelling | ∃ symbol, isAmong symbols symbol = true ∧ spelling = [.exact .symbol symbol]}

theorem tracks_operator {symbols : List String} (text : String) (member : text ∈ symbols)
    (known : isSymbolText (utf8 text) = true) :
    Tracks (symbolLanguage symbols) tokens
      (do let token ← token (isSymbolIn symbols); return ⟨token.content, token.line⟩ :
        Rule Operator) := by
  have sample : isAmong symbols (utf8 text) = true := isAmong_iff.mpr ⟨text, member, rfl⟩
  refine Tracks.build (tracks_token ⟨_, ⟨utf8 text, sample, rfl⟩, ?_⟩
    fun pos token here accepted => ?_)
  · exact Spelling.Writable.cons_iff.mpr ⟨writable_symbol text known, .nil⟩
  · obtain ⟨kind, among⟩ := isSymbolIn_iff.mp accepted
    exact ⟨.exact .symbol token.content, ⟨_, among, rfl⟩, kind, rfl⟩

variable {inner : Rule Term}

/-- A term alone is an expression, so whatever completes a term completes an expression. -/
theorem tracks_expressionOf (terms : Tracks Phrase.term.language tokens inner) :
    Tracks Phrase.expression.language tokens (expressionOf inner) := by
  have operations : Tracks Phrase.operation.language tokens (operationOf inner) := by
    refine ((tracks_operator "+" (by decide) rfl).bind fun operator => terms.bind fun operand =>
      tracks_pure (operator, operand)).mono ?_
    rintro _ ⟨_, ⟨symbol, among, rfl⟩, _, ⟨_, ⟨operand, formed, rfl⟩, _, rfl, rfl⟩, rfl⟩
    refine ⟨(⟨symbol, 0⟩, operand), ⟨among, formed⟩, ?_⟩
    simp [Phrase.operation, Phrase.term]
  refine (terms.bind fun head => operations.many.bind fun tail =>
    tracks_pure (Expression.mk head tail)).mono ?_
  rintro _ ⟨_, ⟨head, headFormed, rfl⟩, _, ⟨_, repeated, _, rfl, rfl⟩, rfl⟩
  obtain ⟨tail, tailFormed, rfl⟩ := Phrase.kstar_language_le repeated
  refine ⟨.mk head tail, ?_, ?_⟩
  · have allFormed : Expression.tailWellFormed tail = true := by
      rw [Expression.tailWellFormed_eq_all, List.all_eq_true]
      intro operation member
      simpa [Phrase.operation] using tailFormed operation member
    simp only [Phrase.expression, Expression.wellFormed, Bool.and_eq_true]
    exact ⟨headFormed, allFormed⟩
  · simp only [Phrase.expression, Expression.spelling, Expression.tailSpelling_eq_flatMap,
      List.append_nil]
    rfl

theorem Tracks.separatedBy {Node Tree : Type} {phrase : Phrase Tree} {rule : Rule Node}
    (lexed : Lexed tokens) (tracks : Tracks phrase.language tokens rule) :
    Tracks phrase.commas1.language tokens (Rule.separatedBy rule (utf8 ",")) :=
  (tracks.bind fun first => ((tracks_symbol lexed "," rfl).bind fun _ => tracks).many.bind
    fun others => tracks_pure (first :: others)).mono Phrase.commas_language_le

theorem Tracks.optionalCommas {Node Tree : Type} {phrase : Phrase Tree} {rule : Rule Node}
    (lexed : Lexed tokens) (tracks : Tracks phrase.language tokens rule) :
    Tracks phrase.commas.language tokens (Phrase.optionalCommas rule) :=
  (tracks.separatedBy lexed).optional.build.mono Phrase.one_add_commas1_le

theorem tracks_argumentsOf (lexed : Lexed tokens)
    (terms : Tracks Phrase.term.language tokens inner) :
    Tracks Phrase.arguments.language tokens (argumentsOf inner) :=
  ((tracks_symbol lexed "(" rfl).bind fun _ =>
    ((tracks_expressionOf terms).optionalCommas lexed).bind fun arguments =>
      (tracks_symbol lexed ")" rfl).bind fun _ => tracks_pure arguments).mono
    (Phrase.enclosed_language_le "(" ")")

/-- Where the token behind the name makes no call, the name can still be completed to one. -/
theorem tracks_callOf (lexed : Lexed tokens) (terms : Tracks Phrase.term.language tokens inner) :
    Tracks Phrase.call.language tokens (callOf inner) := by
  have arguments := tracks_argumentsOf lexed terms
  have qualified : Tracks Phrase.call.language tokens
      (do
        let qualifier ← identifier
        let _ ← word "."
        let name ← identifier
        let arguments ← argumentsOf inner
        return Call.mk (some qualifier.content) name.content arguments qualifier.line) := by
    refine ((tracks_identifier lexed).bind fun qualifier =>
      (tracks_symbol lexed "." rfl).bind fun _ => (tracks_identifier lexed).bind fun name =>
        arguments.build).mono ?_
    rintro _ ⟨_, ⟨qualifier, (qualifierNamed : isIdentifier qualifier = true), rfl⟩, _, ⟨_, rfl, _,
      ⟨_, ⟨name, (named : isIdentifier name = true), rfl⟩, _, ⟨trees, formed, rfl⟩, rfl⟩, rfl⟩, rfl⟩
    refine ⟨.mk (some qualifier) name trees 0, ?_, ?_⟩
    · simp only [Phrase.call, Call.wellFormed, Option.all_some, qualifierNamed, named,
        Expression.allWellFormed_eq_all, Bool.true_and, List.all_eq_true]
      exact formed
    · simp only [Phrase.call, Call.spelling, Expression.spellings_eq_map]
      rfl
  have plain : Tracks Phrase.call.language tokens
      (do
        let name ← identifier
        let arguments ← argumentsOf inner
        return Call.mk none name.content arguments name.line) := by
    refine ((tracks_identifier lexed).bind fun name => arguments.build).mono ?_
    rintro _ ⟨_, ⟨name, (named : isIdentifier name = true), rfl⟩, _, ⟨trees, formed, rfl⟩, rfl⟩
    refine ⟨.mk none name trees 0, ?_, ?_⟩
    · simp only [Phrase.call, Call.wellFormed, Option.all_none, named,
        Expression.allWellFormed_eq_all, Bool.true_and, List.all_eq_true]
      exact formed
    · simp only [Phrase.call, Call.spelling, Expression.spellings_eq_map]
      rfl
  exact qualified.ite (plain.ite (tracks_missed plain.node plain.sample))

/-- A name can be completed to an element wherever an element is in the language. -/
theorem tracks_elementTermOf (lexed : Lexed tokens) {language : Language Piece}
    (terms : Tracks Phrase.term.language tokens inner)
    (elements : ∀ (array : Bytes) (index : Expression), isIdentifier array = true →
      index.wellFormed = true → (Term.element array index 0).spelling ∈ language) :
    Tracks language tokens (elementTermOf inner) := by
  have tracks : Tracks language tokens
      (do
        let name ← identifier
        let _ ← word "["
        let index ← expressionOf inner
        let _ ← word "]"
        return Term.element name.content index name.line) := by
    refine ((tracks_identifier lexed).bind fun name => (tracks_symbol lexed "[" rfl).bind fun _ =>
      (tracks_expressionOf terms).bind fun index => (tracks_symbol lexed "]" rfl).build).mono ?_
    rintro _ ⟨_, ⟨array, named, rfl⟩, _, ⟨_, rfl, _, ⟨_, ⟨index, formed, rfl⟩, _, rfl, rfl⟩,
      rfl⟩, rfl⟩
    have member := elements array index named formed
    simp only [Term.spelling] at member
    exact member
  exact tracks.ite (tracks_missed tracks.node tracks.sample)

/-- The token behind is looked at where an element could stand as well. -/
theorem tracks_nameTerm (lexed : Lexed tokens) {language : Language Piece}
    (names : Phrase.name.language ≤ language)
    (elements : ∀ (array : Bytes) (index : Expression), isIdentifier array = true →
      index.wellFormed = true → (Term.element array index 0).spelling ∈ language) :
    Tracks language tokens nameTerm := by
  have leaf : Tracks language tokens
      (do let token ← identifier; return Term.name token.content token.line) :=
    (tracks_identifier lexed).build.mono names
  refine ⟨leaf.node, leaf.sample, fun pos node rest found => ?_, fun pos => ?_⟩
  · rcases finds_ite_iff.mp found with ⟨_, found⟩ | ⟨_, found⟩
    · exact absurd found not_finds_missed
    · exact leaf.found found
  · unfold nameTerm
    split
    · rename_i follows
      have member := elements (utf8 "x") (.mk (.integer 0 0) []) rfl (by
        simp [Expression.wellFormed, Term.wellFormed, Expression.tailWellFormed])
      simp only [Term.spelling, Expression.spelling, Expression.tailSpelling, List.append_nil,
        List.singleton_append] at member
      refine ⟨[] ++ elementStart, [.number 0, .symbol "]"], member, ?_,
        .ahead rfl (followedBy_iff.mp follows)⟩
      exact Spelling.Writable.cons_iff.mpr ⟨writable_zero,
        Spelling.Writable.cons_iff.mpr ⟨writable_symbol "]" rfl, .nil⟩⟩
    · exact leaf.reaches pos

theorem name_language_le_term : Phrase.name.language ≤ Phrase.term.language := by
  rintro _ ⟨name, (named : isIdentifier name = true), rfl⟩
  refine ⟨.name name 0, ?_, ?_⟩
  · simpa only [Phrase.term, Term.wellFormed] using named
  · simp only [Phrase.term, Term.spelling]
    rfl

theorem element_mem_term (array : Bytes) (index : Expression) (named : isIdentifier array = true)
    (formed : index.wellFormed = true) :
    (Term.element array index 0).spelling ∈ Phrase.term.language := by
  refine ⟨.element array index 0, ?_, rfl⟩
  simp only [Phrase.term, Term.wellFormed, named, formed, Bool.and_self]

/-- Every attempt at a term can be completed to some term, though perhaps not to one of the form
tried. -/
theorem tracks_term (lexed : Lexed tokens) : Tracks Phrase.term.language tokens term := by
  have sample : ∃ spelling ∈ Phrase.term.language, Spelling.Writable spelling := by
    refine ⟨_, name_language_le_term ⟨utf8 "x", rfl, rfl⟩, ?_⟩
    exact Spelling.Writable.cons_iff.mpr ⟨writable_name rfl, .nil⟩
  refine tracks_recursive ⟨.integer 0 0⟩ sample fun inner terms => ?_
  refine tracks_firstOf (List.cons_ne_nil _ _) ?_
  simp only [termAlternatives, List.forall_mem_cons, List.not_mem_nil, false_imp_iff,
    implies_true, and_true]
  refine ⟨?_, ?_, ?_, ?_, tracks_elementTermOf lexed terms element_mem_term,
    tracks_nameTerm lexed name_language_le_term element_mem_term, ?_, ?_⟩
  · refine Tracks.build (tracks_token sample fun pos token here accepted => ?_)
    refine ⟨.number token.value, ⟨.integer token.value 0, ?_, ?_⟩, ?_, rfl⟩
    · simp only [Phrase.term, Term.wellFormed]
    · simp only [Phrase.term, Term.spelling]
    · simpa using accepted
  · refine Tracks.build (tracks_token sample fun pos token here accepted => ?_)
    refine ⟨.exact .string token.content, ⟨.string token.content 0, ?_, ?_⟩, ?_, rfl⟩
    · simp only [Phrase.term, Term.wellFormed]
    · simp only [Phrase.term, Term.spelling]
    · simpa using accepted
  · refine ((tracks_callOf lexed terms).build).mono ?_
    rintro _ ⟨called, formed, rfl⟩
    refine ⟨.call called, ?_, ?_⟩
    · simp only [Phrase.term, Term.wellFormed]
      exact formed
    · simp only [Phrase.term, Phrase.call, Term.spelling]
  · refine Tracks.build (tracks_token sample fun pos token here accepted => ?_)
    obtain ⟨kind, among⟩ := isKeywordConstant_iff.mp accepted
    refine ⟨.exact .keyword token.content, ⟨.keyword token.content 0, ?_, ?_⟩, kind, rfl⟩
    · simpa only [Phrase.term, Term.wellFormed] using among
    · simp only [Phrase.term, Term.spelling]
  · refine ((tracks_symbol lexed "(" rfl).bind fun start => (tracks_expressionOf terms).bind
      fun inside => (tracks_symbol lexed ")" rfl).build).mono ?_
    rintro _ ⟨_, rfl, _, ⟨_, ⟨inside, formed, rfl⟩, _, rfl, rfl⟩, rfl⟩
    refine ⟨.group inside 0, ?_, ?_⟩
    · simp only [Phrase.term, Term.wellFormed]
      exact formed
    · simp only [Phrase.term, Phrase.expression, Term.spelling]
      rfl
  · refine ((tracks_operator "-" (by decide) rfl).bind fun operator => terms.build).mono ?_
    rintro _ ⟨_, ⟨symbol, among, rfl⟩, _, ⟨operand, formed, rfl⟩, rfl⟩
    refine ⟨.unary ⟨symbol, 0⟩ operand 0, ?_, ?_⟩
    · simp only [Phrase.term, Term.wellFormed, Bool.and_eq_true]
      exact ⟨among, formed⟩
    · simp only [Phrase.term, Term.spelling]
      rfl

theorem tracks_expression (lexed : Lexed tokens) :
    Tracks Phrase.expression.language tokens expression :=
  tracks_expressionOf (tracks_term lexed)

/-! ## Statements -/

/-- Targets are names and elements, so a name can be completed in both ways. -/
theorem tracks_target (lexed : Lexed tokens) :
    Tracks Phrase.target.language tokens (firstOf [elementTerm, nameTerm]) := by
  have elements (array : Bytes) (index : Expression) (named : isIdentifier array = true)
      (formed : index.wellFormed = true) :
      (Term.element array index 0).spelling ∈ Phrase.target.language :=
    ⟨.element array index 0, ⟨rfl, by simp only [Term.wellFormed, named, formed, Bool.and_self]⟩,
      rfl⟩
  have names : Phrase.name.language ≤ Phrase.target.language := by
    rintro _ ⟨name, (named : isIdentifier name = true), rfl⟩
    refine ⟨.name name 0, ⟨rfl, by simpa only [Term.wellFormed] using named⟩, ?_⟩
    simp only [Phrase.target, Phrase.term, Term.spelling]
    rfl
  refine tracks_firstOf (List.cons_ne_nil _ _) ?_
  simp only [List.forall_mem_cons, List.not_mem_nil, false_imp_iff, implies_true, and_true]
  exact ⟨tracks_elementTermOf lexed (tracks_term lexed) elements,
    tracks_nameTerm lexed names elements⟩

theorem tracks_letStatement (lexed : Lexed tokens) :
    Tracks Phrase.statement.language tokens letStatement := by
  refine ((tracks_keyword lexed "let" rfl).bind fun start => (tracks_target lexed).bind
    fun target => (tracks_symbol lexed "=" rfl).bind fun _ => (tracks_expression lexed).bind
      fun value => (tracks_symbol lexed ";" rfl).build).mono ?_
  rintro _ ⟨_, rfl, _, ⟨_, ⟨target, ⟨isTarget, targetFormed⟩, rfl⟩, _, ⟨_, rfl, _,
    ⟨_, ⟨value, formed, rfl⟩, _, rfl, rfl⟩, rfl⟩, rfl⟩, rfl⟩
  refine ⟨.letTo target value 0, ?_, ?_⟩
  · simp only [Phrase.statement, Statement.wellFormed, Bool.and_eq_true]
    exact ⟨⟨isTarget, targetFormed⟩, formed⟩
  · simp only [Phrase.statement, Statement.spelling]
    rfl

theorem tracks_doStatement (lexed : Lexed tokens) :
    Tracks Phrase.statement.language tokens doStatement := by
  refine ((tracks_keyword lexed "do" rfl).bind fun start =>
    (tracks_callOf lexed (tracks_term lexed)).bind fun called =>
      (tracks_symbol lexed ";" rfl).build).mono ?_
  rintro _ ⟨_, rfl, _, ⟨_, ⟨called, formed, rfl⟩, _, rfl, rfl⟩, rfl⟩
  refine ⟨.doCall called 0, ?_, ?_⟩
  · simp only [Phrase.statement, Statement.wellFormed]
    exact formed
  · simp only [Phrase.statement, Statement.spelling]
    rfl

theorem tracks_returnStatement (lexed : Lexed tokens) :
    Tracks Phrase.statement.language tokens returnStatement := by
  refine ((tracks_keyword lexed "return" rfl).bind fun start =>
    (tracks_expression lexed).optional.bind fun value =>
      (tracks_symbol lexed ";" rfl).build).mono ?_
  rintro _ ⟨_, rfl, _, ⟨_, rfl | ⟨value, formed, rfl⟩, _, rfl, rfl⟩, rfl⟩
  · refine ⟨.giveBack none 0, ?_, ?_⟩
    · simp only [Phrase.statement, Statement.wellFormed, Option.all_none]
    · simp only [Phrase.statement, Statement.spelling]
      rfl
  · refine ⟨.giveBack (some value) 0, ?_, ?_⟩
    · simp only [Phrase.statement, Statement.wellFormed, Option.all_some]
      exact formed
    · simp only [Phrase.statement, Statement.spelling]
      rfl

theorem tracks_condition (lexed : Lexed tokens) :
    Tracks Phrase.condition.language tokens condition :=
  ((tracks_symbol lexed "(" rfl).bind fun _ => (tracks_expression lexed).bind fun _ =>
    (tracks_symbol lexed ")" rfl).bind fun _ => tracks_pure _).mono
    (Phrase.enclosed_language_le "(" ")")

theorem tracks_blockOf (lexed : Lexed tokens) {inner : Rule Statement}
    (body : Tracks Phrase.statement.language tokens inner) :
    Tracks Phrase.block.language tokens (blockOf inner) := by
  have statements : Tracks Phrase.statements1.language tokens (many1 inner) := by
    refine body.many1.mono ?_
    rintro _ ⟨_, ⟨first, formed, rfl⟩, _, repeated, rfl⟩
    obtain ⟨others, othersFormed, rfl⟩ := Phrase.kstar_language_le repeated
    exact ⟨first :: others,
      ⟨List.cons_ne_nil _ _, List.forall_mem_cons.mpr ⟨formed, othersFormed⟩⟩, rfl⟩
  exact ((tracks_symbol lexed "\x7b" rfl).bind fun _ => statements.bind fun _ =>
    (tracks_symbol lexed "\x7d" rfl).bind fun _ => tracks_pure _).mono
    (Phrase.enclosed_language_le "\x7b" "\x7d")

theorem exists_of_mem_block {spelling : Spelling} (member : spelling ∈ Phrase.block.language) :
    ∃ trees, trees.isEmpty = false ∧ Statement.allWellFormed trees = true ∧
      spelling = .symbol "\x7b" :: (Statement.allSpelling trees ++ [.symbol "\x7d"]) := by
  obtain ⟨trees, ⟨nonempty, formed⟩, rfl⟩ := member
  refine ⟨trees, List.isEmpty_eq_false_iff.mpr nonempty, ?_, ?_⟩
  · rw [Statement.allWellFormed_eq_all, List.all_eq_true]
    exact formed
  · rw [Statement.allSpelling_eq_flatMap]
    rfl

theorem tracks_whileStatementOf (lexed : Lexed tokens) {inner : Rule Statement}
    (body : Tracks Phrase.statement.language tokens inner) :
    Tracks Phrase.statement.language tokens (whileStatementOf inner) := by
  refine ((tracks_keyword lexed "while" rfl).bind fun start => (tracks_condition lexed).bind
    fun condition => (tracks_blockOf lexed body).build).mono ?_
  rintro _ ⟨_, rfl, _, ⟨_, ⟨condition, formed, rfl⟩, _, block, rfl⟩, rfl⟩
  obtain ⟨trees, nonempty, allFormed, rfl⟩ := exists_of_mem_block block
  refine ⟨.whileDo condition trees 0, ?_, ?_⟩
  · simp only [Phrase.statement, Statement.wellFormed, nonempty, allFormed, Bool.not_false,
      Bool.and_true]
    exact formed
  · simp only [Phrase.statement, Phrase.condition, Phrase.enclosed, Phrase.expression,
      Statement.spelling, List.cons_append, List.nil_append, List.append_assoc]

/-- Without its else, an `if` is complete. So an `else` that breaks off counts as one more start. -/
theorem tracks_ifStatementOf (lexed : Lexed tokens) {inner : Rule Statement}
    (body : Tracks Phrase.statement.language tokens inner) :
    Tracks Phrase.statement.language tokens (ifStatementOf inner) := by
  have block := tracks_blockOf lexed body
  have otherwise : Tracks Phrase.otherwise.language tokens (Rule.optional (elseOf inner)) := by
    refine ((tracks_keyword lexed "else" rfl).bind fun _ => block).optional.mono ?_
    rintro _ (rfl | ⟨_, rfl, _, member, rfl⟩)
    · refine ⟨none, ?_, ?_⟩
      · simp only [Phrase.otherwise, Statement.elseWellFormed]
      · simp only [Phrase.otherwise, Statement.elseSpelling]
    · obtain ⟨trees, nonempty, allFormed, rfl⟩ := exists_of_mem_block member
      refine ⟨some trees, ?_, ?_⟩
      · simp only [Phrase.otherwise, Statement.elseWellFormed, nonempty, allFormed,
          Bool.not_false, Bool.and_true]
      · simp only [Phrase.otherwise, Statement.elseSpelling]
        rfl
  refine ((tracks_keyword lexed "if" rfl).bind fun start => (tracks_condition lexed).bind
    fun condition => block.bind fun whenTrue => otherwise.build).mono ?_
  rintro _ ⟨_, rfl, _, ⟨_, ⟨condition, formed, rfl⟩, _, ⟨_, member, _, ⟨elsewhere, elseFormed, rfl⟩,
    rfl⟩, rfl⟩, rfl⟩
  obtain ⟨trees, nonempty, allFormed, rfl⟩ := exists_of_mem_block member
  refine ⟨.ifElse condition trees elsewhere 0, ?_, ?_⟩
  · simp only [Phrase.statement, Statement.wellFormed, nonempty, allFormed, Bool.not_false,
      Bool.and_true, Bool.and_eq_true]
    exact ⟨formed, elseFormed⟩
  · simp only [Phrase.statement, Phrase.condition, Phrase.enclosed, Phrase.expression,
      Phrase.otherwise, Statement.spelling, List.cons_append, List.nil_append, List.append_assoc]

/-- Statements of all kinds look no further than what can still become a statement. -/
theorem tracks_statement (lexed : Lexed tokens) :
    Tracks Phrase.statement.language tokens statement := by
  have known := tracks_returnStatement lexed
  refine tracks_recursive known.node known.sample fun inner body => ?_
  refine tracks_firstOf (List.cons_ne_nil _ _) ?_
  simp only [statementAlternatives, List.forall_mem_cons, List.not_mem_nil, false_imp_iff,
    implies_true, and_true]
  exact ⟨tracks_ifStatementOf lexed body, tracks_whileStatementOf lexed body,
    tracks_doStatement lexed, tracks_letStatement lexed, known⟩

/-! ## Declarations -/

theorem keyword_mem_type {reserved : List String} {text : String} (member : text ∈ reserved) :
    [Piece.keyword text] ∈ (Phrase.type reserved).language := by
  have among : isAmong reserved (utf8 text) = true := isAmong_iff.mpr ⟨text, member, rfl⟩
  refine ⟨utf8 text, ?_, ?_⟩
  · simp only [Phrase.type, isType, among, Bool.true_or]
  · exact congrArg (fun kind => [Piece.exact kind (utf8 text)]) (if_pos among)

theorem name_language_le_type {reserved : List String}
    (keywords : ∀ text ∈ reserved, Alphabet.isKeyword (utf8 text) = true) :
    Phrase.name.language ≤ (Phrase.type reserved).language := by
  rintro _ ⟨name, (named : isIdentifier name = true), rfl⟩
  have free : ¬ isAmong reserved name = true := by
    rw [isAmong_of_isIdentifier keywords named]
    exact Bool.false_ne_true
  refine ⟨name, ?_, ?_⟩
  · simp only [Phrase.type, isType, named, Bool.or_true]
  · exact congrArg (fun kind => [Piece.exact kind name]) (if_neg free)

theorem variableTypes_language_le :
    (Phrase.type variableTypes).language ≤ (Phrase.type resultTypes).language := by
  rintro _ ⟨name, formed, rfl⟩
  simp only [Phrase.type, isType, Bool.or_eq_true] at formed
  by_cases among : isAmong variableTypes name = true
  · obtain ⟨text, member, rfl⟩ := isAmong_iff.mp among
    have spelled : (Phrase.type variableTypes).spelling (utf8 text) = [.keyword text] :=
      congrArg (fun kind => [Piece.exact kind (utf8 text)]) (if_pos among)
    rw [spelled]
    exact keyword_mem_type (List.mem_cons_of_mem _ member)
  · have spelled : (Phrase.type variableTypes).spelling name = [.name name] :=
      congrArg (fun kind => [Piece.exact kind name]) (if_neg among)
    rw [spelled]
    exact name_language_le_type keywords_resultTypes ⟨name, formed.resolve_left among, rfl⟩

theorem tracks_type (lexed : Lexed tokens) :
    Tracks (Phrase.type variableTypes).language tokens type := by
  have reserved (text : String) (member : text ∈ variableTypes) :
      Tracks (Phrase.type variableTypes).language tokens (word text) := by
    refine (tracks_keyword lexed text (keywords_variableTypes text member)).mono ?_
    rintro _ rfl
    exact keyword_mem_type member
  refine Tracks.build (tracks_firstOf (List.cons_ne_nil _ _) ?_)
  simp only [List.forall_mem_cons, List.not_mem_nil, false_imp_iff, implies_true, and_true]
  exact ⟨reserved "int" (by decide), reserved "char" (by decide), reserved "boolean" (by decide),
    (tracks_identifier lexed).mono (name_language_le_type keywords_variableTypes)⟩

theorem tracks_variableList (lexed : Lexed tokens) (start : Token) :
    Tracks Phrase.variableList.language tokens (variableList start) := by
  have names : Tracks Phrase.names.language tokens names := by
    refine ((tracks_identifier lexed).separatedBy lexed).build.mono ?_
    rintro _ ⟨names, formed, rfl⟩
    exact ⟨names, formed, rfl⟩
  refine ((tracks_type lexed).bind fun type => names.bind fun names =>
    (tracks_symbol lexed ";" rfl).build).mono ?_
  rintro _ ⟨_, ⟨type, typeFormed, rfl⟩, _, ⟨_, ⟨names, ⟨nonempty, named⟩, rfl⟩, _, rfl, rfl⟩, rfl⟩
  refine ⟨⟨type, names, 0⟩, ?_, rfl⟩
  simp only [Phrase.variableList, VariableList.wellFormed, Bool.and_eq_true, List.all_eq_true,
    Bool.not_eq_true', List.isEmpty_eq_false_iff]
  exact ⟨⟨typeFormed, nonempty⟩, named⟩

theorem tracks_classVariables (lexed : Lexed tokens) :
    Tracks Phrase.classVariables.language tokens classVariables := by
  refine ((tracks_words lexed classVariableWords (List.cons_ne_nil _ _)
    keywords_classVariableWords).bind fun start =>
      (tracks_variableList lexed start).build).mono ?_
  rintro _ ⟨_, ⟨text, member, rfl⟩, _, ⟨list, formed, rfl⟩, rfl⟩
  refine ⟨⟨classVariableKind (utf8 text), list⟩, formed, ?_⟩
  simp only [Phrase.classVariables, ClassVariables.spelling, name_classVariableKind text member]
  rfl

theorem tracks_localVariables (lexed : Lexed tokens) :
    Tracks Phrase.localVariables.language tokens localVariables := by
  refine ((tracks_keyword lexed "var" rfl).bind fun start =>
    tracks_variableList lexed start).mono ?_
  rintro _ ⟨_, rfl, _, ⟨list, formed, rfl⟩, rfl⟩
  exact ⟨list, formed, rfl⟩

theorem tracks_parameter (lexed : Lexed tokens) :
    Tracks Phrase.parameter.language tokens parameter := by
  refine ((tracks_type lexed).bind fun type => (tracks_identifier lexed).build).mono ?_
  rintro _ ⟨_, ⟨type, formed, rfl⟩, _, ⟨name, (named : isIdentifier name = true), rfl⟩, rfl⟩
  refine ⟨⟨type, name⟩, ?_, rfl⟩
  simp only [Phrase.parameter, Parameter.wellFormed, named, Bool.and_true]
  exact formed

theorem tracks_subroutineBody (lexed : Lexed tokens) :
    Tracks Phrase.body.language tokens subroutineBody := by
  refine ((tracks_symbol lexed "\x7b" rfl).bind fun _ => (tracks_localVariables lexed).many.bind
    fun locals => (tracks_statement lexed).many.bind fun statements =>
      (tracks_symbol lexed "\x7d" rfl).build).mono ?_
  rintro _ ⟨_, rfl, _, ⟨_, inLocals, _, ⟨_, inStatements, _, rfl, rfl⟩, rfl⟩, rfl⟩
  obtain ⟨locals, localsFormed, rfl⟩ := Phrase.kstar_language_le inLocals
  obtain ⟨statements, formed, rfl⟩ := Phrase.kstar_language_le inStatements
  refine ⟨⟨locals, statements⟩, ?_, ?_⟩
  · simp only [Phrase.body, SubroutineBody.wellFormed, Bool.and_eq_true, List.all_eq_true,
      Statement.allWellFormed_eq_all]
    exact ⟨localsFormed, formed⟩
  · simp only [Phrase.body, SubroutineBody.spelling, Statement.allSpelling_eq_flatMap]
    rfl

/-- A subroutine that breaks off anywhere can be completed to a subroutine. -/
theorem tracks_subroutine (lexed : Lexed tokens) :
    Tracks Phrase.subroutine.language tokens subroutine := by
  have result : Tracks (Phrase.type resultTypes).language tokens
      (firstOf [Token.content <$> word "void", type]) := by
    refine tracks_firstOf (List.cons_ne_nil _ _) ?_
    simp only [List.forall_mem_cons, List.not_mem_nil, false_imp_iff, implies_true, and_true]
    refine ⟨(tracks_keyword lexed "void" rfl).build.mono ?_,
      (tracks_type lexed).mono variableTypes_language_le⟩
    rintro _ rfl
    exact keyword_mem_type (by decide)
  refine ((tracks_words lexed subroutineWords (List.cons_ne_nil _ _)
    keywords_subroutineWords).bind fun start => result.bind fun result =>
      (tracks_identifier lexed).bind fun name => (tracks_symbol lexed "(" rfl).bind fun _ =>
        ((tracks_parameter lexed).separatedBy lexed).optional.bind fun parameters =>
          (tracks_symbol lexed ")" rfl).bind fun _ => (tracks_subroutineBody lexed).build).mono ?_
  rintro _ ⟨_, ⟨text, member, rfl⟩, _, ⟨_, ⟨result, resultFormed, rfl⟩, _,
    ⟨_, ⟨name, (named : isIdentifier name = true), rfl⟩, _, ⟨_, rfl, _,
      ⟨_, inParameters, _, ⟨_, rfl, _, ⟨body, bodyFormed, rfl⟩, rfl⟩, rfl⟩, rfl⟩, rfl⟩, rfl⟩, rfl⟩
  obtain ⟨parameters, formed, rfl⟩ := Phrase.one_add_commas1_le inParameters
  refine ⟨⟨subroutineKind (utf8 text), result, name, parameters, body, 0⟩, ?_, ?_⟩
  · simp only [Phrase.subroutine, Subroutine.wellFormed, named, Bool.and_eq_true,
      List.all_eq_true, and_true]
    exact ⟨⟨resultFormed, formed⟩, bodyFormed⟩
  · simp only [Phrase.subroutine, Subroutine.spelling, name_subroutineKind text member]
    rfl

/-- Wherever the parser looks, the tokens up to there can still become a class, or an element can
stand in place of the last one. -/
theorem tracks_classTree (lexed : Lexed tokens) :
    Tracks Phrase.classTree.language tokens classTree := by
  refine ((tracks_keyword lexed "class" rfl).bind fun start => (tracks_identifier lexed).bind
    fun name => (tracks_symbol lexed "\x7b" rfl).bind fun _ =>
      (tracks_classVariables lexed).many.bind fun declarations =>
        (tracks_subroutine lexed).many.bind fun subroutines =>
          (tracks_symbol lexed "\x7d" rfl).build).mono ?_
  rintro _ ⟨_, rfl, _, ⟨_, ⟨name, (named : isIdentifier name = true), rfl⟩, _, ⟨_, rfl, _,
    ⟨_, inDeclarations, _,
    ⟨_, inSubroutines, _, rfl, rfl⟩, rfl⟩, rfl⟩, rfl⟩, rfl⟩
  obtain ⟨declarations, declarationsFormed, rfl⟩ := Phrase.kstar_language_le inDeclarations
  obtain ⟨subroutines, formed, rfl⟩ := Phrase.kstar_language_le inSubroutines
  refine ⟨⟨name, declarations, subroutines, 0⟩, ?_, rfl⟩
  simp only [Phrase.classTree, ClassTree.wellFormed, named, Bool.and_eq_true, List.all_eq_true,
    true_and]
  exact ⟨declarationsFormed, formed⟩

end Productions

end Jack
