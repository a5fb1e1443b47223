import Jack.Proofs.Grammar.Phrases

/-!
Contract: the rules for expressions find exactly the expressions.

Owns: for terms, expressions and calls that their rules are sound, and complete where
nothing follows that would continue them.

Does not own: statements and declarations.

All rules are built from one for terms that stand further on. What is shown about them
assumes the same about that rule; for terms themselves it then follows position by
position, from the last token backwards.
-/

set_option autoImplicit false

namespace Jack

open Rule Production

/-! ## Kinds of trees, and what may stand behind them -/

namespace Phrase

def term : Phrase Term where
  spelling := Term.spelling
  WellFormed tree := tree.wellFormed = true
  withoutLines := Term.withoutLines

def operation : Phrase (Operator × Term) where
  spelling tree := .exact .symbol tree.1.symbol :: tree.2.spelling
  WellFormed tree := isAmong binarySymbols tree.1.symbol = true ∧ tree.2.wellFormed = true
  withoutLines tree := (⟨tree.1.symbol, 0⟩, tree.2.withoutLines)

def expression : Phrase Expression where
  spelling := Expression.spelling
  WellFormed tree := tree.wellFormed = true
  withoutLines := Expression.withoutLines

def arguments : Phrase (List Expression) :=
  expression.commas.enclosed "(" ")"

def call : Phrase Call where
  spelling := Call.spelling
  WellFormed tree := tree.wellFormed = true
  withoutLines := Call.withoutLines

end Phrase

/-- What makes a name more than a variable. -/
def nameSuffixes : List String :=
  ["(", ".", "["]

def afterTerm (token : Token) : Bool :=
  !isSymbolIn nameSuffixes token

def afterExpression (token : Token) : Bool :=
  afterTerm token && !isSymbolIn binarySymbols token

theorem isSymbolIn_iff {symbols : List String} {token : Token} :
    isSymbolIn symbols token = true ↔
      token.kind = .symbol ∧ isAmong symbols token.content = true := by
  simp [isSymbolIn, isAmong]

theorem isKeywordConstant_iff {token : Token} :
    isKeywordConstant token = true ↔
      token.kind = .keyword ∧ isAmong keywordConstants token.content = true := by
  simp [isKeywordConstant, isAmong, keywordConstants]

section Expressions

variable {tokens : Array Token} {inner : Rule Term} {pos rest : Nat}

/-! ## Expressions -/

/-- An expression is a term and operations one after the other. No operator binds tighter than
another. -/
theorem written_expression_iff {head : Term} {tail : List (Operator × Term)} :
    Phrase.expression.Written tokens (.mk head tail) pos rest ↔
      ∃ middle, Phrase.term.Written tokens head pos middle ∧
        Phrase.operation.list.Written tokens tail middle rest := by
  simp only [Phrase.Written, Phrase.expression, Phrase.term, Phrase.list, Phrase.operation,
    Expression.wellFormed, Expression.spelling, Expression.tailWellFormed_eq_all,
    Expression.tailSpelling_eq_flatMap, spans_append_iff, Bool.and_eq_true, List.all_eq_true]
  constructor
  · rintro ⟨⟨headFormed, tailFormed⟩, middle, inHead, inTail⟩
    exact ⟨middle, ⟨headFormed, inHead⟩, tailFormed, inTail⟩
  · rintro ⟨middle, ⟨headFormed, inHead⟩, tailFormed, inTail⟩
    exact ⟨⟨headFormed, tailFormed⟩, middle, inHead, inTail⟩

def operationOf (inner : Rule Term) : Rule (Operator × Term) := do
  let operator ← binaryOperator
  let operand ← inner
  return (operator, operand)

theorem finds_operationOf_iff {node : Operator × Term} :
    Finds (operationOf inner) tokens pos node rest ↔
      ∃ token, tokens[pos]? = some token ∧ isSymbolIn binarySymbols token = true ∧
        Finds inner tokens (pos + 1) node.2 rest ∧ node.1 = ⟨token.content, token.line⟩ := by
  obtain ⟨operator, operand⟩ := node
  simp only [operationOf, binaryOperator, finds_bind_iff, finds_token_iff, finds_pure_iff,
    Prod.mk.injEq]
  constructor
  · rintro ⟨_, _, ⟨token, _, ⟨here, accepted, rfl⟩, rfl, rfl⟩, _, _, found, ⟨rfl, rfl⟩, rfl⟩
    exact ⟨token, here, accepted, found, rfl⟩
  · rintro ⟨token, here, accepted, found, rfl⟩
    exact ⟨_, _, ⟨token, _, ⟨here, accepted, rfl⟩, rfl, rfl⟩, operand, rest, found, ⟨rfl, rfl⟩,
      rfl⟩

theorem finds_expressionOf_iff {head : Term} {tail : List (Operator × Term)} :
    Finds (expressionOf inner) tokens pos (.mk head tail) rest ↔
      ∃ middle, Finds inner tokens pos head middle ∧
        Repeats (operationOf inner) tokens middle tail rest := by
  have unfolded : expressionOf inner = do
      let head ← inner
      let tail ← many (operationOf inner)
      return .mk head tail := rfl
  simp only [unfolded, finds_bind_iff, finds_many_iff, finds_pure_iff, Expression.mk.injEq]
  constructor
  · rintro ⟨_, middle, found, _, _, repeats, ⟨rfl, rfl⟩, rfl⟩
    exact ⟨middle, found, repeats⟩
  · rintro ⟨middle, found, repeats⟩
    exact ⟨head, middle, found, tail, rest, repeats, ⟨rfl, rfl⟩, rfl⟩

theorem sound_operationOf (sound : Phrase.term.Sound tokens inner) :
    Phrase.operation.Sound tokens (operationOf inner) := by
  rintro pos ⟨operator, operand⟩ rest found
  obtain ⟨token, here, accepted, found, rfl⟩ := finds_operationOf_iff.mp found
  obtain ⟨kind, among⟩ := isSymbolIn_iff.mp accepted
  obtain ⟨formed, spans⟩ := sound found
  exact ⟨⟨among, formed⟩, ⟨token, here, kind, rfl⟩, spans⟩

/-- What may follow an operation is what may follow its term. -/
theorem complete_operationOf {start : Nat}
    (complete : Phrase.term.Complete tokens start afterTerm inner) :
    Phrase.operation.Complete tokens start afterTerm (operationOf inner) := by
  rintro ⟨operator, operand⟩ pos rest further
    ⟨⟨among, formed⟩, ⟨token, here, kind, content⟩, spans⟩ ahead
  obtain ⟨node, found, same⟩ := complete (Nat.le_succ_of_le further) ⟨formed, spans⟩ ahead
  have accepted : isSymbolIn binarySymbols token = true :=
    isSymbolIn_iff.mpr ⟨kind, by rw [content]; exact among⟩
  refine ⟨(⟨token.content, token.line⟩, node), ?_, ?_⟩
  · exact finds_operationOf_iff.mpr ⟨token, here, accepted, found, rfl⟩
  · exact congrArg₂ (fun symbol operand => ((⟨symbol, 0⟩ : Operator), operand)) content same

theorem sound_expressionOf (sound : Phrase.term.Sound tokens inner) :
    Phrase.expression.Sound tokens (expressionOf inner) := by
  rintro pos ⟨head, tail⟩ rest found
  obtain ⟨middle, headFound, repeats⟩ := finds_expressionOf_iff.mp found
  exact written_expression_iff.mpr
    ⟨middle, sound headFound, (sound_operationOf sound).list repeats⟩

/-- An operator may stand behind a term. -/
theorem operation_starts ⦃tree : Operator × Term⦄ ⦃pos rest : Nat⦄
    (written : Phrase.operation.Written tokens tree pos rest) :
    Ahead tokens afterTerm pos ∧ Phrase.operation.spelling tree ≠ [] := by
  have noSuffix : ∀ text ∈ binarySymbols.map utf8, isAmong nameSuffixes text = false := by
    decide +kernel
  obtain ⟨⟨among, _⟩, operator, _⟩ := written
  refine ⟨operator.ahead fun line => ?_, by simp [Phrase.operation]⟩
  have otherSymbol := noSuffix tree.1.symbol (by simpa [isAmong] using among)
  simpa [afterTerm, isSymbolIn, isAmong] using otherSymbol

/-- An expression ends where no operator follows. Otherwise the repetition would go on. -/
theorem complete_expressionOf {start : Nat}
    (complete : Phrase.term.Complete tokens start afterTerm inner) :
    Phrase.expression.Complete tokens start afterExpression (expressionOf inner) := by
  rintro ⟨head, tail⟩ pos rest further written ahead
  obtain ⟨middle, headWritten, tailWritten⟩ := written_expression_iff.mp written
  have aheadTerm : Ahead tokens afterTerm rest := fun token here => by
    have allowed := ahead token here
    simp only [afterExpression, Bool.and_eq_true] at allowed
    exact allowed.1
  have stops : Misses (operationOf inner) tokens rest := by
    intro node last found
    obtain ⟨token, here, accepted, _⟩ := finds_operationOf_iff.mp found
    have allowed := ahead token here
    simp [afterExpression, accepted] at allowed
  obtain ⟨headNode, headFound, sameHead⟩ := complete further headWritten
    (Phrase.ahead_of_written_list (fun _ _ _ written => (operation_starts written).1)
      tailWritten aheadTerm)
  obtain ⟨tailNodes, repeats, sameTail⟩ := (complete_operationOf complete).list operation_starts
    (further.trans headWritten.2.le) tailWritten aheadTerm stops
  refine ⟨.mk headNode tailNodes, ?_, ?_⟩
  · exact finds_expressionOf_iff.mpr ⟨middle, headFound, repeats⟩
  · simp only [Phrase.expression, Expression.withoutLines, Expression.tailWithoutLines_eq_map,
      Expression.mk.injEq]
    exact ⟨sameHead, sameTail⟩

/-! ## Calls -/

def startsTerm (token : Token) : Bool :=
  match token.kind with
  | .symbol => isAmong ["(", "-", "~"] token.content
  | .comment => false
  | _ => true

/-- The first token tells that a term starts here. The converse is false: a bracket may be
missing. -/
theorem term_starts {tree : Term} (written : Phrase.term.Written tokens tree pos rest) :
    ∃ token, tokens[pos]? = some token ∧ startsTerm token = true := by
  obtain ⟨formed, spans⟩ := written
  simp only [Phrase.term] at formed spans
  cases tree with
  | integer | string | keyword | name =>
      rw [Term.spelling] at spans
      obtain ⟨⟨token, here, kind, _⟩, _⟩ := spans
      exact ⟨token, here, by simp [startsTerm, kind]⟩
  | element | group =>
      rw [Term.spelling] at spans
      obtain ⟨⟨token, here, kind, content⟩, _⟩ := spans
      exact ⟨token, here, by simp [startsTerm, kind, content, isAmong]⟩
  | call called =>
      obtain ⟨qualifier, name, arguments, line⟩ := called
      rw [Term.spelling] at spans
      cases qualifier <;>
      · rw [Call.spelling] at spans
        obtain ⟨⟨token, here, kind, _⟩, _⟩ := spans
        exact ⟨token, here, by simp [startsTerm, kind]⟩
  | unary operator operand =>
      rw [Term.wellFormed, Bool.and_eq_true] at formed
      rw [Term.spelling] at spans
      obtain ⟨⟨token, here, kind, content⟩, _⟩ := spans
      refine ⟨token, here, ?_⟩
      rw [startsTerm, kind, content]
      exact List.contains_iff_mem.mpr
        (List.mem_cons_of_mem _ (List.contains_iff_mem.mp formed.1))

/-- No expression starts with a token that starts no term. -/
theorem misses_expressionOf (sound : Phrase.term.Sound tokens inner)
    (ahead : Ahead tokens (fun token => !startsTerm token) pos) :
    Misses (expressionOf inner) tokens pos := by
  rintro ⟨head, tail⟩ last found
  obtain ⟨_, headFound, _⟩ := finds_expressionOf_iff.mp found
  obtain ⟨token, here, starts⟩ := term_starts (sound headFound)
  simpa [starts] using ahead token here

theorem sound_expressionListOf (lexed : Lexed tokens)
    (sound : Phrase.term.Sound tokens inner) :
    Phrase.expression.commas.Sound tokens (expressionListOf inner) :=
  (sound_expressionOf sound).optionalCommas lexed

/-- A list of expressions may be empty. Then the closing parenthesis is what keeps the rule from
finding a term. -/
theorem complete_expressionListOf {start : Nat} (lexed : Lexed tokens)
    (sound : Phrase.term.Sound tokens inner)
    (complete : Phrase.term.Complete tokens start afterTerm inner) :
    Phrase.expression.commas.Complete tokens start (isSymbol ")") (expressionListOf inner) :=
  (complete_expressionOf complete).optionalCommas lexed (fun _ => rfl) (fun _ => rfl)
    (fun _ => rfl) fun _ ahead =>
      misses_expressionOf sound (ahead.mono (forall_isSymbol_iff.mpr fun _ => rfl))

theorem sound_argumentsOf (lexed : Lexed tokens) (sound : Phrase.term.Sound tokens inner) :
    Phrase.arguments.Sound tokens (argumentsOf inner) :=
  (sound_expressionListOf lexed sound).enclosed lexed rfl rfl

/-- Behind the opening parenthesis there are fewer tokens left, so the inner rule is only needed
from the next position on. -/
theorem complete_argumentsOf {start : Nat} (lexed : Lexed tokens)
    (sound : Phrase.term.Sound tokens inner)
    (complete : Phrase.term.Complete tokens (start + 1) afterTerm inner) :
    Phrase.arguments.Complete tokens start anything (argumentsOf inner) :=
  (complete_expressionListOf lexed sound complete).enclosed lexed rfl rfl

theorem at_of_finds_argumentsOf (lexed : Lexed tokens) {nodes : List Expression}
    (found : Finds (argumentsOf inner) tokens pos nodes rest) : At tokens (.symbol "(") pos := by
  obtain ⟨_, opens, _⟩ := (Phrase.finds_between_iff lexed "(" ")" rfl rfl).mp found
  exact opens

theorem followedBy_iff {symbols : List String} :
    followedBy ⟨tokens, pos⟩ symbols = true ↔
      ∃ token, tokens[pos + 1]? = some token ∧ isSymbolIn symbols token = true := by
  simp [followedBy, Cursor.following?, Option.any_eq_true]

theorem followedBy_single_iff {text : String} :
    followedBy ⟨tokens, pos⟩ [text] = true ↔ At tokens (.symbol text) (pos + 1) := by
  rw [followedBy_iff]
  refine exists_congr fun token => and_congr_right fun _ => ?_
  simp [isSymbolIn, Piece.symbol, Piece.Matches]

/-- Where the token behind is known, the look ahead is decided. -/
theorem followedBy_of_at {text : String} {symbols : List String}
    (next : At tokens (.symbol text) (pos + 1)) :
    followedBy ⟨tokens, pos⟩ symbols = isAmong symbols (utf8 text) := by
  obtain ⟨token, here, kind, content⟩ := next
  simp [followedBy, Cursor.following?, here, isSymbolIn, kind, content, isAmong]

/-- A name is a variable if none of the three suffixes is behind it. The end of the tokens counts as
no suffix. -/
theorem followedBy_nameSuffixes_eq_false_iff :
    followedBy ⟨tokens, pos⟩ nameSuffixes = false ↔ Ahead tokens afterTerm (pos + 1) := by
  simp only [Bool.eq_false_iff, ne_eq, followedBy_iff, not_exists, not_and, Ahead, afterTerm,
    Bool.not_eq_true']

/-- A call is found in one of two forms: with a qualifier and a dot, or with a name alone. -/
theorem finds_callOf_iff (lexed : Lexed tokens) {node : Call} :
    Finds (callOf inner) tokens pos node rest ↔
      (∃ qualifier name arguments, tokens[pos]? = some qualifier ∧
        qualifier.kind = .identifier ∧ At tokens (.symbol ".") (pos + 1) ∧
        tokens[pos + 2]? = some name ∧ name.kind = .identifier ∧
        Finds (argumentsOf inner) tokens (pos + 3) arguments rest ∧
        node = .mk (some qualifier.content) name.content arguments qualifier.line) ∨
      ∃ name arguments, tokens[pos]? = some name ∧ name.kind = .identifier ∧
        Finds (argumentsOf inner) tokens (pos + 1) arguments rest ∧
        node = .mk none name.content arguments name.line := by
  constructor
  · intro found
    obtain ⟨_, found⟩ | ⟨_, found⟩ := finds_ite_iff.mp found
    · simp only [identifier, finds_bind_iff, finds_ofKind_iff, lexed.finds_symbol_iff "." rfl,
        finds_pure_iff] at found
      obtain ⟨qualifier, _, ⟨here, kind, rfl⟩, dot, _, ⟨dotHere, isDot, rfl⟩, name, _,
        ⟨nameHere, nameKind, rfl⟩, arguments, _, found, rfl, rfl⟩ := found
      exact .inl ⟨qualifier, name, arguments, here, kind, ⟨dot, dotHere, isDot⟩, nameHere,
        nameKind, found, rfl⟩
    · obtain ⟨_, found⟩ | ⟨_, found⟩ := finds_ite_iff.mp found
      · simp only [identifier, finds_bind_iff, finds_ofKind_iff, finds_pure_iff] at found
        obtain ⟨name, _, ⟨here, kind, rfl⟩, arguments, _, found, rfl, rfl⟩ := found
        exact .inr ⟨name, arguments, here, kind, found, rfl⟩
      · exact absurd found not_finds_missed
  · rintro (⟨qualifier, name, arguments, here, kind, isDot, nameHere, nameKind, found, rfl⟩ |
      ⟨name, arguments, here, kind, found, rfl⟩)
    · refine finds_ite_iff.mpr (.inl ⟨followedBy_single_iff.mpr isDot, ?_⟩)
      obtain ⟨dot, dotHere, isDot⟩ := isDot
      simp only [identifier, finds_bind_iff, finds_ofKind_iff, lexed.finds_symbol_iff "." rfl,
        finds_pure_iff]
      exact ⟨qualifier, _, ⟨here, kind, rfl⟩, dot, _, ⟨dotHere, isDot, rfl⟩, name, _,
        ⟨nameHere, nameKind, rfl⟩, arguments, rest, found, rfl, rfl⟩
    · have opens := at_of_finds_argumentsOf lexed found
      have noDot : followedBy ⟨tokens, pos⟩ ["."] = false := followedBy_of_at opens
      refine finds_ite_iff.mpr (.inr ⟨noDot, finds_ite_iff.mpr (.inl
        ⟨followedBy_single_iff.mpr opens, ?_⟩)⟩)
      simp only [identifier, finds_bind_iff, finds_ofKind_iff, finds_pure_iff]
      exact ⟨name, _, ⟨here, kind, rfl⟩, arguments, rest, found, rfl, rfl⟩

theorem sound_callOf (lexed : Lexed tokens) (sound : Phrase.term.Sound tokens inner) :
    Phrase.call.Sound tokens (callOf inner) := by
  intro pos node rest found
  obtain ⟨qualifier, name, arguments, here, kind, dot, nameHere, nameKind, inside, rfl⟩ |
    ⟨name, arguments, here, kind, inside, rfl⟩ := (finds_callOf_iff lexed).mp found
  · obtain ⟨formed, spans⟩ := sound_argumentsOf lexed sound inside
    refine ⟨?_, ?_⟩
    · simp only [Phrase.call, Call.wellFormed, Option.all_some, lexed.isIdentifier here kind,
        lexed.isIdentifier nameHere nameKind, Bool.true_and, Expression.allWellFormed_eq_all,
        List.all_eq_true]
      exact formed
    · simp only [Phrase.call, Call.spelling, Expression.spellings_eq_map]
      exact ⟨⟨qualifier, here, kind, rfl⟩, dot, ⟨name, nameHere, nameKind, rfl⟩, spans⟩
  · obtain ⟨formed, spans⟩ := sound_argumentsOf lexed sound inside
    refine ⟨?_, ?_⟩
    · simp only [Phrase.call, Call.wellFormed, Option.all_none, lexed.isIdentifier here kind,
        Bool.true_and, Expression.allWellFormed_eq_all, List.all_eq_true]
      exact formed
    · simp only [Phrase.call, Call.spelling, Expression.spellings_eq_map]
      exact ⟨⟨name, here, kind, rfl⟩, spans⟩

/-- The token behind the first name decides between the two forms, so no form is tried in vain. -/
theorem complete_callOf {start : Nat} (lexed : Lexed tokens)
    (sound : Phrase.term.Sound tokens inner)
    (complete : Phrase.term.Complete tokens (start + 1) afterTerm inner) :
    Phrase.call.Complete tokens start anything (callOf inner) := by
  rintro ⟨qualifier, name, arguments, line⟩ pos rest further ⟨formed, spans⟩ _
  simp only [Phrase.call, Call.wellFormed, Bool.and_eq_true, Expression.allWellFormed_eq_all,
    List.all_eq_true] at formed
  have completeArguments := complete_argumentsOf lexed sound complete
  cases qualifier with
  | some qualifier =>
      simp only [Phrase.call, Call.spelling, Expression.spellings_eq_map] at spans
      obtain ⟨⟨first, here, kind, content⟩, dot, ⟨second, nameHere, nameKind, nameContent⟩,
        spans⟩ := spans
      obtain ⟨nodes, found, same⟩ := completeArguments (by omega) ⟨formed.2, spans⟩
        fun _ _ => rfl
      refine ⟨.mk (some first.content) second.content nodes first.line, ?_, ?_⟩
      · exact (finds_callOf_iff lexed).mpr (.inl ⟨first, second, nodes, here, kind, dot,
          nameHere, nameKind, found, rfl⟩)
      · simp only [Phrase.call, Call.withoutLines, Expression.allWithoutLines_eq_map,
          Call.mk.injEq, and_true]
        exact ⟨congrArg some content, nameContent, same⟩
  | none =>
      simp only [Phrase.call, Call.spelling, Expression.spellings_eq_map] at spans
      obtain ⟨⟨first, here, kind, content⟩, spans⟩ := spans
      obtain ⟨nodes, found, same⟩ := completeArguments (by omega) ⟨formed.2, spans⟩
        fun _ _ => rfl
      refine ⟨.mk none first.content nodes first.line, ?_, ?_⟩
      · exact (finds_callOf_iff lexed).mpr (.inr ⟨first, nodes, here, kind, found, rfl⟩)
      · simp only [Phrase.call, Call.withoutLines, Expression.allWithoutLines_eq_map,
          Call.mk.injEq, true_and, and_true]
        exact ⟨content, same⟩

/-! ## Terms -/

/-- A variable is read only where no suffix makes it an element or a call. -/
theorem finds_nameTerm_iff {node : Term} :
    Finds nameTerm tokens pos node rest ↔
      ∃ name, tokens[pos]? = some name ∧ name.kind = .identifier ∧
        Ahead tokens afterTerm (pos + 1) ∧ node = .name name.content name.line ∧
        rest = pos + 1 := by
  constructor
  · intro found
    obtain ⟨_, found⟩ | ⟨behind, found⟩ := finds_ite_iff.mp found
    · exact absurd found not_finds_missed
    · simp only [identifier, finds_bind_iff, finds_ofKind_iff, finds_pure_iff] at found
      obtain ⟨name, _, ⟨here, kind, rfl⟩, rfl, rfl⟩ := found
      exact ⟨name, here, kind, followedBy_nameSuffixes_eq_false_iff.mp behind, rfl, rfl⟩
  · rintro ⟨name, here, kind, behind, rfl, rfl⟩
    refine finds_ite_iff.mpr (.inr ⟨followedBy_nameSuffixes_eq_false_iff.mpr behind, ?_⟩)
    simp only [identifier, finds_bind_iff, finds_ofKind_iff, finds_pure_iff]
    exact ⟨name, _, ⟨here, kind, rfl⟩, rfl, rfl⟩

theorem finds_elementTermOf_iff (lexed : Lexed tokens) {node : Term} :
    Finds (elementTermOf inner) tokens pos node rest ↔
      ∃ name index middle, tokens[pos]? = some name ∧ name.kind = .identifier ∧
        At tokens (.symbol "[") (pos + 1) ∧
        Finds (expressionOf inner) tokens (pos + 2) index middle ∧
        At tokens (.symbol "]") middle ∧ node = .element name.content index name.line ∧
        rest = middle + 1 := by
  constructor
  · intro found
    obtain ⟨_, found⟩ | ⟨_, found⟩ := finds_ite_iff.mp found
    · simp only [identifier, finds_bind_iff, finds_ofKind_iff, lexed.finds_symbol_iff "[" rfl,
        lexed.finds_symbol_iff "]" rfl, finds_pure_iff] at found
      obtain ⟨name, _, ⟨here, kind, rfl⟩, opening, _, ⟨opensHere, opens, rfl⟩, index, middle,
        inside, closing, _, ⟨closesHere, closes, rfl⟩, rfl, rfl⟩ := found
      exact ⟨name, index, middle, here, kind, ⟨opening, opensHere, opens⟩, inside,
        ⟨closing, closesHere, closes⟩, rfl, rfl⟩
    · exact absurd found not_finds_missed
  · rintro ⟨name, index, middle, here, kind, opens, found, ⟨closing, closesHere, closes⟩, rfl,
      rfl⟩
    refine finds_ite_iff.mpr (.inl ⟨followedBy_single_iff.mpr opens, ?_⟩)
    obtain ⟨opening, opensHere, opens⟩ := opens
    simp only [identifier, finds_bind_iff, finds_ofKind_iff, lexed.finds_symbol_iff "[" rfl,
      lexed.finds_symbol_iff "]" rfl, finds_pure_iff]
    exact ⟨name, _, ⟨here, kind, rfl⟩, opening, _, ⟨opensHere, opens, rfl⟩, index, middle,
      found, closing, _, ⟨closesHere, closes, rfl⟩, rfl, rfl⟩

theorem finds_groupTermOf_iff (lexed : Lexed tokens) {node : Term} :
    Finds (groupTermOf inner) tokens pos node rest ↔
      ∃ opening tree middle, tokens[pos]? = some opening ∧
        (Piece.symbol "(").Matches opening ∧
        Finds (expressionOf inner) tokens (pos + 1) tree middle ∧
        At tokens (.symbol ")") middle ∧ node = .group tree opening.line ∧
        rest = middle + 1 := by
  simp only [groupTermOf, finds_bind_iff, lexed.finds_symbol_iff "(" rfl,
    lexed.finds_symbol_iff ")" rfl, finds_pure_iff]
  constructor
  · rintro ⟨opening, _, ⟨here, opens, rfl⟩, tree, middle, found, closing, _,
      ⟨closesHere, closes, rfl⟩, rfl, rfl⟩
    exact ⟨opening, tree, middle, here, opens, found, ⟨closing, closesHere, closes⟩, rfl, rfl⟩
  · rintro ⟨opening, tree, middle, here, opens, found, ⟨closing, closesHere, closes⟩, rfl, rfl⟩
    exact ⟨opening, _, ⟨here, opens, rfl⟩, tree, middle, found, closing, _,
      ⟨closesHere, closes, rfl⟩, rfl, rfl⟩

theorem finds_unaryTermOf_iff {node : Term} :
    Finds (unaryTermOf inner) tokens pos node rest ↔
      ∃ token operand, tokens[pos]? = some token ∧ isSymbolIn unarySymbols token = true ∧
        Finds inner tokens (pos + 1) operand rest ∧
        node = .unary ⟨token.content, token.line⟩ operand token.line := by
  simp only [unaryTermOf, unaryOperator, finds_bind_iff, finds_token_iff, finds_pure_iff]
  constructor
  · rintro ⟨_, _, ⟨token, _, ⟨here, accepted, rfl⟩, rfl, rfl⟩, operand, _, found, rfl, rfl⟩
    exact ⟨token, operand, here, accepted, found, rfl⟩
  · rintro ⟨token, operand, here, accepted, found, rfl⟩
    exact ⟨_, _, ⟨token, _, ⟨here, accepted, rfl⟩, rfl, rfl⟩, operand, rest, found, rfl, rfl⟩

section Written

variable {line : Int}

theorem written_name_iff {name : Bytes} :
    Phrase.term.Written tokens (.name name line) pos rest ↔
      isIdentifier name = true ∧ At tokens (.name name) pos ∧ rest = pos + 1 := by
  simp only [Phrase.Written, Phrase.term, Term.wellFormed, Term.spelling, spans_cons_iff,
    spans_nil_iff]

theorem written_element_iff {array : Bytes} {index : Expression} :
    Phrase.term.Written tokens (.element array index line) pos rest ↔
      isIdentifier array = true ∧ At tokens (.name array) pos ∧
        At tokens (.symbol "[") (pos + 1) ∧
        ∃ middle, Phrase.expression.Written tokens index (pos + 2) middle ∧
          At tokens (.symbol "]") middle ∧ rest = middle + 1 := by
  simp only [Phrase.Written, Phrase.term, Phrase.expression, Term.wellFormed, Term.spelling,
    Bool.and_eq_true, spans_cons_iff, spans_append_iff, spans_nil_iff]
  constructor
  · rintro ⟨⟨named, formed⟩, first, opens, middle, spans, closes, rfl⟩
    exact ⟨named, first, opens, middle, ⟨formed, spans⟩, closes, rfl⟩
  · rintro ⟨named, first, opens, middle, ⟨formed, spans⟩, closes, rfl⟩
    exact ⟨⟨named, formed⟩, first, opens, middle, spans, closes, rfl⟩

theorem written_group_iff {tree : Expression} :
    Phrase.term.Written tokens (.group tree line) pos rest ↔
      At tokens (.symbol "(") pos ∧
        ∃ middle, Phrase.expression.Written tokens tree (pos + 1) middle ∧
          At tokens (.symbol ")") middle ∧ rest = middle + 1 := by
  simp only [Phrase.Written, Phrase.term, Phrase.expression, Term.wellFormed, Term.spelling,
    spans_cons_iff, spans_append_iff, spans_nil_iff]
  constructor
  · rintro ⟨formed, opens, middle, spans, closes, rfl⟩
    exact ⟨opens, middle, ⟨formed, spans⟩, closes, rfl⟩
  · rintro ⟨opens, middle, ⟨formed, spans⟩, closes, rfl⟩
    exact ⟨formed, opens, middle, spans, closes, rfl⟩

/-- A unary operator applies to a term, which may be another unary one. -/
theorem written_unary_iff {operator : Operator} {operand : Term} :
    Phrase.term.Written tokens (.unary operator operand line) pos rest ↔
      isAmong unarySymbols operator.symbol = true ∧
        At tokens (.exact .symbol operator.symbol) pos ∧
        Phrase.term.Written tokens operand (pos + 1) rest := by
  simp only [Phrase.Written, Phrase.term, Term.wellFormed, Term.spelling, Bool.and_eq_true,
    spans_cons_iff]
  constructor
  · rintro ⟨⟨among, formed⟩, first, spans⟩
    exact ⟨among, first, formed, spans⟩
  · rintro ⟨among, first, formed, spans⟩
    exact ⟨⟨among, formed⟩, first, spans⟩

theorem written_integer_iff {value : Int} :
    Phrase.term.Written tokens (.integer value line) pos rest ↔
      At tokens (.number value) pos ∧ rest = pos + 1 := by
  simp only [Phrase.Written, Phrase.term, Term.wellFormed, Term.spelling, spans_cons_iff,
    spans_nil_iff, true_and]

theorem written_string_iff {value : Bytes} :
    Phrase.term.Written tokens (.string value line) pos rest ↔
      At tokens (.exact .string value) pos ∧ rest = pos + 1 := by
  simp only [Phrase.Written, Phrase.term, Term.wellFormed, Term.spelling, spans_cons_iff,
    spans_nil_iff, true_and]

theorem written_keyword_iff {word : Bytes} :
    Phrase.term.Written tokens (.keyword word line) pos rest ↔
      isAmong keywordConstants word = true ∧ At tokens (.exact .keyword word) pos ∧
        rest = pos + 1 := by
  simp only [Phrase.Written, Phrase.term, Term.wellFormed, Term.spelling, spans_cons_iff,
    spans_nil_iff]

theorem written_callTerm_iff {called : Call} :
    Phrase.term.Written tokens (.call called) pos rest ↔
      Phrase.call.Written tokens called pos rest := by
  simp only [Phrase.Written, Phrase.term, Phrase.call, Term.wellFormed, Term.spelling]

end Written

theorem sound_nameTerm (lexed : Lexed tokens) : Phrase.term.Sound tokens nameTerm := by
  intro pos node rest found
  obtain ⟨name, here, kind, _, rfl, rfl⟩ := finds_nameTerm_iff.mp found
  exact written_name_iff.mpr ⟨lexed.isIdentifier here kind, ⟨name, here, kind, rfl⟩, rfl⟩

theorem sound_elementTermOf (lexed : Lexed tokens) (sound : Phrase.term.Sound tokens inner) :
    Phrase.term.Sound tokens (elementTermOf inner) := by
  intro pos node rest found
  obtain ⟨name, index, middle, here, kind, opens, inside, closes, rfl, rfl⟩ :=
    (finds_elementTermOf_iff lexed).mp found
  exact written_element_iff.mpr ⟨lexed.isIdentifier here kind, ⟨name, here, kind, rfl⟩, opens,
    middle, sound_expressionOf sound inside, closes, rfl⟩

/-- Each alternative for a term is sound. -/
theorem sound_of_mem_termAlternatives (lexed : Lexed tokens)
    (sound : Phrase.term.Sound tokens inner) :
    ∀ alternative ∈ termAlternatives inner, Phrase.term.Sound tokens alternative := by
  simp only [termAlternatives, List.forall_mem_cons, List.not_mem_nil, IsEmpty.forall_iff,
    implies_true, and_true]
  refine ⟨?_, ?_, ?_, ?_, sound_elementTermOf lexed sound, sound_nameTerm lexed, ?_, ?_⟩ <;>
    intro pos node rest found
  · simp only [integerTerm, finds_bind_iff, finds_ofKind_iff, finds_pure_iff] at found
    obtain ⟨token, _, ⟨here, kind, rfl⟩, rfl, rfl⟩ := found
    exact written_integer_iff.mpr ⟨⟨token, here, kind, rfl⟩, rfl⟩
  · simp only [stringTerm, finds_bind_iff, finds_ofKind_iff, finds_pure_iff] at found
    obtain ⟨token, _, ⟨here, kind, rfl⟩, rfl, rfl⟩ := found
    exact written_string_iff.mpr ⟨⟨token, here, kind, rfl⟩, rfl⟩
  · obtain ⟨called, inside, rfl⟩ := finds_map_iff.mp found
    exact written_callTerm_iff.mpr (sound_callOf lexed sound inside)
  · simp only [keywordTerm, finds_bind_iff, finds_token_iff, finds_pure_iff] at found
    obtain ⟨token, _, ⟨here, accepted, rfl⟩, rfl, rfl⟩ := found
    obtain ⟨kind, among⟩ := isKeywordConstant_iff.mp accepted
    exact written_keyword_iff.mpr ⟨among, ⟨token, here, kind, rfl⟩, rfl⟩
  · obtain ⟨opening, tree, middle, here, opens, inside, closes, rfl, rfl⟩ :=
      (finds_groupTermOf_iff lexed).mp found
    exact written_group_iff.mpr
      ⟨⟨opening, here, opens⟩, middle, sound_expressionOf sound inside, closes, rfl⟩
  · obtain ⟨token, operand, here, accepted, inside, rfl⟩ := finds_unaryTermOf_iff.mp found
    obtain ⟨kind, among⟩ := isSymbolIn_iff.mp accepted
    exact written_unary_iff.mpr ⟨among, ⟨token, here, kind, rfl⟩, sound inside⟩

/-- The rule for a variable refuses a name with a suffix, so none may follow. -/
theorem complete_nameTerm {name : Bytes} {line : Int}
    (written : Phrase.term.Written tokens (.name name line) pos rest)
    (ahead : Ahead tokens afterTerm rest) :
    ∃ node, Finds nameTerm tokens pos node rest ∧
      node.withoutLines = (Term.name name line).withoutLines := by
  obtain ⟨_, ⟨token, here, kind, rfl⟩, rfl⟩ := written_name_iff.mp written
  refine ⟨.name token.content token.line, ?_, by simp only [Term.withoutLines]⟩
  exact finds_nameTerm_iff.mpr ⟨token, here, kind, ahead, rfl, rfl⟩

/-- The index stands behind the name and the bracket; so the inner rule is used further on. -/
theorem complete_elementTermOf {array : Bytes} {index : Expression} {line : Int}
    (lexed : Lexed tokens) (complete : Phrase.term.Complete tokens (pos + 1) afterTerm inner)
    (written : Phrase.term.Written tokens (.element array index line) pos rest) :
    ∃ node, Finds (elementTermOf inner) tokens pos node rest ∧
      node.withoutLines = (Term.element array index line).withoutLines := by
  obtain ⟨_, ⟨token, here, kind, rfl⟩, opens, middle, inside, closes, rfl⟩ :=
    written_element_iff.mp written
  obtain ⟨node, found, same⟩ := complete_expressionOf complete (by omega) inside
    (closes.ahead fun _ => rfl)
  refine ⟨.element token.content node token.line, ?_, ?_⟩
  · exact (finds_elementTermOf_iff lexed).mpr
      ⟨token, node, middle, here, kind, opens, found, closes, rfl, rfl⟩
  · simp only [Term.withoutLines, Term.element.injEq, true_and, and_true]
    exact same

/-- What a term is, as its first tokens tell it. -/
inductive TermStart where
  | integer
  | string
  | keyword
  | name
  | element
  | call
  | group
  | unary
deriving DecidableEq

/-- Reads the first two tokens. Where no term starts, the answer does not matter. -/
def termStart (tokens : Array Token) (pos : Nat) : TermStart :=
  match tokens[pos]? with
  | none => .name
  | some token =>
      match token.kind with
      | .integer => .integer
      | .string => .string
      | .keyword => .keyword
      | .symbol => if isSymbolIn unarySymbols token then .unary else .group
      | .identifier | .comment =>
          if followedBy ⟨tokens, pos⟩ nameSuffixes then
            if followedBy ⟨tokens, pos⟩ ["["] then .element else .call
          else .name

/-- The alternatives for a term with what tells them apart. -/
def termChoices (inner : Rule Term) : List (TermStart × Rule Term) :=
  [(.integer, integerTerm), (.string, stringTerm), (.call, Term.call <$> callOf inner),
    (.keyword, keywordTerm), (.element, elementTermOf inner), (.name, nameTerm),
    (.group, groupTermOf inner), (.unary, unaryTermOf inner)]

/-- An alternative that finds something agrees with the first two tokens on what starts here. So at
most one alternative finds anything. -/
theorem termStart_of_finds (lexed : Lexed tokens) :
    ∀ choice ∈ termChoices inner, ∀ node rest, Finds choice.2 tokens pos node rest →
      choice.1 = termStart tokens pos := by
  simp only [termChoices, List.forall_mem_cons, List.not_mem_nil, IsEmpty.forall_iff,
    implies_true, and_true]
  refine ⟨?_, ?_, ?_, ?_, ?_, ?_, ?_, ?_⟩ <;> intro node rest found
  · simp only [integerTerm, finds_bind_iff, finds_ofKind_iff] at found
    obtain ⟨token, _, ⟨here, kind, _⟩, _⟩ := found
    simp only [termStart, here, kind]
  · simp only [stringTerm, finds_bind_iff, finds_ofKind_iff] at found
    obtain ⟨token, _, ⟨here, kind, _⟩, _⟩ := found
    simp only [termStart, here, kind]
  · obtain ⟨called, inside, _⟩ := finds_map_iff.mp found
    obtain ⟨token, _, _, here, kind, next, _⟩ | ⟨token, _, here, kind, inside, _⟩ :=
      (finds_callOf_iff lexed).mp inside
    · simp only [termStart, here, kind, followedBy_of_at next]
      rfl
    · simp only [termStart, here, kind,
        followedBy_of_at (at_of_finds_argumentsOf lexed inside)]
      rfl
  · simp only [keywordTerm, finds_bind_iff, finds_token_iff] at found
    obtain ⟨token, _, ⟨here, accepted, _⟩, _⟩ := found
    simp only [termStart, here, (isKeywordConstant_iff.mp accepted).1]
  · obtain ⟨token, _, _, here, kind, next, _⟩ := (finds_elementTermOf_iff lexed).mp found
    simp only [termStart, here, kind, followedBy_of_at next]
    rfl
  · obtain ⟨token, here, kind, behind, _⟩ := finds_nameTerm_iff.mp found
    simp only [termStart, here, kind, followedBy_nameSuffixes_eq_false_iff.mpr behind,
      Bool.false_eq_true, if_false]
  · obtain ⟨token, _, _, here, ⟨kind, content⟩, _⟩ := (finds_groupTermOf_iff lexed).mp found
    simp only [termStart, here, kind, isSymbolIn, content]
    rfl
  · obtain ⟨token, _, here, accepted, _⟩ := finds_unaryTermOf_iff.mp found
    simp only [termStart, here, (isSymbolIn_iff.mp accepted).1, accepted, if_true]

/-- The first alternative that finds something is the only one. -/
theorem finds_termAlternatives_iff (lexed : Lexed tokens) {node : Term} :
    Finds (firstOf (termAlternatives inner)) tokens pos node rest ↔
      ∃ choice ∈ termChoices inner, Finds choice.2 tokens pos node rest :=
  finds_firstOf_iff_of_keys (termStart tokens pos) (by simp [termChoices])
    (termStart_of_finds lexed)

/-- One turn of the recursion of terms is sound if the inner rule is. -/
theorem sound_termAlternatives (lexed : Lexed tokens)
    (sound : Phrase.term.Sound tokens inner) :
    Phrase.term.Sound tokens (firstOf (termAlternatives inner)) := by
  intro pos node rest found
  obtain ⟨choice, member, inside⟩ := (finds_termAlternatives_iff lexed).mp found
  exact sound_of_mem_termAlternatives lexed sound choice.2 (List.mem_map_of_mem member) inside

/-- Which alternative finds a term depends on its form. -/
theorem complete_termAlternatives {start : Nat} (lexed : Lexed tokens)
    (sound : Phrase.term.Sound tokens inner)
    (complete : Phrase.term.Complete tokens (start + 1) afterTerm inner) :
    Phrase.term.Complete tokens start afterTerm (firstOf (termAlternatives inner)) := by
  intro tree pos rest further written ahead
  have innerComplete : Phrase.term.Complete tokens (pos + 1) afterTerm inner :=
    complete.later (Nat.succ_le_succ further)
  suffices ∃ choice ∈ termChoices inner, ∃ node, Finds choice.2 tokens pos node rest ∧
      node.withoutLines = tree.withoutLines by
    obtain ⟨choice, member, node, found, same⟩ := this
    exact ⟨node, (finds_termAlternatives_iff lexed).mpr ⟨choice, member, found⟩, same⟩
  cases tree with
  | integer value line =>
      obtain ⟨⟨token, here, kind, rfl⟩, rfl⟩ := written_integer_iff.mp written
      refine ⟨(.integer, integerTerm), by simp [termChoices], .integer token.value token.line,
        ?_, by simp only [Term.withoutLines]⟩
      simp only [integerTerm, finds_bind_iff, finds_ofKind_iff, finds_pure_iff]
      exact ⟨token, _, ⟨here, kind, rfl⟩, rfl, rfl⟩
  | string value line =>
      obtain ⟨⟨token, here, kind, rfl⟩, rfl⟩ := written_string_iff.mp written
      refine ⟨(.string, stringTerm), by simp [termChoices], .string token.content token.line,
        ?_, by simp only [Term.withoutLines]⟩
      simp only [stringTerm, finds_bind_iff, finds_ofKind_iff, finds_pure_iff]
      exact ⟨token, _, ⟨here, kind, rfl⟩, rfl, rfl⟩
  | keyword word line =>
      obtain ⟨among, ⟨token, here, kind, rfl⟩, rfl⟩ := written_keyword_iff.mp written
      refine ⟨(.keyword, keywordTerm), by simp [termChoices],
        .keyword token.content token.line, ?_, by simp only [Term.withoutLines]⟩
      simp only [keywordTerm, finds_bind_iff, finds_token_iff, finds_pure_iff]
      exact ⟨token, _, ⟨here, isKeywordConstant_iff.mpr ⟨kind, among⟩, rfl⟩, rfl, rfl⟩
  | name name line =>
      exact ⟨(.name, nameTerm), by simp [termChoices], complete_nameTerm written ahead⟩
  | element array index line =>
      exact ⟨(.element, elementTermOf inner), by simp [termChoices],
        complete_elementTermOf lexed innerComplete written⟩
  | call called =>
      obtain ⟨node, found, same⟩ := complete_callOf lexed sound innerComplete le_rfl
        (written_callTerm_iff.mp written) fun _ _ => rfl
      refine ⟨(.call, Term.call <$> callOf inner), by simp [termChoices], .call node, ?_, ?_⟩
      · exact finds_map_iff.mpr ⟨node, found, rfl⟩
      · simp only [Term.withoutLines, Term.call.injEq]
        exact same
  | group tree line =>
      obtain ⟨⟨opening, here, opens⟩, middle, inside, closes, rfl⟩ :=
        written_group_iff.mp written
      obtain ⟨node, found, same⟩ := complete_expressionOf innerComplete le_rfl inside
        (closes.ahead fun _ => rfl)
      refine ⟨(.group, groupTermOf inner), by simp [termChoices], .group node opening.line,
        ?_, ?_⟩
      · exact (finds_groupTermOf_iff lexed).mpr
          ⟨opening, node, middle, here, opens, found, closes, rfl, rfl⟩
      · simp only [Term.withoutLines, Term.group.injEq, and_true]
        exact same
  | unary operator operand line =>
      obtain ⟨among, ⟨token, here, kind, content⟩, inside⟩ := written_unary_iff.mp written
      obtain ⟨node, found, same⟩ := innerComplete le_rfl inside ahead
      have accepted : isSymbolIn unarySymbols token = true :=
        isSymbolIn_iff.mpr ⟨kind, by rw [content]; exact among⟩
      refine ⟨(.unary, unaryTermOf inner), by simp [termChoices],
        .unary ⟨token.content, token.line⟩ node token.line, ?_, ?_⟩
      · exact finds_unaryTermOf_iff.mpr ⟨token, node, here, accepted, found, rfl⟩
      · simp only [Term.withoutLines, content, Term.unary.injEq, true_and, and_true]
        exact same

end Expressions

/-! ## All positions -/

theorem Term.spelling_ne_nil (tree : Term) : tree.spelling ≠ [] := by
  cases tree with
  | call called =>
      obtain ⟨_ | _, _, _, _⟩ := called <;> simp only [Term.spelling, Call.spelling] <;> simp
  | _ => simp only [Term.spelling]; simp

section Terms

variable {tokens : Array Token}

/-- What is read as a term is a well-formed term, spelled by the tokens read. -/
theorem sound_term (lexed : Lexed tokens) : Phrase.term.Sound tokens Production.term :=
  .recursive fun _ sound => sound_termAlternatives lexed sound

/-- Every well-formed term is read where its tokens stand, if no suffix comes behind it. -/
theorem complete_term (lexed : Lexed tokens) :
    Phrase.term.Complete tokens 0 afterTerm Production.term :=
  .recursive (fun _ sound => sound_termAlternatives lexed sound) Term.spelling_ne_nil
    fun _ _ sound complete => complete_termAlternatives lexed sound complete

theorem sound_expression (lexed : Lexed tokens) :
    Phrase.expression.Sound tokens expression :=
  sound_expressionOf (sound_term lexed)

/-- Every well-formed expression is read where its tokens stand, if neither an operator nor a suffix
comes behind it. -/
theorem complete_expression (lexed : Lexed tokens) :
    Phrase.expression.Complete tokens 0 afterExpression expression :=
  complete_expressionOf (complete_term lexed)

theorem misses_expression (lexed : Lexed tokens) {pos : Nat}
    (ahead : Ahead tokens (fun token => !startsTerm token) pos) :
    Misses expression tokens pos :=
  misses_expressionOf (sound_term lexed) ahead

theorem sound_call (lexed : Lexed tokens) : Phrase.call.Sound tokens call :=
  sound_callOf lexed (sound_term lexed)

theorem complete_call (lexed : Lexed tokens) :
    Phrase.call.Complete tokens 0 anything call :=
  complete_callOf lexed (sound_term lexed) ((complete_term lexed).later (Nat.zero_le 1))

end Terms

end Jack
