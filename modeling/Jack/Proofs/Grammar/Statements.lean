import Jack.Proofs.Grammar.Expressions

/-!
Contract: the rules for statements find exactly the statements.

Owns: for each kind of statement and for blocks that their rules are sound, and complete
where no `else` follows that would continue them.

Does not own: declarations.

The first word of a statement tells which kind it is.
-/

set_option autoImplicit false

namespace Jack

open Rule Production

/-! ## Kinds of trees, and what may stand behind them -/

namespace Phrase

def statement : Phrase Statement where
  spelling := Statement.spelling
  WellFormed tree := tree.wellFormed = true
  withoutLines := Statement.withoutLines

def statements1 : Phrase (List Statement) :=
  { statement.list with
    WellFormed := fun trees => trees ≠ [] ∧ statement.list.WellFormed trees }

def block : Phrase (List Statement) :=
  statements1.enclosed "\x7b" "\x7d"

def condition : Phrase Expression :=
  expression.enclosed "(" ")"

/-- What can be assigned to. -/
def target : Phrase Term :=
  { term with WellFormed := fun tree => tree.isTarget = true ∧ tree.wellFormed = true }

/-- The other branch of an `if`, where there is one. -/
def otherwise : Phrase (Option (List Statement)) where
  spelling := Statement.elseSpelling
  WellFormed tree := Statement.elseWellFormed tree = true
  withoutLines := Statement.elseWithoutLines

end Phrase

def notElse (token : Token) : Bool :=
  !(token.kind == .keyword && token.content == utf8 "else")

section Targets

variable {tokens : Array Token} {pos rest : Nat}

/-! ## Targets -/

/-- The alternative for an element fails wherever no bracket follows the name, so the order of the
two does not matter. -/
theorem finds_target_iff (lexed : Lexed tokens) {node : Term} :
    Finds (firstOf [elementTerm, nameTerm]) tokens pos node rest ↔
      Finds elementTerm tokens pos node rest ∨ Finds nameTerm tokens pos node rest := by
  have keyed : Finds (firstOf ([(TermStart.element, elementTerm), (.name, nameTerm)].map
      Prod.snd)) tokens pos node rest ↔ _ :=
    finds_firstOf_iff_of_keys (termStart tokens pos) (by simp) (by
      intro choice member
      have known : choice ∈ termChoices Production.term := by
        simp only [List.mem_cons, List.not_mem_nil, or_false] at member
        rcases member with rfl | rfl <;> simp [termChoices, elementTerm]
      exact termStart_of_finds lexed choice known)
  simpa using keyed

theorem sound_target (lexed : Lexed tokens) :
    Phrase.target.Sound tokens (firstOf [elementTerm, nameTerm]) := by
  intro pos node rest found
  rcases (finds_target_iff lexed).mp found with inside | inside
  · obtain ⟨formed, spans⟩ := sound_elementTermOf lexed (sound_term lexed) inside
    obtain ⟨_, _, _, _, _, _, _, _, rfl, _⟩ := (finds_elementTermOf_iff lexed).mp inside
    exact ⟨⟨rfl, formed⟩, spans⟩
  · obtain ⟨formed, spans⟩ := sound_nameTerm lexed inside
    obtain ⟨_, _, _, _, rfl, _⟩ := finds_nameTerm_iff.mp inside
    exact ⟨⟨rfl, formed⟩, spans⟩

/-- The token behind the name tells which of the two forms is read, so no bracket may follow a
variable. -/
theorem complete_target (lexed : Lexed tokens) :
    Phrase.target.Complete tokens 0 afterTerm (firstOf [elementTerm, nameTerm]) := by
  rintro tree pos rest _ ⟨⟨isTarget, formed⟩, spans⟩ ahead
  cases tree with
  | name name line =>
      obtain ⟨node, found, same⟩ := complete_nameTerm ⟨formed, spans⟩ ahead
      exact ⟨node, (finds_target_iff lexed).mpr (.inr found), same⟩
  | element array index line =>
      obtain ⟨node, found, same⟩ := complete_elementTermOf lexed
        ((complete_term lexed).later (Nat.zero_le (pos + 1))) ⟨formed, spans⟩
      exact ⟨node, (finds_target_iff lexed).mpr (.inl found), same⟩
  | _ => simp [Term.isTarget] at isTarget

/-! ## Conditions -/

theorem sound_condition (lexed : Lexed tokens) :
    Phrase.condition.Sound tokens Production.condition :=
  (sound_expression lexed).enclosed lexed rfl rfl

/-- Nothing is asked of what comes behind a condition, since the parenthesis closes it. -/
theorem complete_condition (lexed : Lexed tokens) :
    Phrase.condition.Complete tokens 0 anything Production.condition := by
  refine Phrase.Complete.enclosed (fun tree pos rest _ written ahead => ?_) lexed rfl rfl
  exact complete_expression lexed pos.zero_le written
    (ahead.mono (forall_isSymbol_iff.mpr fun _ => rfl))

end Targets

/-! ## How statements are written -/

section Written

variable {tokens : Array Token} {pos rest : Nat} {line : Int}

/-- An assignment from its first token to its last, with where each part ends. -/
theorem written_let_iff {target : Term} {value : Expression} :
    Phrase.statement.Written tokens (.letTo target value line) pos rest ↔
      ∃ middle last, At tokens (.keyword "let") pos ∧
        Phrase.target.Written tokens target (pos + 1) middle ∧
        At tokens (.symbol "=") middle ∧
        Phrase.expression.Written tokens value (middle + 1) last ∧
        At tokens (.symbol ";") last ∧ rest = last + 1 := by
  simp only [Phrase.Written, Phrase.statement, Phrase.target, Phrase.term, Phrase.expression,
    Statement.wellFormed, Statement.spelling, Bool.and_eq_true, spans_cons_iff,
    spans_append_iff, spans_nil_iff]
  constructor
  · rintro ⟨⟨targetFormed, valueFormed⟩, starts, middle, inTarget, equals, last, inValue, ends,
      rfl⟩
    exact ⟨middle, last, starts, ⟨targetFormed, inTarget⟩, equals, ⟨valueFormed, inValue⟩,
      ends, rfl⟩
  · rintro ⟨middle, last, starts, ⟨targetFormed, inTarget⟩, equals, ⟨valueFormed, inValue⟩,
      ends, rfl⟩
    exact ⟨⟨targetFormed, valueFormed⟩, starts, middle, inTarget, equals, last, inValue, ends,
      rfl⟩

theorem written_do_iff {called : Call} :
    Phrase.statement.Written tokens (.doCall called line) pos rest ↔
      ∃ middle, At tokens (.keyword "do") pos ∧
        Phrase.call.Written tokens called (pos + 1) middle ∧
        At tokens (.symbol ";") middle ∧ rest = middle + 1 := by
  simp only [Phrase.Written, Phrase.statement, Phrase.call, Statement.wellFormed,
    Statement.spelling, spans_cons_iff, spans_append_iff, spans_nil_iff]
  constructor
  · rintro ⟨formed, starts, middle, spans, ends, rfl⟩
    exact ⟨middle, starts, ⟨formed, spans⟩, ends, rfl⟩
  · rintro ⟨middle, starts, ⟨formed, spans⟩, ends, rfl⟩
    exact ⟨formed, starts, middle, spans, ends, rfl⟩

theorem written_return_none_iff :
    Phrase.statement.Written tokens (.giveBack none line) pos rest ↔
      At tokens (.keyword "return") pos ∧ At tokens (.symbol ";") (pos + 1) ∧
        rest = pos + 2 := by
  simp only [Phrase.Written, Phrase.statement, Statement.wellFormed, Statement.spelling,
    Option.all_none, true_and, spans_cons_iff, spans_nil_iff]

theorem written_return_some_iff {value : Expression} :
    Phrase.statement.Written tokens (.giveBack (some value) line) pos rest ↔
      ∃ middle, At tokens (.keyword "return") pos ∧
        Phrase.expression.Written tokens value (pos + 1) middle ∧
        At tokens (.symbol ";") middle ∧ rest = middle + 1 := by
  simp only [Phrase.Written, Phrase.statement, Phrase.expression, Statement.wellFormed,
    Statement.spelling, Option.all_some, spans_cons_iff, spans_append_iff, spans_nil_iff]
  constructor
  · rintro ⟨formed, starts, middle, spans, ends, rfl⟩
    exact ⟨middle, starts, ⟨formed, spans⟩, ends, rfl⟩
  · rintro ⟨middle, starts, ⟨formed, spans⟩, ends, rfl⟩
    exact ⟨formed, starts, middle, spans, ends, rfl⟩

/-- A block holds at least one statement. Its two braces belong to it. -/
theorem written_block_iff {trees : List Statement} :
    Phrase.block.Written tokens trees pos rest ↔
      (!trees.isEmpty && Statement.allWellFormed trees) = true ∧
        Spans tokens (.symbol "\x7b" :: (Statement.allSpelling trees ++ [.symbol "\x7d"]))
          pos rest := by
  simp only [Phrase.Written, Phrase.block, Phrase.enclosed, Phrase.statements1, Phrase.list,
    Phrase.statement, Statement.allWellFormed_eq_all, Statement.allSpelling_eq_flatMap,
    Bool.and_eq_true, Bool.not_eq_true', List.isEmpty_eq_false_iff, List.all_eq_true]

theorem written_while_iff {condition : Expression} {body : List Statement} :
    Phrase.statement.Written tokens (.whileDo condition body line) pos rest ↔
      ∃ middle, At tokens (.keyword "while") pos ∧
        Phrase.condition.Written tokens condition (pos + 1) middle ∧
        Phrase.block.Written tokens body middle rest := by
  simp only [written_block_iff, Phrase.condition, Phrase.written_enclosed_iff]
  simp only [Phrase.Written, Phrase.statement, Phrase.expression, Statement.wellFormed,
    Statement.spelling, Bool.and_assoc, Bool.and_eq_true, spans_cons_iff, spans_append_iff,
    spans_nil_iff]
  constructor
  · rintro ⟨⟨formed, bodyFormed⟩, starts, opens, middle, spans, closes, body⟩
    exact ⟨middle + 1, starts, ⟨middle, opens, ⟨formed, spans⟩, closes, rfl⟩, bodyFormed, body⟩
  · rintro ⟨_, starts, ⟨middle, opens, ⟨formed, spans⟩, closes, rfl⟩, bodyFormed, body⟩
    exact ⟨⟨formed, bodyFormed⟩, starts, opens, middle, spans, closes, body⟩

/-- A choice ends where its else ends, which may take no token at all. -/
theorem written_if_iff {condition : Expression} {whenTrue : List Statement}
    {otherwise : Option (List Statement)} :
    Phrase.statement.Written tokens (.ifElse condition whenTrue otherwise line) pos rest ↔
      ∃ middle last, At tokens (.keyword "if") pos ∧
        Phrase.condition.Written tokens condition (pos + 1) middle ∧
        Phrase.block.Written tokens whenTrue middle last ∧
        Phrase.otherwise.Written tokens otherwise last rest := by
  simp only [written_block_iff, Phrase.condition, Phrase.written_enclosed_iff]
  simp only [Phrase.Written, Phrase.statement, Phrase.expression, Phrase.otherwise,
    Statement.wellFormed, Statement.spelling, Bool.and_assoc, Bool.and_eq_true, spans_cons_iff,
    spans_append_iff, spans_nil_iff]
  constructor
  · rintro ⟨⟨formed, nonempty, trueFormed, elseFormed⟩, starts, opens, middle, spans, closes,
      first, last, inTrue, ends, inElse⟩
    exact ⟨middle + 1, last + 1, starts, ⟨middle, opens, ⟨formed, spans⟩, closes, rfl⟩,
      ⟨⟨nonempty, trueFormed⟩, first, last, inTrue, ends, rfl⟩, elseFormed, inElse⟩
  · rintro ⟨_, _, starts, ⟨middle, opens, ⟨formed, spans⟩, closes, rfl⟩,
      ⟨⟨nonempty, trueFormed⟩, first, last, inTrue, ends, rfl⟩, elseFormed, inElse⟩
    exact ⟨⟨formed, nonempty, trueFormed, elseFormed⟩, starts, opens, middle, spans, closes,
      first, last, inTrue, ends, inElse⟩

theorem written_otherwise_none_iff :
    Phrase.otherwise.Written tokens none pos rest ↔ rest = pos := by
  simp only [Phrase.Written, Phrase.otherwise, Statement.elseWellFormed, Statement.elseSpelling,
    spans_nil_iff, true_and]

theorem written_otherwise_some_iff {body : List Statement} :
    Phrase.otherwise.Written tokens (some body) pos rest ↔
      At tokens (.keyword "else") pos ∧ Phrase.block.Written tokens body (pos + 1) rest := by
  simp only [written_block_iff]
  simp only [Phrase.Written, Phrase.otherwise, Statement.elseWellFormed, Statement.elseSpelling,
    spans_cons_iff]
  exact and_left_comm

/-- The words that statements start with. -/
def statementWords : List String :=
  ["if", "while", "do", "let", "return"]

/-- The first token of a statement is a keyword that tells which kind of statement it is. -/
theorem statement_starts {tree : Statement}
    (written : Phrase.statement.Written tokens tree pos rest) :
    ∃ text ∈ statementWords, At tokens (.keyword text) pos := by
  cases tree with
  | letTo target value line =>
      obtain ⟨_, _, starts, _⟩ := written_let_iff.mp written
      exact ⟨"let", by decide, starts⟩
  | ifElse condition whenTrue otherwise line =>
      obtain ⟨_, _, starts, _⟩ := written_if_iff.mp written
      exact ⟨"if", by decide, starts⟩
  | whileDo condition body line =>
      obtain ⟨_, starts, _⟩ := written_while_iff.mp written
      exact ⟨"while", by decide, starts⟩
  | doCall called line =>
      obtain ⟨_, starts, _⟩ := written_do_iff.mp written
      exact ⟨"do", by decide, starts⟩
  | giveBack value line =>
      cases value with
      | none => exact ⟨"return", by decide, (written_return_none_iff.mp written).1⟩
      | some value =>
          obtain ⟨_, starts, _⟩ := written_return_some_iff.mp written
          exact ⟨"return", by decide, starts⟩

end Written

/-! ## Statements without blocks -/

section Simple

variable {tokens : Array Token} {pos rest : Nat} {line : Int}

theorem sound_letStatement (lexed : Lexed tokens) :
    Phrase.statement.Sound tokens letStatement := by
  intro pos node rest found
  simp only [letStatement, finds_bind_iff, lexed.finds_keyword_iff "let" rfl,
    lexed.finds_symbol_iff "=" rfl, lexed.finds_symbol_iff ";" rfl, finds_pure_iff] at found
  obtain ⟨start, _, ⟨here, starts, rfl⟩, target, middle, inTarget, equals, _,
    ⟨equalsHere, isEquals, rfl⟩, value, last, inValue, semicolon, _, ⟨endsHere, ends, rfl⟩, rfl,
    rfl⟩ := found
  exact written_let_iff.mpr ⟨middle, last, ⟨start, here, starts⟩, sound_target lexed inTarget,
    ⟨equals, equalsHere, isEquals⟩, sound_expression lexed inValue,
    ⟨semicolon, endsHere, ends⟩, rfl⟩

/-- The assignment that is written is found. Lines alone may differ, since they come from the
tokens. -/
theorem complete_letStatement (lexed : Lexed tokens) {target : Term} {value : Expression}
    (written : Phrase.statement.Written tokens (.letTo target value line) pos rest) :
    ∃ node, Finds letStatement tokens pos node rest ∧
      node.withoutLines = (Statement.letTo target value line).withoutLines := by
  obtain ⟨middle, last, ⟨start, here, starts⟩, inTarget, equals, inValue, ends, rfl⟩ :=
    written_let_iff.mp written
  obtain ⟨targetNode, targetFound, sameTarget⟩ := complete_target lexed (Nat.zero_le _) inTarget
    (equals.ahead fun _ => rfl)
  obtain ⟨valueNode, valueFound, sameValue⟩ := complete_expression lexed (Nat.zero_le _) inValue
    (ends.ahead fun _ => rfl)
  obtain ⟨equalsToken, equalsHere, isEquals⟩ := equals
  obtain ⟨semicolon, endsHere, ends⟩ := ends
  refine ⟨.letTo targetNode valueNode start.line, ?_, ?_⟩
  · simp only [letStatement, finds_bind_iff, lexed.finds_keyword_iff "let" rfl,
      lexed.finds_symbol_iff "=" rfl, lexed.finds_symbol_iff ";" rfl, finds_pure_iff]
    exact ⟨start, _, ⟨here, starts, rfl⟩, targetNode, middle, targetFound, equalsToken, _,
      ⟨equalsHere, isEquals, rfl⟩, valueNode, last, valueFound, semicolon, _,
      ⟨endsHere, ends, rfl⟩, rfl, rfl⟩
  · simp only [Statement.withoutLines, Statement.letTo.injEq, and_true]
    exact ⟨sameTarget, sameValue⟩

theorem sound_doStatement (lexed : Lexed tokens) :
    Phrase.statement.Sound tokens doStatement := by
  intro pos node rest found
  simp only [doStatement, finds_bind_iff, lexed.finds_keyword_iff "do" rfl,
    lexed.finds_symbol_iff ";" rfl, finds_pure_iff] at found
  obtain ⟨start, _, ⟨here, starts, rfl⟩, called, middle, inside, semicolon, _,
    ⟨endsHere, ends, rfl⟩, rfl, rfl⟩ := found
  exact written_do_iff.mpr ⟨middle, ⟨start, here, starts⟩, sound_call lexed inside,
    ⟨semicolon, endsHere, ends⟩, rfl⟩

theorem complete_doStatement (lexed : Lexed tokens) {called : Call}
    (written : Phrase.statement.Written tokens (.doCall called line) pos rest) :
    ∃ node, Finds doStatement tokens pos node rest ∧
      node.withoutLines = (Statement.doCall called line).withoutLines := by
  obtain ⟨middle, ⟨start, here, starts⟩, inside, ⟨semicolon, endsHere, ends⟩, rfl⟩ :=
    written_do_iff.mp written
  obtain ⟨node, found, same⟩ := complete_call lexed (Nat.zero_le _) inside fun _ _ => rfl
  refine ⟨.doCall node start.line, ?_, ?_⟩
  · simp only [doStatement, finds_bind_iff, lexed.finds_keyword_iff "do" rfl,
      lexed.finds_symbol_iff ";" rfl, finds_pure_iff]
    exact ⟨start, _, ⟨here, starts, rfl⟩, node, middle, found, semicolon, _,
      ⟨endsHere, ends, rfl⟩, rfl, rfl⟩
  · simp only [Statement.withoutLines, Statement.doCall.injEq, and_true]
    exact same

/-- The value of a return is optional, but the semicolon is not. -/
theorem finds_returnStatement_iff (lexed : Lexed tokens) {node : Statement} :
    Finds returnStatement tokens pos node rest ↔
      ∃ start value middle, tokens[pos]? = some start ∧
        (Piece.keyword "return").Matches start ∧
        Finds (optional expression) tokens (pos + 1) value middle ∧
        At tokens (.symbol ";") middle ∧ node = .giveBack value start.line ∧
        rest = middle + 1 := by
  simp only [returnStatement, finds_bind_iff, lexed.finds_keyword_iff "return" rfl,
    lexed.finds_symbol_iff ";" rfl, finds_pure_iff]
  constructor
  · rintro ⟨start, _, ⟨here, starts, rfl⟩, value, middle, inside, semicolon, _,
      ⟨endsHere, ends, rfl⟩, rfl, rfl⟩
    exact ⟨start, value, middle, here, starts, inside, ⟨semicolon, endsHere, ends⟩, rfl, rfl⟩
  · rintro ⟨start, value, middle, here, starts, inside, ⟨semicolon, endsHere, ends⟩, rfl, rfl⟩
    exact ⟨start, _, ⟨here, starts, rfl⟩, value, middle, inside, semicolon, _,
      ⟨endsHere, ends, rfl⟩, rfl, rfl⟩

/-- Both forms of a return are read by one rule, so its two cases are told apart by what the
optional value came to. -/
theorem sound_returnStatement (lexed : Lexed tokens) :
    Phrase.statement.Sound tokens returnStatement := by
  intro pos node rest found
  obtain ⟨start, value, middle, here, starts, inside, ends, rfl, rfl⟩ :=
    (finds_returnStatement_iff lexed).mp found
  obtain ⟨tree, rfl, treeFound⟩ | ⟨rfl, rfl, _⟩ := finds_optional_iff.mp inside
  · exact written_return_some_iff.mpr
      ⟨middle, ⟨start, here, starts⟩, sound_expression lexed treeFound, ends, rfl⟩
  · exact written_return_none_iff.mpr ⟨⟨start, here, starts⟩, ends, rfl⟩

/-- Without a value the semicolon follows at once, and no expression starts with it. -/
theorem complete_returnStatement (lexed : Lexed tokens) {value : Option Expression}
    (written : Phrase.statement.Written tokens (.giveBack value line) pos rest) :
    ∃ node, Finds returnStatement tokens pos node rest ∧
      node.withoutLines = (Statement.giveBack value line).withoutLines := by
  cases value with
  | none =>
      obtain ⟨⟨start, here, starts⟩, ends, rfl⟩ := written_return_none_iff.mp written
      have misses : Misses expression tokens (pos + 1) :=
        misses_expression lexed (ends.ahead fun _ => rfl)
      refine ⟨.giveBack none start.line, ?_, by simp only [Statement.withoutLines]⟩
      exact (finds_returnStatement_iff lexed).mpr ⟨start, none, pos + 1, here, starts,
        finds_optional_iff.mpr (.inr ⟨rfl, rfl, misses⟩), ends, rfl, rfl⟩
  | some value =>
      obtain ⟨middle, ⟨start, here, starts⟩, inside, ends, rfl⟩ :=
        written_return_some_iff.mp written
      obtain ⟨node, found, same⟩ := complete_expression lexed (Nat.zero_le _) inside
        (ends.ahead fun _ => rfl)
      refine ⟨.giveBack (some node) start.line, ?_, ?_⟩
      · exact (finds_returnStatement_iff lexed).mpr ⟨start, some node, middle, here, starts,
          finds_optional_iff.mpr (.inl ⟨node, rfl, found⟩), ends, rfl, rfl⟩
      · simp only [Statement.withoutLines, Option.map_some, Statement.giveBack.injEq,
          Option.some.injEq, and_true]
        exact same

end Simple

/-! ## Statements with blocks -/

theorem Statement.spelling_ne_nil (tree : Statement) : tree.spelling ≠ [] := by
  cases tree with
  | giveBack value line => cases value <;> simp only [Statement.spelling] <;> simp
  | _ => simp only [Statement.spelling]; simp

section Blocks

variable {tokens : Array Token} {inner : Rule Statement} {pos rest : Nat} {line : Int}

/-- A statement never starts with `else`. This is why an `if` may stand in front of any other
statement. -/
theorem statement_notElse ⦃tree : Statement⦄ ⦃pos rest : Nat⦄
    (written : Phrase.statement.Written tokens tree pos rest) :
    Ahead tokens notElse pos ∧ Phrase.statement.spelling tree ≠ [] := by
  have others : ∀ text ∈ statementWords, (utf8 text == utf8 "else") = false := by decide
  obtain ⟨text, member, starts⟩ := statement_starts written
  refine ⟨starts.ahead fun line => ?_, tree.spelling_ne_nil⟩
  simp [notElse, others text member]

/-- No statement starts with a brace. -/
theorem misses_statement (sound : Phrase.statement.Sound tokens inner)
    (ahead : Ahead tokens (isSymbol "\x7d") pos) : Misses inner tokens pos := by
  intro node last found
  obtain ⟨text, _, token, here, kind, _⟩ := statement_starts (sound found)
  have closes := ahead token here
  simp [isSymbol, kind] at closes

/-- A list of statements is read to its end if the rule for one of them is complete. Only the
closing brace stops the repetition. -/
theorem complete_statements {start : Nat} (sound : Phrase.statement.Sound tokens inner)
    (complete : Phrase.statement.Complete tokens start notElse inner)
    {trees : List Statement} (further : start ≤ pos)
    (written : Phrase.statement.list.Written tokens trees pos rest)
    (ahead : Ahead tokens (isSymbol "\x7d") rest) :
    ∃ nodes, Repeats inner tokens pos nodes rest ∧
      nodes.map Statement.withoutLines = trees.map Statement.withoutLines :=
  complete.list statement_notElse further written
    (ahead.mono (forall_isSymbol_iff.mpr fun _ => rfl)) (misses_statement sound ahead)

theorem sound_blockOf (lexed : Lexed tokens) (sound : Phrase.statement.Sound tokens inner) :
    Phrase.block.Sound tokens (blockOf inner) := by
  refine Phrase.Sound.enclosed (fun pos nodes rest found => ?_) lexed rfl rfl
  obtain ⟨nonempty, repeats⟩ := finds_many1_iff.mp found
  obtain ⟨formed, spans⟩ := sound.list repeats
  exact ⟨⟨nonempty, formed⟩, spans⟩

/-- Completeness of the inner rule is needed only behind the opening brace. That is what makes the
recursion of statements well founded. -/
theorem complete_blockOf {start : Nat} (lexed : Lexed tokens)
    (sound : Phrase.statement.Sound tokens inner)
    (complete : Phrase.statement.Complete tokens (start + 1) notElse inner) :
    Phrase.block.Complete tokens start anything (blockOf inner) := by
  refine Phrase.Complete.enclosed ?_ lexed rfl rfl
  rintro trees pos rest further ⟨⟨nonempty, formed⟩, spans⟩ ahead
  obtain ⟨nodes, repeats, same⟩ :=
    complete_statements sound complete further ⟨formed, spans⟩ ahead
  have someNode : nodes ≠ [] := by
    rintro rfl
    exact nonempty (List.map_eq_nil_iff.mp same.symm)
  exact ⟨nodes, finds_many1_iff.mpr ⟨someNode, repeats⟩, same⟩

def elseOf (inner : Rule Statement) : Rule (List Statement) := do
  let _ ← word "else"
  blockOf inner

theorem finds_elseOf_iff (lexed : Lexed tokens) {nodes : List Statement} :
    Finds (elseOf inner) tokens pos nodes rest ↔
      At tokens (.keyword "else") pos ∧ Finds (blockOf inner) tokens (pos + 1) nodes rest := by
  simp only [elseOf, finds_bind_iff, lexed.finds_keyword_iff "else" rfl]
  constructor
  · rintro ⟨token, _, ⟨here, matched, rfl⟩, found⟩
    exact ⟨⟨token, here, matched⟩, found⟩
  · rintro ⟨⟨token, here, matched⟩, found⟩
    exact ⟨token, _, ⟨here, matched, rfl⟩, found⟩

theorem sound_otherwise (lexed : Lexed tokens) (sound : Phrase.statement.Sound tokens inner) :
    Phrase.otherwise.Sound tokens (optional (elseOf inner)) := by
  intro pos answer rest found
  obtain ⟨nodes, rfl, inside⟩ | ⟨rfl, rfl, _⟩ := finds_optional_iff.mp found
  · obtain ⟨starts, inBlock⟩ := (finds_elseOf_iff lexed).mp inside
    exact written_otherwise_some_iff.mpr ⟨starts, sound_blockOf lexed sound inBlock⟩
  · exact written_otherwise_none_iff.mpr rfl

/-- If there is no else, what follows must not look like one. -/
theorem complete_otherwise {start : Nat} (lexed : Lexed tokens)
    (sound : Phrase.statement.Sound tokens inner)
    (complete : Phrase.statement.Complete tokens (start + 1) notElse inner) :
    Phrase.otherwise.Complete tokens start notElse (optional (elseOf inner)) := by
  intro tree pos rest further written ahead
  cases tree with
  | none =>
      obtain rfl := written_otherwise_none_iff.mp written
      have misses : Misses (elseOf inner) tokens rest := by
        intro nodes last found
        obtain ⟨⟨token, here, kind, content⟩, _⟩ := (finds_elseOf_iff lexed).mp found
        have allowed := ahead token here
        simp [notElse, kind, content] at allowed
      exact ⟨none, finds_optional_iff.mpr (.inr ⟨rfl, rfl, misses⟩), rfl⟩
  | some body =>
      obtain ⟨starts, inside⟩ := written_otherwise_some_iff.mp written
      obtain ⟨nodes, found, same⟩ := complete_blockOf lexed sound complete
        (Nat.le_succ_of_le further) inside fun _ _ => rfl
      refine ⟨some nodes, finds_optional_iff.mpr (.inl ⟨nodes, rfl, ?_⟩), ?_⟩
      · exact (finds_elseOf_iff lexed).mpr ⟨starts, found⟩
      · simp only [Phrase.otherwise, Statement.elseWithoutLines,
          Statement.allWithoutLines_eq_map, Option.some.injEq]
        exact same

/-- A choice is found part by part, and takes its line from the keyword. -/
theorem finds_ifStatementOf_iff (lexed : Lexed tokens) {node : Statement} :
    Finds (ifStatementOf inner) tokens pos node rest ↔
      ∃ start condition whenTrue otherwise middle last, tokens[pos]? = some start ∧
        (Piece.keyword "if").Matches start ∧
        Finds Production.condition tokens (pos + 1) condition middle ∧
        Finds (blockOf inner) tokens middle whenTrue last ∧
        Finds (optional (elseOf inner)) tokens last otherwise rest ∧
        node = .ifElse condition whenTrue otherwise start.line := by
  have unfolded : ifStatementOf inner = do
      let start ← word "if"
      let condition ← Production.condition
      let whenTrue ← blockOf inner
      let otherwise ← optional (elseOf inner)
      return .ifElse condition whenTrue otherwise start.line := rfl
  rw [unfolded]
  simp only [finds_bind_iff, lexed.finds_keyword_iff "if" rfl, finds_pure_iff]
  constructor
  · rintro ⟨start, _, ⟨here, starts, rfl⟩, condition, middle, inCondition, whenTrue, last,
      inTrue, otherwise, _, inElse, rfl, rfl⟩
    exact ⟨start, condition, whenTrue, otherwise, middle, last, here, starts, inCondition,
      inTrue, inElse, rfl⟩
  · rintro ⟨start, condition, whenTrue, otherwise, middle, last, here, starts, inCondition,
      inTrue, inElse, rfl⟩
    exact ⟨start, _, ⟨here, starts, rfl⟩, condition, middle, inCondition, whenTrue, last,
      inTrue, otherwise, rest, inElse, rfl, rfl⟩

theorem sound_ifStatementOf (lexed : Lexed tokens)
    (sound : Phrase.statement.Sound tokens inner) :
    Phrase.statement.Sound tokens (ifStatementOf inner) := by
  intro pos node rest found
  obtain ⟨start, condition, whenTrue, otherwise, middle, last, here, starts, inCondition, inTrue,
    inElse, rfl⟩ := (finds_ifStatementOf_iff lexed).mp found
  exact written_if_iff.mpr ⟨middle, last, ⟨start, here, starts⟩,
    sound_condition lexed inCondition, sound_blockOf lexed sound inTrue,
    sound_otherwise lexed sound inElse⟩

/-- The choice that is written is found, unless an `else` that belongs to another `if` comes right
behind it. -/
theorem complete_ifStatementOf (lexed : Lexed tokens)
    (sound : Phrase.statement.Sound tokens inner)
    (complete : Phrase.statement.Complete tokens (pos + 1) notElse inner)
    {condition : Expression} {whenTrue : List Statement} {otherwise : Option (List Statement)}
    (written : Phrase.statement.Written tokens (.ifElse condition whenTrue otherwise line) pos
      rest) (ahead : Ahead tokens notElse rest) :
    ∃ node, Finds (ifStatementOf inner) tokens pos node rest ∧
      node.withoutLines = (Statement.ifElse condition whenTrue otherwise line).withoutLines := by
  obtain ⟨middle, last, ⟨start, here, starts⟩, inCondition, inTrue, inElse⟩ :=
    written_if_iff.mp written
  have further := inCondition.2.le
  have muchFurther := inTrue.2.le
  obtain ⟨conditionNode, conditionFound, sameCondition⟩ :=
    complete_condition lexed (Nat.zero_le _) inCondition fun _ _ => rfl
  obtain ⟨trueNodes, trueFound, sameTrue⟩ :=
    complete_blockOf lexed sound complete (by omega) inTrue fun _ _ => rfl
  obtain ⟨elseNodes, elseFound, sameElse⟩ :=
    complete_otherwise lexed sound complete (by omega) inElse ahead
  refine ⟨.ifElse conditionNode trueNodes elseNodes start.line, ?_, ?_⟩
  · exact (finds_ifStatementOf_iff lexed).mpr ⟨start, conditionNode, trueNodes, elseNodes,
      middle, last, here, starts, conditionFound, trueFound, elseFound, rfl⟩
  · simp only [Statement.withoutLines, Statement.allWithoutLines_eq_map,
      Statement.ifElse.injEq, and_true]
    exact ⟨sameCondition, sameTrue, sameElse⟩

theorem finds_whileStatementOf_iff (lexed : Lexed tokens) {node : Statement} :
    Finds (whileStatementOf inner) tokens pos node rest ↔
      ∃ start condition body middle, tokens[pos]? = some start ∧
        (Piece.keyword "while").Matches start ∧
        Finds Production.condition tokens (pos + 1) condition middle ∧
        Finds (blockOf inner) tokens middle body rest ∧
        node = .whileDo condition body start.line := by
  simp only [whileStatementOf, finds_bind_iff, lexed.finds_keyword_iff "while" rfl,
    finds_pure_iff]
  constructor
  · rintro ⟨start, _, ⟨here, starts, rfl⟩, condition, middle, inCondition, body, _, inBody, rfl,
      rfl⟩
    exact ⟨start, condition, body, middle, here, starts, inCondition, inBody, rfl⟩
  · rintro ⟨start, condition, body, middle, here, starts, inCondition, inBody, rfl⟩
    exact ⟨start, _, ⟨here, starts, rfl⟩, condition, middle, inCondition, body, rest, inBody,
      rfl, rfl⟩

theorem sound_whileStatementOf (lexed : Lexed tokens)
    (sound : Phrase.statement.Sound tokens inner) :
    Phrase.statement.Sound tokens (whileStatementOf inner) := by
  intro pos node rest found
  obtain ⟨start, condition, body, middle, here, starts, inCondition, inBody, rfl⟩ :=
    (finds_whileStatementOf_iff lexed).mp found
  exact written_while_iff.mpr ⟨middle, ⟨start, here, starts⟩,
    sound_condition lexed inCondition, sound_blockOf lexed sound inBody⟩

/-- Unlike a choice, a loop may have anything behind it. -/
theorem complete_whileStatementOf (lexed : Lexed tokens)
    (sound : Phrase.statement.Sound tokens inner)
    (complete : Phrase.statement.Complete tokens (pos + 1) notElse inner)
    {condition : Expression} {body : List Statement}
    (written : Phrase.statement.Written tokens (.whileDo condition body line) pos rest) :
    ∃ node, Finds (whileStatementOf inner) tokens pos node rest ∧
      node.withoutLines = (Statement.whileDo condition body line).withoutLines := by
  obtain ⟨middle, ⟨start, here, starts⟩, inCondition, inBody⟩ := written_while_iff.mp written
  have further := inCondition.2.le
  obtain ⟨conditionNode, conditionFound, sameCondition⟩ :=
    complete_condition lexed (Nat.zero_le _) inCondition fun _ _ => rfl
  obtain ⟨bodyNodes, bodyFound, sameBody⟩ :=
    complete_blockOf lexed sound complete (by omega) inBody fun _ _ => rfl
  refine ⟨.whileDo conditionNode bodyNodes start.line, ?_, ?_⟩
  · exact (finds_whileStatementOf_iff lexed).mpr ⟨start, conditionNode, bodyNodes, middle, here,
      starts, conditionFound, bodyFound, rfl⟩
  · simp only [Statement.withoutLines, Statement.allWithoutLines_eq_map,
      Statement.whileDo.injEq, and_true]
    exact ⟨sameCondition, sameBody⟩

/-! ## All statements -/

def textAt (tokens : Array Token) (pos : Nat) : Bytes :=
  (tokens[pos]?).elim [] Token.content

/-- The alternatives for a statement with the words that they start with. -/
def statementChoices (inner : Rule Statement) : List (Bytes × Rule Statement) :=
  [(utf8 "if", ifStatementOf inner), (utf8 "while", whileStatementOf inner),
    (utf8 "do", doStatement), (utf8 "let", letStatement), (utf8 "return", returnStatement)]

theorem textAt_of_finds_word {Node : Type} {text : String} {next : Token → Rule Node}
    {node : Node} (found : Finds (word text >>= next) tokens pos node rest) :
    utf8 text = textAt tokens pos := by
  simp only [finds_bind_iff, word, finds_literal_iff] at found
  obtain ⟨token, _, ⟨here, ⟨content, _⟩, _⟩, _⟩ := found
  simp [textAt, here, content]

/-- An alternative that finds something has read its own keyword. The keywords differ, so at most
one alternative finds anything. -/
theorem textAt_of_finds :
    ∀ choice ∈ statementChoices inner, ∀ node rest, Finds choice.2 tokens pos node rest →
      choice.1 = textAt tokens pos := by
  simp only [statementChoices, List.forall_mem_cons, List.not_mem_nil, IsEmpty.forall_iff,
    implies_true, and_true]
  exact ⟨fun _ _ => textAt_of_finds_word, fun _ _ => textAt_of_finds_word,
    fun _ _ => textAt_of_finds_word, fun _ _ => textAt_of_finds_word,
    fun _ _ => textAt_of_finds_word⟩

/-- Since at most one alternative can find something, the first that does is any that does. -/
theorem finds_statementAlternatives_iff {node : Statement} :
    Finds (firstOf (statementAlternatives inner)) tokens pos node rest ↔
      ∃ choice ∈ statementChoices inner, Finds choice.2 tokens pos node rest :=
  finds_firstOf_iff_of_keys (textAt tokens pos)
    (by simp only [statementChoices, List.map_cons, List.map_nil]; decide) textAt_of_finds

/-- One turn of the recursion of statements is sound if the inner rule is. -/
theorem sound_statementAlternatives (lexed : Lexed tokens)
    (sound : Phrase.statement.Sound tokens inner) :
    Phrase.statement.Sound tokens (firstOf (statementAlternatives inner)) := by
  have each : ∀ choice ∈ statementChoices inner, Phrase.statement.Sound tokens choice.2 := by
    simp only [statementChoices, List.forall_mem_cons, List.not_mem_nil, IsEmpty.forall_iff,
      implies_true, and_true]
    exact ⟨sound_ifStatementOf lexed sound, sound_whileStatementOf lexed sound,
      sound_doStatement lexed, sound_letStatement lexed, sound_returnStatement lexed⟩
  intro pos node rest found
  obtain ⟨choice, member, inside⟩ := finds_statementAlternatives_iff.mp found
  exact each choice member inside

/-- One turn of the recursion is complete from a position on, given the inner rule from the next
position on. -/
theorem complete_statementAlternatives {start : Nat} (lexed : Lexed tokens)
    (sound : Phrase.statement.Sound tokens inner)
    (complete : Phrase.statement.Complete tokens (start + 1) notElse inner) :
    Phrase.statement.Complete tokens start notElse
      (firstOf (statementAlternatives inner)) := by
  intro tree pos rest further written ahead
  have innerComplete : Phrase.statement.Complete tokens (pos + 1) notElse inner :=
    complete.later (Nat.succ_le_succ further)
  suffices ∃ choice ∈ statementChoices inner, ∃ node, Finds choice.2 tokens pos node rest ∧
      node.withoutLines = tree.withoutLines by
    obtain ⟨choice, member, node, found, same⟩ := this
    exact ⟨node, finds_statementAlternatives_iff.mpr ⟨choice, member, found⟩, same⟩
  cases tree with
  | letTo target value line =>
      exact ⟨(utf8 "let", letStatement), by simp [statementChoices],
        complete_letStatement lexed written⟩
  | ifElse condition whenTrue otherwise line =>
      exact ⟨(utf8 "if", ifStatementOf inner), by simp [statementChoices],
        complete_ifStatementOf lexed sound innerComplete written ahead⟩
  | whileDo condition body line =>
      exact ⟨(utf8 "while", whileStatementOf inner), by simp [statementChoices],
        complete_whileStatementOf lexed sound innerComplete written⟩
  | doCall called line =>
      exact ⟨(utf8 "do", doStatement), by simp [statementChoices],
        complete_doStatement lexed written⟩
  | giveBack value line =>
      exact ⟨(utf8 "return", returnStatement), by simp [statementChoices],
        complete_returnStatement lexed written⟩

/-- What is read as a statement is a well-formed statement, spelled by the tokens read. -/
theorem sound_statement (lexed : Lexed tokens) :
    Phrase.statement.Sound tokens Production.statement :=
  .recursive fun _ sound => sound_statementAlternatives lexed sound

/-- Every well-formed statement is read where its tokens stand, unless an `else` comes behind it. -/
theorem complete_statement (lexed : Lexed tokens) :
    Phrase.statement.Complete tokens 0 notElse Production.statement :=
  .recursive (fun _ sound => sound_statementAlternatives lexed sound)
    Statement.spelling_ne_nil
    fun _ _ sound complete => complete_statementAlternatives lexed sound complete

end Blocks

end Jack
