import Jack.Proofs.Grammar.Finds
import Jack.Proofs.Tree.Places
import Jack.Tree.Grammar

/-!
Contract: the lines of a tree that is read are those of its tokens.

Owns: properties of all nodes that a rule can find, for each way to build rules; and that the
productions put the lines of their tokens into trees.

Does not own: which tokens spell a tree.
-/

set_option autoImplicit false

namespace Jack

/-! ## Nodes that rules can find -/

namespace Rule

variable {Node Other : Type} {tokens : Array Token} {rule : Rule Node} {Good : Node → Prop}

/-- In these tokens, the rule finds good nodes only. -/
def Yields (rule : Rule Node) (tokens : Array Token) (Good : Node → Prop) : Prop :=
  ∀ ⦃pos node rest⦄, Finds rule tokens pos node rest → Good node

theorem Yields.mono {Weaker : Node → Prop} (yields : Yields rule tokens Good)
    (weaker : ∀ node, Good node → Weaker node) : Yields rule tokens Weaker :=
  fun _ node _ finds => weaker node (yields finds)

theorem yields_pure {node : Node} (good : Good node) : Yields (pure node) tokens Good := by
  intro pos found rest finds
  obtain ⟨rfl, -⟩ := finds_pure_iff.mp finds
  exact good

/-- What the first rule finds can be used for what the second one finds. -/
theorem Yields.bind {second : Node → Rule Other} {GoodOther : Other → Prop}
    (first : Yields rule tokens Good)
    (yieldsThen : ∀ node, Good node → Yields (second node) tokens GoodOther) :
    Yields (rule >>= second) tokens GoodOther := by
  intro pos last rest finds
  obtain ⟨node, middle, found, behind⟩ := finds_bind_iff.mp finds
  exact yieldsThen node (first found) behind

/-- A node that is not looked at may be any. -/
theorem Yields.behind {second : Node → Rule Other} {GoodOther : Other → Prop}
    (yieldsThen : ∀ node, Yields (second node) tokens GoodOther) :
    Yields (rule >>= second) tokens GoodOther := by
  intro pos last rest finds
  obtain ⟨node, middle, -, behind⟩ := finds_bind_iff.mp finds
  exact yieldsThen node behind

theorem Yields.map {change : Node → Other} {GoodOther : Other → Prop}
    (yields : Yields rule tokens Good) (kept : ∀ node, Good node → GoodOther (change node)) :
    Yields (change <$> rule) tokens GoodOther := by
  intro pos last rest finds
  obtain ⟨node, found, rfl⟩ := finds_map_iff.mp finds
  exact kept node (yields found)

theorem yields_token (accepts : Token → Bool) :
    Yields (token accepts) tokens fun token => token ∈ tokens ∧ accepts token = true := by
  intro pos token rest finds
  obtain ⟨here, accepted, -⟩ := finds_token_iff.mp finds
  exact ⟨Array.mem_of_getElem? here, accepted⟩

theorem yields_firstOf_nil : Yields (firstOf []) tokens Good :=
  fun _ _ _ finds => absurd finds not_finds_firstOf_nil

/-- A choice is good if its first alternative and the choice of the others are. -/
theorem Yields.orElse {others : List (Rule Node)} (yields : Yields rule tokens Good)
    (othersYield : Yields (firstOf others) tokens Good) :
    Yields (firstOf (rule :: others)) tokens Good := by
  intro pos node rest finds
  rcases finds_firstOf_cons_iff.mp finds with found | ⟨-, found⟩
  · exact yields found
  · exact othersYield found

theorem Yields.ite {test : Cursor → Bool} {other : Rule Node} (yields : Yields rule tokens Good)
    (otherYields : Yields other tokens Good) :
    Yields (fun cursor => if test cursor then rule cursor else other cursor) tokens Good := by
  intro pos node rest finds
  rcases finds_ite_iff.mp finds with ⟨-, found⟩ | ⟨-, found⟩
  · exact yields found
  · exact otherYields found

theorem yields_missed {furthest : Cursor → Nat} :
    Yields (fun cursor => .missed (furthest cursor)) tokens Good :=
  fun _ _ _ finds => absurd finds not_finds_missed

theorem Yields.optional (yields : Yields rule tokens Good) :
    Yields (optional rule) tokens fun answer => ∀ node ∈ answer, Good node := by
  intro pos answer rest finds
  rcases finds_optional_iff.mp finds with ⟨node, rfl, found⟩ | ⟨rfl, -⟩
  · simpa using yields found
  · simp

theorem Repeats.forall_of_yields {pos rest : Nat} {nodes : List Node}
    (yields : Yields rule tokens Good) (repeats : Repeats rule tokens pos nodes rest) :
    ∀ node ∈ nodes, Good node := by
  induction repeats with
  | stop => exact List.forall_mem_nil _
  | next found _ _ inductionHypothesis =>
      exact List.forall_mem_cons.mpr ⟨yields found, inductionHypothesis⟩

theorem Yields.many (yields : Yields rule tokens Good) :
    Yields (many rule) tokens fun nodes => ∀ node ∈ nodes, Good node :=
  fun _ _ _ finds => (finds_many_iff.mp finds).forall_of_yields yields

theorem Yields.many1 (yields : Yields rule tokens Good) :
    Yields (many1 rule) tokens fun nodes => ∀ node ∈ nodes, Good node :=
  fun _ _ _ finds => (finds_many1_iff.mp finds).2.forall_of_yields yields

theorem Yields.separatedBy {separator : Bytes} (yields : Yields rule tokens Good) :
    Yields (separatedBy rule separator) tokens fun nodes => ∀ node ∈ nodes, Good node :=
  yields.bind fun _ first => (Yields.behind fun _ => yields).many.bind fun _ others =>
    yields_pure (List.forall_mem_cons.mpr ⟨first, others⟩)

/-- A rule that refers to itself is good if its body is, as long as its inner uses are. -/
theorem Yields.recursive {body : Rule Node → Rule Node}
    (yields : ∀ inner, Yields inner tokens Good → Yields (body inner) tokens Good) :
    Yields (recursive body) tokens Good := by
  intro pos
  -- Inner uses stand further on, so that fewer tokens are left there.
  induction left : tokens.size - pos using Nat.strongRecOn generalizing pos with
  | _ count inductionHypothesis =>
      intro node rest finds
      refine yields (Rule.behind body ⟨tokens, pos⟩) ?_ (finds_recursive_iff.mp finds)
      intro innerPos innerNode innerRest innerFinds
      obtain ⟨further, found⟩ := finds_behind_iff.mp innerFinds
      exact inductionHypothesis _ (left ▸ further) rfl found

end Rule

/-! ## Productions -/

namespace Production

open Rule

variable {tokens : Array Token}

/-- A token puts its own line into the tree. -/
theorem yields_ofToken (accepts : Token → Bool) :
    Yields (token accepts) tokens fun token => OnLine tokens token.line :=
  (yields_token accepts).mono fun token found => ⟨token, found.1, rfl⟩

theorem yields_word (text : String) :
    Yields (word text) tokens fun token => OnLine tokens token.line :=
  yields_ofToken _

theorem yields_identifier :
    Yields identifier tokens fun token => NamedOn tokens token.content token.line :=
  (yields_token _).mono fun token found =>
    ⟨token, found.1, by simpa using found.2, rfl, rfl⟩

section WithTerm

variable {term : Rule Term} (yields : Yields term tokens (Term.Anchored tokens))

include yields

theorem yields_expressionOf : Yields (expressionOf term) tokens (Expression.Anchored tokens) := by
  have operator : Yields binaryOperator tokens fun operator => OnLine tokens operator.line :=
    (yields_ofToken _).bind fun _ here => yields_pure here
  have operation : Yields (do
      let operator ← binaryOperator
      let operand ← term
      return (operator, operand)) tokens
      fun operation => OnLine tokens operation.1.line ∧ operation.2.Anchored tokens :=
    operator.bind fun _ here => yields.bind fun _ inside => yields_pure ⟨here, inside⟩
  exact yields.bind fun _ first => operation.many.bind fun _ others => yields_pure
    (.mk first (fun operation member => (others operation member).1)
      fun operation member => (others operation member).2)

theorem yields_argumentsOf : Yields (argumentsOf term) tokens
    fun arguments => ∀ argument ∈ arguments, argument.Anchored tokens := by
  have list : Yields (expressionListOf term) tokens
      fun arguments => ∀ argument ∈ arguments, argument.Anchored tokens := by
    refine (yields_expressionOf yields).separatedBy.optional.bind fun answer inside =>
      yields_pure ?_
    cases answer with
    | none => exact List.forall_mem_nil _
    | some arguments => exact inside arguments rfl
  exact .behind fun _ => list.bind fun _ inside => .behind fun _ => yields_pure inside

/-- An element has the line of the name of its array. -/
theorem yields_elementTermOf : Yields (elementTermOf term) tokens (Term.Anchored tokens) := by
  refine .ite ?_ yields_missed
  exact yields_identifier.bind fun _ named => .behind fun _ =>
    (yields_expressionOf yields).bind fun _ inside => .behind fun _ =>
      yields_pure (.element named inside)

/-- A call has the line of its first name, with or without a qualifier. -/
theorem yields_callOf : Yields (callOf term) tokens (Call.Anchored tokens) := by
  refine .ite ?_ (.ite ?_ yields_missed)
  · exact yields_identifier.bind fun _ named => .behind fun _ => .behind fun _ =>
      (yields_argumentsOf yields).bind fun _ inside => yields_pure (.mk named.onLine inside)
  · exact yields_identifier.bind fun _ named =>
      (yields_argumentsOf yields).bind fun _ inside => yields_pure (.mk named.onLine inside)

theorem yields_groupTermOf : Yields (groupTermOf term) tokens (Term.Anchored tokens) :=
  (yields_word "(").bind fun _ here => (yields_expressionOf yields).bind fun _ inside =>
    .behind fun _ => yields_pure (.group here inside)

theorem yields_unaryTermOf : Yields (unaryTermOf term) tokens (Term.Anchored tokens) := by
  have operator : Yields unaryOperator tokens fun operator => OnLine tokens operator.line :=
    (yields_ofToken _).bind fun _ here => yields_pure here
  exact operator.bind fun _ here => yields.bind fun _ inside =>
    yields_pure (.unary here here inside)

end WithTerm

theorem yields_nameTerm : Yields nameTerm tokens (Term.Anchored tokens) := by
  refine .ite yields_missed ?_
  exact yields_identifier.bind fun _ named => yields_pure (.name named)

/-- The lines of a term are those of its tokens. -/
theorem yields_term : Yields term tokens (Term.Anchored tokens) := by
  refine .recursive fun inner yields => .orElse ?_ (.orElse ?_ (.orElse ?_ (.orElse ?_ ?_)))
  · exact (yields_ofToken _).bind fun _ here => yields_pure (.integer here)
  · exact (yields_ofToken _).bind fun _ here => yields_pure (.string here)
  · exact (yields_callOf yields).map fun _ inside => .call inside
  · exact (yields_ofToken _).bind fun _ here => yields_pure (.keyword here)
  · exact (yields_elementTermOf yields).orElse (yields_nameTerm.orElse
      ((yields_groupTermOf yields).orElse ((yields_unaryTermOf yields).orElse yields_firstOf_nil)))

theorem yields_expression : Yields expression tokens (Expression.Anchored tokens) :=
  yields_expressionOf yields_term

theorem yields_letStatement : Yields letStatement tokens (Statement.Anchored tokens) := by
  have target : Yields (firstOf [elementTerm, nameTerm]) tokens (Term.Anchored tokens) :=
    (yields_elementTermOf yields_term).orElse (yields_nameTerm.orElse yields_firstOf_nil)
  exact (yields_word "let").bind fun _ here => target.bind fun _ targetAnchored =>
    .behind fun _ => yields_expression.bind fun _ valueAnchored => .behind fun _ =>
      yields_pure (.letTo here targetAnchored valueAnchored)

theorem yields_doStatement : Yields doStatement tokens (Statement.Anchored tokens) :=
  (yields_word "do").bind fun _ here => (yields_callOf yields_term).bind fun _ inside =>
    .behind fun _ => yields_pure (.doCall here inside)

theorem yields_returnStatement : Yields returnStatement tokens (Statement.Anchored tokens) :=
  (yields_word "return").bind fun _ here => yields_expression.optional.bind fun _ inside =>
    .behind fun _ => yields_pure (.giveBack here inside)

section WithStatement

variable {statement : Rule Statement} (yields : Yields statement tokens (Statement.Anchored tokens))

include yields

theorem yields_blockOf : Yields (blockOf statement) tokens
    fun block => ∀ statement ∈ block, statement.Anchored tokens :=
  .behind fun _ => yields.many1.bind fun _ inside => .behind fun _ => yields_pure inside

/-- One turn of the recursion: a statement has the line of its keyword, and its parts have lines of
their own. -/
theorem yields_statementAlternatives :
    Yields (firstOf (statementAlternatives statement)) tokens (Statement.Anchored tokens) := by
  have condition : Yields condition tokens (Expression.Anchored tokens) :=
    .behind fun _ => yields_expression.bind fun _ inside => .behind fun _ => yields_pure inside
  have block := yields_blockOf yields
  refine .orElse ?_ (.orElse ?_ ?_)
  · exact (yields_word "if").bind fun _ here => condition.bind fun _ test =>
      block.bind fun _ inside => (Yields.behind fun _ => block).optional.bind fun _ other =>
        yields_pure (.ifElse here test inside other)
  · exact (yields_word "while").bind fun _ here => condition.bind fun _ test =>
      block.bind fun _ inside => yields_pure (.whileDo here test inside)
  · exact yields_doStatement.orElse (yields_letStatement.orElse
      (yields_returnStatement.orElse yields_firstOf_nil))

end WithStatement

theorem yields_statement : Yields statement tokens (Statement.Anchored tokens) :=
  .recursive fun _ yields => yields_statementAlternatives yields

theorem yields_subroutine : Yields subroutine tokens (Subroutine.Anchored tokens) := by
  have start : Yields (firstOf [word "constructor", word "function", word "method"]) tokens
      fun token => OnLine tokens token.line :=
    (yields_word _).orElse ((yields_word _).orElse ((yields_word _).orElse yields_firstOf_nil))
  have body : Yields subroutineBody tokens
      fun body => ∀ statement ∈ body.statements, statement.Anchored tokens :=
    .behind fun _ => .behind fun _ => yields_statement.many.bind fun _ inside =>
      .behind fun _ => yields_pure inside
  exact start.bind fun _ here => .behind fun _ => .behind fun _ => .behind fun _ =>
    .behind fun _ => .behind fun _ => body.bind fun _ inside => yields_pure ⟨here, inside⟩

/-- Every line that the tree of a class holds in its subroutines is the line of one of its
tokens. -/
theorem yields_classTree : Yields classTree tokens
    fun tree => ∀ subroutine ∈ tree.subroutines, subroutine.Anchored tokens :=
  .behind fun _ => .behind fun _ => .behind fun _ => .behind fun _ =>
    yields_subroutine.many.bind fun _ inside => .behind fun _ => yields_pure inside

end Production

end Jack
