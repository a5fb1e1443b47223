import Jack.Proofs.Tree.Spelling

/-!
Contract: what the statements of a subroutine mention.

Owns: the names that a tree uses, each with the way in which it is used, and the strings
that it holds; and that all names in a well-formed tree are identifiers.

Does not own: what a name stands for.

Mentions are listed in the order in which their code stands: an index in front of its
array, a value in front of the variable that it goes to, an else in front of the
statements that it is the alternative to.
-/

set_option autoImplicit false

namespace Jack

/-- The ways in which a tree can use the name of a variable. -/
inductive Use where
  | value
  | base
  | target
  | qualifier
deriving DecidableEq, Repr

/-- What a tree mentions. Strings are listed too, since one that is too long is refused. -/
inductive Mention where
  | name (use : Use) (name : Bytes)
  | string (value : Bytes)
deriving DecidableEq, Repr

mutual

def Term.mentions : Term → List Mention
  | .integer .. | .keyword .. => []
  | .string value _ => [.string value]
  | .name name _ => [.name .value name]
  | .element array index _ => index.mentions ++ [.name .base array]
  | .call called => called.mentions
  | .group inner _ => inner.mentions
  | .unary _ operand _ => operand.mentions

def Expression.mentions : Expression → List Mention
  | .mk head tail => head.mentions ++ Expression.tailMentions tail

def Expression.tailMentions : List (Operator × Term) → List Mention
  | [] => []
  | (_, operand) :: rest => operand.mentions ++ Expression.tailMentions rest

def Call.mentions : Call → List Mention
  | .mk qualifier _ arguments _ =>
      qualifier.toList.map (.name .qualifier) ++ Expression.allMentions arguments

def Expression.allMentions : List Expression → List Mention
  | [] => []
  | first :: rest => first.mentions ++ Expression.allMentions rest

end

/-- The mentions of an assignment to this target, given those of the value. -/
def Term.targetMentions (target : Term) (value : List Mention) : List Mention :=
  match target with
  | .name assigned _ => value ++ [.name .target assigned]
  | target => target.mentions ++ value

mutual

def Statement.mentions : Statement → List Mention
  | .letTo target value _ => target.targetMentions value.mentions
  | .ifElse condition whenTrue otherwise _ =>
      condition.mentions ++
        (Statement.elseMentions otherwise ++ Statement.allMentions whenTrue)
  | .whileDo condition body _ => condition.mentions ++ Statement.allMentions body
  | .doCall called _ => called.mentions
  | .giveBack none _ => []
  | .giveBack (some value) _ => value.mentions

def Statement.allMentions : List Statement → List Mention
  | [] => []
  | first :: rest => first.mentions ++ Statement.allMentions rest

def Statement.elseMentions : Option (List Statement) → List Mention
  | none => []
  | some body => Statement.allMentions body

end

/-- Declarations mention nothing; only the statements do. -/
def Subroutine.mentions (tree : Subroutine) : List Mention :=
  Statement.allMentions tree.body.statements

/-! ## Identifiers -/

def Mention.wellFormed : Mention → Bool
  | .name _ word => isIdentifier word
  | .string _ => true

mutual

/-- All names in a well-formed tree are identifiers. One case per form, since each brings its own
names. -/
theorem Term.wellFormed_of_mem_mentions : (tree : Term) → tree.wellFormed = true →
    ∀ mention ∈ tree.mentions, mention.wellFormed = true
  | .integer .., _ | .keyword .., _ | .string .., _ => by
      simp [Term.mentions, Mention.wellFormed]
  | .name .., wellFormed => by
      simpa [Term.mentions, Mention.wellFormed, Term.wellFormed] using wellFormed
  | .element _ index _, wellFormed => by
      simp only [Term.wellFormed, Bool.and_eq_true] at wellFormed
      simp only [Term.mentions, List.forall_mem_append, List.forall_mem_singleton]
      exact ⟨index.wellFormed_of_mem_mentions wellFormed.2, wellFormed.1⟩
  | .call called, wellFormed => by
      rw [Term.wellFormed] at wellFormed
      rw [Term.mentions]
      exact called.wellFormed_of_mem_mentions wellFormed
  | .group inner _, wellFormed => by
      rw [Term.wellFormed] at wellFormed
      rw [Term.mentions]
      exact inner.wellFormed_of_mem_mentions wellFormed
  | .unary _ operand _, wellFormed => by
      simp only [Term.wellFormed, Bool.and_eq_true] at wellFormed
      rw [Term.mentions]
      exact operand.wellFormed_of_mem_mentions wellFormed.2

theorem Expression.wellFormed_of_mem_mentions : (tree : Expression) → tree.wellFormed = true →
    ∀ mention ∈ tree.mentions, mention.wellFormed = true
  | .mk head tail, wellFormed => by
      simp only [Expression.wellFormed, Bool.and_eq_true] at wellFormed
      simp only [Expression.mentions, List.forall_mem_append]
      exact ⟨head.wellFormed_of_mem_mentions wellFormed.1,
        Expression.wellFormed_of_mem_tailMentions tail wellFormed.2⟩

theorem Expression.wellFormed_of_mem_tailMentions : (tail : List (Operator × Term)) →
    Expression.tailWellFormed tail = true →
    ∀ mention ∈ Expression.tailMentions tail, mention.wellFormed = true
  | [], _ => by simp [Expression.tailMentions]
  | (_, operand) :: rest, wellFormed => by
      simp only [Expression.tailWellFormed, Bool.and_eq_true] at wellFormed
      simp only [Expression.tailMentions, List.forall_mem_append]
      exact ⟨operand.wellFormed_of_mem_mentions wellFormed.1.2,
        Expression.wellFormed_of_mem_tailMentions rest wellFormed.2⟩

/-- The name called is not among the mentions, as it is no variable. -/
theorem Call.wellFormed_of_mem_mentions : (tree : Call) → tree.wellFormed = true →
    ∀ mention ∈ tree.mentions, mention.wellFormed = true
  | .mk qualifier _ arguments _, wellFormed => by
      simp only [Call.wellFormed, Bool.and_eq_true] at wellFormed
      simp only [Call.mentions, List.forall_mem_append]
      refine ⟨?_, Expression.wellFormed_of_mem_allMentions arguments wellFormed.2⟩
      cases qualifier with
      | none => simp
      | some qualifier => simpa [Mention.wellFormed] using wellFormed.1.1

theorem Expression.wellFormed_of_mem_allMentions : (trees : List Expression) →
    Expression.allWellFormed trees = true →
    ∀ mention ∈ Expression.allMentions trees, mention.wellFormed = true
  | [], _ => by simp [Expression.allMentions]
  | first :: rest, wellFormed => by
      simp only [Expression.allWellFormed, Bool.and_eq_true] at wellFormed
      simp only [Expression.allMentions, List.forall_mem_append]
      exact ⟨first.wellFormed_of_mem_mentions wellFormed.1,
        Expression.wellFormed_of_mem_allMentions rest wellFormed.2⟩

end

/-- In an assignment, the names of the target count besides those of the value. -/
theorem Term.wellFormed_of_mem_targetMentions {target : Term} {value : List Mention}
    (targetFormed : target.wellFormed = true)
    (valueFormed : ∀ mention ∈ value, mention.wellFormed = true) :
    ∀ mention ∈ target.targetMentions value, mention.wellFormed = true := by
  have inTarget := target.wellFormed_of_mem_mentions targetFormed
  cases target with
  | name =>
      rw [Term.wellFormed] at targetFormed
      simp only [Term.targetMentions, List.forall_mem_append, List.forall_mem_singleton]
      exact ⟨valueFormed, targetFormed⟩
  | element | integer | string | keyword | call | group | unary =>
      simp only [Term.targetMentions, List.forall_mem_append]
      exact ⟨inTarget, valueFormed⟩

mutual

/-- So are those of statements, with the names that are assigned to. -/
theorem Statement.wellFormed_of_mem_mentions : (tree : Statement) → tree.wellFormed = true →
    ∀ mention ∈ tree.mentions, mention.wellFormed = true
  | .letTo target value _, wellFormed => by
      simp only [Statement.wellFormed, Bool.and_eq_true] at wellFormed
      rw [Statement.mentions]
      exact Term.wellFormed_of_mem_targetMentions wellFormed.1.2
        (value.wellFormed_of_mem_mentions wellFormed.2)
  | .ifElse condition whenTrue otherwise _, wellFormed => by
      simp only [Statement.wellFormed, Bool.and_eq_true] at wellFormed
      simp only [Statement.mentions, List.forall_mem_append]
      exact ⟨condition.wellFormed_of_mem_mentions wellFormed.1.1.1,
        Statement.wellFormed_of_mem_elseMentions otherwise wellFormed.2,
        Statement.wellFormed_of_mem_allMentions whenTrue wellFormed.1.2⟩
  | .whileDo condition body _, wellFormed => by
      simp only [Statement.wellFormed, Bool.and_eq_true] at wellFormed
      simp only [Statement.mentions, List.forall_mem_append]
      exact ⟨condition.wellFormed_of_mem_mentions wellFormed.1.1,
        Statement.wellFormed_of_mem_allMentions body wellFormed.2⟩
  | .doCall called _, wellFormed => by
      rw [Statement.wellFormed] at wellFormed
      rw [Statement.mentions]
      exact called.wellFormed_of_mem_mentions wellFormed
  | .giveBack none _, _ => by simp [Statement.mentions]
  | .giveBack (some value) _, wellFormed => by
      simp only [Statement.wellFormed, Option.all_some] at wellFormed
      rw [Statement.mentions]
      exact value.wellFormed_of_mem_mentions wellFormed

theorem Statement.wellFormed_of_mem_allMentions : (trees : List Statement) →
    Statement.allWellFormed trees = true →
    ∀ mention ∈ Statement.allMentions trees, mention.wellFormed = true
  | [], _ => by simp [Statement.allMentions]
  | first :: rest, wellFormed => by
      simp only [Statement.allWellFormed, Bool.and_eq_true] at wellFormed
      simp only [Statement.allMentions, List.forall_mem_append]
      exact ⟨first.wellFormed_of_mem_mentions wellFormed.1,
        Statement.wellFormed_of_mem_allMentions rest wellFormed.2⟩

theorem Statement.wellFormed_of_mem_elseMentions : (otherwise : Option (List Statement)) →
    Statement.elseWellFormed otherwise = true →
    ∀ mention ∈ Statement.elseMentions otherwise, mention.wellFormed = true
  | none, _ => by simp [Statement.elseMentions]
  | some body, wellFormed => by
      simp only [Statement.elseWellFormed, Bool.and_eq_true] at wellFormed
      rw [Statement.elseMentions]
      exact Statement.wellFormed_of_mem_allMentions body wellFormed.2

end

/-- So no statement of a subroutine mentions `this` by name. -/
theorem Subroutine.wellFormed_of_mem_mentions {tree : Subroutine}
    (wellFormed : tree.wellFormed = true) :
    ∀ mention ∈ tree.mentions, mention.wellFormed = true := by
  simp only [Subroutine.wellFormed, SubroutineBody.wellFormed, Bool.and_eq_true] at wellFormed
  exact Statement.wellFormed_of_mem_allMentions _ wellFormed.2.2

end Jack
