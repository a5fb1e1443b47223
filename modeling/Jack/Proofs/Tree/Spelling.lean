import Jack.Token.Alphabet
import Jack.Token
import Jack.Tree

/-!
Contract: how trees are written out as tokens.

Owns: for every kind of tree its spelling, production by production; which trees the
grammar has at all; and trees without their lines.

Does not own: reading. No rule is used here.

A spelling fixes the kind and the content of each token. Only the token of a number is
free in its digits: it may have leading zeros.
-/

set_option autoImplicit false

namespace Jack

/-- What one token of a spelling has to be. -/
inductive Piece where
  | exact (kind : Token.Kind) (content : Bytes)
  | number (value : Int)
deriving DecidableEq, Repr

namespace Piece

def Matches : Piece → Token → Prop
  | exact kind content, token => token.kind = kind ∧ token.content = content
  | number value, token => token.kind = .integer ∧ (token.value : Int) = value

instance : (piece : Piece) → (token : Token) → Decidable (piece.Matches token)
  | exact kind content, token =>
      inferInstanceAs (Decidable (token.kind = kind ∧ token.content = content))
  | number value, token =>
      inferInstanceAs (Decidable (token.kind = .integer ∧ (token.value : Int) = value))

def keyword (text : String) : Piece :=
  exact .keyword (utf8 text)

def symbol (text : String) : Piece :=
  exact .symbol (utf8 text)

def name (name : Bytes) : Piece :=
  exact .identifier name

/-- A type is one of the reserved words or the name of a class. -/
def type (reserved : List String) (type : Bytes) : Piece :=
  exact (if (reserved.map utf8).contains type then .keyword else .identifier) type

end Piece

/-- The pieces of a tree, from left to right. -/
abbrev Spelling := List Piece

/-- Spellings with commas in between. -/
def separated : List Spelling → Spelling
  | [] => []
  | first :: others => first ++ others.flatMap fun spelling => Piece.symbol "," :: spelling

/-- Each piece of the spellings is among those of all of them together. -/
theorem mem_separated_cons {piece : Piece} {first : Spelling} {others : List Spelling}
    (member : piece ∈ first ∨ piece ∈ separated others) :
    piece ∈ separated (first :: others) := by
  rw [separated, List.mem_append]
  refine member.imp_right fun member => ?_
  cases others with
  | nil => cases member
  | cons second rest =>
      rw [separated, List.mem_append] at member
      simp only [List.flatMap_cons, List.cons_append, List.mem_cons, List.mem_append]
      exact .inr member

/-- Neither the first spelling nor the others are longer than all of them together. -/
theorem length_le_separated_cons (first : Spelling) (others : List Spelling) :
    first.length ≤ (separated (first :: others)).length ∧
      (separated others).length ≤ (separated (first :: others)).length := by
  cases others with
  | nil => simp [separated]
  | cons second rest =>
      simp only [separated, List.flatMap_cons, List.length_append, List.length_cons]
      omega

/-- There is a comma behind all spellings but the last. -/
theorem length_le_separated (spellings : List Spelling) :
    spellings.length ≤ (separated spellings).length + 1 := by
  induction spellings with
  | nil => exact Nat.zero_le _
  | cons first others inductionHypothesis =>
      cases others with
      | nil => simp
      | cons second rest =>
          simp only [separated, List.flatMap_cons, List.length_append, List.length_cons]
            at inductionHypothesis ⊢
          omega

/-- A word that is no keyword. -/
def isIdentifier : Bytes → Bool
  | [] => false
  | first :: rest =>
      Alphabet.startsWord first && rest.all Alphabet.continuesWord &&
        !Alphabet.isKeyword (first :: rest)

def isAmong (texts : List String) (text : Bytes) : Bool :=
  (texts.map utf8).contains text

/-- The literals are given as text, while a token holds bytes. -/
theorem isAmong_iff {texts : List String} {text : Bytes} :
    isAmong texts text = true ↔ ∃ literal ∈ texts, utf8 literal = text := by
  rw [isAmong, List.contains_iff_mem, List.mem_map]

def binarySymbols : List String :=
  ["+", "-", "*", "/", "&", "|", "<", ">", "="]

def unarySymbols : List String :=
  ["-", "~"]

def keywordConstants : List String :=
  ["true", "false", "null", "this"]

def variableTypes : List String :=
  ["int", "char", "boolean"]

def resultTypes : List String :=
  "void" :: variableTypes

def isType (reserved : List String) (type : Bytes) : Bool :=
  isAmong reserved type || isIdentifier type

/-! ## Terms and expressions -/

mutual

/-- The tokens of a term. Parentheses belong to the term that an expression makes inside them, and
not to the expression. -/
def Term.spelling : Term → Spelling
  | .integer value _ => [.number value]
  | .string value _ => [.exact .string value]
  | .keyword word _ => [.exact .keyword word]
  | .name name _ => [.name name]
  | .element array index _ =>
      .name array :: .symbol "[" :: (index.spelling ++ [.symbol "]"])
  | .call called => called.spelling
  | .group inner _ => .symbol "(" :: (inner.spelling ++ [.symbol ")"])
  | .unary operator operand _ => .exact .symbol operator.symbol :: operand.spelling

def Expression.spelling : Expression → Spelling
  | .mk head tail => head.spelling ++ Expression.tailSpelling tail

def Expression.tailSpelling : List (Operator × Term) → Spelling
  | [] => []
  | (operator, operand) :: rest =>
      .exact .symbol operator.symbol :: (operand.spelling ++ Expression.tailSpelling rest)

def Call.spelling : Call → Spelling
  | .mk none name arguments _ =>
      .name name :: .symbol "(" ::
        (separated (Expression.spellings arguments) ++ [.symbol ")"])
  | .mk (some qualifier) name arguments _ =>
      .name qualifier :: .symbol "." :: .name name :: .symbol "(" ::
        (separated (Expression.spellings arguments) ++ [.symbol ")"])

def Expression.spellings : List Expression → List Spelling
  | [] => []
  | first :: rest => first.spelling :: Expression.spellings rest

end

mutual

/-- Whether the grammar has such a term: its names are identifiers, its operators and constants are
known ones. Numbers and strings are free here. -/
def Term.wellFormed : Term → Bool
  | .integer .. | .string .. => true
  | .keyword word _ => isAmong keywordConstants word
  | .name name _ => isIdentifier name
  | .element array index _ => isIdentifier array && index.wellFormed
  | .call called => called.wellFormed
  | .group inner _ => inner.wellFormed
  | .unary operator operand _ => isAmong unarySymbols operator.symbol && operand.wellFormed

def Expression.wellFormed : Expression → Bool
  | .mk head tail => head.wellFormed && Expression.tailWellFormed tail

def Expression.tailWellFormed : List (Operator × Term) → Bool
  | [] => true
  | (operator, operand) :: rest =>
      isAmong binarySymbols operator.symbol && operand.wellFormed &&
        Expression.tailWellFormed rest

def Call.wellFormed : Call → Bool
  | .mk qualifier name arguments _ =>
      qualifier.all isIdentifier && isIdentifier name && Expression.allWellFormed arguments

def Expression.allWellFormed : List Expression → Bool
  | [] => true
  | first :: rest => first.wellFormed && Expression.allWellFormed rest

end

mutual

/-- The term with every line set to 0, so that two terms can be compared by what they say. -/
def Term.withoutLines : Term → Term
  | .integer value _ => .integer value 0
  | .string value _ => .string value 0
  | .keyword word _ => .keyword word 0
  | .name name _ => .name name 0
  | .element array index _ => .element array index.withoutLines 0
  | .call called => .call called.withoutLines
  | .group inner _ => .group inner.withoutLines 0
  | .unary operator operand _ => .unary ⟨operator.symbol, 0⟩ operand.withoutLines 0

def Expression.withoutLines : Expression → Expression
  | .mk head tail => .mk head.withoutLines (Expression.tailWithoutLines tail)

def Expression.tailWithoutLines : List (Operator × Term) → List (Operator × Term)
  | [] => []
  | (operator, operand) :: rest =>
      (⟨operator.symbol, 0⟩, operand.withoutLines) :: Expression.tailWithoutLines rest

def Call.withoutLines : Call → Call
  | .mk qualifier name arguments _ =>
      .mk qualifier name (Expression.allWithoutLines arguments) 0

def Expression.allWithoutLines : List Expression → List Expression
  | [] => []
  | first :: rest => first.withoutLines :: Expression.allWithoutLines rest

end

/-! ## Statements -/

mutual

/-- The tokens of a statement. Blocks are spelled with their braces. -/
def Statement.spelling : Statement → Spelling
  | .letTo target value _ =>
      .keyword "let" :: (target.spelling ++ .symbol "=" :: (value.spelling ++ [.symbol ";"]))
  | .ifElse condition whenTrue otherwise _ =>
      .keyword "if" :: .symbol "(" :: (condition.spelling ++ .symbol ")" ::
        .symbol "\x7b" :: (Statement.allSpelling whenTrue ++ .symbol "\x7d" ::
          Statement.elseSpelling otherwise))
  | .whileDo condition body _ =>
      .keyword "while" :: .symbol "(" :: (condition.spelling ++ .symbol ")" ::
        .symbol "\x7b" :: (Statement.allSpelling body ++ [.symbol "\x7d"]))
  | .doCall called _ => .keyword "do" :: (called.spelling ++ [.symbol ";"])
  | .giveBack none _ => [.keyword "return", .symbol ";"]
  | .giveBack (some value) _ => .keyword "return" :: (value.spelling ++ [.symbol ";"])

def Statement.allSpelling : List Statement → Spelling
  | [] => []
  | first :: rest => first.spelling ++ Statement.allSpelling rest

def Statement.elseSpelling : Option (List Statement) → Spelling
  | none => []
  | some body =>
      .keyword "else" :: .symbol "\x7b" :: (Statement.allSpelling body ++ [.symbol "\x7d"])

end

/-- What can be assigned to. -/
def Term.isTarget : Term → Bool
  | .name .. | .element .. => true
  | _ => false

mutual

/-- Blocks are not empty. -/
def Statement.wellFormed : Statement → Bool
  | .letTo target value _ => target.isTarget && target.wellFormed && value.wellFormed
  | .ifElse condition whenTrue otherwise _ =>
      condition.wellFormed && !whenTrue.isEmpty && Statement.allWellFormed whenTrue &&
        Statement.elseWellFormed otherwise
  | .whileDo condition body _ =>
      condition.wellFormed && !body.isEmpty && Statement.allWellFormed body
  | .doCall called _ => called.wellFormed
  | .giveBack value _ => value.all Expression.wellFormed

def Statement.allWellFormed : List Statement → Bool
  | [] => true
  | first :: rest => first.wellFormed && Statement.allWellFormed rest

def Statement.elseWellFormed : Option (List Statement) → Bool
  | none => true
  | some body => !body.isEmpty && Statement.allWellFormed body

end

mutual

def Statement.withoutLines : Statement → Statement
  | .letTo target value _ => .letTo target.withoutLines value.withoutLines 0
  | .ifElse condition whenTrue otherwise _ =>
      .ifElse condition.withoutLines (Statement.allWithoutLines whenTrue)
        (Statement.elseWithoutLines otherwise) 0
  | .whileDo condition body _ =>
      .whileDo condition.withoutLines (Statement.allWithoutLines body) 0
  | .doCall called _ => .doCall called.withoutLines 0
  | .giveBack value _ => .giveBack (value.map Expression.withoutLines) 0

def Statement.allWithoutLines : List Statement → List Statement
  | [] => []
  | first :: rest => first.withoutLines :: Statement.allWithoutLines rest

def Statement.elseWithoutLines : Option (List Statement) → Option (List Statement)
  | none => none
  | some body => some (Statement.allWithoutLines body)

end

/-! ## Declarations -/

namespace VariableList

/-- A type and names; the word in front differs. -/
def spelling (list : VariableList) : Spelling :=
  .type variableTypes list.type ::
    (separated (list.names.map fun name => [.name name]) ++ [.symbol ";"])

def wellFormed (list : VariableList) : Bool :=
  isType variableTypes list.type && !list.names.isEmpty && list.names.all isIdentifier

def withoutLines (list : VariableList) : VariableList :=
  { list with line := 0 }

end VariableList

namespace ClassVariables

def spelling (declaration : ClassVariables) : Spelling :=
  .keyword declaration.kind.name :: declaration.list.spelling

def withoutLines (declaration : ClassVariables) : ClassVariables :=
  { declaration with list := declaration.list.withoutLines }

end ClassVariables

namespace Parameter

def spelling (parameter : Parameter) : Spelling :=
  [.type variableTypes parameter.type, .name parameter.name]

def wellFormed (parameter : Parameter) : Bool :=
  isType variableTypes parameter.type && isIdentifier parameter.name

end Parameter

namespace SubroutineBody

def spelling (body : SubroutineBody) : Spelling :=
  .symbol "\x7b" :: (body.locals.flatMap (fun list => .keyword "var" :: list.spelling) ++
    (Statement.allSpelling body.statements ++ [.symbol "\x7d"]))

def wellFormed (body : SubroutineBody) : Bool :=
  body.locals.all VariableList.wellFormed && Statement.allWellFormed body.statements

def withoutLines (body : SubroutineBody) : SubroutineBody where
  locals := body.locals.map VariableList.withoutLines
  statements := Statement.allWithoutLines body.statements

end SubroutineBody

namespace Subroutine

def spelling (tree : Subroutine) : Spelling :=
  .keyword tree.kind.name :: .type resultTypes tree.result :: .name tree.name ::
    .symbol "(" :: (separated (tree.parameters.map Parameter.spelling) ++
      .symbol ")" :: tree.body.spelling)

def wellFormed (tree : Subroutine) : Bool :=
  isType resultTypes tree.result && isIdentifier tree.name &&
    tree.parameters.all Parameter.wellFormed && tree.body.wellFormed

def withoutLines (tree : Subroutine) : Subroutine :=
  { tree with body := tree.body.withoutLines, line := 0 }

end Subroutine

namespace ClassTree

def spelling (tree : ClassTree) : Spelling :=
  .keyword "class" :: .name tree.name :: .symbol "\x7b" ::
    (tree.declarations.flatMap ClassVariables.spelling ++
      (tree.subroutines.flatMap Subroutine.spelling ++ [.symbol "\x7d"]))

def wellFormed (tree : ClassTree) : Bool :=
  isIdentifier tree.name &&
    tree.declarations.all (fun declaration => declaration.list.wellFormed) &&
    tree.subroutines.all Subroutine.wellFormed

def withoutLines (tree : ClassTree) : ClassTree where
  name := tree.name
  declarations := tree.declarations.map ClassVariables.withoutLines
  subroutines := tree.subroutines.map Subroutine.withoutLines
  line := 0

end ClassTree

/-! ## Lists of trees -/

namespace Expression

/-- The functions of a mutual block on lists are maps, folds or conjunctions of those on trees. -/
theorem spellings_eq_map (trees : List Expression) : spellings trees = trees.map spelling := by
  induction trees with
  | nil => rw [spellings, List.map_nil]
  | cons first rest inductionHypothesis => rw [spellings, inductionHypothesis, List.map_cons]

theorem allWellFormed_eq_all (trees : List Expression) :
    allWellFormed trees = trees.all wellFormed := by
  induction trees with
  | nil => rw [allWellFormed, List.all_nil]
  | cons first rest inductionHypothesis =>
      rw [allWellFormed, inductionHypothesis, List.all_cons]

theorem allWithoutLines_eq_map (trees : List Expression) :
    allWithoutLines trees = trees.map withoutLines := by
  induction trees with
  | nil => rw [allWithoutLines, List.map_nil]
  | cons first rest inductionHypothesis =>
      rw [allWithoutLines, inductionHypothesis, List.map_cons]

/-- In a tail, each operand is spelled behind its operator. -/
theorem tailSpelling_eq_flatMap (tail : List (Operator × Term)) :
    tailSpelling tail = tail.flatMap fun operation =>
      .exact .symbol operation.1.symbol :: operation.2.spelling := by
  induction tail with
  | nil => rw [tailSpelling, List.flatMap_nil]
  | cons first rest inductionHypothesis =>
      rw [tailSpelling, inductionHypothesis, List.flatMap_cons, List.cons_append]

/-- A tail is well formed if all of its operators are binary ones and all of its operands are well
formed. -/
theorem tailWellFormed_eq_all (tail : List (Operator × Term)) :
    tailWellFormed tail = tail.all fun operation =>
      isAmong binarySymbols operation.1.symbol && operation.2.wellFormed := by
  induction tail with
  | nil => rw [tailWellFormed, List.all_nil]
  | cons first rest inductionHypothesis =>
      rw [tailWellFormed, inductionHypothesis, List.all_cons]

theorem tailWithoutLines_eq_map (tail : List (Operator × Term)) :
    tailWithoutLines tail = tail.map fun operation =>
      (⟨operation.1.symbol, 0⟩, operation.2.withoutLines) := by
  induction tail with
  | nil => rw [tailWithoutLines, List.map_nil]
  | cons first rest inductionHypothesis =>
      rw [tailWithoutLines, inductionHypothesis, List.map_cons]

end Expression

namespace Statement

/-- Statements stand one behind the other, with nothing in between. -/
theorem allSpelling_eq_flatMap (trees : List Statement) :
    allSpelling trees = trees.flatMap spelling := by
  induction trees with
  | nil => rw [allSpelling, List.flatMap_nil]
  | cons first rest inductionHypothesis =>
      rw [allSpelling, inductionHypothesis, List.flatMap_cons]

theorem allWellFormed_eq_all (trees : List Statement) :
    allWellFormed trees = trees.all wellFormed := by
  induction trees with
  | nil => rw [allWellFormed, List.all_nil]
  | cons first rest inductionHypothesis =>
      rw [allWellFormed, inductionHypothesis, List.all_cons]

theorem allWithoutLines_eq_map (trees : List Statement) :
    allWithoutLines trees = trees.map withoutLines := by
  induction trees with
  | nil => rw [allWithoutLines, List.map_nil]
  | cons first rest inductionHypothesis =>
      rw [allWithoutLines, inductionHypothesis, List.map_cons]

end Statement

/-! ## Lines do not matter -/

mutual

/-- A spelling holds no lines: a tree and the tree without its lines are spelled alike. -/
theorem Term.spelling_withoutLines : (tree : Term) → tree.withoutLines.spelling = tree.spelling
  | .integer .. | .string .. | .keyword .. | .name .. => by
      simp only [Term.withoutLines, Term.spelling]
  | .element _ index _ => by
      simp only [Term.withoutLines, Term.spelling, Expression.spelling_withoutLines index]
  | .call called => by
      simp only [Term.withoutLines, Term.spelling, Call.spelling_withoutLines called]
  | .group inner _ => by
      simp only [Term.withoutLines, Term.spelling, Expression.spelling_withoutLines inner]
  | .unary _ operand _ => by
      simp only [Term.withoutLines, Term.spelling, Term.spelling_withoutLines operand]

theorem Expression.spelling_withoutLines :
    (tree : Expression) → tree.withoutLines.spelling = tree.spelling
  | .mk head tail => by
      simp only [Expression.withoutLines, Expression.spelling, Term.spelling_withoutLines head,
        Expression.tailSpelling_withoutLines tail]

theorem Expression.tailSpelling_withoutLines : (tail : List (Operator × Term)) →
    Expression.tailSpelling (Expression.tailWithoutLines tail) = Expression.tailSpelling tail
  | [] => by rw [Expression.tailWithoutLines]
  | (_, operand) :: rest => by
      simp only [Expression.tailWithoutLines, Expression.tailSpelling,
        Term.spelling_withoutLines operand, Expression.tailSpelling_withoutLines rest]

/-- A call has a line of its own besides those of its arguments; neither is spelled. -/
theorem Call.spelling_withoutLines : (tree : Call) → tree.withoutLines.spelling = tree.spelling
  | .mk none _ arguments _ | .mk (some _) _ arguments _ => by
      simp only [Call.withoutLines, Call.spelling, Expression.spellings_withoutLines arguments]

theorem Expression.spellings_withoutLines : (trees : List Expression) →
    Expression.spellings (Expression.allWithoutLines trees) = Expression.spellings trees
  | [] => by rw [Expression.allWithoutLines]
  | first :: rest => by
      simp only [Expression.allWithoutLines, Expression.spellings,
        Expression.spelling_withoutLines first, Expression.spellings_withoutLines rest]

end

mutual

/-- Whether a tree is well formed does not depend on its lines either. -/
theorem Term.wellFormed_withoutLines :
    (tree : Term) → tree.withoutLines.wellFormed = tree.wellFormed
  | .integer .. | .string .. | .keyword .. | .name .. => by
      simp only [Term.withoutLines, Term.wellFormed]
  | .element _ index _ => by
      simp only [Term.withoutLines, Term.wellFormed, Expression.wellFormed_withoutLines index]
  | .call called => by
      simp only [Term.withoutLines, Term.wellFormed, Call.wellFormed_withoutLines called]
  | .group inner _ => by
      simp only [Term.withoutLines, Term.wellFormed, Expression.wellFormed_withoutLines inner]
  | .unary _ operand _ => by
      simp only [Term.withoutLines, Term.wellFormed, Term.wellFormed_withoutLines operand]

theorem Expression.wellFormed_withoutLines :
    (tree : Expression) → tree.withoutLines.wellFormed = tree.wellFormed
  | .mk head tail => by
      simp only [Expression.withoutLines, Expression.wellFormed,
        Term.wellFormed_withoutLines head, Expression.tailWellFormed_withoutLines tail]

theorem Expression.tailWellFormed_withoutLines : (tail : List (Operator × Term)) →
    Expression.tailWellFormed (Expression.tailWithoutLines tail) =
      Expression.tailWellFormed tail
  | [] => by rw [Expression.tailWithoutLines]
  | (_, operand) :: rest => by
      simp only [Expression.tailWithoutLines, Expression.tailWellFormed,
        Term.wellFormed_withoutLines operand, Expression.tailWellFormed_withoutLines rest]

theorem Call.wellFormed_withoutLines :
    (tree : Call) → tree.withoutLines.wellFormed = tree.wellFormed
  | .mk _ _ arguments _ => by
      simp only [Call.withoutLines, Call.wellFormed,
        Expression.allWellFormed_withoutLines arguments]

theorem Expression.allWellFormed_withoutLines : (trees : List Expression) →
    Expression.allWellFormed (Expression.allWithoutLines trees) =
      Expression.allWellFormed trees
  | [] => by rw [Expression.allWithoutLines]
  | first :: rest => by
      simp only [Expression.allWithoutLines, Expression.allWellFormed,
        Expression.wellFormed_withoutLines first, Expression.allWellFormed_withoutLines rest]

end

/-- What can be assigned to is told by the form of the term alone. -/
theorem Term.isTarget_withoutLines (tree : Term) :
    tree.withoutLines.isTarget = tree.isTarget := by
  cases tree <;> simp only [Term.withoutLines, Term.isTarget]

mutual

/-- Statements are spelled alike without their lines, blocks and elses included. -/
theorem Statement.spelling_withoutLines :
    (tree : Statement) → tree.withoutLines.spelling = tree.spelling
  | .letTo target value _ => by
      simp only [Statement.withoutLines, Statement.spelling, Term.spelling_withoutLines target,
        Expression.spelling_withoutLines value]
  | .ifElse condition whenTrue otherwise _ => by
      simp only [Statement.withoutLines, Statement.spelling,
        Expression.spelling_withoutLines condition, Statement.allSpelling_withoutLines whenTrue,
        Statement.elseSpelling_withoutLines otherwise]
  | .whileDo condition body _ => by
      simp only [Statement.withoutLines, Statement.spelling,
        Expression.spelling_withoutLines condition, Statement.allSpelling_withoutLines body]
  | .doCall called _ => by
      simp only [Statement.withoutLines, Statement.spelling, Call.spelling_withoutLines called]
  | .giveBack none _ => by
      simp only [Statement.withoutLines, Statement.spelling, Option.map_none]
  | .giveBack (some value) _ => by
      simp only [Statement.withoutLines, Statement.spelling, Option.map_some,
        Expression.spelling_withoutLines value]

theorem Statement.allSpelling_withoutLines : (trees : List Statement) →
    Statement.allSpelling (Statement.allWithoutLines trees) = Statement.allSpelling trees
  | [] => by rw [Statement.allWithoutLines]
  | first :: rest => by
      simp only [Statement.allWithoutLines, Statement.allSpelling,
        Statement.spelling_withoutLines first, Statement.allSpelling_withoutLines rest]

theorem Statement.elseSpelling_withoutLines : (otherwise : Option (List Statement)) →
    Statement.elseSpelling (Statement.elseWithoutLines otherwise) =
      Statement.elseSpelling otherwise
  | none => by rw [Statement.elseWithoutLines]
  | some body => by
      simp only [Statement.elseWithoutLines, Statement.elseSpelling,
        Statement.allSpelling_withoutLines body]

end

/-- A block stays empty or not, which is what its well-formedness asks besides its statements. -/
theorem Statement.isEmpty_allWithoutLines (trees : List Statement) :
    (Statement.allWithoutLines trees).isEmpty = trees.isEmpty := by
  cases trees <;> simp only [Statement.allWithoutLines, List.isEmpty_nil, List.isEmpty_cons]

mutual

/-- The grammar has a statement if it has the one without lines. -/
theorem Statement.wellFormed_withoutLines :
    (tree : Statement) → tree.withoutLines.wellFormed = tree.wellFormed
  | .letTo target value _ => by
      simp only [Statement.withoutLines, Statement.wellFormed,
        Term.isTarget_withoutLines target, Term.wellFormed_withoutLines target,
        Expression.wellFormed_withoutLines value]
  | .ifElse condition whenTrue otherwise _ => by
      simp only [Statement.withoutLines, Statement.wellFormed,
        Statement.isEmpty_allWithoutLines whenTrue,
        Expression.wellFormed_withoutLines condition,
        Statement.allWellFormed_withoutLines whenTrue,
        Statement.elseWellFormed_withoutLines otherwise]
  | .whileDo condition body _ => by
      simp only [Statement.withoutLines, Statement.wellFormed,
        Statement.isEmpty_allWithoutLines body, Expression.wellFormed_withoutLines condition,
        Statement.allWellFormed_withoutLines body]
  | .doCall called _ => by
      simp only [Statement.withoutLines, Statement.wellFormed,
        Call.wellFormed_withoutLines called]
  | .giveBack none _ => by
      simp only [Statement.withoutLines, Statement.wellFormed, Option.map_none]
  | .giveBack (some value) _ => by
      simp only [Statement.withoutLines, Statement.wellFormed, Option.map_some,
        Option.all_some, Expression.wellFormed_withoutLines value]

theorem Statement.allWellFormed_withoutLines : (trees : List Statement) →
    Statement.allWellFormed (Statement.allWithoutLines trees) = Statement.allWellFormed trees
  | [] => by rw [Statement.allWithoutLines]
  | first :: rest => by
      simp only [Statement.allWithoutLines, Statement.allWellFormed,
        Statement.wellFormed_withoutLines first, Statement.allWellFormed_withoutLines rest]

theorem Statement.elseWellFormed_withoutLines : (otherwise : Option (List Statement)) →
    Statement.elseWellFormed (Statement.elseWithoutLines otherwise) =
      Statement.elseWellFormed otherwise
  | none => by rw [Statement.elseWithoutLines]
  | some body => by
      simp only [Statement.elseWithoutLines, Statement.elseWellFormed,
        Statement.isEmpty_allWithoutLines body, Statement.allWellFormed_withoutLines body]

end

namespace Subroutine

theorem spelling_withoutLines (tree : Subroutine) : tree.withoutLines.spelling = tree.spelling := by
  simp only [spelling, withoutLines, SubroutineBody.spelling, SubroutineBody.withoutLines,
    Statement.allSpelling_withoutLines, List.flatMap_map]
  rfl

theorem wellFormed_withoutLines (tree : Subroutine) :
    tree.withoutLines.wellFormed = tree.wellFormed := by
  simp only [wellFormed, withoutLines, SubroutineBody.wellFormed, SubroutineBody.withoutLines,
    Statement.allWellFormed_withoutLines, List.all_map]
  rfl

end Subroutine

namespace ClassTree

/-- So a class tree is told by its tokens up to lines, and no better. -/
theorem spelling_withoutLines (tree : ClassTree) : tree.withoutLines.spelling = tree.spelling := by
  simp only [spelling, withoutLines, List.flatMap_map, Subroutine.spelling_withoutLines]
  rfl

theorem wellFormed_withoutLines (tree : ClassTree) :
    tree.withoutLines.wellFormed = tree.wellFormed := by
  simp only [wellFormed, withoutLines, List.all_map, Function.comp_def,
    Subroutine.wellFormed_withoutLines]
  rfl

end ClassTree

end Jack
