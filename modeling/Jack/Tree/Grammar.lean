import Jack.Diagnostic
import Jack.Grammar.Rule
import Jack.Tree

/-!
Contract: the grammar of programs.

Owns: one rule per production, and the reading of a whole class with the diagnostic
for tokens that are none.

Does not own: the meaning of names; a qualifier is a name whatever it stands for.

Three kinds of term start with a name: a call, an array element and a variable. The
token behind the name decides which one is meant.
-/

set_option autoImplicit false

namespace Jack.Production

open Rule

def word (text : String) : Rule Token :=
  literal (utf8 text)

def identifier : Rule Token :=
  ofKind .identifier

def isSymbolIn (symbols : List String) (token : Token) : Bool :=
  token.kind == .symbol && (symbols.map utf8).contains token.content

/-- Whether the token behind the cursor's is one of these symbols. -/
def followedBy (cursor : Cursor) (symbols : List String) : Bool :=
  cursor.following?.any (isSymbolIn symbols)

/-! ## Expressions -/

def binaryOperator : Rule Operator := do
  let token ← token (isSymbolIn ["+", "-", "*", "/", "&", "|", "<", ">", "="])
  return { symbol := token.content, line := token.line }

def unaryOperator : Rule Operator := do
  let token ← token (isSymbolIn ["-", "~"])
  return { symbol := token.content, line := token.line }

def integerTerm : Rule Term := do
  let token ← ofKind .integer
  return .integer token.value token.line

def stringTerm : Rule Term := do
  let token ← ofKind .string
  return .string token.content token.line

def isKeywordConstant (token : Token) : Bool :=
  token.kind == .keyword &&
    (["true", "false", "null", "this"].map utf8).contains token.content

def keywordTerm : Rule Term := do
  let token ← token isKeywordConstant
  return .keyword token.content token.line

/-- A variable: a name that nothing follows which would make it a call or an array
element. -/
def nameTerm : Rule Term := fun cursor =>
  if followedBy cursor ["(", ".", "["] then .missed (cursor.pos + 1)
  else
    (do
      let token ← identifier
      return Term.name token.content token.line : Rule Term) cursor

section WithTerm

variable (term : Rule Term)

/-- A term, then operators each with a term. An operator that no term follows is
not taken. -/
def expressionOf : Rule Expression := do
  let head ← term
  let tail ← many do
    let operator ← binaryOperator
    let operand ← term
    return (operator, operand)
  return .mk head tail

/-- Expressions with commas in between, or none at all. -/
def expressionListOf : Rule (List Expression) := do
  let expressions ← optional (separatedBy (expressionOf term) (utf8 ","))
  return expressions.getD []

/-- An array element: a name and an index in brackets. -/
def elementTermOf : Rule Term := fun cursor =>
  if followedBy cursor ["["] then
    (do
      let name ← identifier
      let _ ← word "["
      let index ← expressionOf term
      let _ ← word "]"
      return Term.element name.content index name.line : Rule Term) cursor
  else .missed cursor.pos

def argumentsOf : Rule (List Expression) := do
  let _ ← word "("
  let arguments ← expressionListOf term
  let _ ← word ")"
  return arguments

/-- A call, with a qualifier when a dot follows the first name. -/
def callOf : Rule Call := fun cursor =>
  if followedBy cursor ["."] then
    (do
      let qualifier ← identifier
      let _ ← word "."
      let name ← identifier
      let arguments ← argumentsOf term
      return Call.mk (some qualifier.content) name.content arguments qualifier.line
      : Rule Call) cursor
  else if followedBy cursor ["("] then
    (do
      let name ← identifier
      let arguments ← argumentsOf term
      return Call.mk none name.content arguments name.line : Rule Call) cursor
  else .missed cursor.pos

def groupTermOf : Rule Term := do
  let start ← word "("
  let inner ← expressionOf term
  let _ ← word ")"
  return .group inner start.line

/-- An operator and the one term right behind it. -/
def unaryTermOf : Rule Term := do
  let operator ← unaryOperator
  let operand ← term
  return .unary operator operand operator.line

def termAlternatives : List (Rule Term) :=
  [integerTerm, stringTerm, Term.call <$> callOf term, keywordTerm,
    elementTermOf term, nameTerm, groupTermOf term, unaryTermOf term]

end WithTerm

def term : Rule Term :=
  recursive fun term => firstOf (termAlternatives term)

def expression : Rule Expression :=
  expressionOf term

def expressionList : Rule (List Expression) :=
  expressionListOf term

def elementTerm : Rule Term :=
  elementTermOf term

def call : Rule Call :=
  callOf term

def groupTerm : Rule Term :=
  groupTermOf term

def unaryTerm : Rule Term :=
  unaryTermOf term

/-! ## Statements -/

/-- An assignment to a variable or to an array element. -/
def letStatement : Rule Statement := do
  let start ← word "let"
  let target ← firstOf [elementTerm, nameTerm]
  let _ ← word "="
  let value ← expression
  let _ ← word ";"
  return .letTo target value start.line

def doStatement : Rule Statement := do
  let start ← word "do"
  let call ← call
  let _ ← word ";"
  return .doCall call start.line

def returnStatement : Rule Statement := do
  let start ← word "return"
  let value ← optional expression
  let _ ← word ";"
  return .giveBack value start.line

section WithStatement

variable (statement : Rule Statement)

/-- Statements in braces, at least one. -/
def blockOf : Rule (List Statement) := do
  let _ ← word "\x7b"
  let statements ← many1 statement
  let _ ← word "\x7d"
  return statements

def condition : Rule Expression := do
  let _ ← word "("
  let condition ← expression
  let _ ← word ")"
  return condition

def ifStatementOf : Rule Statement := do
  let start ← word "if"
  let condition ← condition
  let whenTrue ← blockOf statement
  let otherwise ← optional do
    let _ ← word "else"
    blockOf statement
  return .ifElse condition whenTrue otherwise start.line

def whileStatementOf : Rule Statement := do
  let start ← word "while"
  let condition ← condition
  let body ← blockOf statement
  return .whileDo condition body start.line

def statementAlternatives : List (Rule Statement) :=
  [ifStatementOf statement, whileStatementOf statement, doStatement, letStatement,
    returnStatement]

end WithStatement

def statement : Rule Statement :=
  recursive fun statement => firstOf (statementAlternatives statement)

def statements : Rule (List Statement) :=
  many statement

def block : Rule (List Statement) :=
  blockOf statement

def ifStatement : Rule Statement :=
  ifStatementOf statement

def whileStatement : Rule Statement :=
  whileStatementOf statement

/-! ## Declarations -/

/-- A primitive type that a variable can have, or the name of a class. -/
def type : Rule Bytes := do
  let token ← firstOf [word "int", word "char", word "boolean", identifier]
  return token.content

def names : Rule (List Bytes) := do
  let tokens ← separatedBy identifier (utf8 ",")
  return tokens.map Token.content

/-- A type, names and a semicolon, behind the token that starts the declaration. -/
def variableList (start : Token) : Rule VariableList := do
  let type ← type
  let names ← names
  let _ ← word ";"
  return { type, names, line := start.line }

def classVariables : Rule ClassVariables := do
  let start ← firstOf [word "static", word "field"]
  let list ← variableList start
  let kind := if start.content = utf8 "field" then .field else .static
  return { kind, list }

def localVariables : Rule VariableList := do
  let start ← word "var"
  variableList start

def parameter : Rule Parameter := do
  let type ← type
  let name ← identifier
  return { type, name := name.content }

def subroutineBody : Rule SubroutineBody := do
  let _ ← word "\x7b"
  let locals ← many localVariables
  let statements ← statements
  let _ ← word "\x7d"
  return { locals, statements }

/-- The kind that a keyword names. -/
def subroutineKind (keyword : Bytes) : SubroutineKind :=
  if keyword = utf8 "constructor" then .constructor
  else if keyword = utf8 "method" then .method
  else .function

def subroutine : Rule Subroutine := do
  let start ← firstOf [word "constructor", word "function", word "method"]
  let result ← firstOf [Token.content <$> word "void", type]
  let name ← identifier
  let _ ← word "("
  let parameters ← optional (separatedBy parameter (utf8 ","))
  let _ ← word ")"
  let body ← subroutineBody
  return {
    kind := subroutineKind start.content
    result
    name := name.content
    parameters := parameters.getD []
    body
    line := start.line }

def classTree : Rule ClassTree := do
  let start ← word "class"
  let name ← identifier
  let _ ← word "\x7b"
  let declarations ← many classVariables
  let subroutines ← many subroutine
  let _ ← word "\x7d"
  return { name := name.content, declarations, subroutines, line := start.line }

end Jack.Production

namespace Jack

/-- The diagnostic for tokens that go wrong at a position. -/
def syntacticDiagnostic (cursor : Cursor) (position : Nat) : Diagnostic :=
  match cursor.tokens[position]? with
  | none => { cause := .syntactic .endOfInput, line := cursor.lineAt position }
  | some token => { cause := .syntactic (.near token.source), line := token.line }

/-- Reads the class that the tokens spell, all of them. What is wrong is reported at
the furthest token that was looked at, or at the first one behind the class. -/
def parseClass (tokens : Array Token) : Except Diagnostic ClassTree :=
  let cursor := Cursor.ofTokens tokens
  match Production.classTree cursor with
  | .missed furthest => .error (syntacticDiagnostic cursor furthest)
  | .matched tree rest _ =>
      if rest < tokens.size then .error (syntacticDiagnostic cursor rest)
      else .ok tree

end Jack
