import Jack.Machine.Instruction
import Jack.Token

/-!
Contract: what the compiler says about a program that it rejects.

Owns: the causes of rejection, one inductive type per phase, the wording of each,
and the text of a diagnostic with its phase and line.

Does not own: when a cause arises.
-/

set_option autoImplicit false

namespace Jack

/-- The phases that can reject a program. -/
inductive Phase where
  | lexical
  | syntactic
  | codegen
deriving DecidableEq, Repr

namespace Phase

def all : List Phase :=
  [lexical, syntactic, codegen]

def name : Phase → String
  | lexical => "lexical"
  | syntactic => "syntax"
  | codegen => "codegen"

end Phase

/-- Why a stretch of source is no token. -/
inductive LexicalFault where
  | integerTooLarge (digits : Bytes)
  | unterminatedComment
  | lineBreakInString
  | unterminatedString
  | unexpectedByte (byte : UInt8)
deriving DecidableEq, Repr

inductive SyntacticFault where
  | endOfInput
  | near (source : Bytes)
deriving DecidableEq, Repr

/-- The terms that can not be assigned to. -/
inductive UnassignableTerm where
  | integer
  | string
  | keyword
  | call
  | group
  | unary
deriving DecidableEq, Repr

inductive CodegenFault where
  | undeclared (name : Bytes)
  | unknownOperator (symbol : Bytes)
  | unknownUnaryOperator (symbol : Bytes)
  | unknownKeywordConstant (word : Bytes)
  | invalidTarget (target : UnassignableTerm)
  | invalidInstruction (instruction : Machine.Instruction) (flaw : Machine.Flaw)
deriving DecidableEq, Repr

/-- Why a program is rejected. -/
inductive Cause where
  | lexical (fault : LexicalFault)
  | syntactic (fault : SyntacticFault)
  | codegen (fault : CodegenFault)
deriving DecidableEq, Repr

def LexicalFault.message : LexicalFault → Bytes
  | integerTooLarge digits =>
      utf8 "integer " ++ digits ++ utf8 " is not in the range 0.." ++
        Numeral.decimal maxInteger
  | unterminatedComment => utf8 "unterminated block comment"
  | lineBreakInString => utf8 "string literal contains a line break"
  | unterminatedString => utf8 "unterminated string literal"
  | unexpectedByte byte => utf8 "unexpected character " ++ Text.quotedByte byte

def SyntacticFault.message : SyntacticFault → Bytes
  | endOfInput => utf8 "unexpected end of input"
  | near source => utf8 "syntax error near " ++ source

def UnassignableTerm.name : UnassignableTerm → String
  | integer => "IntegerConstantTerm"
  | string => "StringConstantTerm"
  | keyword => "KeywordConstantTerm"
  | call => "SubroutineCallTerm"
  | group => "SubExpressionTerm"
  | unary => "UnaryOpTerm"

def CodegenFault.message : CodegenFault → Bytes
  | undeclared name => utf8 "undeclared identifier " ++ name
  | unknownOperator symbol => utf8 "unknown operator " ++ symbol
  | unknownUnaryOperator symbol => utf8 "unknown unary operator " ++ symbol
  | unknownKeywordConstant word => utf8 "unknown keyword constant " ++ word
  | invalidTarget target => utf8 "invalid let target *internal." ++ utf8 target.name
  | invalidInstruction instruction flaw => instruction.flawMessage flaw

namespace Cause

def phase : Cause → Phase
  | lexical _ => .lexical
  | syntactic _ => .syntactic
  | codegen _ => .codegen

def message : Cause → Bytes
  | lexical fault => fault.message
  | syntactic fault => fault.message
  | codegen fault => fault.message

end Cause

/-- A rejection: its cause, and the line that it points to. -/
structure Diagnostic where
  cause : Cause
  line : Int
deriving DecidableEq, Repr

namespace Diagnostic

/-- The text about a line. A line number that is not positive is left out. -/
def render (phase : String) (line : Int) (message : Bytes) : Bytes :=
  let place :=
    if line ≤ 0 then utf8 " error: "
    else utf8 " error at line " ++ Numeral.signed line ++ utf8 ": "
  utf8 phase ++ place ++ message

def text (diagnostic : Diagnostic) : Bytes :=
  render diagnostic.cause.phase.name diagnostic.line diagnostic.cause.message

end Diagnostic

end Jack
