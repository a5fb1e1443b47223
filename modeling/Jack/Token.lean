import Jack.Text.Numeral
import Jack.Text.Quoted

/-!
Contract: tokens, the words of a program.

Owns: the six kinds of token with their names, a token's content and line, its
text in a source, and its text in a message.

Does not own: how a source is cut into tokens.
-/

set_option autoImplicit false

namespace Jack

/-- The six kinds of token. -/
inductive Token.Kind where
  | keyword
  | symbol
  | identifier
  | integer
  | string
  | comment
deriving DecidableEq, Repr

namespace Token.Kind

def all : List Kind :=
  [keyword, symbol, identifier, integer, string, comment]

def name : Kind → String
  | keyword => "keyword"
  | symbol => "symbol"
  | identifier => "identifier"
  | integer => "integerConstant"
  | string => "stringConstant"
  | comment => "comment"

end Token.Kind

/-- A token. The content of a string leaves the quotes out; the content of a
comment keeps its marks. -/
structure Token where
  kind : Token.Kind
  content : Bytes
  line : Nat
deriving DecidableEq, Repr

namespace Token

def value (token : Token) : Nat :=
  Numeral.valueOf token.content

def source (token : Token) : Bytes :=
  match token.kind with
  | .string => ascii '"' :: token.content ++ [ascii '"']
  | _ => token.content

/-- The token as messages show it: its kind and its quoted content. -/
def describe (token : Token) : Bytes :=
  utf8 token.kind.name ++ utf8 " " ++ Text.quoted token.content

/-- Whether the token is code, that is no comment. -/
def isCode (token : Token) : Bool :=
  token.kind != .comment

end Token

def maxInteger : Nat := 32767

end Jack
