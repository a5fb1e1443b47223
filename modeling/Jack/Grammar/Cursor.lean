import Jack.Token

/-!
Contract: a position in a list of tokens.

Owns: looking at the token under the cursor and around it, moving on, and the line
of a position.

Does not own: any rule about which tokens follow each other.
-/

set_option autoImplicit false

namespace Jack

/-- A position in tokens that never change. At the end the position is the number
of tokens. -/
structure Cursor where
  tokens : Array Token
  pos : Nat

namespace Cursor

def ofTokens (tokens : Array Token) : Cursor :=
  { tokens, pos := 0 }

/-- The token `offset` positions further on, or further back. -/
def lookahead? (cursor : Cursor) (offset : Int) : Option Token :=
  let index := (cursor.pos : Int) + offset
  if index < 0 then none else cursor.tokens[index.toNat]?

/-- The token under the cursor; none at the end. -/
def current? (cursor : Cursor) : Option Token :=
  cursor.tokens[cursor.pos]?

def following? (cursor : Cursor) : Option Token :=
  cursor.tokens[cursor.pos + 1]?

def atEnd (cursor : Cursor) : Bool :=
  cursor.tokens.size ≤ cursor.pos

/-- One token further on; at the end the cursor stays. -/
def next (cursor : Cursor) : Cursor :=
  if cursor.atEnd then cursor else { cursor with pos := cursor.pos + 1 }

def moveTo (cursor : Cursor) (pos : Nat) : Cursor :=
  { cursor with pos }

def remaining (cursor : Cursor) : Nat :=
  cursor.tokens.size - cursor.pos

/-- The line of the token at a position. A position outside takes the nearest
token, and without any token the line is 0. -/
def lineAt (cursor : Cursor) (position : Int) : Nat :=
  let index := min position.toNat (cursor.tokens.size - 1)
  (cursor.tokens[index]?).elim 0 Token.line

end Cursor

end Jack
