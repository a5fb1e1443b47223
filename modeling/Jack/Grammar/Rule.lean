import Jack.Grammar.Cursor

/-!
Contract: rules, which recognise a stretch of tokens.

Owns: the outcome of a rule, and the ways to build rules from rules: sequence,
choice, option, repetition, separation, and recursion.

Does not own: the grammar of any language.

A rule answers from a cursor with the node it built and the position behind it, or
with a miss. In both cases it tells the furthest position that it looked at on the
way, in failed attempts too. Cursors are values, so an attempt that misses leaves
nothing behind for the next one.
-/

set_option autoImplicit false

namespace Jack

/-- What a rule found: a node, with the position behind it, or nothing. `furthest`
is the furthest position that was looked at. -/
inductive Outcome (Node : Type) where
  | matched (node : Node) (rest furthest : Nat)
  | missed (furthest : Nat)
deriving DecidableEq, Repr

namespace Outcome

variable {Node : Type}

def furthest : Outcome Node → Nat
  | matched _ _ furthest => furthest
  | missed furthest => furthest

/-- Where reading stands when the rule was applied at `start`: a miss takes
nothing. -/
def rest (start : Nat) : Outcome Node → Nat
  | matched _ rest _ => rest
  | missed _ => start

def node? : Outcome Node → Option Node
  | matched node _ _ => some node
  | missed _ => none

/-- The same outcome after another attempt that looked as far as `position`. -/
def reaching (position : Nat) : Outcome Node → Outcome Node
  | matched node rest furthest => matched node rest (max position furthest)
  | missed furthest => missed (max position furthest)

end Outcome

/-- A rule: what it finds from a cursor on. -/
def Rule (Node : Type) : Type :=
  Cursor → Outcome Node

namespace Rule

variable {Node Other : Type}

def succeed (node : Node) : Rule Node := fun cursor =>
  .matched node cursor.pos cursor.pos

def miss : Rule Node := fun cursor =>
  .missed cursor.pos

/-- One rule, then another behind it that may depend on the first one's node. -/
def andThen (first : Rule Node) (second : Node → Rule Other) : Rule Other := fun cursor =>
  match first cursor with
  | .missed furthest => .missed furthest
  | .matched node rest furthest => (second node (cursor.moveTo rest)).reaching furthest

instance : Monad Rule where
  pure := succeed
  bind := andThen

def token (accepts : Token → Bool) : Rule Token := fun cursor =>
  match cursor.current? with
  | none => .missed cursor.pos
  | some token =>
      if accepts token then .matched token (cursor.pos + 1) (cursor.pos + 1)
      else .missed cursor.pos

def ofKind (kind : Token.Kind) : Rule Token :=
  token fun token => token.kind == kind

/-- One token with this text, of any kind but a string or a comment. -/
def literal (text : Bytes) : Rule Token :=
  token fun token =>
    token.content == text && token.kind != .string && token.kind != .comment

/-- The first of the alternatives that finds something. -/
def firstOf : List (Rule Node) → Rule Node
  | [] => miss
  | alternative :: others => fun cursor =>
      match alternative cursor with
      | .missed furthest => (firstOf others cursor).reaching furthest
      | found => found

/-- The node of the rule, or none without taking a token. -/
def optional (rule : Rule Node) : Rule (Option Node) := fun cursor =>
  match rule cursor with
  | .missed furthest => .matched none cursor.pos furthest
  | .matched node rest furthest => .matched (some node) rest furthest

/-- Repeats a rule from `pos` on, behind the nodes in `found` (latest first). -/
def manyFrom (rule : Rule Node) (tokens : Array Token) (pos : Nat) (found : List Node)
    (furthest : Nat) : Outcome (List Node) :=
  match rule { tokens, pos } with
  | .missed reached => .matched found.reverse pos (max furthest reached)
  | .matched node rest reached =>
      if pos < rest ∧ rest ≤ tokens.size then
        manyFrom rule tokens rest (node :: found) (max furthest reached)
      else .matched found.reverse pos (max furthest reached)
termination_by tokens.size - pos

/-- As many times as the rule finds something and moves on by it. A find that takes
no token ends the repetition and is left out. -/
def many (rule : Rule Node) : Rule (List Node) := fun cursor =>
  manyFrom rule cursor.tokens cursor.pos [] cursor.pos

def many1 (rule : Rule Node) : Rule (List Node) := fun cursor =>
  match many rule cursor with
  | .matched [] _ furthest => .missed furthest
  | outcome => outcome

/-- The rule once or more with a separator in between. A separator that the rule
does not follow is not taken. -/
def separatedBy (rule : Rule Node) (separator : Bytes) : Rule (List Node) := do
  let first ← rule
  let others ← many do
    let _ ← literal separator
    rule
  return first :: others

/-- A rule that refers to itself. The inner use has to stand further on than the
outer one; where it does not, it misses. -/
def recursive (body : Rule Node → Rule Node) (cursor : Cursor) : Outcome Node :=
  body
    (fun inner =>
      if inner.remaining < cursor.remaining then recursive body inner
      else .missed inner.pos)
    cursor
termination_by cursor.remaining

end Rule

end Jack
