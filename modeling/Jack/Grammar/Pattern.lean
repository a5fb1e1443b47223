import Jack.Grammar.Rule

/-!
Contract: patterns, which are rules written down as data.

Owns: patterns, the nodes that they yield, and the rule of a pattern.

Does not own: recursion; a pattern is finite.
-/

set_option autoImplicit false

namespace Jack

inductive Node where
  | token (token : Token)
  | absent
  | list (nodes : List Node)
  | tagged (tag : Bytes) (node : Node)
deriving Repr

/-- Whether an element of a sequence has to be there. -/
inductive Need where
  | required
  | optional
deriving DecidableEq, Repr

/-- Rules built from the basic ones by any nesting. -/
inductive Pattern where
  | token (accepts : Token → Bool)
  | literal (text : Bytes)
  | sequence (elements : List (Need × Pattern))
  | either (alternatives : List Pattern)
  | many (pattern : Pattern)
  | many1 (pattern : Pattern)
  | separated (pattern : Pattern) (separator : Bytes)
  | map (change : Node → Node) (pattern : Pattern)

namespace Pattern

def ofKind (kind : Token.Kind) : Pattern :=
  .token fun token => token.kind == kind

mutual

def rule : Pattern → Rule Node
  | .token accepts => Node.token <$> Rule.token accepts
  | .literal text => Node.token <$> Rule.literal text
  | .sequence elements => Node.list <$> sequenceRule elements
  | .either alternatives => Rule.firstOf (alternativeRules alternatives)
  | .many pattern => Node.list <$> Rule.many pattern.rule
  | .many1 pattern => Node.list <$> Rule.many1 pattern.rule
  | .separated pattern separator =>
      Node.list <$> Rule.separatedBy pattern.rule separator
  | .map change pattern => change <$> pattern.rule

/-- The elements one after the other, with an absent node for an option that was
not there. -/
def sequenceRule : List (Need × Pattern) → Rule (List Node)
  | [] => pure []
  | (.required, pattern) :: elements => do
      let node ← pattern.rule
      let nodes ← sequenceRule elements
      return node :: nodes
  | (.optional, pattern) :: elements => do
      let node ← pattern.rule.optional
      let nodes ← sequenceRule elements
      return node.getD .absent :: nodes

def alternativeRules : List Pattern → List (Rule Node)
  | [] => []
  | pattern :: patterns => pattern.rule :: alternativeRules patterns

end

end Pattern

end Jack
