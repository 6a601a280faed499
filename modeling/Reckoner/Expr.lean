import Reckoner.Number
import Reckoner.Position

/-!
# Expressions

An expression is a tree of operations over literals and variables. References and operations keep
their place in the source text, so that a failure of a running program can be reported there.
-/

namespace Reckoner

/-- A binary operation. -/
inductive Operator where
  | plus
  | minus
  | times
  | divide
deriving DecidableEq, Repr

/-- The sign of an operation. -/
def Operator.symbol : Operator → String
  | plus => "+"
  | minus => "-"
  | times => "*"
  | divide => "/"

/-- An expression. -/
inductive Expr where
  | literal (value : Number)
  | reference (name : String) (position : Position)
  /-- The position is that of the operation's sign. -/
  | operation (operator : Operator) (left right : Expr) (position : Position)
deriving BEq, DecidableEq, Repr

namespace Expr

/-- The number of levels of an expression. -/
def depth : Expr → Nat
  | literal _ | reference _ _ => 1
  | operation _ left right _ => 1 + max left.depth right.depth

theorem depth_pos : (e : Expr) → 0 < e.depth
  | literal _ | reference _ _ => Nat.one_pos
  | operation _ _ _ _ => by simp only [depth]; omega

/-- The text of an expression. Every operation stands in parentheses. -/
def text : Expr → String
  | literal value => value.text
  | reference name _ => name
  | operation operator left right _ => s!"({left.text} {operator.symbol} {right.text})"

/-- A node of an expression without its operands. -/
inductive Node where
  | literal (value : Number)
  | reference (name : String) (position : Position)
  | operation (operator : Operator) (position : Position)
deriving BEq, DecidableEq, Repr

/-- The nodes in the order of evaluation: first the left operand, then the right one, then the
operation. -/
def postorder : Expr → List Node
  | literal value => [.literal value]
  | reference name position => [.reference name position]
  | operation operator left right position =>
    left.postorder ++ right.postorder ++ [.operation operator position]

end Expr

end Reckoner
