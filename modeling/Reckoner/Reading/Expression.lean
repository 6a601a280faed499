import Reckoner.Expr
import Reckoner.Reading.Basic

/-!
# Reading expressions

An expression is a sum: a chain of products joined by `+` and `-`. A product is a chain of factors
joined by `*` and `/`. A factor is a number, a variable, or an expression in parentheses. Chains
lean to the left.

Two limits of the same size bound the work. No expression has more than `maxDepth` levels, and no
more than `maxDepth` parentheses are open at one time. `factor` counts the parentheses that may
still be opened, and `chain` ends because every operation adds a level.
-/

namespace Reckoner

/-- What expressions can be read from. -/
class ExprSource (σ : Type) where
  /-- Reads an expression that stands in no parentheses. -/
  expression : Reading σ Expr

namespace Reading

export ExprSource (expression)

/-- The operations that join products. -/
def additive? : Kind → Option Operator
  | .plus => some .plus
  | .minus => some .minus
  | _ => none

/-- The operations that join factors. -/
def multiplicative? : Kind → Option Operator
  | .star => some .times
  | .slash => some .divide
  | _ => none

section

variable {σ : Type} [TokenSource σ]

/-- Continues a chain behind `left`: as long as the next token is one of the operations, an operand
follows and both are joined. An operation that would have too many levels is refused. -/
def chain (operator? : Kind → Option Operator) (operand : Reading σ Expr) (left : Expr) :
    Reading σ Expr := do
  let token ← peek
  match operator? token.kind with
  | none => return left
  | some operator =>
    let token ← next
    let right ← operand
    if 1 + max left.depth right.depth ≤ maxDepth then
      chain operator? operand (.operation operator left right token.position)
    else refuse (.tooDeep token)
termination_by maxDepth - left.depth
decreasing_by
  simp only [Expr.depth]
  omega

/-- A product of the given factors. -/
def product (factor : Reading σ Expr) : Reading σ Expr := do
  chain multiplicative? factor (← factor)

/-- A sum of products of the given factors. -/
def sum (factor : Reading σ Expr) : Reading σ Expr := do
  chain additive? (product factor) (← product factor)

/-- A factor, with what it does behind an opening parenthesis. -/
def factorWith (parenthesized : Token → Reading σ Expr) : Reading σ Expr := do
  let token ← next
  match token.kind with
  | .number value => return .literal value
  | .identifier => return .reference token.literal token.position
  | .leftParen => parenthesized token
  | _ => refuse (.ofUnexpected .factor token)

/-- An expression and the parenthesis that closes it. -/
def closed (expression : Reading σ Expr) : Reading σ Expr := do
  let inner ← expression
  let _ ← expect .rightParen
  return inner

/-- A factor inside which at most `levels` more parentheses may be open at one time. -/
def factor : Nat → Reading σ Expr
  | 0 => factorWith fun token => refuse (.tooDeep token)
  | levels + 1 => factorWith fun _ => closed (sum (factor levels))

end

instance : ExprSource TokenStream where
  expression := sum (factor maxDepth)

instance : ExprSource Lexer where
  expression := sum (factor maxDepth)

/-- An expression of a stream is a sum of factors with all levels of parentheses left. -/
theorem expression_eq : (expression : Reading TokenStream Expr) = sum (factor maxDepth) := rfl

/-! ## What is left of the stream -/

/-- A chain puts nothing back if its operands do not. -/
theorem consumes_chain (operator? : Kind → Option Operator) {operand : Reading TokenStream Expr}
    (h : Consumes operand) (left : Expr) : Consumes (chain operator? operand left) := by
  fun_induction chain operator? operand left with
  | case1 left ih =>
    refine consumes_peek.bind fun token => ?_
    split
    · exact consumes_pure left
    · refine consumes_next.bind fun token => h.bind fun right => ?_
      split
      · rename_i hd
        exact ih _ _ _ hd
      · exact consumes_refuse _

theorem Consumes.product {factor : Reading TokenStream Expr} (h : Consumes factor) :
    Consumes (product factor) :=
  h.bind (consumes_chain _ h)

theorem Consumes.sum {factor : Reading TokenStream Expr} (h : Consumes factor) :
    Consumes (sum factor) :=
  h.product.bind (consumes_chain _ h.product)

/-- A factor puts nothing back if what stands in parentheses does not. -/
theorem consumes_factorWith {parenthesized : Token → Reading TokenStream Expr}
    (h : ∀ token, Consumes (parenthesized token)) : Consumes (factorWith parenthesized) := by
  refine consumes_next.bind fun token => ?_
  split
  · exact consumes_pure _
  · exact consumes_pure _
  · exact h token
  · exact consumes_refuse _

theorem Consumes.closed {expression : Reading TokenStream Expr} (h : Consumes expression) :
    Consumes (closed expression) :=
  h.bind fun inner => (consumes_expect _).bind fun _ => consumes_pure inner

theorem consumes_factor (levels : Nat) : Consumes (factor levels) := by
  induction levels with
  | zero => exact consumes_factorWith fun _ => consumes_refuse _
  | succ levels ih => exact consumes_factorWith fun _ => ih.sum.closed

theorem consumes_expression : Consumes expression :=
  (consumes_factor maxDepth).sum

end Reading

end Reckoner
