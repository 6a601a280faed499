import Reckoner.Binary64.Rounding

/-!
# Arithmetic on 64-bit numbers

Each operation on finite numbers is the exact result, rounded once. An exact result of zero keeps
the sign rules of the format: a sum of opposite numbers is positive zero, and a product or quotient
has the combined sign of its operands.
-/

namespace Reckoner.Binary64

/-- The signed number of units. -/
def signed (negative : Bool) (units : Nat) : Int :=
  if negative then -units else units

/-- The exact sum, rounded. -/
def add : Binary64 → Binary64 → Binary64
  | .finite s u _, .finite t v _ =>
    let sum := signed s u + signed t v
    if sum = 0 then zero (s && t) else ofRatio (decide (sum < 0)) sum.natAbs 1
  | .infinity s, .infinity t => if s = t then .infinity s else .nan
  | .infinity s, .finite _ _ _ => .infinity s
  | .finite _ _ _, .infinity t => .infinity t
  | .nan, _ | _, .nan => .nan

/-- The exact difference, rounded. -/
def sub (x y : Binary64) : Binary64 :=
  x.add y.neg

/-- The exact product, rounded. -/
def mul : Binary64 → Binary64 → Binary64
  | .finite s u _, .finite t v _ => ofRatio (s ^^ t) (u * v) unitsPerOne
  | .infinity s, .infinity t => .infinity (s ^^ t)
  | .infinity s, .finite t u _ | .finite t u _, .infinity s =>
    if u = 0 then .nan else .infinity (s ^^ t)
  | .nan, _ | _, .nan => .nan

/-- The exact quotient, rounded. A zero divisor gives an infinity, or not-a-number for `0 / 0`. -/
def div : Binary64 → Binary64 → Binary64
  | .finite s u _, .finite t v _ =>
    if v = 0 then if u = 0 then .nan else .infinity (s ^^ t)
    else ofRatio (s ^^ t) (u * unitsPerOne) v
  | .infinity _, .infinity _ => .nan
  | .infinity s, .finite t _ _ => .infinity (s ^^ t)
  | .finite s _ _, .infinity t => zero (s ^^ t)
  | .nan, _ | _, .nan => .nan

instance : Add Binary64 := ⟨add⟩
instance : Sub Binary64 := ⟨sub⟩
instance : Mul Binary64 := ⟨mul⟩
instance : Div Binary64 := ⟨div⟩

end Reckoner.Binary64
