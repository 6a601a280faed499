import Reckoner.Binary64.Arithmetic
import Reckoner.Binary64.Integer
import Reckoner.Binary64.Shortest

/-!
# Numbers of the language

A number is an exact integer without bounds or a 64-bit floating-point number. Sums, differences
and products of integers stay exact; a single floating-point operand makes the operation a
floating-point one. A quotient is always floating-point.
-/

namespace Reckoner

/-- A value of the language. -/
inductive Number where
  /-- An exact integer. -/
  | int (value : Int)
  /-- A floating-point number. -/
  | float (value : Binary64)
deriving DecidableEq, Repr

namespace Number

/-- The floating-point number that stands for a number. -/
def toBinary64 : Number → Binary64
  | .int n => .ofInt n
  | .float x => x

/-- Whether the number is a floating-point one. -/
def isFloat : Number → Bool
  | .int _ => false
  | .float _ => true

/-- Whether the number is zero. -/
def isZero : Number → Bool
  | .int n => n == 0
  | .float x => x.isZero

/-- Exact on two integers, floating-point otherwise. -/
def combine (exact : Int → Int → Int) (rounded : Binary64 → Binary64 → Binary64) :
    Number → Number → Number
  | .int m, .int n => .int (exact m n)
  | a, b => .float (rounded a.toBinary64 b.toBinary64)

instance : Add Number := ⟨combine (· + ·) (· + ·)⟩
instance : Sub Number := ⟨combine (· - ·) (· - ·)⟩
instance : Mul Number := ⟨combine (· * ·) (· * ·)⟩
instance : Div Number := ⟨fun a b => .float (a.toBinary64 / b.toBinary64)⟩

/-- Numerical equality: exact on two integers, and on floating-point values otherwise. -/
def equals : Number → Number → Bool
  | .int m, .int n => m == n
  | a, b => a.toBinary64.equals b.toBinary64

/-- Numbers are compared by `==` numerically. Identity of numbers is `=`. -/
instance : BEq Number := ⟨equals⟩

/-- The written form. -/
def text : Number → String
  | .int n => toString n
  | .float x => x.text

end Number

end Reckoner
