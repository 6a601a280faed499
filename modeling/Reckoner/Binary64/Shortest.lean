import Reckoner.Binary64.Basic
import Reckoner.Decimal

/-!
# The shortest decimal that names a 64-bit number

The numbers that round to a given magnitude form an interval around it. Among the decimals in that
interval the shortest ones lie on the coarsest decimal grid that meets it; of these the nearest is
taken, and of two equally near ones the larger.

One unit, `2⁻¹⁰⁷⁴`, is `5¹⁰⁷⁴` times `10⁻¹⁰⁷⁴`. So every magnitude is a whole number of `10⁻¹⁰⁷⁴`,
all comparisons are between natural numbers, and the finest grid contains the magnitude itself.
-/

namespace Reckoner.Binary64

-- Powers are those of the natural numbers of core, whatever else is in scope.
attribute [local instance (2000)] instPowNat

/-- Number of `10⁻¹⁰⁷⁴` in one unit. -/
def decimalScale : Nat := 5 ^ unitExponent

/-- Distance, in units, from a magnitude to the next smaller one. Below a power of two the grid is
twice as fine, except where it is finest already. -/
def gapBelow (units : Nat) : Nat :=
  if units = 2 ^ units.log2 ∧ fractionBits < units.log2 then gap units / 2 else gap units

/-- An interval of decimals in steps of `10⁻¹⁰⁷⁴`. The bounds are doubled so that they are whole. -/
structure RoundingInterval where
  twiceLower : Nat
  twiceUpper : Nat
  /-- Whether the bounds belong to the interval. -/
  closed : Bool
deriving DecidableEq, Repr

/-- The decimals that round to `units`. They end halfway to the neighbours; the ends themselves
round to the neighbour with an even last digit. -/
def roundingInterval (units : Nat) : RoundingInterval where
  twiceLower := (2 * units - gapBelow units) * decimalScale
  twiceUpper := (2 * units + gap units) * decimalScale
  closed := units / gap units % 2 == 0

/-- Whether `value` steps of `10⁻¹⁰⁷⁴` lie in the interval. -/
def RoundingInterval.contains (i : RoundingInterval) (value : Nat) : Bool :=
  if i.closed then decide (i.twiceLower ≤ 2 * value ∧ 2 * value ≤ i.twiceUpper)
  else decide (i.twiceLower < 2 * value ∧ 2 * value < i.twiceUpper)

/-- The multiple of `step` in the interval that is nearest to `value`, if one of the two multiples
around `value` lies there. A tie goes to the larger. -/
def RoundingInterval.nearestMultiple? (i : RoundingInterval) (value step : Nat) : Option Nat :=
  let below := value / step
  match i.contains (below * step), i.contains ((below + 1) * step) with
  | true, true => some (if 2 * (value % step) < step then below else below + 1)
  | true, false => some below
  | false, true => some (below + 1)
  | false, false => none

/-- Searches the grids of `10ⁿ` steps from coarse to fine. -/
def RoundingInterval.search (i : RoundingInterval) (value : Nat) : Nat → Decimal
  | 0 => ⟨value, -unitExponent⟩
  | n + 1 =>
    match i.nearestMultiple? value (10 ^ (n + 1)) with
    | some digits => ⟨digits, (n + 1 : Nat) - unitExponent⟩
    | none => i.search value n

/-- The shortest decimal that rounds to a magnitude of `units`. The search begins at a power of ten
above the magnitude, since `2¹⁰⁰⁰⁰⁰ < 10³⁰¹⁰³`. -/
def shortest (units : Nat) : Decimal :=
  if units = 0 then ⟨0, 0⟩
  else
    let value := units * decimalScale
    (roundingInterval units).search value ((value.log2 + 1) * 30103 / 100000 + 1)

/-- The written form of a number. -/
def chars : Binary64 → List Char
  | .nan => ['n', 'a', 'n']
  | .infinity negative => sign negative ++ ['i', 'n', 'f']
  | .finite negative units _ => sign negative ++ (shortest units).chars
where
  /-- A minus sign for negative numbers, and nothing for the others. -/
  sign (negative : Bool) : List Char := if negative then ['-'] else []

/-- The written form of a number, as a string. -/
def text (x : Binary64) : String :=
  String.ofList x.chars

end Reckoner.Binary64
