import Reckoner.Binary64.Basic

/-!
# Rounding to the nearest 64-bit number

`ofRatio` gives the number nearest to a quotient of naturals. A quotient halfway between two
neighbours goes to the one whose last binary digit is zero, and a quotient that rounds to the limit
or beyond becomes infinite. All inexact operations go through this one function.
-/

namespace Reckoner.Binary64

-- Powers are those of the natural numbers of core, whatever else is in scope.
attribute [local instance (2000)] instPowNat

/-- The natural number nearest to `num / den`; a half goes to the even neighbour. -/
def roundHalfEven (num den : Nat) : Nat :=
  let quotient := num / den
  let remainder := num % den
  if 2 * remainder < den then quotient
  else if den < 2 * remainder then quotient + 1
  else quotient + quotient % 2

theorem roundHalfEven_le (num den : Nat) : roundHalfEven num den ≤ num / den + 1 := by
  simp only [roundHalfEven]
  split
  · omega
  · split <;> omega

/-- The grid point nearest to `num / den` units. The distance of grid points is that at the whole
part of the quotient. -/
def nearestUnits (num den : Nat) : Nat :=
  let spacing := gap (num / den)
  roundHalfEven num (den * spacing) * spacing

/-- Rounding ends on the grid, also when it moves up to the next power of two. -/
theorem gap_dvd_nearestUnits (num den : Nat) :
    gap (nearestUnits num den) ∣ nearestUnits num den := by
  simp only [nearestUnits]
  generalize hs : (num / den).log2 - fractionBits = s
  have hg : gap (num / den) = 2 ^ s := by rw [gap, hs]
  rw [hg]
  apply gap_dvd_mul_pow
  have hle := roundHalfEven_le num (den * 2 ^ s)
  rw [← Nat.div_div_eq_div_mul] at hle
  have hlt : num / den / 2 ^ s < 2 ^ (fractionBits + 1) := by
    rw [Nat.div_lt_iff_lt_mul (Nat.two_pow_pos s), ← Nat.pow_add]
    calc num / den < 2 ^ ((num / den).log2 + 1) := Nat.lt_log2_self
      _ ≤ 2 ^ (fractionBits + 1 + s) := Nat.pow_le_pow_right (by omega) (by omega)
  omega

/-- The number nearest to `num / den` units, with the given sign. -/
def ofRatio (negative : Bool) (num den : Nat) : Binary64 :=
  let units := nearestUnits num den
  if h : units < limit then .finite negative units ⟨gap_dvd_nearestUnits num den, h⟩
  else .infinity negative

/-- The number nearest to `digits * 10⁻ᵖˡᵃᶜᵉˢ`. -/
def ofDecimal (digits places : Nat) : Binary64 :=
  ofRatio false (digits * unitsPerOne) (10 ^ places)

end Reckoner.Binary64
