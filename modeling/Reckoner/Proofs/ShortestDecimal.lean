import Reckoner.Decimal
import Reckoner.Proofs.Nearest

/-!
# The shortest decimal of a magnitude

The search for the shortest decimal ends with one in the rounding interval of the magnitude, at the
latest with the magnitude itself. So this decimal rounds to the magnitude. Rounding intervals are in
the order of their magnitudes, and at the two bounds of positional notation the interval is that of
a power of ten; hence the range of the leading digit is a range of magnitudes.
-/

namespace Reckoner

-- Powers are those of the natural numbers of core, whatever else is in scope.
attribute [local instance (2000)] instPowNat

namespace Binary64

/-- The value of a decimal in steps of `10⁻¹⁰⁷⁴`, if it is a whole number of them. -/
def steps (d : Decimal) : Nat :=
  d.digits * 10 ^ (d.exponent + unitExponent).toNat

end Binary64

/-! ## The leading digit -/

namespace Decimal

open Binary64

/-- The place of the leading digit. -/
def leading (d : Decimal) : Int :=
  d.exponent + (digitChars d.digits).length - 1

/-- A number with zeros behind it lies below a power of ten precisely if all its digits fit
there. -/
theorem mul_pow_lt_iff {m : Nat} (hm : 0 < m) (s k : Nat) :
    m * 10 ^ s < 10 ^ k ↔ (digitChars m).length + s ≤ k := by
  have hlength : 0 < (digitChars m).length := Nat.length_toDigits_pos
  by_cases hsk : s < k
  · obtain ⟨j, rfl⟩ : ∃ j, k = j + s := ⟨k - s, by omega⟩
    have hdigits : (digitChars m).length ≤ j ↔ m < 10 ^ j :=
      Nat.length_toDigits_le_iff (by decide) (by omega)
    rw [Nat.pow_add, Nat.mul_lt_mul_right (Nat.pow_pos (by decide)), ← hdigits]
    omega
  · refine iff_of_false (Nat.not_lt.mpr ?_) (by omega)
    calc 10 ^ k ≤ 10 ^ s := Nat.pow_le_pow_right (by decide) (by omega)
      _ ≤ m * 10 ^ s := Nat.le_mul_of_pos_left _ hm

theorem leading_lt_iff {d : Decimal} (hpos : 0 < d.digits)
    (hexponent : -(unitExponent : Int) ≤ d.exponent) (k : Nat) :
    d.leading < k - unitExponent ↔ steps d < 10 ^ k := by
  rw [steps, mul_pow_lt_iff hpos, leading]
  omega

end Decimal

namespace Binary64

/-! ## What the search finds -/

namespace RoundingInterval

variable {i : RoundingInterval} {value : Nat}

theorem contains_of_nearestMultiple? {step m : Nat} (h : i.nearestMultiple? value step = some m) :
    i.contains (m * step) := by
  simp only [nearestMultiple?] at h
  split at h
  · rename_i hbelow habove
    cases h
    split
    · exact hbelow
    · exact habove
  · cases h
    assumption
  · cases h
    assumption
  · cases h

/-- The search does not leave the interval, nor the grid of the steps. -/
theorem contains_search (h : i.contains value) (n : Nat) :
    i.contains (steps (i.search value n)) ∧
      -(unitExponent : Int) ≤ (i.search value n).exponent := by
  induction n with
  | zero =>
      refine ⟨?_, Int.le_refl _⟩
      simpa [search, steps, Int.add_left_neg] using h
  | succ n ih =>
      rw [search]
      split
      · rename_i m hm
        refine ⟨?_, by simp only; omega⟩
        simpa [steps] using contains_of_nearestMultiple? hm
      · exact ih

end RoundingInterval

variable {u v : Nat}

theorem contains_self (hu : gap u ∣ u) (hpos : 0 < u) :
    (roundingInterval u).contains (decimalScale * u) := by
  have habove := Nat.mul_pos decimalScale_pos (gap_pos u)
  have hbelow := Nat.mul_pos decimalScale_pos (gapBelow_pos u)
  rw [contains_iff hu hpos, WithinHalf]
  omega

/-- The shortest decimal lies in the interval of numbers that are rounded to the given one. -/
theorem contains_shortest (hu : gap u ∣ u) (hpos : 0 < u) :
    (roundingInterval u).contains (steps (shortest u)) ∧
      -(unitExponent : Int) ≤ (shortest u).exponent := by
  rw [shortest, if_neg (Nat.ne_of_gt hpos), Nat.mul_comm]
  exact RoundingInterval.contains_search (contains_self hu hpos) _

theorem exponent_shortest (hu : gap u ∣ u) : -(unitExponent : Int) ≤ (shortest u).exponent := by
  rcases Nat.eq_zero_or_pos u with rfl | hpos
  · decide
  · exact (contains_shortest hu hpos).2

theorem digits_shortest_pos (hu : gap u ∣ u) (hpos : 0 < u) : 0 < (shortest u).digits := by
  have hlower := ((contains_iff hu hpos).mp (contains_shortest hu hpos).1).1
  have hbelow : decimalScale * gapBelow u ≤ decimalScale * u :=
    Nat.mul_le_mul_left _ (Nat.le_trans (gapBelow_le_gap u) (gap_le_self hu hpos))
  have hscaled := Nat.mul_pos decimalScale_pos hpos
  apply Nat.pos_of_ne_zero
  intro hzero
  rw [steps, hzero, Nat.zero_mul] at hlower
  omega

/-- The shortest decimal of a magnitude rounds to this magnitude. -/
theorem nearestUnits_shortest (hu : gap u ∣ u) :
    nearestUnits (steps (shortest u)) decimalScale = u := by
  rcases Nat.eq_zero_or_pos u with rfl | hpos
  · have hdigits : (shortest 0).digits = 0 := rfl
    have hcross : 0 * 1 = 0 * decimalScale := by rw [Nat.zero_mul, Nat.zero_mul]
    rw [steps, hdigits, Nat.zero_mul, nearestUnits_congr decimalScale_pos Nat.one_pos hcross]
    rfl
  · exact nearestUnits_of_contains hu hpos (contains_shortest hu hpos).1

/-! ## The order of rounding intervals -/

/-- What is rounded to a number is no larger than the lower end of the interval of any larger
one. -/
theorem le_twiceLower {value : Nat} (hu : gap u ∣ u) (hv : gap v ∣ v) (hpos : 0 < u) (hlt : u < v)
    (h : (roundingInterval u).contains value) : 2 * value ≤ (roundingInterval v).twiceLower := by
  obtain ⟨-, hupper, -⟩ := (contains_iff hu hpos).mp h
  have habove := Nat.mul_le_mul_left decimalScale (add_gap_le hu hv hlt)
  have hbelow := Nat.mul_le_mul_left decimalScale (add_gapBelow_le hu hv hlt)
  have hlower := twiceLower_add hv (by omega)
  rw [Nat.mul_add] at habove hbelow
  omega

/-- What is rounded to a number is no smaller than the upper end of the interval of any smaller
one. -/
theorem twiceUpper_le {value : Nat} (hu : gap u ∣ u) (hv : gap v ∣ v) (hlt : v < u)
    (h : (roundingInterval u).contains value) : (roundingInterval v).twiceUpper ≤ 2 * value := by
  obtain ⟨hlower, -, -⟩ := (contains_iff hu (by omega)).mp h
  have habove := Nat.mul_le_mul_left decimalScale (add_gap_le hv hu hlt)
  have hbelow := Nat.mul_le_mul_left decimalScale (add_gapBelow_le hv hu hlt)
  rw [Nat.mul_add] at habove hbelow
  rw [twiceUpper_eq]
  omega

/-- If the shortest decimal of a magnitude is a power of ten with nothing of a smaller magnitude's
interval above, just the magnitudes from there on have shortest decimals from there on. -/
theorem pow_le_steps_shortest_iff {k : Nat} (hv : gap v ∣ v) (hvpos : 0 < v)
    (hpow : steps (shortest v) = 10 ^ k) (hlower : (roundingInterval v).twiceLower < 2 * 10 ^ k)
    (hu : gap u ∣ u) (hpos : 0 < u) : 10 ^ k ≤ steps (shortest u) ↔ v ≤ u := by
  have hcontains := (contains_shortest hu hpos).1
  rcases Nat.lt_trichotomy u v with hlt | rfl | hlt
  · have := le_twiceLower hu hv hpos hlt hcontains
    omega
  · omega
  · have hupper := twiceUpper_le hu hv hlt hcontains
    have hself := ((contains_iff hv hvpos).mp (contains_shortest hv hvpos).1).2.1
    rw [← twiceUpper_eq, hpow] at hself
    omega

/-! ## The range of positional notation -/

/-- The least magnitude that is `10⁻⁴` or more. -/
def leastPositional : Nat :=
  7378697629483821 * 2 ^ (1008 : Nat)

/-- The magnitude `10¹⁶`. -/
def positionalLimit : Nat :=
  10 ^ (16 : Nat) * unitsPerOne

theorem leastPositional_le_iff (hu : gap u ∣ u) :
    leastPositional ≤ u ↔ unitsPerOne ≤ u * 10 ^ (4 : Nat) := by
  have hdvd : gap leastPositional ∣ leastPositional := by decide +kernel
  have hle : unitsPerOne ≤ leastPositional * 10 ^ (4 : Nat) := by decide +kernel
  have hbelow : leastPositional * 10 ^ (4 : Nat) <
      unitsPerOne + gapBelow leastPositional * 10 ^ (4 : Nat) := by decide +kernel
  constructor
  · intro h
    exact Nat.le_trans hle (Nat.mul_le_mul_right _ h)
  · intro h
    apply Nat.le_of_not_lt
    intro hlt
    have hprevious := Nat.mul_le_mul_right (10 ^ (4 : Nat)) (add_gapBelow_le hu hdvd hlt)
    rw [Nat.add_mul] at hprevious
    omega

/-- The magnitudes whose shortest decimals have a leading digit in the range of positional
notation. -/
theorem leading_shortest_iff (hu : gap u ∣ u) :
    -4 ≤ (shortest u).leading ∧ (shortest u).leading < 16 ↔
      u = 0 ∨ unitsPerOne ≤ u * 10 ^ (4 : Nat) ∧ u < 10 ^ (16 : Nat) * unitsPerOne := by
  rcases Nat.eq_zero_or_pos u with rfl | hpos
  · exact iff_of_true (by decide) (.inl rfl)
  · have hleast := @pow_le_steps_shortest_iff u leastPositional 1070 (by decide +kernel)
      (by decide +kernel) (by decide +kernel) (by decide +kernel) hu hpos
    have hlimit := @pow_le_steps_shortest_iff u positionalLimit 1090 (by decide +kernel)
      (by decide +kernel) (by decide +kernel) (by decide +kernel) hu hpos
    have hleading := Decimal.leading_lt_iff (digits_shortest_pos hu hpos) (exponent_shortest hu)
    have hbelow : -4 ≤ (shortest u).leading ↔ leastPositional ≤ u := by
      rw [← hleast, ← Nat.not_lt, ← hleading 1070, Int.not_lt]
      rfl
    have habove : (shortest u).leading < 16 ↔ u < positionalLimit := by
      rw [← Nat.not_le, ← hlimit, Nat.not_le, ← hleading 1090]
      rfl
    rw [hbelow, habove, leastPositional_le_iff hu, or_iff_right (Nat.ne_of_gt hpos)]
    rfl

end Binary64

end Reckoner
