import Reckoner.Binary64.Rounding
import Reckoner.Binary64.Shortest

/-!
# Which quotients round to a number

The magnitudes of the format form a grid that is finer below than above a power of two. Next to a
magnitude the distance of the grid is that to the next magnitude on the same side, so a quotient
rounds to the magnitude if it lies within half of that distance, or at half of it when the magnitude
is the even one of the two. The rounding interval consists of these quotients.
-/

namespace Reckoner.Binary64

-- Powers are those of the natural numbers of core, whatever else is in scope.
attribute [local instance (2000)] instPowNat

/-! ## Rounding to a whole number -/

/-- Whether `num` is at most half of `below` less or half of `above` more than `point`, and not just
the half if `odd` holds. -/
def WithinHalf (num point below above : Nat) (odd : Prop) : Prop :=
  2 * point ≤ 2 * num + below ∧ 2 * num ≤ 2 * point + above ∧
    (odd → 2 * point < 2 * num + below ∧ 2 * num < 2 * point + above)

/-- What lies within a half of a natural number is rounded to it, and a half only if it is even. The
whole part of the quotient is this number or the one before. -/
theorem roundHalfEven_eq {num den k : Nat} (hden : 0 < den)
    (h : WithinHalf num (den * k) den den (k % 2 = 1)) : roundHalfEven num den = k := by
  obtain ⟨hlower, hupper, hodd⟩ := h
  have hnum := Nat.div_add_mod num den
  have hrest := Nat.mod_lt num hden
  have hle : num / den ≤ k := by
    apply Nat.le_of_lt_succ
    apply Nat.lt_of_mul_lt_mul_left (a := den)
    rw [Nat.mul_succ]
    omega
  have hge : k ≤ num / den + 1 := by
    apply Nat.le_of_lt_succ
    apply Nat.lt_of_mul_lt_mul_left (a := den)
    rw [Nat.mul_succ, Nat.mul_succ]
    omega
  obtain rfl | rfl : k = num / den ∨ k = num / den + 1 := by omega
  · simp only [roundHalfEven]
    split
    · rfl
    · split <;> omega
  · rw [Nat.mul_succ] at hlower hupper hodd
    simp only [roundHalfEven]
    split
    · omega
    · split
      · rfl
      · omega

theorem roundHalfEven_mul_right {d : Nat} (hd : 0 < d) (num den : Nat) :
    roundHalfEven (num * d) (den * d) = roundHalfEven num den := by
  simp only [roundHalfEven, Nat.mul_div_mul_right _ _ hd, Nat.mul_mod_mul_right, ← Nat.mul_assoc,
    Nat.mul_lt_mul_right hd]

theorem nearestUnits_mul_right {d : Nat} (hd : 0 < d) (num den : Nat) :
    nearestUnits (num * d) (den * d) = nearestUnits num den := by
  simp only [nearestUnits, Nat.mul_div_mul_right _ _ hd]
  rw [Nat.mul_right_comm, roundHalfEven_mul_right hd]

/-- The nearest magnitude depends on the value of the quotient only. -/
theorem nearestUnits_congr {a b c d : Nat} (hb : 0 < b) (hd : 0 < d) (h : a * d = c * b) :
    nearestUnits a b = nearestUnits c d := by
  rw [← nearestUnits_mul_right hd, h, Nat.mul_comm b d, nearestUnits_mul_right hb]

/-! ## The grid around a magnitude -/

variable {u v : Nat}

theorem gap_pos (u : Nat) : 0 < gap u :=
  Nat.two_pow_pos _

theorem gap_dvd_gap (h : u ≤ v) : gap u ∣ gap v := by
  have hlog : u.log2 ≤ v.log2 := by
    by_cases hu : u = 0
    · simp [hu]
    · exact (Nat.le_log2 (by omega)).mpr (Nat.le_trans (Nat.log2_self_le hu) h)
  exact Nat.pow_dvd_pow 2 (by omega)

theorem add_le_of_dvd {g n : Nat} (hu : g ∣ u) (hn : g ∣ n) (h : u < n) : u + g ≤ n := by
  have := Nat.le_of_dvd (by omega) (Nat.dvd_sub hn hu)
  omega

/-- The next larger magnitude is a distance away. -/
theorem add_gap_le (hu : gap u ∣ u) (hv : gap v ∣ v) (h : u < v) : u + gap u ≤ v :=
  add_le_of_dvd hu (Nat.dvd_trans (gap_dvd_gap (Nat.le_of_lt h)) hv) h

/-- The distance stays the same up to the next larger magnitude. -/
theorem gap_eq_of_lt (hu : gap u ∣ u) (h : u ≤ v) (hlt : v < u + gap u) : gap v = gap u := by
  by_cases hzero : u = 0
  · subst hzero
    have hone : gap 0 = 1 := rfl
    obtain rfl : v = 0 := by omega
    rfl
  · have hle : u + gap u ≤ 2 ^ (u.log2 + 1) :=
      add_le_of_dvd hu (Nat.pow_dvd_pow 2 (by omega)) Nat.lt_log2_self
    have hlog : v.log2 = u.log2 := by
      rw [Nat.log2_eq_iff (by omega)]
      exact ⟨Nat.le_trans (Nat.log2_self_le hzero) h, by omega⟩
    rw [gap, gap, hlog]

/-- Only above the least power of two with a leading digit and a fraction the grid can be finer
below a magnitude than above it. -/
theorem gapBelow_cases (v : Nat) :
    (∃ s, v = 2 ^ (fractionBits + 1 + s) ∧ gapBelow v = 2 ^ s) ∨
      gapBelow v = gap v ∧ (v = 2 ^ v.log2 → v.log2 ≤ fractionBits) := by
  rw [gapBelow]
  split
  · rename_i h
    obtain ⟨s, hs⟩ : ∃ s, v.log2 = fractionBits + 1 + s := ⟨v.log2 - (fractionBits + 1), by omega⟩
    refine .inl ⟨s, by rw [← hs, ← h.1], ?_⟩
    have hexponent : v.log2 - fractionBits = s + 1 := by omega
    rw [gap, hexponent, Nat.pow_succ, Nat.mul_div_cancel _ Nat.two_pos]
  · exact .inr ⟨rfl, fun hv => by omega⟩

theorem gapBelow_dvd_gap (v : Nat) : gapBelow v ∣ gap v := by
  rcases gapBelow_cases v with ⟨s, hv, hs⟩ | ⟨hs, -⟩
  · have hlog : v.log2 = fractionBits + 1 + s := by rw [hv, Nat.log2_two_pow]
    rw [hs, gap, hlog]
    exact Nat.pow_dvd_pow 2 (by omega)
  · exact hs ▸ Nat.dvd_refl _

theorem gapBelow_le_gap (v : Nat) : gapBelow v ≤ gap v :=
  Nat.le_of_dvd (gap_pos v) (gapBelow_dvd_gap v)

theorem gapBelow_pos (v : Nat) : 0 < gapBelow v :=
  Nat.pos_of_dvd_of_pos (gapBelow_dvd_gap v) (gap_pos v)

/-- The distance is the same down to the next smaller magnitude. Unless a magnitude is a power of
two, the next smaller one has as many digits. -/
theorem gap_eq_gapBelow (hv : gap v ∣ v) (h : u < v) (hle : v ≤ u + gapBelow v) :
    gap u = gapBelow v := by
  have hpos : v ≠ 0 := by omega
  rcases gapBelow_cases v with ⟨s, hpow, hs⟩ | ⟨hs, hsmall⟩
  · have hhalf : 2 ^ s ≤ 2 ^ (fractionBits + s) := Nat.pow_le_pow_right Nat.two_pos (by omega)
    have hdouble : 2 ^ (fractionBits + 1 + s) = 2 * 2 ^ (fractionBits + s) := by
      rw [Nat.add_right_comm, Nat.pow_succ, Nat.mul_comm]
    have hlog : u.log2 = fractionBits + s := by
      rw [Nat.log2_eq_iff (by omega), Nat.pow_succ]
      omega
    rw [hs, gap, hlog, Nat.add_sub_cancel_left]
  · rw [hs] at hle ⊢
    by_cases hlog : v.log2 ≤ fractionBits
    · have hone : gap v = 1 := by rw [gap, Nat.sub_eq_zero_of_le hlog]
      rw [hone]
      exact Nat.dvd_one.mp (hone ▸ gap_dvd_gap (Nat.le_of_lt h))
    · have hself := Nat.log2_self_le hpos
      have hnext : 2 ^ v.log2 + gap v ≤ v :=
        add_le_of_dvd (Nat.pow_dvd_pow 2 (by omega)) hv (by omega)
      have hsame : u.log2 = v.log2 := by
        rw [Nat.log2_eq_iff (by have := Nat.two_pow_pos v.log2; omega)]
        exact ⟨by omega, Nat.lt_trans h Nat.lt_log2_self⟩
      rw [gap, gap, hsame]

/-- The next smaller magnitude is the distance below away. -/
theorem add_gapBelow_le (hu : gap u ∣ u) (hv : gap v ∣ v) (h : u < v) : u + gapBelow v ≤ v := by
  by_cases hle : v ≤ u + gapBelow v
  · rw [← gap_eq_gapBelow hv h hle]
    exact add_gap_le hu hv h
  · omega

/-- Where the grid is finer below, the magnitude is an even one. -/
theorem gapBelow_eq_of_odd (h : v / gapBelow v % 2 = 1) : gapBelow v = gap v := by
  rcases gapBelow_cases v with ⟨s, hv, hs⟩ | ⟨hs, -⟩
  · rw [hs, hv, Nat.pow_add, Nat.mul_div_cancel _ (Nat.two_pow_pos s)] at h
    exact absurd h (by decide)
  · exact hs

/-! ## The rounding interval -/

theorem decimalScale_pos : 0 < decimalScale :=
  Nat.pow_pos (by decide)

theorem gap_le_self (hv : gap v ∣ v) (h : 0 < v) : gap v ≤ v :=
  Nat.le_of_dvd h hv

theorem twiceLower_add (hu : gap u ∣ u) (hpos : 0 < u) :
    (roundingInterval u).twiceLower + decimalScale * gapBelow u = 2 * (decimalScale * u) := by
  have hle : gapBelow u ≤ 2 * u := by
    have := gapBelow_le_gap u
    have := gap_le_self hu hpos
    omega
  rw [roundingInterval, Nat.mul_comm decimalScale (gapBelow u), ← Nat.add_mul,
    Nat.sub_add_cancel hle, Nat.mul_comm decimalScale, Nat.mul_assoc]

theorem twiceUpper_eq (u : Nat) :
    (roundingInterval u).twiceUpper = 2 * (decimalScale * u) + decimalScale * gap u := by
  rw [roundingInterval, Nat.add_mul, Nat.mul_assoc, Nat.mul_comm u, Nat.mul_comm (gap u)]

/-- What lies in the rounding interval is at most half a distance away, and less if the magnitude is
odd. -/
theorem contains_iff {value : Nat} (hu : gap u ∣ u) (hpos : 0 < u) :
    (roundingInterval u).contains value ↔
      WithinHalf value (decimalScale * u) (decimalScale * gapBelow u) (decimalScale * gap u)
        (u / gap u % 2 = 1) := by
  have hlower := twiceLower_add hu hpos
  have hclosed : (roundingInterval u).closed = true ↔ u / gap u % 2 = 0 := beq_iff_eq
  rw [RoundingInterval.contains, twiceUpper_eq, WithinHalf]
  split
  · have heven := hclosed.mp ‹_›
    rw [decide_eq_true_eq]
    omega
  · have hodd := mt hclosed.mpr ‹_›
    rw [decide_eq_true_eq]
    omega

/-- A quotient rounds to a magnitude if it lies within half the distance at the quotient. -/
theorem nearestUnits_eq {num den g : Nat} (hden : 0 < den) (hgap : gap (num / den) = g)
    (hu : g ∣ u) (h : WithinHalf num (den * u) (den * g) (den * g) (u / g % 2 = 1)) :
    nearestUnits num den = u := by
  have hg : 0 < g := hgap ▸ gap_pos _
  have hmul : den * g * (u / g) = den * u := by rw [Nat.mul_assoc, Nat.mul_div_cancel' hu]
  have hround : roundHalfEven num (den * g) = u / g :=
    roundHalfEven_eq (Nat.mul_pos hden hg) (hmul ▸ h)
  simp only [nearestUnits, hgap, hround, Nat.div_mul_cancel hu]

/-- What lies in the rounding interval of a magnitude rounds to the magnitude. -/
theorem nearestUnits_of_contains {value : Nat} (hu : gap u ∣ u) (hpos : 0 < u)
    (h : (roundingInterval u).contains value) : nearestUnits value decimalScale = u := by
  obtain ⟨hlower, hupper, hodd⟩ := (contains_iff hu hpos).mp h
  have hscale := decimalScale_pos
  generalize decimalScale = scale at *
  by_cases hvalue : scale * u ≤ value
  · have hge : u ≤ value / scale := by
      rwa [Nat.le_div_iff_mul_le hscale, Nat.mul_comm]
    have habove : 0 < scale * gap u := Nat.mul_pos hscale (gap_pos u)
    have hlt : value / scale < u + gap u := by
      rw [Nat.div_lt_iff_lt_mul hscale, Nat.mul_comm, Nat.mul_add]
      omega
    exact nearestUnits_eq hscale (gap_eq_of_lt hu hge hlt) hu
      ⟨by omega, hupper, fun h => ⟨by omega, (hodd h).2⟩⟩
  · have hlt : value / scale < u := by
      rw [Nat.div_lt_iff_lt_mul hscale, Nat.mul_comm]
      omega
    have hle : u ≤ value / scale + gapBelow u := by
      have hquotient := Nat.lt_mul_div_succ value hscale
      have hbelow := gapBelow_pos u
      have : 2 * u < 2 * (value / scale + 1) + gapBelow u := by
        apply Nat.lt_of_mul_lt_mul_left (a := scale)
        rw [Nat.mul_add, Nat.mul_left_comm scale 2, Nat.mul_left_comm scale 2]
        omega
      omega
    have hbelow : 0 < scale * gapBelow u := Nat.mul_pos hscale (gapBelow_pos u)
    refine nearestUnits_eq hscale (gap_eq_gapBelow hu hlt hle)
      (Nat.dvd_trans (gapBelow_dvd_gap u) hu) ⟨hlower, by omega, fun h => ?_⟩
    rw [gapBelow_eq_of_odd h] at h
    exact ⟨(hodd h).1, by omega⟩

end Reckoner.Binary64
