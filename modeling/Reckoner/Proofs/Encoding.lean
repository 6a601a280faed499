import Reckoner.Proofs.Nearest

/-!
# Encodings of 64-bit numbers

Greater magnitudes have greater encodings. Those of finite magnitudes stay below that of an infinite
one, and the sign has a bit of its own above all of them. So different numbers have different
encodings.
-/

namespace Reckoner.Binary64

-- Powers are those of the natural numbers of core, whatever else is in scope.
attribute [local instance (2000)] instPowNat

variable {u v : Nat}

/-! ## Magnitudes -/

/-- The digits of a magnitude that its grid keeps are a leading one and those of the fraction. -/
theorem div_gap_lt (u : Nat) : u / gap u < 2 ^ (fractionBits + 1) := by
  rw [Nat.div_lt_iff_lt_mul (gap_pos u), gap, ← Nat.pow_add]
  calc u < 2 ^ (u.log2 + 1) := Nat.lt_log2_self
    _ ≤ 2 ^ (fractionBits + 1 + (u.log2 - fractionBits)) :=
        Nat.pow_le_pow_right Nat.two_pos (by omega)

theorem le_div_gap (h : fractionBits < u.log2) : 2 ^ fractionBits ≤ u / gap u := by
  have hpos : u ≠ 0 := by
    rintro rfl
    exact absurd h (by decide)
  rw [Nat.le_div_iff_mul_le (gap_pos u), gap, ← Nat.pow_add, Nat.add_sub_cancel' (Nat.le_of_lt h)]
  exact Nat.log2_self_le hpos

/-- Greater magnitudes have greater encodings, as a greater exponent outweighs all digits. -/
theorem magnitudeBits_lt (hv : gap v ∣ v) (h : u < v) : magnitudeBits u < magnitudeBits v := by
  have hlog : u.log2 - fractionBits ≤ v.log2 - fractionBits :=
    (Nat.pow_dvd_pow_iff_le_right (Nat.lt_add_one 1)).mp (gap_dvd_gap (Nat.le_of_lt h))
  rw [magnitudeBits, magnitudeBits]
  by_cases hplace : u.log2 - fractionBits = v.log2 - fractionBits
  · have hgap : gap u = gap v := by rw [gap, gap, hplace]
    rw [hplace, hgap]
    exact Nat.add_lt_add_left (Nat.div_lt_div_of_lt_of_dvd hv h) _
  · have hdigits := div_gap_lt u
    have hleading : 2 ^ fractionBits ≤ v / gap v := le_div_gap (by omega)
    have hexponent : (u.log2 - fractionBits + 1) * 2 ^ fractionBits ≤
        (v.log2 - fractionBits) * 2 ^ fractionBits := Nat.mul_le_mul_right _ (by omega)
    rw [Nat.pow_succ] at hdigits
    rw [Nat.add_mul] at hexponent
    omega

theorem eq_of_magnitudeBits_eq (hu : gap u ∣ u) (hv : gap v ∣ v)
    (h : magnitudeBits u = magnitudeBits v) : u = v := by
  rcases Nat.lt_trichotomy u v with hlt | heq | hlt
  · exact absurd h (Nat.ne_of_lt (magnitudeBits_lt hv hlt))
  · exact heq
  · exact absurd h (Nat.ne_of_gt (magnitudeBits_lt hu hlt))

/-! ## Encodings without the sign -/

/-- The bits of an infinite number besides its sign. -/
def infinityBits : Nat := 0x7ff0000000000000

/-- What would be the next finite magnitude is encoded as the infinite one. -/
theorem magnitudeBits_limit : magnitudeBits limit = infinityBits := by
  have hlog : limit.log2 = limitExponent := Nat.log2_two_pow
  have hdigits : limit / 2 ^ (limitExponent - fractionBits) = 2 ^ fractionBits := by
    rw [limit, Nat.pow_div (by decide) Nat.two_pos]
    rfl
  rw [magnitudeBits, gap, hlog, hdigits]
  rfl

theorem magnitudeBits_lt_infinityBits (h : u < limit) : magnitudeBits u < infinityBits := by
  have hdvd : gap limit ∣ limit := by
    rw [gap, limit, Nat.log2_two_pow]
    exact Nat.pow_dvd_pow 2 (Nat.sub_le _ _)
  rw [← magnitudeBits_limit]
  exact magnitudeBits_lt hdvd h

/-- Whether a number has a minus sign. -/
def isNegative : Binary64 → Bool
  | .nan => false
  | .infinity negative | .finite negative _ _ => negative

/-- The bits of a number besides its sign. -/
def unsignedBits : Binary64 → Nat
  | .nan => 0x7ff8000000000000
  | .infinity _ => infinityBits
  | .finite _ units _ => magnitudeBits units

theorem unsignedBits_lt (x : Binary64) : x.unsignedBits < 2 ^ (63 : Nat) := by
  cases x with
  | nan => decide
  | infinity negative => exact (by decide : infinityBits < 2 ^ (63 : Nat))
  | finite negative units h =>
      exact Nat.lt_trans (magnitudeBits_lt_infinityBits h.2) (by decide)

/-- A number is determined by its sign and the other bits. -/
theorem eq_of_unsignedBits_eq {x y : Binary64} (hsign : x.isNegative = y.isNegative)
    (h : x.unsignedBits = y.unsignedBits) : x = y := by
  have hnan : infinityBits < unsignedBits .nan := by decide
  cases x with
  | nan =>
      cases y with
      | nan => rfl
      | infinity t => exact absurd h (Nat.ne_of_gt hnan)
      | finite t v hv =>
          have hfinite := magnitudeBits_lt_infinityBits hv.2
          exact absurd h (Nat.ne_of_gt (Nat.lt_trans hfinite hnan))
  | infinity s =>
      cases y with
      | nan => exact absurd h (Nat.ne_of_lt hnan)
      | infinity t => exact congrArg infinity hsign
      | finite t v hv => exact absurd h (Nat.ne_of_gt (magnitudeBits_lt_infinityBits hv.2))
  | finite s u hu =>
      have hfinite := magnitudeBits_lt_infinityBits hu.2
      cases y with
      | nan => exact absurd h (Nat.ne_of_lt (Nat.lt_trans hfinite hnan))
      | infinity t => exact absurd h (Nat.ne_of_lt hfinite)
      | finite t v hv =>
          obtain rfl : s = t := hsign
          obtain rfl := eq_of_magnitudeBits_eq hu.1 hv.1 h
          rfl

/-! ## Encodings -/

/-- The sign stands above the other bits. -/
theorem toNat_signBit_or (negative : Bool) {n : Nat} (h : n < 2 ^ (63 : Nat)) :
    (toBits.signBit negative ||| UInt64.ofNat n).toNat =
      2 ^ (63 : Nat) * negative.toNat + n := by
  have hn : n % 2 ^ (64 : Nat) = n := Nat.mod_eq_of_lt (by omega)
  have hsign : (toBits.signBit negative).toNat = 2 ^ (63 : Nat) * negative.toNat := by
    cases negative <;> rfl
  rw [UInt64.toNat_or, UInt64.toNat_ofNat', hn, hsign, ← Nat.two_pow_add_eq_or_of_lt h]

theorem toNat_toBits (x : Binary64) :
    x.toBits.toNat = 2 ^ (63 : Nat) * x.isNegative.toNat + x.unsignedBits := by
  have hbits := x.unsignedBits_lt
  cases x with
  | nan => rfl
  | infinity negative => exact toNat_signBit_or negative hbits
  | finite negative units h => exact toNat_signBit_or negative hbits

/-- Different numbers have different encodings. -/
theorem toBits_inj {x y : Binary64} : x.toBits = y.toBits ↔ x = y := by
  refine ⟨fun h => ?_, congrArg toBits⟩
  have hbits := congrArg UInt64.toNat h
  have hx := x.unsignedBits_lt
  have hy := y.unsignedBits_lt
  rw [toNat_toBits, toNat_toBits] at hbits
  have hsign : x.isNegative = y.isNegative := by
    rw [Bool.eq_iff_iff, ← Bool.toNat_eq_one, ← Bool.toNat_eq_one]
    omega
  rw [hsign] at hbits
  exact eq_of_unsignedBits_eq hsign (Nat.add_left_cancel hbits)

end Reckoner.Binary64
