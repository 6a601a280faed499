/-!
# Binary floating-point numbers of 64 bits

Every finite number of this format is a whole number of units of `2⁻¹⁰⁷⁴`, the least positive one.
A finite number is therefore stored as a sign and a natural number of units, together with the
proof that the units lie on the grid of the format. There is one not-a-number.
-/

namespace Reckoner

namespace Binary64

-- Powers are those of the natural numbers of core, whatever else is in scope.
attribute [local instance (2000)] instPowNat

/-- The number of binary digits behind the leading one. -/
def fractionBits : Nat := 52

/-- The number of binary digits that encode the exponent. -/
def exponentBits : Nat := 11

/-- Distance, in units, from a magnitude of `units` to the next larger one: magnitudes keep a
leading digit and the digits of the fraction, and small ones are a single unit apart. -/
def gap (units : Nat) : Nat :=
  2 ^ (units.log2 - fractionBits)

/-- Two to this power is the number of units in `1`. -/
def unitExponent : Nat := 1074

/-- The finite magnitudes are those below two to this power, in units. -/
def limitExponent : Nat := 2098

/-- The first magnitude beyond the finite ones, `2¹⁰²⁴`, in units. -/
def limit : Nat := 2 ^ limitExponent

/-- Number of units in `1`. -/
def unitsPerOne : Nat := 2 ^ unitExponent

/-- A magnitude belongs to the format when it is a multiple of the distance at its place and
below the limit. -/
def Representable (units : Nat) : Prop :=
  gap units ∣ units ∧ units < limit

instance (units : Nat) : Decidable (Representable units) :=
  inferInstanceAs (Decidable (gap units ∣ units ∧ units < limit))

theorem pow_le_limit {n : Nat} (h : n ≤ limitExponent) : 2 ^ n ≤ limit :=
  Nat.pow_le_pow_right Nat.two_pos h

/-- A number of few binary digits, scaled by a power of two, lies on the grid. -/
theorem gap_dvd_mul_pow {m : Nat} (s : Nat) (h : m ≤ 2 ^ (fractionBits + 1)) :
    gap (m * 2 ^ s) ∣ m * 2 ^ s := by
  by_cases hm : m = 0
  · simp [hm]
  · have hpos : m * 2 ^ s ≠ 0 := Nat.mul_ne_zero hm (by simp [Nat.pow_eq_zero])
    by_cases htop : m = 2 ^ (fractionBits + 1)
    · subst htop
      rw [← Nat.pow_add, gap, Nat.log2_two_pow]
      exact Nat.pow_dvd_pow 2 (by omega)
    · have hlt : m * 2 ^ s < 2 ^ (fractionBits + 1 + s) := by
        rw [Nat.pow_add]
        exact Nat.mul_lt_mul_of_pos_right (by omega) (Nat.two_pow_pos s)
      have hlog : (m * 2 ^ s).log2 < fractionBits + 1 + s := (Nat.log2_lt hpos).mpr hlt
      exact Nat.dvd_trans (Nat.pow_dvd_pow 2 (by omega)) (Nat.dvd_mul_left _ _)

end Binary64

open Binary64 in
/-- A number in the 64-bit binary floating-point format. -/
inductive Binary64 where
  /-- The result of an operation without a meaningful value. -/
  | nan
  /-- A magnitude beyond every finite one. -/
  | infinity (negative : Bool)
  /-- A magnitude counted in units of `2⁻¹⁰⁷⁴`. Zero has two signs. -/
  | finite (negative : Bool) (units : Nat) (representable : Representable units)
deriving DecidableEq, Repr

namespace Binary64

-- Powers are those of the natural numbers of core, whatever else is in scope.
attribute [local instance (2000)] instPowNat

theorem representable_zero : Representable 0 :=
  ⟨Nat.dvd_zero _, Nat.lt_of_lt_of_le (Nat.two_pow_pos 0) (pow_le_limit (Nat.zero_le _))⟩

/-- Zero of the given sign. -/
def zero (negative : Bool) : Binary64 :=
  .finite negative 0 representable_zero

/-- The magnitude with the given exponent and fraction fields. Small magnitudes have no leading
digit besides their fraction. -/
def magnitude (exponent fraction : Nat) : Nat :=
  if exponent = 0 then fraction else (2 ^ fractionBits + fraction) * 2 ^ (exponent - 1)

/-- The greatest exponent field marks what is not finite. All others belong to magnitudes of the
format. -/
theorem representable_magnitude {exponent fraction : Nat} (he : exponent + 1 < 2 ^ exponentBits)
    (hf : fraction < 2 ^ fractionBits) : Representable (magnitude exponent fraction) := by
  have hle : 2 ^ fractionBits + fraction ≤ 2 ^ (fractionBits + 1) := by
    rw [Nat.pow_succ]
    omega
  simp only [magnitude]
  split
  · refine ⟨?_, Nat.lt_of_lt_of_le hf (pow_le_limit (by decide))⟩
    simpa using @gap_dvd_mul_pow fraction 0 (by omega)
  · refine ⟨gap_dvd_mul_pow _ hle, ?_⟩
    calc (2 ^ fractionBits + fraction) * 2 ^ (exponent - 1)
        < 2 ^ (fractionBits + 1) * 2 ^ (exponent - 1) := by
          refine Nat.mul_lt_mul_of_pos_right ?_ (Nat.two_pow_pos _)
          rw [Nat.pow_succ]
          omega
      _ = 2 ^ (fractionBits + 1 + (exponent - 1)) := (Nat.pow_add 2 _ _).symm
      _ ≤ limit := by
          apply pow_le_limit
          simp only [exponentBits, fractionBits, limitExponent] at he ⊢
          omega

/-- The number with the given encoding: a sign bit, then the exponent, then the fraction. -/
def ofBits (bits : UInt64) : Binary64 :=
  let negative := decide (2 ^ (fractionBits + exponentBits) ≤ bits.toNat)
  let exponent := bits.toNat / 2 ^ fractionBits % 2 ^ exponentBits
  let fraction := bits.toNat % 2 ^ fractionBits
  have hf : fraction < 2 ^ fractionBits := Nat.mod_lt _ (Nat.two_pow_pos fractionBits)
  if he : exponent + 1 < 2 ^ exponentBits then
    .finite negative (magnitude exponent fraction) (representable_magnitude he hf)
  else if fraction = 0 then .infinity negative
  else .nan

/-- Encoding of a finite magnitude: consecutive magnitudes have consecutive encodings. -/
def magnitudeBits (units : Nat) : Nat :=
  (units.log2 - fractionBits) * 2 ^ fractionBits + units / gap units

/-- The encoding of a number. The encoding of not-a-number is the quiet one without payload. -/
def toBits : Binary64 → UInt64
  | .nan => 0x7ff8000000000000
  | .infinity negative => signBit negative ||| 0x7ff0000000000000
  | .finite negative units _ => signBit negative ||| UInt64.ofNat (magnitudeBits units)
where
  /-- The sign bit of an encoding. -/
  signBit (negative : Bool) : UInt64 := if negative then 0x8000000000000000 else 0

/-- Whether the number is zero, of either sign. -/
def isZero : Binary64 → Bool
  | .finite _ units _ => units == 0
  | _ => false

/-- Numerical equality: the two zeros are equal, and not-a-number equals nothing. -/
def equals : Binary64 → Binary64 → Bool
  | .infinity s, .infinity t => s == t
  | .finite s u _, .finite t v _ => u == v && (s == t || u == 0)
  | _, _ => false

/-- The number with the opposite sign. -/
def neg : Binary64 → Binary64
  | .nan => .nan
  | .infinity s => .infinity !s
  | .finite s u h => .finite (!s) u h

instance : Neg Binary64 := ⟨neg⟩

end Binary64

end Reckoner
