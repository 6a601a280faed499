import Reckoner.Proofs.Differences
import Reckoner.Proofs.Nearest

/-!
# Equality of numbers

Two integers are compared exactly, and any other two numbers as the floating-point numbers that
stand for them. This is symmetric, but not transitive: different integers can stand for one
floating-point number, and then both are equal to it and not to each other. It takes an integer
beyond those that the format holds exactly.
-/

namespace Reckoner

namespace Binary64

-- Powers are those of the natural numbers of core, whatever else is in scope.
attribute [local instance (2000)] instPowNat

/-! ## Equality of floating-point numbers -/

/-- Only not-a-number differs from itself. -/
theorem equals_self_iff (x : Binary64) : x.equals x ↔ x ≠ .nan := by
  cases x <;> simp [equals]

/-- Equality is transitive, also through the two zeros. -/
theorem equals_trans {x y z : Binary64} (hxy : x.equals y) (hyz : y.equals z) : x.equals z := by
  cases x with
  | nan => cases hxy
  | infinity s =>
      cases y with
      | infinity t =>
          obtain rfl : s = t := eq_of_beq hxy
          exact hyz
      | _ => cases hxy
  | finite s u _ =>
      cases y with
      | finite t v _ =>
          cases z with
          | finite r w _ =>
              simp only [equals, Bool.and_eq_true, Bool.or_eq_true, beq_iff_eq] at hxy hyz ⊢
              obtain ⟨rfl, hsigns⟩ := hxy
              obtain ⟨rfl, hsigns'⟩ := hyz
              refine ⟨rfl, ?_⟩
              obtain rfl | hzero := hsigns
              · exact hsigns'
              · exact .inr hzero
          | _ => cases hyz
      | _ => cases hxy

/-! ## Integers as floating-point numbers -/

/-- Up to this magnitude every integer is a number of the format. -/
def exactLimit : Nat := 2 ^ (fractionBits + 1)

theorem ofInt_ne_nan (n : Int) : ofInt n ≠ .nan := by
  rw [ofInt, ofRatio]
  split <;> simp

/-- What lies on the grid is not rounded. -/
theorem nearestUnits_one {u : Nat} (h : gap u ∣ u) : nearestUnits u 1 = u := by
  have hpos := gap_pos u
  apply nearestUnits_eq Nat.one_pos (by rw [Nat.div_one]) h
  refine ⟨?_, ?_, fun _ => ⟨?_, ?_⟩⟩ <;> omega

/-- Up to the limit an integer keeps its sign and its magnitude. -/
theorem exists_ofInt_eq {n : Int} (h : n.natAbs ≤ exactLimit) :
    ∃ representable, ofInt n = .finite (decide (n < 0)) (n.natAbs * unitsPerOne) representable := by
  have hword : n.natAbs < 2 ^ wordBits :=
    Nat.lt_of_le_of_lt h (Nat.pow_lt_pow_right Nat.one_lt_two (by decide))
  have hjammed : jammed n.natAbs = n.natAbs := if_pos hword
  have hgap : gap (n.natAbs * unitsPerOne) ∣ n.natAbs * unitsPerOne := gap_dvd_mul_pow _ h
  have hlimit : n.natAbs * unitsPerOne < limit := by
    calc n.natAbs * unitsPerOne
        ≤ exactLimit * unitsPerOne := Nat.mul_le_mul_right unitsPerOne h
      _ = 2 ^ (fractionBits + 1 + unitExponent) := by rw [exactLimit, unitsPerOne, ← Nat.pow_add]
      _ < limit := Nat.pow_lt_pow_right Nat.one_lt_two (by decide)
  refine ⟨⟨hgap, hlimit⟩, ?_⟩
  simp only [ofInt, ofRatio, hjammed, nearestUnits_one hgap, hlimit, dif_pos]

/-- Different integers up to the limit stand for different floating-point numbers. -/
theorem eq_of_equals_ofInt {m n : Int} (hm : m.natAbs ≤ exactLimit) (hn : n.natAbs ≤ exactLimit)
    (h : (ofInt m).equals (ofInt n)) : m = n := by
  obtain ⟨_, hm⟩ := exists_ofInt_eq hm
  obtain ⟨_, hn⟩ := exists_ofInt_eq hn
  rw [hm, hn] at h
  simp only [equals, Bool.and_eq_true, Bool.or_eq_true, beq_iff_eq, decide_eq_decide] at h
  obtain ⟨hunits, hsigns⟩ := h
  have hpos : 0 < unitsPerOne := Nat.two_pow_pos _
  have habs : m.natAbs = n.natAbs := Nat.eq_of_mul_eq_mul_right hpos hunits
  rw [Nat.mul_eq_zero] at hsigns
  omega

end Binary64

namespace Number

/-! ## Equality of numbers -/

theorem beq_int_iff {m n : Int} : int m == int n ↔ m = n :=
  beq_iff_eq (α := Int)

/-- Unless both are integers, numbers are compared as floating-point numbers. -/
theorem beq_eq_of_isFloat {a b : Number} (h : a.isFloat ∨ b.isFloat) :
    (a == b) = a.toBinary64.equals b.toBinary64 := by
  change a.equals b = _
  cases a with
  | float x => simp only [equals]
  | int m =>
      cases b with
      | float y => simp only [equals]
      | int n => simp [isFloat] at h

/-- Equal numbers stand for equal floating-point numbers. -/
theorem toBinary64_equals {a b : Number} (h : a == b) : a.toBinary64.equals b.toBinary64 := by
  by_cases hfloat : a.isFloat ∨ b.isFloat
  · rwa [← beq_eq_of_isFloat hfloat]
  · cases a with
    | float x => simp [isFloat] at hfloat
    | int m =>
        cases b with
        | float y => simp [isFloat] at hfloat
        | int n =>
            obtain rfl := beq_int_iff.mp h
            exact (Binary64.equals_self_iff _).mpr (Binary64.ofInt_ne_nan m)

/-- Equality passes from the ends to a third number, unless the ends are integers. -/
theorem beq_trans_of_isFloat {a b c : Number} (hab : a == b) (hbc : b == c)
    (h : a.isFloat ∨ c.isFloat) : a == c := by
  rw [beq_eq_of_isFloat h]
  exact Binary64.equals_trans (toBinary64_equals hab) (toBinary64_equals hbc)

/-- Integers that are equal to one number are equal, unless this number is a floating-point one and
an integer lies beyond the limit. -/
theorem eq_of_beq_of_beq {m n : Int} {b : Number} (hm : int m == b) (hn : b == int n)
    (h : b.isFloat → m.natAbs ≤ Binary64.exactLimit ∧ n.natAbs ≤ Binary64.exactLimit) : m = n := by
  cases b with
  | int k => exact (beq_int_iff.mp hm).trans (beq_int_iff.mp hn)
  | float x =>
      obtain ⟨hmle, hnle⟩ := h rfl
      have hequals := Binary64.equals_trans (toBinary64_equals hm) (toBinary64_equals hn)
      simp only [toBinary64] at hequals
      exact Binary64.eq_of_equals_ofInt hmle hnle hequals

/-- Equality of numbers is symmetric. It is transitive but in one case: two integers that are equal
to one floating-point number can be different, and then one of them lies beyond the integers that
the format holds exactly. -/
theorem beq_symm_and_trans (a b c : Number) :
    (a == b → b == a) ∧
    (a == b → b == c →
      (¬ (a == c) ↔ ∃ m n x, a = int m ∧ b = float x ∧ c = int n ∧ m ≠ n) ∧
      ∀ m n, a = int m → c = int n → m.natAbs ≤ Binary64.exactLimit →
        n.natAbs ≤ Binary64.exactLimit → a == c) := by
  constructor
  · intro hab
    rwa [beq_comm]
  · intro hab hbc
    constructor
    · constructor
      · intro hac
        have hends : ¬ (a.isFloat ∨ c.isFloat) := fun h => hac (beq_trans_of_isFloat hab hbc h)
        cases a with
        | float x => simp [isFloat] at hends
        | int m =>
            cases c with
            | float y => simp [isFloat] at hends
            | int n =>
                have hne : m ≠ n := fun heq => hac (beq_int_iff.mpr heq)
                cases b with
                | float x => exact ⟨m, n, x, rfl, rfl, rfl, hne⟩
                | int k => exact absurd (eq_of_beq_of_beq hab hbc nofun) hne
      · rintro ⟨m, n, x, rfl, -, rfl, hne⟩ hac
        exact hne (beq_int_iff.mp hac)
    · rintro m n rfl rfl hm hn
      exact beq_int_iff.mpr (eq_of_beq_of_beq hab hbc fun _ => ⟨hm, hn⟩)

/-- The first integer beyond the limit stands for the same floating-point number as the limit, which
is equal to both. At the limit equality is still transitive. -/
theorem beq_symm_and_trans_at_limit :
    let limit : Number := int 9007199254740992
    let rounded : Number := float (.ofInt 9007199254740992)
    let beyond : Number := int 9007199254740993
    (limit == rounded ∧ rounded == limit ∧ limit == limit) ∧
      (rounded == beyond ∧ beyond == rounded ∧ ¬ (limit == beyond)) := by
  intro limit rounded beyond
  have hlimit : limit == rounded := by decide +kernel
  have hbeyond : rounded == beyond := by decide +kernel
  have hle : (9007199254740992 : Int).natAbs ≤ Binary64.exactLimit := by decide
  have hback : rounded == limit := (beq_symm_and_trans limit rounded limit).1 hlimit
  constructor
  · exact ⟨hlimit, hback,
      ((beq_symm_and_trans limit rounded limit).2 hlimit hback).2 _ _ rfl rfl hle hle⟩
  · exact ⟨hbeyond, (beq_symm_and_trans rounded beyond limit).1 hbeyond,
      ((beq_symm_and_trans limit rounded beyond).2 hlimit hbeyond).1.mpr
        ⟨_, _, _, rfl, rfl, rfl, by decide⟩⟩

/-- Equality of numbers is not transitive. -/
theorem exists_beq_not_trans :
    let limit : Number := int 9007199254740992
    let rounded : Number := float (.ofInt 9007199254740992)
    let beyond : Number := int 9007199254740993
    limit == rounded ∧ rounded == beyond ∧ ¬ (limit == beyond) ∧
      ¬ ∀ a b c : Number, a == b → b == c → a == c := by
  intro limit rounded beyond
  have hlimit : limit == rounded := by decide +kernel
  have hbeyond : rounded == beyond := by decide +kernel
  have hdiffer : ¬ (limit == beyond) := by decide +kernel
  exact ⟨hlimit, hbeyond, hdiffer, fun htrans => hdiffer (htrans _ _ _ hlimit hbeyond)⟩

end Number

end Reckoner
