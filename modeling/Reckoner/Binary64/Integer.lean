import Reckoner.Binary64.Rounding

/-!
# Integers as 64-bit numbers

An integer is rounded through its leading word. What lies below the leading word is first jammed
into it: the last digit kept becomes one if a digit looked at below it is one.

The digits below are looked at word by word, and of every word only as many at its low end as the
integer has digits beyond whole words; an integer of whole words is looked at in full. In an
integer of at most two words these are all digits below, so it goes to the nearest number and a
half to the even one. In a longer integer digits elsewhere go unseen, so one that barely exceeds a
half may be rounded like the half.
-/

namespace Reckoner.Binary64

-- Powers are those of the natural numbers of core, whatever else is in scope.
attribute [local instance (2000)] instPowNat

/-- The number of binary digits of a word. -/
def wordBits : Nat := 64

/-- The number of binary digits below the leading word. -/
def lowBits (n : Nat) : Nat :=
  n.log2 + 1 - wordBits

/-- The number of digits that are looked at in every word below the leading one: those beyond whole
words, and all digits of the word if there are none beyond. -/
def seenBits (n : Nat) : Nat :=
  (lowBits n - 1) % wordBits + 1

/-- Whether one of the digits looked at below the leading word is one. -/
def seesRest (n : Nat) : Bool :=
  let rest := n % 2 ^ lowBits n
  (List.range (lowBits n / wordBits + 1)).any fun word =>
    rest / 2 ^ (word * wordBits) % 2 ^ seenBits n != 0

/-- The leading word of an integer, with the rest jammed into its last digit. -/
def leadingWord (n : Nat) : Nat :=
  let word := n / 2 ^ lowBits n
  if seesRest n then word ||| 1 else word

/-- The magnitude that is rounded for an integer: its leading word in its place. -/
def jammed (n : Nat) : Nat :=
  if n < 2 ^ wordBits then n else leadingWord n * 2 ^ lowBits n

/-- The number that stands for an integer. -/
def ofInt (n : Int) : Binary64 :=
  ofRatio (decide (n < 0)) (jammed n.natAbs * unitsPerOne) 1

/-- The leading word keeps a positive integer positive. -/
theorem jammed_pos {n : Nat} (h : 0 < n) : 0 < jammed n := by
  simp only [jammed]
  split
  · exact h
  · refine Nat.mul_pos ?_ (Nat.two_pow_pos _)
    have hle : lowBits n ≤ n.log2 := by
      simp only [lowBits, wordBits]
      omega
    have hword : 0 < n / 2 ^ lowBits n := by
      apply Nat.div_pos _ (Nat.two_pow_pos _)
      calc 2 ^ lowBits n ≤ 2 ^ n.log2 := Nat.pow_le_pow_right Nat.two_pos hle
        _ ≤ n := Nat.log2_self_le (Nat.ne_of_gt h)
    simp only [leadingWord]
    split
    · exact Nat.lt_of_lt_of_le hword Nat.left_le_or
    · exact hword

end Reckoner.Binary64
