import Reckoner.Proofs.Encoding
import Reckoner.Proofs.Lines

/-!
# What a displayed number tells

A number is displayed as digits and other characters, with a minus sign before them if it is
negative. An integer has digits only, a floating-point number never does. An exponent is marked by a
letter that positional notation does not have; with one, the digits and the exponent of the shortest
decimal can be read off the text, and without one the text denotes a decimal that rounds to the
number. So numbers that are displayed alike are the same.
-/

namespace Reckoner

namespace Decimal

open Binary64 Lexeme

theorem digitChars_inj {m n : Nat} : digitChars m = digitChars n ↔ m = n := by
  refine ⟨fun h => ?_, congrArg digitChars⟩
  rw [← decimalValue_digitChars m, h, decimalValue_digitChars]

theorem notMem_of_forall_isDigit {digits : List Char} (h : ∀ c ∈ digits, c.isDigit) {c : Char}
    (hc : c.isDigit = false) : c ∉ digits := by
  intro hmem
  rw [h c hmem] at hc
  cases hc

/-! ## Scientific notation -/

/-- The part of scientific notation before the exponent: a point stands behind the first of several
digits. -/
def mantissa : List Char → List Char
  | first :: second :: rest => first :: '.' :: second :: rest
  | short => short

/-- The digits of an exponent, at least two of them. -/
def exponentDigits (n : Nat) : List Char :=
  List.replicate (2 - (digitChars n).length) '0' ++ digitChars n

/-- Scientific notation is a mantissa, the mark of an exponent, its sign and its digits. -/
theorem scientific_eq (digits : List Char) (leading : Int) :
    scientific digits leading = mantissa digits ++ 'e' ::
      (if leading < 0 then '-' else '+') :: exponentDigits leading.natAbs := by
  rcases digits with _ | ⟨first, _ | ⟨second, rest⟩⟩ <;> rfl

/-- The digits can be taken back out of a mantissa. -/
theorem filter_mantissa {digits : List Char} (h : ∀ c ∈ digits, c.isDigit) :
    (mantissa digits).filter Char.isDigit = digits := by
  rcases digits with _ | ⟨first, _ | ⟨second, rest⟩⟩
  · rfl
  · exact List.filter_eq_self.mpr h
  · obtain ⟨hfirst, hrest⟩ := List.forall_mem_cons.mp h
    rw [mantissa, List.filter_cons_of_pos hfirst, List.filter_cons_of_neg (by decide),
      List.filter_eq_self.mpr hrest]

theorem notMem_mantissa {digits : List Char} (h : ∀ c ∈ digits, c.isDigit) :
    'e' ∉ mantissa digits := by
  have hdigits : 'e' ∉ digits := notMem_of_forall_isDigit h rfl
  rcases digits with _ | ⟨first, _ | ⟨second, rest⟩⟩
  · exact hdigits
  · exact hdigits
  · obtain ⟨hfirst, hrest⟩ := List.ne_and_not_mem_of_not_mem_cons hdigits
    exact List.not_mem_cons_of_ne_of_not_mem hfirst
      (List.not_mem_cons_of_ne_of_not_mem (by decide) hrest)

/-- Different exponents are written differently. -/
theorem exponentDigits_inj {m n : Nat} (h : exponentDigits m = exponentDigits n) : m = n := by
  have hvalue (k : Nat) : decimalValue (exponentDigits k) = k := by
    rw [exponentDigits, decimalValue_zeros_append, decimalValue_digitChars]
  rw [← hvalue m, h, hvalue]

/-- Scientific notation tells the digits and the place of the leading one. -/
theorem scientific_inj {s t : List Char} {m n : Int} (hs : ∀ c ∈ s, c.isDigit)
    (ht : ∀ c ∈ t, c.isDigit) (h : scientific s m = scientific t n) : s = t ∧ m = n := by
  rw [scientific_eq, scientific_eq] at h
  obtain ⟨hmantissa, hexponent⟩ :=
    eq_of_append_cons_eq (notMem_mantissa hs) (notMem_mantissa ht) h
  obtain ⟨hsign, hdigits⟩ := List.cons.inj hexponent
  have hnegative : m < 0 ↔ n < 0 := by
    split at hsign <;> split at hsign
    · omega
    · exact absurd hsign (by decide)
    · exact absurd hsign (by decide)
    · omega
  have habs := exponentDigits_inj hdigits
  constructor
  · rw [← filter_mantissa hs, hmantissa, filter_mantissa ht]
  · omega

/-! ## Both notations -/

/-- A decimal is written positionally or scientifically. -/
theorem chars_cases (d : Decimal) :
    d.chars = positional (digitChars d.digits) d.exponent ∨
      d.chars = scientific (digitChars d.digits) d.leading := by
  rw [chars]
  split
  · exact .inl rfl
  · exact .inr rfl

/-- A decimal is written with a point or an exponent. -/
theorem exists_mem_chars (d : Decimal) : ∃ c ∈ d.chars, c.isDigit = false := by
  rcases d.chars_cases with h | h
  · obtain ⟨whole, fraction, hwritten⟩ := d.exists_writtenAs
    rw [h, hwritten.positional_eq]
    exact ⟨'.', by simp, rfl⟩
  · rw [h]
    exact ⟨'e', mem_scientific _ _, rfl⟩

/-- A decimal is written with a digit first. -/
theorem exists_chars_eq_cons (d : Decimal) : ∃ c rest, d.chars = c :: rest ∧ c.isDigit := by
  have hdigits := isDigit_digitChars d.digits
  rcases d.chars_cases with h | h
  · obtain ⟨whole, fraction, hwritten⟩ := d.exists_writtenAs
    obtain ⟨first, rest, rfl⟩ := List.exists_cons_of_ne_nil hwritten.whole_ne_nil
    exact ⟨first, _, h.trans hwritten.positional_eq,
      hwritten.isDigit_whole first List.mem_cons_self⟩
  · rw [scientific_eq] at h
    obtain ⟨first, rest, hfirst⟩ :=
      List.exists_cons_of_ne_nil (@Nat.toDigits_ne_nil d.digits 10)
    rw [digitChars, hfirst] at h hdigits
    have hdigit := hdigits first List.mem_cons_self
    cases rest with
    | nil => exact ⟨first, _, h, hdigit⟩
    | cons second rest => exact ⟨first, _, h, hdigit⟩

/-- Magnitudes whose shortest decimals are written alike are the same. The mark of an exponent tells
scientific from positional notation. -/
theorem eq_of_chars_shortest_eq {u v : Nat} (hu : Representable u) (hv : Representable v)
    (h : (shortest u).chars = (shortest v).chars) : u = v := by
  have hdigits (d : Decimal) := isDigit_digitChars d.digits
  have hmark (d : Decimal) : 'e' ∉ positional (digitChars d.digits) d.exponent := by
    obtain ⟨whole, fraction, hwritten⟩ := d.exists_writtenAs
    have hwhole : 'e' ∉ whole := notMem_of_forall_isDigit hwritten.isDigit_whole rfl
    have hfraction : 'e' ∉ fraction := notMem_of_forall_isDigit hwritten.isDigit_fraction rfl
    simp [hwritten.positional_eq, hwhole, hfraction]
  rcases (shortest u).chars_cases with hchars | hchars <;>
    rcases (shortest v).chars_cases with hchars' | hchars' <;> rw [hchars, hchars'] at h
  · obtain ⟨whole, fraction, hwritten⟩ := (shortest u).exists_writtenAs
    obtain ⟨whole', fraction', hwritten'⟩ := (shortest v).exists_writtenAs
    rw [hwritten.positional_eq, hwritten'.positional_eq] at h
    obtain ⟨rfl, rfl⟩ := eq_of_append_cons_eq
      (notMem_of_forall_isDigit hwritten.isDigit_whole rfl)
      (notMem_of_forall_isDigit hwritten'.isDigit_whole rfl) h
    have hsame := (ofDecimal_of_writtenAs hu hwritten).symm.trans
      (ofDecimal_of_writtenAs hv hwritten')
    injection hsame
  · exact absurd (h ▸ mem_scientific _ _) (hmark (shortest u))
  · exact absurd (h ▸ mem_scientific _ _) (hmark (shortest v))
  · obtain ⟨hsame, hleading⟩ := scientific_inj (hdigits _) (hdigits _) h
    have hexponent : (shortest u).exponent = (shortest v).exponent := by
      rw [leading, leading, hsame] at hleading
      omega
    calc u = nearestUnits (steps (shortest u)) decimalScale := (nearestUnits_shortest hu.1).symm
      _ = nearestUnits (steps (shortest v)) decimalScale := by
          rw [steps, steps, digitChars_inj.mp hsame, hexponent]
      _ = v := nearestUnits_shortest hv.1

end Decimal

/-! ## Floating-point numbers -/

namespace Binary64

/-- The written form of a number without its sign. -/
def unsignedChars : Binary64 → List Char
  | .nan => ['n', 'a', 'n']
  | .infinity _ => ['i', 'n', 'f']
  | .finite _ units _ => (shortest units).chars

theorem chars_eq (x : Binary64) : x.chars = chars.sign x.isNegative ++ x.unsignedChars := by
  cases x <;> rfl

/-- A floating-point number is not written with digits only. -/
theorem exists_mem_unsignedChars (x : Binary64) : ∃ c ∈ x.unsignedChars, c.isDigit = false := by
  cases x with
  | nan => exact ⟨'n', List.mem_cons_self, rfl⟩
  | infinity negative => exact ⟨'i', List.mem_cons_self, rfl⟩
  | finite negative units h => exact (shortest units).exists_mem_chars

theorem head?_unsignedChars_ne (x : Binary64) : x.unsignedChars.head? ≠ some '-' := by
  cases x with
  | nan => exact (by decide : ['n', 'a', 'n'].head? ≠ some '-')
  | infinity negative => exact (by decide : ['i', 'n', 'f'].head? ≠ some '-')
  | finite negative units h =>
      obtain ⟨c, rest, hchars, hdigit⟩ := (shortest units).exists_chars_eq_cons
      rw [unsignedChars, hchars, List.head?_cons]
      rintro ⟨⟩
      cases hdigit

/-- Numbers of one sign that are written alike are the same. A finite number begins with a digit,
and not-a-number and the infinities begin with different letters. -/
theorem eq_of_unsignedChars_eq {x y : Binary64} (hsign : x.isNegative = y.isNegative)
    (h : x.unsignedChars = y.unsignedChars) : x = y := by
  have hfinite (units : Nat) {c : Char} {rest : List Char}
      (hchars : c :: rest = (shortest units).chars) : c.isDigit := by
    obtain ⟨d, tail, htail, hdigit⟩ := (shortest units).exists_chars_eq_cons
    rw [htail] at hchars
    rwa [(List.cons.inj hchars).1]
  cases x with
  | nan =>
      cases y with
      | nan => rfl
      | infinity t => exact absurd h (by simp [unsignedChars])
      | finite t v hv => exact absurd (hfinite v h) (by decide)
  | infinity s =>
      cases y with
      | nan => exact absurd h (by simp [unsignedChars])
      | infinity t => exact congrArg infinity hsign
      | finite t v hv => exact absurd (hfinite v h) (by decide)
  | finite s u hu =>
      cases y with
      | nan => exact absurd (hfinite u h.symm) (by decide)
      | infinity t => exact absurd (hfinite u h.symm) (by decide)
      | finite t v hv =>
          obtain rfl : s = t := hsign
          obtain rfl := Decimal.eq_of_chars_shortest_eq hu hv h
          rfl

end Binary64

/-! ## Numbers -/

namespace Number

open Binary64 Decimal

/-- Whether a number is displayed with a minus sign. -/
def isNegative : Number → Bool
  | int n => decide (n < 0)
  | float x => x.isNegative

/-- The written form of a number without its sign. -/
def unsignedChars : Number → List Char
  | int n => digitChars n.natAbs
  | float x => x.unsignedChars

theorem toList_text (n : Number) : n.text.toList = chars.sign n.isNegative ++ n.unsignedChars := by
  cases n with
  | int n =>
      cases n with
      | ofNat n =>
          have hsign : (int (Int.ofNat n)).isNegative = false :=
            decide_eq_false (Int.not_lt.mpr (Int.natCast_nonneg n))
          rw [hsign]
          exact Nat.toList_repr
      | negSucc n =>
          have hsign : (int (Int.negSucc n)).isNegative = true :=
            decide_eq_true (Int.negSucc_lt_zero n)
          rw [hsign]
          change ("-" ++ (n + 1).repr).toList = '-' :: digitChars (n + 1)
          rw [String.toList_append, Nat.toList_repr]
          rfl
  | float x => rw [text, Binary64.text, String.toList_ofList, x.chars_eq, isNegative, unsignedChars]

theorem head?_unsignedChars_ne (n : Number) : n.unsignedChars.head? ≠ some '-' := by
  cases n with
  | int n =>
      intro hhead
      exact absurd (isDigit_digitChars _ _ (List.mem_of_head? hhead)) (by decide)
  | float x => exact x.head?_unsignedChars_ne

/-- A sign can be told from what follows it. -/
theorem sign_append_inj {s t : Bool} {u v : List Char} (hu : u.head? ≠ some '-')
    (hv : v.head? ≠ some '-') (h : chars.sign s ++ u = chars.sign t ++ v) : s = t ∧ u = v := by
  cases s <;> cases t
  · exact ⟨rfl, h⟩
  · exact absurd (congrArg List.head? h) hu
  · exact absurd (congrArg List.head? h).symm hv
  · exact ⟨rfl, (List.cons.inj h).2⟩

/-- Numbers of one sign that are written alike are the same, as no floating-point number is written
with digits only. -/
theorem eq_of_unsignedChars_eq {a b : Number} (hsign : a.isNegative = b.isNegative)
    (h : a.unsignedChars = b.unsignedChars) : a = b := by
  have hdigits (m : Int) (x : Binary64) : digitChars m.natAbs ≠ x.unsignedChars := by
    intro hsame
    obtain ⟨c, hc, hdigit⟩ := x.exists_mem_unsignedChars
    rw [← hsame] at hc
    exact notMem_of_forall_isDigit (isDigit_digitChars _) hdigit hc
  cases a with
  | int m =>
      cases b with
      | int n =>
          have habs : m.natAbs = n.natAbs := digitChars_inj.mp h
          have hnegative : m < 0 ↔ n < 0 := decide_eq_decide.mp hsign
          exact congrArg int (by omega)
      | float y => exact absurd h (hdigits m y)
  | float x =>
      cases b with
      | int n => exact absurd h.symm (hdigits n x)
      | float y => exact congrArg float (Binary64.eq_of_unsignedChars_eq hsign h)

/-- Numbers are displayed alike if and only if both are the same integer, or both are floating-point
numbers with the same encoding. -/
theorem text_eq_iff (a b : Number) :
    a.text = b.text ↔ (∃ n, a = .int n ∧ b = .int n) ∨
      ∃ x y, a = .float x ∧ b = .float y ∧ x.toBits = y.toBits := by
  constructor
  · intro h
    have hlist := congrArg String.toList h
    rw [toList_text, toList_text] at hlist
    obtain ⟨hsign, hunsigned⟩ :=
      sign_append_inj a.head?_unsignedChars_ne b.head?_unsignedChars_ne hlist
    obtain rfl := eq_of_unsignedChars_eq hsign hunsigned
    cases a with
    | int n => exact .inl ⟨n, rfl, rfl⟩
    | float x => exact .inr ⟨x, x, rfl, rfl, rfl⟩
  · rintro (⟨n, rfl, rfl⟩ | ⟨x, y, rfl, rfl, hbits⟩)
    · rfl
    · rw [toBits_inj.mp hbits]

end Number

end Reckoner
