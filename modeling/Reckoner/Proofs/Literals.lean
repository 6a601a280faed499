import Reckoner.Proofs.Reports
import Reckoner.Proofs.RoundTrip
import Reckoner.Proofs.ShortestDecimal

/-!
# Reading back displayed numbers

A number that a source text denotes is displayed as digits, perhaps with a point and more digits, as
long as it has no exponent. These texts are numbers of the language, and since a display is a
decimal that rounds to the number displayed, they denote this number again. A display with an
exponent is no single number of the language, nor is that of an infinite value. Hence a program
without such values is read back from its text.
-/

namespace Reckoner

-- Powers are those of the natural numbers of core, whatever else is in scope.
attribute [local instance (2000)] instPowNat

/-! ## Written digits -/

/-- Whether neither a blank nor a comment begins with a character. -/
def BeginsNoGap (c : Char) : Prop :=
  isBlank c = false ∧ c ≠ '/'
deriving Decidable

theorem beginsNoGap_of_isDigit {c : Char} (h : c.isDigit) : BeginsNoGap c :=
  have hc := isNameChar_of_isDigit h
  ⟨isBlank_of_isNameChar hc, ne_slash_of_isNameChar hc⟩

namespace Decimal

open Binary64 Lexeme

theorem forall_isDigit_zeros (n : Nat) : ∀ c ∈ List.replicate n '0', c.isDigit := by
  intro c hc
  rw [List.eq_of_mem_replicate hc]
  rfl

/-- Zeros in front of digits count for nothing. -/
theorem decimalValue_zeros_append (n : Nat) (digits : List Char) :
    decimalValue (List.replicate n '0' ++ digits) = decimalValue digits := by
  rw [decimalValue, Nat.ofDigitChars_append, Nat.ofDigitChars_replicate_zero, Nat.mul_zero,
    decimalValue]

/-- Each zero behind digits multiplies their value by ten. -/
theorem decimalValue_append_zeros (digits : List Char) (n : Nat) :
    decimalValue (digits ++ List.replicate n '0') = decimalValue digits * 10 ^ n := by
  rw [decimalValue, Nat.ofDigitChars_append, Nat.ofDigitChars_replicate_zero, Nat.mul_comm,
    decimalValue]

/-- Whether a decimal is written with the given digits before and behind a point. -/
structure WrittenAs (d : Decimal) (whole fraction : List Char) : Prop where
  positional_eq : positional (digitChars d.digits) d.exponent = whole ++ '.' :: fraction
  whole_ne_nil : whole ≠ []
  isDigit_whole : ∀ c ∈ whole, c.isDigit
  isDigit_fraction : ∀ c ∈ fraction, c.isDigit
  /-- As many digits stand behind the point as the value of all digits is scaled by. -/
  value_eq : decimalValue (whole ++ fraction) * 10 ^ (-d.exponent).toNat =
    d.digits * 10 ^ d.exponent.toNat * 10 ^ fraction.length

theorem isDigit_digitChars (n : Nat) : ∀ c ∈ digitChars n, c.isDigit := fun _ hc =>
  Nat.isDigit_of_mem_toDigits (by decide) (by decide) hc

theorem decimalValue_digitChars (n : Nat) : decimalValue (digitChars n) = n :=
  Nat.ofDigitChars_ten_toDigits

/-- The digits are filled up with zeros to reach the point. -/
theorem exists_writtenAs_of_nonneg {d : Decimal} (h : 0 ≤ d.exponent) :
    ∃ whole fraction, d.WrittenAs whole fraction := by
  have hlength : 0 < (digitChars d.digits).length := Nat.length_toDigits_pos
  have hplaces : (-d.exponent).toNat = 0 := by omega
  have hpadding : 0 + 1 - (digitChars d.digits).length = 0 := by omega
  exact ⟨digitChars d.digits ++ List.replicate d.exponent.toNat '0', ['0'], {
    positional_eq := by simp [positional, hplaces, hpadding]
    whole_ne_nil := List.append_ne_nil_of_left_ne_nil (List.length_pos_iff.mp hlength) _
    isDigit_whole := List.forall_mem_append.mpr ⟨isDigit_digitChars _, forall_isDigit_zeros _⟩
    isDigit_fraction := by simp
    value_eq := by
      rw [hplaces, List.append_assoc, ← List.replicate_one, List.replicate_append_replicate,
        decimalValue_append_zeros, decimalValue_digitChars, List.length_replicate, Nat.pow_add,
        Nat.pow_zero, Nat.mul_one, Nat.mul_assoc] }⟩

/-- The digits are padded with zeros to reach over the point. -/
theorem exists_writtenAs_of_neg {d : Decimal} (h : d.exponent < 0) :
    ∃ whole fraction, d.WrittenAs whole fraction := by
  let places := (-d.exponent).toNat
  let padded :=
    List.replicate (places + 1 - (digitChars d.digits).length) '0' ++ digitChars d.digits
  let front := padded.length - places
  have hplaces : 0 < places := by simp only [places]; omega
  have hzero : d.exponent.toNat = 0 := by omega
  have hlength : places + 1 ≤ padded.length := by
    simp only [padded, List.length_append, List.length_replicate]
    omega
  have hpadded : ∀ c ∈ padded, c.isDigit :=
    List.forall_mem_append.mpr ⟨forall_isDigit_zeros _, isDigit_digitChars _⟩
  have hfraction : (padded.drop front).length = places := by
    rw [List.length_drop]
    omega
  have hempty : (padded.drop front).isEmpty = false := by
    rw [List.isEmpty_eq_false_iff, ← List.length_pos_iff]
    omega
  exact ⟨padded.take front, padded.drop front, {
    positional_eq := by
      simp only [positional, hzero, List.replicate_zero, List.append_nil]
      exact congrArg _ (congrArg _ (if_neg (Bool.eq_false_iff.mp hempty)))
    whole_ne_nil := by
      rw [← List.length_pos_iff, List.length_take]
      omega
    isDigit_whole := fun c hc => hpadded c (List.mem_of_mem_take hc)
    isDigit_fraction := fun c hc => hpadded c (List.mem_of_mem_drop hc)
    value_eq := by
      rw [List.take_append_drop, decimalValue_zeros_append, decimalValue_digitChars, hzero,
        hfraction, Nat.pow_zero, Nat.mul_one] }⟩

/-- Each decimal is written with digits around a point. -/
theorem exists_writtenAs (d : Decimal) : ∃ whole fraction, d.WrittenAs whole fraction := by
  by_cases h : d.exponent < 0
  · exact exists_writtenAs_of_neg h
  · exact exists_writtenAs_of_nonneg (Int.not_lt.mp h)

/-- The written digits denote the decimal. The powers in this stand for themselves: only their
products matter. -/
theorem WrittenAs.mul_pow_eq {d : Decimal} {whole fraction : List Char}
    (h : d.WrittenAs whole fraction) (hexponent : -(unitExponent : Int) ≤ d.exponent) :
    decimalValue (whole ++ fraction) * 10 ^ unitExponent = steps d * 10 ^ fraction.length := by
  have hsum : unitExponent + d.exponent.toNat =
      (d.exponent + unitExponent).toNat + (-d.exponent).toNat := by omega
  have hpow : 10 ^ unitExponent * 10 ^ d.exponent.toNat =
      10 ^ (d.exponent + unitExponent).toNat * 10 ^ (-d.exponent).toNat := by
    rw [← Nat.pow_add, hsum, Nat.pow_add]
  have hpos : 0 < 10 ^ (-d.exponent).toNat := Nat.pow_pos (by decide)
  have hvalue := h.value_eq
  rw [steps]
  generalize 10 ^ unitExponent = unit at *
  generalize 10 ^ (d.exponent + unitExponent).toNat = scaled at *
  generalize 10 ^ (-d.exponent).toNat = places at *
  apply Nat.eq_of_mul_eq_mul_right hpos
  calc decimalValue (whole ++ fraction) * unit * places
      = d.digits * 10 ^ d.exponent.toNat * 10 ^ fraction.length * unit := by
        rw [Nat.mul_right_comm, hvalue]
    _ = d.digits * 10 ^ fraction.length * (unit * 10 ^ d.exponent.toNat) := by ac_rfl
    _ = d.digits * scaled * 10 ^ fraction.length * places := by
        rw [hpow]
        ac_rfl

theorem mem_scientific (digits : List Char) (leading : Int) : 'e' ∈ scientific digits leading := by
  simp [scientific]

theorem beginsNoGap_of_mem_scientific {digits : List Char} (hdigits : ∀ c ∈ digits, c.isDigit)
    (leading : Int) : ∀ c ∈ scientific digits leading, BeginsNoGap c := by
  have hall {text : List Char} (h : ∀ c ∈ text, c.isDigit) : ∀ c ∈ text, BeginsNoGap c :=
    fun c hc => beginsNoGap_of_isDigit (h c hc)
  simp only [scientific, List.forall_mem_append, List.forall_mem_cons]
  refine ⟨?_, by decide, ?_, hall (forall_isDigit_zeros _), hall (isDigit_digitChars _)⟩
  · split
    · rename_i first second rest
      obtain ⟨hfirst, hrest⟩ := List.forall_mem_cons.mp hdigits
      exact List.forall_mem_cons.mpr ⟨beginsNoGap_of_isDigit hfirst,
        List.forall_mem_cons.mpr ⟨by decide, hall hrest⟩⟩
    · exact hall hdigits
  · split <;> decide

end Decimal

/-! ## Displayed numbers -/

namespace Binary64

/-- Whether a number is zero, or its magnitude is `10⁻⁴` or more and less than `10¹⁶`. -/
def IsPlain : Binary64 → Prop
  | .finite _ units _ =>
    units = 0 ∨ unitsPerOne ≤ units * 10 ^ (4 : Nat) ∧ units < 10 ^ (16 : Nat) * unitsPerOne
  | _ => False

instance : DecidablePred IsPlain
  | .finite _ units _ => inferInstanceAs (Decidable (units = 0 ∨
      unitsPerOne ≤ units * 10 ^ (4 : Nat) ∧ units < 10 ^ (16 : Nat) * unitsPerOne))
  | .infinity _ | .nan => .isFalse id

/-- The digits of a magnitude denote the magnitude. -/
theorem ofDecimal_of_writtenAs {u : Nat} (hu : Representable u) {whole fraction : List Char}
    (h : (shortest u).WrittenAs whole fraction) :
    ofDecimal (Lexeme.decimalValue (whole ++ fraction)) fraction.length = .finite false u hu := by
  have hscale : unitsPerOne * decimalScale = 10 ^ unitExponent := by
    rw [unitsPerOne, decimalScale, ← Nat.mul_pow]
  have hcross : Lexeme.decimalValue (whole ++ fraction) * unitsPerOne * decimalScale =
      steps (shortest u) * 10 ^ fraction.length := by
    rw [Nat.mul_assoc, hscale, h.mul_pow_eq (exponent_shortest hu.1)]
  have hnearest : nearestUnits (Lexeme.decimalValue (whole ++ fraction) * unitsPerOne)
      (10 ^ fraction.length) = u := by
    rw [nearestUnits_congr (Nat.pow_pos (by decide)) decimalScale_pos hcross,
      nearestUnits_shortest hu.1]
  simp only [ofDecimal, ofRatio, hnearest, hu.2, dite_true]

end Binary64

namespace Number

open Binary64

/-- Whether the text of a number, by itself, is one token, and this denotes the same number. -/
def ReadsBack (n : Number) : Prop :=
  ∃ t e : Token, (TokenStream.ofString n.text).tokens = .ok [t, e] ∧ t.kind = .number n ∧
    e.kind = .endOfInput

theorem toList_text_finite {u : Nat} (hu : Representable u) :
    (float (.finite false u hu)).text.toList = (shortest u).chars :=
  String.toList_ofList

theorem isLegible_of_isPlain {u : Nat} {hu : Representable u} (h : IsPlain (.finite false u hu)) :
    (float (.finite false u hu)).IsLegible := by
  intro p rest hrest
  obtain ⟨whole, fraction, hwritten⟩ := (shortest u).exists_writtenAs
  have htext : (float (.finite false u hu)).text.toList = whole ++ '.' :: fraction := by
    rw [toList_text_finite, ← hwritten.positional_eq]
    exact if_pos ((leading_shortest_iff hu.1).mpr h)
  rw [htext, TokenStream.ofChars_point hwritten.whole_ne_nil hwritten.isDigit_whole
    hwritten.isDigit_fraction hrest, ofDecimal_of_writtenAs hu hwritten, ← htext,
    String.ofList_toList]

theorem IsLegible.readsBack {n : Number} (h : n.IsLegible) : n.ReadsBack := by
  let finish := Position.start.after n.text.toList
  have hitems : TokenStream.ofString n.text =
      (TokenStream.ofChars finish []).prepend [⟨.number n, n.text, .start⟩] := by
    rw [← h .start [] (fun _ hc => by cases hc), List.append_nil]
    rfl
  refine ⟨⟨.number n, n.text, .start⟩, ⟨.endOfInput, "", finish⟩, ?_, rfl, rfl⟩
  rw [TokenStream.tokens_eq_ok_iff, hitems, TokenStream.sequence_prepend,
    TokenStream.ofChars_of_nil rfl]
  rfl

end Number

theorem IsGap.eq_nil {gap rest : List Char} (h : IsGap gap rest)
    (hchars : ∀ c ∈ gap, BeginsNoGap c) : gap = [] := by
  cases h with
  | nil => rfl
  | blank hc =>
      have hblank := (hchars _ List.mem_cons_self).1
      rw [mem_blanks_iff.mp hc] at hblank
      cases hblank
  | comment => exact absurd rfl (hchars '/' List.mem_cons_self).2

theorem IsNumeral.isDigit_or {text : List Char} (h : IsNumeral text) :
    ∀ c ∈ text, c.isDigit ∨ c = '.' := by
  obtain ⟨whole, -, hwhole, rfl | ⟨fraction, rfl, hfraction⟩⟩ := h
  · exact fun c hc => .inl (hwhole c hc)
  · exact List.forall_mem_append.mpr ⟨fun c hc => .inl (hwhole c hc),
      List.forall_mem_cons.mpr ⟨.inr rfl, fun c hc => .inl (hfraction c hc)⟩⟩

/-- A text that is a single number and has no gaps is written like a number throughout. -/
theorem isNumeral_of_items {text : List Char} (hchars : ∀ c ∈ text, BeginsNoGap c) {p : Position}
    {t : Token} {n : Number} (h : (TokenStream.ofChars p text).items = [.token t])
    (ht : t.kind = .number n) : IsNumeral text := by
  have hpartitions := partitions_ofChars p text
  rw [h] at hpartitions
  cases hpartitions with
  | @item gap rest _ _ hgap hitem hrest =>
      cases hrest with
      | finish hend =>
          simp only [List.forall_mem_append] at hchars
          obtain ⟨⟨hbefore, -⟩, hbehind⟩ := hchars
          rw [hgap.eq_nil hbefore, hend.eq_nil hbehind, List.nil_append, List.append_nil]
          exact (hitem.number n ht).1

namespace Number

open Binary64

theorem ReadsBack.exists_items {n : Number} (h : n.ReadsBack) :
    ∃ t : Token, (TokenStream.ofString n.text).items = [.token t] ∧ t.kind = .number n := by
  obtain ⟨t, e, htokens, ht, -⟩ := h
  rw [TokenStream.tokens_eq_ok_iff, TokenStream.sequence] at htokens
  exact ⟨t, List.append_inj_left' htokens rfl, ht⟩

/-- A display without gaps is no number if it has a character besides digits and points. -/
theorem not_readsBack {n : Number} (hchars : ∀ c ∈ n.text.toList, BeginsNoGap c)
    {c : Char} (hc : c ∈ n.text.toList) (hdigit : c.isDigit = false) (hpoint : c ≠ '.') :
    ¬ n.ReadsBack := by
  intro h
  obtain ⟨t, hitems, ht⟩ := h.exists_items
  rcases (isNumeral_of_items hchars hitems ht).isDigit_or c hc with hd | rfl
  · rw [hdigit] at hd
    cases hd
  · exact hpoint rfl

/-- Of the finite numbers without a sign just the plain ones are read back. -/
theorem readsBack_float_iff {u : Nat} {hu : Representable u} :
    (float (.finite false u hu)).ReadsBack ↔ IsPlain (.finite false u hu) := by
  constructor
  · intro h
    apply Classical.byContradiction
    intro hplain
    have htext : (float (.finite false u hu)).text.toList =
        Decimal.scientific (Decimal.digitChars (shortest u).digits) (shortest u).leading := by
      rw [toList_text_finite]
      exact if_neg (mt (leading_shortest_iff hu.1).mp hplain)
    refine not_readsBack ?_ (htext ▸ Decimal.mem_scientific _ _) rfl (by decide) h
    rw [htext]
    exact Decimal.beginsNoGap_of_mem_scientific (Decimal.isDigit_digitChars _) _
  · exact fun h => (isLegible_of_isPlain h).readsBack

/-- Infinity is written with a name, which is not read as a number. -/
theorem not_readsBack_infinity : ¬ (float (.infinity false)).ReadsBack := by
  have htext : (float (.infinity false)).text.toList = ['i', 'n', 'f'] := String.toList_ofList
  have hchars : ∀ c ∈ ['i', 'n', 'f'], BeginsNoGap c := by simp [BeginsNoGap, isBlank]
  exact not_readsBack (htext ▸ hchars) (htext ▸ List.mem_cons_self) rfl (by decide)

end Number

/-! ## Literals of a source text -/

/-- A numeral with a point is a finite number without a sign, or infinity. -/
theorem Number.float_ofDecimal_cases (digits places : Nat) :
    (∃ u hu, float (.ofDecimal digits places) = .float (.finite false u hu)) ∨
      float (.ofDecimal digits places) = .float (.infinity false) := by
  simp only [Binary64.ofDecimal, Binary64.ofRatio]
  split
  · exact .inl ⟨_, ⟨Binary64.gap_dvd_nearestUnits _ _, ‹_›⟩, rfl⟩
  · exact .inr rfl

/-- A number that is read has no sign. -/
theorem Lexeme.number_cases {c : Char} {rest literal : List Char} {n : Number}
    (h : (read c rest).1 = .token (.number n) literal) :
    (∃ k : Nat, n = .int k) ∨ (∃ u hu, n = .float (.finite false u hu)) ∨
      n = .float (.infinity false) := by
  replace h := readNumber_of_read h
  simp only [readNumber] at h
  split at h
  · cases h
    exact .inr (Number.float_ofDecimal_cases _ _)
  · cases h
    exact .inl ⟨_, rfl⟩

namespace Number

/-- Whether a number is an integer or a plain floating-point number. -/
def IsPlain : Number → Prop
  | int _ => True
  | float x => x.IsPlain

instance : DecidablePred IsPlain
  | int _ => .isTrue trivial
  | float x => inferInstanceAs (Decidable x.IsPlain)

end Number

namespace TokenStream

variable {source : String} {t : Token} {n : Number}

theorem isLegible_of_mem (h : .token t ∈ (ofString source).items) (ht : t.kind = .number n)
    (hn : n.IsPlain) : n.IsLegible := by
  obtain ⟨c, rest, hread⟩ := exists_read_of_mem h
  rw [ht] at hread
  rcases Lexeme.number_cases hread with ⟨k, rfl⟩ | ⟨u, hu, rfl⟩ | rfl
  · exact Number.isLegible_int (Int.natCast_nonneg k)
  · exact Number.isLegible_of_isPlain hn
  · exact hn.elim

/-- A number of a text is read back precisely if it is plain. -/
theorem readsBack_iff_of_mem (h : .token t ∈ (ofString source).items) (ht : t.kind = .number n) :
    n.ReadsBack ↔ n.IsPlain := by
  obtain ⟨c, rest, hread⟩ := exists_read_of_mem h
  rw [ht] at hread
  rcases Lexeme.number_cases hread with ⟨k, rfl⟩ | ⟨u, hu, rfl⟩ | rfl
  · exact iff_of_true (isLegible_of_mem h ht trivial).readsBack trivial
  · exact Number.readsBack_float_iff
  · exact iff_of_false Number.not_readsBack_infinity id

theorem isIdentifier_of_mem (h : .token t ∈ (ofString source).items) (ht : t.kind = .identifier) :
    IsIdentifier t.literal := by
  obtain ⟨rest, hlexed⟩ := (partitions_ofChars _ _).isLexed_of_mem h
  have hlexed : t.IsLexed rest := hlexed
  refine ⟨(hlexed.name (by simp [ht])).1, ?_, ?_⟩
  · intro hlet
    rw [← hlexed.let_iff, ht] at hlet
    cases hlet
  · intro hprint
    rw [← hlexed.print_iff, ht] at hprint
    cases hprint

end TokenStream

section

variable {source : String}

/-- The expressions of a text are legible if their numbers are plain. -/
theorem Derives.isLegible {c : Category} {u : List Token} {e : Expr} (h : Derives c u e)
    (hu : ∀ t ∈ u, .token t ∈ (TokenStream.ofString source).sequence)
    (hplain : ∀ n, .literal n ∈ e.postorder → n.IsPlain) : e.IsLegible := by
  induction h with
  | number ht =>
      have hmem := TokenStream.mem_items_of_kind_ne (hu _ List.mem_cons_self) (by simp [ht])
      exact TokenStream.isLegible_of_mem hmem ht (hplain _ List.mem_cons_self)
  | identifier ht =>
      have hmem := TokenStream.mem_items_of_kind_ne (hu _ List.mem_cons_self) (by simp [ht])
      exact TokenStream.isIdentifier_of_mem hmem ht
  | parentheses _ _ _ ih => exact ih (fun t ht => hu t (by simp [ht])) hplain
  | ofFactor _ ih => exact ih hu hplain
  | ofProduct _ ih => exact ih hu hplain
  | operation _ _ _ _ iha ihb =>
      simp only [Expr.postorder, List.mem_append] at hplain
      exact ⟨iha (fun t ht => hu t (by simp [ht])) fun n hn => hplain n (.inl (.inl hn)),
        ihb (fun t ht => hu t (by simp [ht])) fun n hn => hplain n (.inl (.inr hn))⟩

theorem DerivesStatement.isLegible {u : List Token} {statement : Statement}
    (h : DerivesStatement u statement)
    (hu : ∀ t ∈ u, .token t ∈ (TokenStream.ofString source).sequence)
    (hplain : ∀ n, .literal n ∈ statement.value.postorder → n.IsPlain) : statement.IsLegible := by
  cases h with
  | @assignment l name a s v e _ hname _ he _ =>
      refine ⟨?_, he.isLegible (fun t ht => hu t (by simp [ht])) hplain⟩
      rintro _ ⟨⟩
      have hmem := TokenStream.mem_items_of_kind_ne (hu name (by simp)) (by simp [hname])
      exact TokenStream.isIdentifier_of_mem hmem hname
  | printing _ _ he _ _ =>
      refine ⟨?_, he.isLegible (fun t ht => hu t (by simp [ht])) hplain⟩
      rintro _ ⟨⟩

theorem DerivesProgram.isLegible {u : List Token} {found : List Statement}
    (h : DerivesProgram u found)
    (hu : ∀ t ∈ u, .token t ∈ (TokenStream.ofString source).sequence)
    (hplain : ∀ statement ∈ found, ∀ n, .literal n ∈ statement.value.postorder → n.IsPlain) :
    ∀ statement ∈ found, statement.IsLegible := by
  intro statement hstatement
  obtain ⟨v, hv, hsub⟩ := h.exists_of_mem hstatement
  exact hv.isLegible (fun t ht => hu t (hsub ht)) (hplain statement hstatement)

end

/-- Among the numbers that a source text denotes, just the plain ones are displayed by a text that
is one token and denotes the same number. A program in which all numbers are plain is read back from
its text, up to places. -/
theorem literals_read_back (source : String) :
    (∀ t n, .token t ∈ (TokenStream.ofString source).items → t.kind = .number n →
      (n.ReadsBack ↔ n.IsPlain)) ∧
    ∀ program, Program.parse source = .ok program →
      (∀ statement ∈ program.statements, ∀ n, .literal n ∈ statement.value.postorder →
        n.IsPlain) →
      ∃ found, Program.parse program.text = .ok found ∧
        found.withoutPlaces = program.withoutPlaces := by
  refine ⟨fun t n => TokenStream.readsBack_iff_of_mem, ?_⟩
  intro program hparse hplain
  rw [Program.parse_eq_ok_iff_statements] at hparse
  obtain ⟨u, hseq, hderives, hdepth, -⟩ := Reading.statements_sound hparse
  have hmem : ∀ t ∈ u, .token t ∈ (TokenStream.ofString source).sequence := fun t ht =>
    hseq ▸ List.mem_map_of_mem ht
  obtain ⟨found, hfound, hsame⟩ :=
    statements_ofChars_text_of_isLegible (hderives.isLegible hmem hplain) hdepth .start
  exact ⟨⟨found⟩, Program.parse_eq_ok_iff_statements.mpr hfound, congrArg Program.mk hsame⟩

/-- The number `0.10` is displayed as `0.1`, and a program with it is read back. -/
theorem literals_read_back_tenth :
    let source := "let x = 0.10; print(x * 3);"
    let tenth := Number.float (.ofDecimal 10 2)
    let program : Program := ⟨[.assign "x" (.literal tenth),
      .print (.operation .times (.reference "x" ⟨20, 1, 21⟩) (.literal (.int 3)) ⟨22, 1, 23⟩)]⟩
    tenth.ReadsBack ∧ Program.parse source = .ok program ∧
      ∃ found, Program.parse program.text = .ok found ∧
        found.withoutPlaces = program.withoutPlaces := by
  intro source tenth program
  obtain ⟨hliterals, hprograms⟩ := literals_read_back source
  have hparse : Program.parse source = .ok program :=
    Program.parse_eq_ok_iff_statements.mpr (by decide +kernel)
  have hmem : .token ⟨.number tenth, "0.10", ⟨8, 1, 9⟩⟩ ∈
      (TokenStream.ofString source).items := by decide +kernel
  have hplain : decide tenth.IsPlain = true := by decide +kernel
  clear_value tenth
  have hreadsBack := (hliterals _ tenth hmem rfl).mpr (of_decide_eq_true hplain)
  have hthree : (Number.int 3).IsPlain := trivial
  refine ⟨hreadsBack, hparse, hprograms program hparse ?_⟩
  simp [program, Statement.value, Expr.postorder, of_decide_eq_true hplain, hthree]

/-- The number `10000000000000000.0` is displayed as `1e+16`, which is no single token. -/
theorem exists_literal_not_readsBack :
    ∃ t n, .token t ∈ (TokenStream.ofString "print(10000000000000000.0);").items ∧
      t.kind = .number n ∧ n.text = "1e+16" ∧ ¬ n.ReadsBack := by
  have hmem : .token ⟨.number (.float (.ofDecimal 100000000000000000 1)), "10000000000000000.0",
      ⟨6, 1, 7⟩⟩ ∈ (TokenStream.ofString "print(10000000000000000.0);").items := by decide +kernel
  have htext : (Number.float (.ofDecimal 100000000000000000 1)).text = "1e+16" := by
    decide +kernel
  have hplain : ¬ (Number.float (.ofDecimal 100000000000000000 1)).IsPlain := by decide +kernel
  generalize Number.float (.ofDecimal 100000000000000000 1) = n at *
  exact ⟨_, n, hmem, rfl, htext, mt (TokenStream.readsBack_iff_of_mem hmem rfl).mp hplain⟩

end Reckoner
