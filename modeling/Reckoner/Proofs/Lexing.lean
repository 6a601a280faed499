import Reckoner.Proofs.Stream

/-!
# The items of a text, one by one

The items of a text begin with the item behind the gap at its beginning, and go on with those of the
rest of the text. Which item that is depends on its first character; where it ends, on the first
character that does not belong to it.
-/

namespace Reckoner

namespace TokenStream

/-- A text that is a gap has no items, and ends behind the gap. -/
theorem ofChars_of_nil {p : Position} {text gap : List Char} (h : spanGap text = (gap, [])) :
    ofChars p text = ⟨[], p.after gap⟩ := by
  rw [ofChars]
  split
  · rename_i found hfound
    rw [h] at hfound
    obtain ⟨rfl, -⟩ := Prod.mk.inj hfound
    rfl
  · rename_i hfound
    rw [h] at hfound
    cases hfound

/-- Behind its gap a text has the lexeme that is read there, and then the items of the rest. -/
theorem ofChars_of_cons {p : Position} {text gap rest : List Char} {c : Char}
    (h : spanGap text = (gap, c :: rest)) :
    ofChars p text =
      let lexeme := (Lexeme.read c rest).1
      let tail := ofChars ((p.after gap).after lexeme.chars) (Lexeme.read c rest).2
      ⟨lexeme.item (p.after gap) :: tail.items, tail.finish⟩ := by
  rw [ofChars]
  split
  · rename_i hfound
    rw [h] at hfound
    cases hfound
  · rename_i hfound
    rw [h] at hfound
    cases hfound
    rfl

end TokenStream

/-! ## Single lexemes -/

theorem spanGap_of_blank {c : Char} (h : isBlank c) (text : List Char) :
    spanGap (c :: text) = (c :: (spanGap text).1, (spanGap text).2) := by
  simp [spanGap, spanGapFrom, h]

/-- Two slashes begin a comment. -/
theorem beginsComment_iff {c : Char} {text : List Char} :
    (c == '/' && text.head? == some '/') = true ↔ c = '/' ∧ ∃ tail, text = '/' :: tail := by
  rw [Bool.and_eq_true, beq_iff_eq, beq_iff_eq, List.head?_eq_some_iff]

theorem head?_ne_of_not_beginsComment {c : Char} {text : List Char}
    (h : ¬ (c == '/' && text.head? == some '/') = true) : c = '/' → text.head? ≠ some '/' :=
  fun hc hhead => h (beginsComment_iff.mpr ⟨hc, List.head?_eq_some_iff.mp hhead⟩)

/-- Where neither white space nor a comment begins the gap is empty. -/
theorem spanGap_of_lexeme {c : Char} {text : List Char} (hblank : isBlank c = false)
    (hslash : c = '/' → text.head? ≠ some '/') : spanGap (c :: text) = ([], c :: text) := by
  simp only [spanGap, spanGapFrom, hblank]
  simpa using hslash

/-- Whether a text is one that a name or a number ends before. -/
def Separated (text : List Char) : Prop :=
  ∀ c ∈ text.head?, isNameChar c = false ∧ c ≠ '.'

theorem separated_cons {c : Char} (h : isNameChar c = false ∧ c ≠ '.') (text : List Char) :
    Separated (c :: text) := by
  rintro d ⟨⟩
  exact h

/-- Whether a text is a name. -/
def isName : List Char → Bool
  | [] => false
  | c :: text => isNameStart c && text.all isNameChar

theorem isName_cons {c : Char} {text : List Char} :
    isName (c :: text) ↔ isNameStart c ∧ ∀ d ∈ text, isNameChar d := by
  simp [isName]

theorem isNameChar_of_isDigit {c : Char} (h : c.isDigit) : isNameChar c := by
  simp [isNameChar, Char.isAlphanum, h]

theorem isAlpha_iff {c : Char} :
    c.isAlpha ↔ (65 ≤ c.toNat ∧ c.toNat ≤ 90) ∨ 97 ≤ c.toNat ∧ c.toNat ≤ 122 := by
  change (decide (c.val ≥ 'A'.val ∧ c.val ≤ 'Z'.val) ||
    decide (c.val ≥ 'a'.val) && decide (c.val ≤ 'z'.val)) = true ↔ _
  simp only [Bool.or_eq_true, Bool.and_eq_true, decide_eq_true_eq, ge_iff_le,
    UInt32.le_iff_toNat_le]
  exact Iff.rfl

theorem isNameStart_of_isDigit {c : Char} (h : c.isDigit) : isNameStart c = false := by
  rw [Char.isDigit_iff_toNat] at h
  have hrange : c.toNat ≤ 57 := h.2
  apply Bool.eq_false_iff.mpr
  intro hstart
  simp only [isNameStart, Bool.or_eq_true, beq_iff_eq, isAlpha_iff] at hstart
  rcases hstart with (⟨hle, -⟩ | ⟨hle, -⟩) | rfl
  · omega
  · omega
  · exact absurd hrange (by decide)

theorem isBlank_of_isNameChar {c : Char} (h : isNameChar c) : isBlank c = false := by
  apply Bool.eq_false_iff.mpr
  intro hblank
  simp only [isBlank, Bool.or_eq_true, beq_iff_eq] at hblank
  rcases hblank with ((rfl | rfl) | rfl) | rfl <;> cases h

theorem ne_slash_of_isNameChar {c : Char} (h : isNameChar c) : c ≠ '/' := by
  rintro rfl
  cases h

theorem isBlank_of_delimiter? {c : Char} {kind : Kind} (h : Lexeme.delimiter? c = some kind) :
    isBlank c = false := by
  unfold Lexeme.delimiter? at h
  split at h <;> first | rfl | cases h

/-- A run of characters with a property ends where the first one without it stands. -/
theorem takeWhile_append_of_stops {p : Char → Bool} {text rest : List Char}
    (htext : ∀ c ∈ text, p c) (hrest : ∀ c ∈ rest.head?, p c = false) :
    (text ++ rest).takeWhile p = text ∧ (text ++ rest).dropWhile p = rest := by
  rw [List.takeWhile_append_of_pos htext, List.dropWhile_append_of_pos htext]
  cases rest with
  | nil => exact ⟨List.append_nil text, rfl⟩
  | cons c rest => simp [hrest c rfl]

theorem Separated.isDigit_eq_false {rest : List Char} (h : Separated rest) :
    ∀ c ∈ rest.head?, c.isDigit = false ∧ c ≠ '.' := by
  intro c hc
  obtain ⟨hname, hpoint⟩ := h c hc
  refine ⟨Bool.eq_false_iff.mpr fun hdigit => ?_, hpoint⟩
  exact Bool.false_ne_true (hname.symm.trans (isNameChar_of_isDigit hdigit))

namespace Lexeme

theorem read_of_delimiter? {c : Char} {kind : Kind} (h : delimiter? c = some kind)
    (rest : List Char) : read c rest = (token kind [c], rest) := by
  have hstart : isNameStart c = false ∧ c.isDigit = false := by
    unfold delimiter? at h
    split at h <;> first | exact ⟨rfl, rfl⟩ | cases h
  simp [read, hstart, h]

/-- Digits are read as an integer up to what is neither a digit nor a point. -/
theorem readNumber_digits {digits rest : List Char} (h : ∀ d ∈ digits, d.isDigit)
    (hrest : ∀ c ∈ rest.head?, c.isDigit = false ∧ c ≠ '.') :
    readNumber (digits ++ rest) =
      (token (.number (.int (decimalValue digits))) digits, rest) := by
  obtain ⟨htake, hdrop⟩ := takeWhile_append_of_stops h fun c hc => (hrest c hc).1
  rw [readNumber, htake, hdrop]
  cases rest with
  | nil => rfl
  | cons d rest =>
      have hpoint : d ≠ '.' := (hrest d rfl).2
      split
      · rename_i hd
        cases hd
        exact absurd rfl hpoint
      · rfl

/-- Digits with a point are read up to what is no digit. -/
theorem readNumber_point {whole fraction rest : List Char} (hwhole : ∀ d ∈ whole, d.isDigit)
    (hfraction : ∀ d ∈ fraction, d.isDigit) (hrest : ∀ c ∈ rest.head?, c.isDigit = false) :
    readNumber (whole ++ '.' :: (fraction ++ rest)) =
      (token (.number (.float (.ofDecimal (decimalValue (whole ++ fraction)) fraction.length)))
        (whole ++ '.' :: fraction), rest) := by
  obtain ⟨htake, hdrop⟩ := takeWhile_append_of_stops hfraction hrest
  have hpoint : ¬ Char.isDigit '.' := by decide
  rw [readNumber, List.takeWhile_append_of_pos hwhole, List.dropWhile_append_of_pos hwhole,
    List.takeWhile_cons_of_neg hpoint, List.dropWhile_cons_of_neg hpoint, List.append_nil]
  simp only [htake, hdrop]

/-- A name is read up to its end, where it is separated from what follows. -/
theorem read_of_isName {c : Char} {name rest : List Char} (h : isName (c :: name))
    (hrest : Separated rest) :
    read c (name ++ rest) = (token (wordKind (c :: name)) (c :: name), rest) := by
  obtain ⟨hstart, hname⟩ := isName_cons.mp h
  have hchars : ∀ d ∈ c :: name, isNameChar d :=
    List.forall_mem_cons.mpr ⟨isNameChar_of_isNameStart hstart, hname⟩
  obtain ⟨htake, hdrop⟩ := takeWhile_append_of_stops hchars fun d hd => (hrest d hd).1
  rw [read, if_pos hstart, readName, ← List.cons_append, htake, hdrop]

theorem read_of_isDigit {c : Char} (h : c.isDigit) (rest : List Char) :
    read c rest = readNumber (c :: rest) := by
  rw [read, isNameStart_of_isDigit h, if_neg Bool.false_ne_true, if_pos h]

/-- Digits are read as an integer, where they are separated from what follows. -/
theorem read_of_digits {c : Char} {digits rest : List Char}
    (h : ∀ d ∈ c :: digits, d.isDigit) (hrest : Separated rest) :
    read c (digits ++ rest) =
      (token (.number (.int (decimalValue (c :: digits)))) (c :: digits), rest) := by
  obtain ⟨hdigit, -⟩ := List.forall_mem_cons.mp h
  rw [read_of_isDigit hdigit, ← List.cons_append, readNumber_digits h hrest.isDigit_eq_false]

/-- Digits with a point among or behind them are read as a floating-point number. -/
theorem read_of_point {c : Char} {whole fraction rest : List Char}
    (hwhole : ∀ d ∈ c :: whole, d.isDigit) (hfraction : ∀ d ∈ fraction, d.isDigit)
    (hrest : Separated rest) :
    read c (whole ++ '.' :: (fraction ++ rest)) =
      (token (.number (.float (.ofDecimal (decimalValue (c :: whole ++ fraction))
        fraction.length))) (c :: whole ++ '.' :: fraction), rest) := by
  obtain ⟨hdigit, -⟩ := List.forall_mem_cons.mp hwhole
  rw [read_of_isDigit hdigit, ← List.cons_append,
    readNumber_point hwhole hfraction fun d hd => (hrest.isDigit_eq_false d hd).1]

end Lexeme

namespace TokenStream

variable {p : Position} {c : Char} {text rest : List Char}

theorem ofChars_blank (h : isBlank c) : ofChars p (c :: text) = ofChars (p.advance c) text := by
  rcases hgap : spanGap text with ⟨gap, _ | ⟨d, rest⟩⟩
  · have hblank : spanGap (c :: text) = (c :: gap, []) := by rw [spanGap_of_blank h, hgap]
    rw [ofChars_of_nil hblank, ofChars_of_nil hgap]
    rfl
  · have hblank : spanGap (c :: text) = (c :: gap, d :: rest) := by rw [spanGap_of_blank h, hgap]
    rw [ofChars_of_cons hblank, ofChars_of_cons hgap]
    rfl

/-- A token at the beginning of a text is the first of its items. -/
theorem ofChars_of_read {kind : Kind} {literal : List Char}
    (hgap : spanGap (c :: text) = ([], c :: text))
    (hread : Lexeme.read c text = (.token kind literal, rest)) :
    ofChars p (c :: text) =
      (ofChars (p.after literal) rest).prepend [⟨kind, String.ofList literal, p⟩] := by
  rw [ofChars_of_cons hgap, hread]
  rfl

/-- A delimiter that begins no comment is read, whatever follows it. -/
theorem ofChars_delimiter {kind : Kind} (h : Lexeme.delimiter? c = some kind)
    (hslash : c = '/' → rest.head? ≠ some '/') :
    ofChars p (c :: rest) = (ofChars (p.advance c) rest).prepend [⟨kind, String.ofList [c], p⟩] :=
  ofChars_of_read (spanGap_of_lexeme (isBlank_of_delimiter? h) hslash)
    (Lexeme.read_of_delimiter? h rest)

theorem spanGap_of_isNameChar (h : isNameChar c) : spanGap (c :: text) = ([], c :: text) :=
  spanGap_of_lexeme (isBlank_of_isNameChar h) fun hslash =>
    absurd hslash (ne_slash_of_isNameChar h)

/-- A name ends where the text is separated from it. -/
theorem ofChars_name {name : List Char} (h : isName name) (hrest : Separated rest) :
    ofChars p (name ++ rest) = (ofChars (p.after name) rest).prepend
      [⟨Lexeme.wordKind name, String.ofList name, p⟩] := by
  cases name with
  | nil => cases h
  | cons c name =>
      have hc : isNameChar c := Lexeme.isNameChar_of_isNameStart (isName_cons.mp h).1
      exact ofChars_of_read (spanGap_of_isNameChar hc) (Lexeme.read_of_isName h hrest)

/-- An integer ends where the text is separated from it. -/
theorem ofChars_digits {digits : List Char} (hne : digits ≠ []) (h : ∀ d ∈ digits, d.isDigit)
    (hrest : Separated rest) :
    ofChars p (digits ++ rest) = (ofChars (p.after digits) rest).prepend
      [⟨.number (.int (Lexeme.decimalValue digits)), String.ofList digits, p⟩] := by
  cases digits with
  | nil => exact absurd rfl hne
  | cons c digits =>
      have hc : isNameChar c := isNameChar_of_isDigit (h c List.mem_cons_self)
      exact ofChars_of_read (spanGap_of_isNameChar hc) (Lexeme.read_of_digits h hrest)

/-- A number with a point ends where the text is separated from it. -/
theorem ofChars_point {whole fraction : List Char} (hne : whole ≠ [])
    (hwhole : ∀ d ∈ whole, d.isDigit) (hfraction : ∀ d ∈ fraction, d.isDigit)
    (hrest : Separated rest) :
    ofChars p (whole ++ '.' :: fraction ++ rest) =
      (ofChars (p.after (whole ++ '.' :: fraction)) rest).prepend
        [⟨.number (.float (.ofDecimal (Lexeme.decimalValue (whole ++ fraction)) fraction.length)),
          String.ofList (whole ++ '.' :: fraction), p⟩] := by
  cases whole with
  | nil => exact absurd rfl hne
  | cons c whole =>
      have hc : isNameChar c := isNameChar_of_isDigit (hwhole c List.mem_cons_self)
      rw [List.append_assoc]
      exact ofChars_of_read (spanGap_of_isNameChar hc)
        (Lexeme.read_of_point hwhole hfraction hrest)

end TokenStream

/-- No token of a text is the end of input. -/
theorem Lexeme.read_kind_ne {c : Char} {rest literal : List Char} {kind : Kind}
    (h : (Lexeme.read c rest).1 = .token kind literal) : kind ≠ .endOfInput := by
  rintro rfl
  simp only [read, readName, readNumber, wordKind] at h
  split at h
  · split at h
    · cases h
    · split at h <;> cases h
  · split at h
    · split at h <;> cases h
    · split at h
      · rename_i kind hd
        obtain ⟨rfl, -⟩ := Lexeme.token.inj h
        unfold delimiter? at hd
        split at hd <;> cases hd
      · cases h

/-- Every token of a text is read where some character begins it. -/
theorem TokenStream.exists_read_of_mem {p : Position} {text : List Char} {t : Token}
    (h : .token t ∈ (ofChars p text).items) :
    ∃ c rest, (Lexeme.read c rest).1 = .token t.kind t.literal.toList := by
  induction p, text using ofChars.induct with
  | case1 p text gap hgap =>
      rw [ofChars_of_nil hgap] at h
      cases h
  | case2 p text gap c rest hgap place lexeme ih =>
      rw [ofChars_of_cons hgap] at h
      rcases List.mem_cons.mp h with h | h
      · refine ⟨c, rest, ?_⟩
        cases hread : (Lexeme.read c rest).1 with
        | token kind literal =>
            rw [hread] at h
            cases h
            rw [String.toList_ofList]
        | illegal c =>
            rw [hread] at h
            cases h
      · exact ih h

/-- The end of input is not among the items of a text, it only stands behind them. -/
theorem TokenStream.kind_ne_of_mem_ofChars {p : Position} {text : List Char} {t : Token}
    (h : .token t ∈ (ofChars p text).items) : t.kind ≠ .endOfInput := by
  obtain ⟨_, _, hread⟩ := exists_read_of_mem h
  exact Lexeme.read_kind_ne hread

end Reckoner
