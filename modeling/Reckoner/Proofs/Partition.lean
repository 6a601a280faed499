import Reckoner.Proofs.Delivery

/-!
# A text is the sequence of its items and gaps

Reading a text loses nothing of it: the texts of the items, with gaps between them, make up the
text. A gap consists of blanks and comments. Names and numbers are the longest that stand at their
place, and a character is illegal if neither a token nor a gap begins with it.
-/

namespace Reckoner

/-- Whether a text that stands before `rest` consists of blanks and comments. A comment ends before
the next line feed or at the end of the text. -/
inductive IsGap : List Char → List Char → Prop
  | nil {rest : List Char} : IsGap [] rest
  | blank {c : Char} {gap rest : List Char} (hc : c ∈ [' ', '\t', '\r', '\n'])
      (h : IsGap gap rest) : IsGap (c :: gap) rest
  | comment {body gap rest : List Char} (hbody : '\n' ∉ body)
      (hend : ∀ c ∈ (gap ++ rest).head?, c = '\n') (h : IsGap gap rest) :
      IsGap ('/' :: '/' :: body ++ gap) rest

/-- Whether a text consists of digits, behind which there may be a point and more digits. -/
def IsNumeral (text : List Char) : Prop :=
  ∃ whole, whole ≠ [] ∧ (∀ c ∈ whole, c.isDigit) ∧
    (text = whole ∨ ∃ fraction, text = whole ++ '.' :: fraction ∧ ∀ c ∈ fraction, c.isDigit)

/-- Whether a text consists of one of the characters that are tokens by themselves. -/
def IsSign (text : List Char) (kind : Kind) : Prop :=
  ∃ c, text = [c] ∧ Lexeme.delimiter? c = some kind

/-- Whether a text that stands before `rest` has a property, and nothing longer that begins where it
begins has it. -/
def IsLongest (P : List Char → Prop) (text rest : List Char) : Prop :=
  P text ∧ ∀ longer, longer <+: text ++ rest → P longer → longer.length ≤ text.length

/-- Whether neither a token nor a gap begins with a character. -/
def BeginsNothing (c : Char) : Prop :=
  ∀ text, ¬ isName (c :: text) ∧ ¬ IsNumeral (c :: text) ∧ (∀ kind, ¬ IsSign (c :: text) kind) ∧
    ∀ rest, ¬ IsGap (c :: text) rest

/-- Whether a token that stands before `rest` has the kind and the length that its text asks for. -/
structure Token.IsLexed (t : Token) (rest : List Char) : Prop where
  number : ∀ value, t.kind = .number value → IsLongest IsNumeral t.literal.toList rest
  name : t.kind ∈ [.identifier, .letKeyword, .printKeyword] →
    IsLongest (isName ·) t.literal.toList rest
  let_iff : t.kind = .letKeyword ↔ t.literal = "let"
  print_iff : t.kind = .printKeyword ↔ t.literal = "print"
  sign : (∀ value, t.kind ≠ .number value) → t.kind ∉ [.identifier, .letKeyword, .printKeyword] →
    IsSign t.literal.toList t.kind
  slash : t.kind = .slash → rest.head? ≠ some '/'

/-- The text of an item. -/
def Item.chars : Item → List Char
  | token t => t.literal.toList
  | illegal error => [error.char]

/-- Whether an item is right where it stands, before `rest`. -/
def Item.IsLexed (rest : List Char) : Item → Prop
  | token t => t.IsLexed rest
  | illegal error => BeginsNothing error.char

/-- Whether a text consists of the given items, with gaps before, between and behind them. -/
inductive Partitions : List Char → List Item → Prop
  | finish {gap : List Char} (h : IsGap gap []) : Partitions gap []
  | item {gap rest : List Char} {item : Item} {items : List Item}
      (hgap : IsGap gap (item.chars ++ rest)) (hitem : item.IsLexed rest)
      (hrest : Partitions rest items) : Partitions (gap ++ item.chars ++ rest) (item :: items)

/-! ## Gaps -/

theorem mem_blanks_iff {c : Char} : c ∈ [' ', '\t', '\r', '\n'] ↔ isBlank c := by
  simp [isBlank, or_assoc]

/-- Behind a comment the text ends or the line does. -/
theorem eq_of_mem_head?_dropWhile {text : List Char} {c : Char}
    (h : c ∈ (text.dropWhile (· != '\n')).head?) : c = '\n' := by
  have hstop := List.head?_dropWhile_not (· != '\n') text
  rw [Option.mem_def] at h
  rw [h] at hstop
  simpa using hstop

/-- What precedes an item is a gap. -/
theorem isGap_spanGap (text : List Char) : IsGap (spanGap text).1 (spanGap text).2 := by
  induction hn : text.length using Nat.strong_induction_on generalizing text with
  | h n ih =>
      cases text with
      | nil => exact .nil
      | cons c tail =>
          by_cases hblank : isBlank c
          · rw [spanGap_of_blank hblank]
            exact .blank (mem_blanks_iff.mpr hblank) (ih tail.length (by simp [← hn]) tail rfl)
          · by_cases hslash : (c == '/' && tail.head? == some '/') = true
            · obtain ⟨rfl, body, rfl⟩ := beginsComment_iff.mp hslash
              have hlength := (List.dropWhile_suffix (l := body) (· != '\n')).length_le
              have hrest := ih (body.dropWhile (· != '\n')).length (by simp [← hn]; omega) _ rfl
              rw [spanGap_of_comment]
              apply IsGap.comment (notMem_takeWhile rfl body) _ hrest
              rw [spanGap_append]
              exact fun d => eq_of_mem_head?_dropWhile
            · rw [spanGap_of_lexeme (Bool.eq_false_iff.mpr hblank)
                (head?_ne_of_not_beginsComment hslash)]
              exact .nil

/-- Where a gap ends no further gap begins. -/
theorem spanGapFrom_snd_cons {comment : Bool} {text gap rest : List Char} {c : Char}
    (h : spanGapFrom comment text = (gap, c :: rest)) :
    isBlank c = false ∧ (c = '/' → rest.head? ≠ some '/') := by
  fun_induction spanGapFrom comment text generalizing gap with
  | case1 => cases h
  | case2 _ _ _ _ hspan ih =>
      obtain ⟨-, rfl⟩ := Prod.mk.inj h
      exact ih hspan
  | case3 _ _ _ _ _ _ _ hspan ih =>
      obtain ⟨-, rfl⟩ := Prod.mk.inj h
      exact ih hspan
  | case4 _ _ _ _ _ _ _ _ hspan ih =>
      obtain ⟨-, rfl⟩ := Prod.mk.inj h
      exact ih hspan
  | case5 _ _ _ _ hblank hslash =>
      obtain ⟨rfl, rfl⟩ := List.cons.inj (Prod.mk.inj h).2
      exact ⟨Bool.eq_false_iff.mpr hblank, head?_ne_of_not_beginsComment hslash⟩

/-! ## Names and numbers -/

theorem prefix_takeWhile {p : Char → Bool} {front text : List Char} (h : front <+: text)
    (hfront : ∀ c ∈ front, p c) : front <+: text.takeWhile p := by
  obtain ⟨rest, rfl⟩ := h
  rw [List.takeWhile_append_of_pos hfront]
  exact List.prefix_append front _

theorem IsNumeral.exists_cons {text : List Char} (h : IsNumeral text) :
    ∃ c tail, text = c :: tail ∧ c.isDigit := by
  obtain ⟨_ | ⟨c, whole⟩, hne, hwhole, hcase⟩ := h
  · exact absurd rfl hne
  · obtain ⟨hc, -⟩ := List.forall_mem_cons.mp hwhole
    obtain rfl | ⟨fraction, rfl, -⟩ := hcase
    · exact ⟨c, whole, rfl, hc⟩
    · exact ⟨c, _, rfl, hc⟩

/-- Without a point the number ends with the digits. -/
theorem isLongest_whole {text : List Char} (hne : text.takeWhile Char.isDigit ≠ [])
    (hpoint : ∀ rest, text.dropWhile Char.isDigit ≠ '.' :: rest) :
    IsLongest IsNumeral (text.takeWhile Char.isDigit) (text.dropWhile Char.isDigit) := by
  refine ⟨⟨_, hne, List.all_eq_true.mp List.all_takeWhile, .inl rfl⟩, ?_⟩
  rw [List.takeWhile_append_dropWhile]
  rintro longer ⟨rest, rfl⟩ ⟨whole, -, hwhole, rfl | ⟨fraction, rfl, -⟩⟩
  · exact (prefix_takeWhile (List.prefix_append _ _) hwhole).length_le
  · refine absurd ?_ (hpoint (fraction ++ rest))
    rw [List.append_assoc, List.dropWhile_append_of_pos hwhole]
    rfl

/-- With a point the number ends with the digits behind the point. In any numeral the point is the
first character that is no digit. -/
theorem isLongest_fraction {text rest : List Char} (hne : text.takeWhile Char.isDigit ≠ [])
    (hpoint : text.dropWhile Char.isDigit = '.' :: rest) :
    IsLongest IsNumeral (text.takeWhile Char.isDigit ++ '.' :: rest.takeWhile Char.isDigit)
      (rest.dropWhile Char.isDigit) := by
  have htext : text.takeWhile Char.isDigit ++ '.' :: rest.takeWhile Char.isDigit ++
      rest.dropWhile Char.isDigit = text := by
    rw [List.append_assoc, List.cons_append, List.takeWhile_append_dropWhile, ← hpoint,
      List.takeWhile_append_dropWhile]
  refine ⟨⟨_, hne, List.all_eq_true.mp List.all_takeWhile,
    .inr ⟨_, rfl, List.all_eq_true.mp List.all_takeWhile⟩⟩, ?_⟩
  rw [htext]
  rintro longer hlonger ⟨whole, -, hwhole, rfl | ⟨fraction, rfl, hfraction⟩⟩
  · have := (prefix_takeWhile hlonger hwhole).length_le
    simp only [List.length_append]
    omega
  · obtain ⟨further, rfl⟩ := hlonger
    rw [List.append_assoc, List.dropWhile_append_of_pos hwhole, List.cons_append] at hpoint
    obtain rfl : fraction ++ further = rest := (List.cons.inj hpoint).2
    have hlength := (prefix_takeWhile (List.prefix_append fraction further) hfraction).length_le
    rw [List.append_assoc, List.takeWhile_append_of_pos hwhole]
    simp only [List.length_append, List.length_cons]
    omega

theorem isNameChar_of_isName {text : List Char} (h : isName text) : ∀ c ∈ text, isNameChar c := by
  cases text with
  | nil => cases h
  | cons c text =>
      obtain ⟨hc, htext⟩ := isName_cons.mp h
      exact List.forall_mem_cons.mpr ⟨Lexeme.isNameChar_of_isNameStart hc, htext⟩

/-- A name ends before the first character that continues no name. -/
theorem isLongest_name {c : Char} (h : isNameStart c) (rest : List Char) :
    IsLongest (isName ·) ((c :: rest).takeWhile isNameChar) ((c :: rest).dropWhile isNameChar) := by
  constructor
  · rw [List.takeWhile_cons_of_pos (Lexeme.isNameChar_of_isNameStart h)]
    exact isName_cons.mpr ⟨h, List.all_eq_true.mp List.all_takeWhile⟩
  · intro longer hlonger hname
    rw [List.takeWhile_append_dropWhile] at hlonger
    exact (prefix_takeWhile hlonger (isNameChar_of_isName hname)).length_le

/-! ## Tokens -/

theorem Lexeme.wordKind_mem (name : List Char) :
    wordKind name ∈ [.identifier, .letKeyword, .printKeyword] := by
  unfold wordKind
  split
  · simp
  · split <;> simp

theorem Lexeme.wordKind_eq_iff (name : List Char) :
    (wordKind name = .letKeyword ↔ String.ofList name = "let") ∧
      (wordKind name = .printKeyword ↔ String.ofList name = "print") := by
  unfold wordKind
  simp only [← String.toList_inj, String.toList_ofList]
  split
  · simp [*]
  · split <;> simp [*]

/-- A text that begins like no name is no keyword. -/
theorem ofList_ne_of_isName {c : Char} (h : isNameStart c = false) (text : List Char)
    {word : String} (hword : isName word.toList) : String.ofList (c :: text) ≠ word := by
  rintro rfl
  simp [isName, h] at hword

theorem isNameStart_of_delimiter? {c : Char} {kind : Kind} (h : Lexeme.delimiter? c = some kind) :
    isNameStart c = false := by
  unfold Lexeme.delimiter? at h
  split at h <;> first | rfl | cases h

/-- A character that is a token by itself is no number, no word and not the end of input. -/
theorem Lexeme.kind_of_delimiter? {c : Char} {kind : Kind} (h : delimiter? c = some kind) :
    (∀ value, kind ≠ .number value) ∧ kind ∉ [.identifier, .letKeyword, .printKeyword] ∧
      kind ≠ .endOfInput := by
  unfold delimiter? at h
  split at h <;> cases h <;> simp

/-- Only a number is read as a number. -/
theorem Lexeme.readNumber_of_read {c : Char} {rest literal : List Char} {n : Number}
    (h : (read c rest).1 = .token (.number n) literal) :
    (readNumber (c :: rest)).1 = .token (.number n) literal := by
  simp only [read] at h
  split at h
  · have hword := wordKind_mem ((c :: rest).takeWhile isNameChar)
    have hkind : wordKind _ = .number n := (token.inj h).1
    simp [hkind] at hword
  · split at h
    · exact h
    · split at h
      · rename_i hkind
        cases h
        exact absurd rfl ((kind_of_delimiter? hkind).1 n)
      · cases h

/-- Different characters are tokens of different kinds. -/
theorem Lexeme.eq_of_delimiter? {c d : Char} {kind : Kind} (hc : delimiter? c = some kind)
    (hd : delimiter? d = some kind) : c = d := by
  unfold delimiter? at hc hd
  split at hc <;> cases hc <;> split at hd <;> first | rfl | cases hd

namespace Token

variable {p : Position} {rest : List Char}

theorem isLexed_name {name : List Char} (h : IsLongest (isName ·) name rest) :
    IsLexed ⟨Lexeme.wordKind name, String.ofList name, p⟩ rest where
  number value hvalue := by
    have hkind := Lexeme.wordKind_mem name
    simp_all
  name _ := by simpa using h
  let_iff := (Lexeme.wordKind_eq_iff name).1
  print_iff := (Lexeme.wordKind_eq_iff name).2
  sign _ hkind := absurd (Lexeme.wordKind_mem name) hkind
  slash hslash := by
    have hkind := Lexeme.wordKind_mem name
    simp_all

theorem isLexed_number {value : Number} {text : List Char} (h : IsLongest IsNumeral text rest) :
    IsLexed ⟨.number value, String.ofList text, p⟩ rest := by
  obtain ⟨c, tail, rfl, hc⟩ := h.1.exists_cons
  have hstart := isNameStart_of_isDigit hc
  exact {
    number := fun _ _ => by simpa using h
    name := fun hkind => by simp at hkind
    let_iff := iff_of_false Kind.noConfusion (ofList_ne_of_isName hstart tail (by decide))
    print_iff := iff_of_false Kind.noConfusion (ofList_ne_of_isName hstart tail (by decide))
    sign := fun hkind => absurd rfl (hkind value)
    slash := Kind.noConfusion }

theorem isLexed_sign {c : Char} {kind : Kind} (h : Lexeme.delimiter? c = some kind)
    (hslash : c = '/' → rest.head? ≠ some '/') : IsLexed ⟨kind, String.ofList [c], p⟩ rest := by
  have hstart := isNameStart_of_delimiter? h
  obtain ⟨hnumber, hword, -⟩ := Lexeme.kind_of_delimiter? h
  simp only [List.mem_cons, List.not_mem_nil, or_false, not_or] at hword
  exact {
    number := fun value hkind => absurd hkind (hnumber value)
    name := fun hkind => by simp_all
    let_iff := iff_of_false hword.2.1 (ofList_ne_of_isName hstart [] (by decide))
    print_iff := iff_of_false hword.2.2 (ofList_ne_of_isName hstart [] (by decide))
    sign := fun _ _ => ⟨c, by simp, h⟩
    slash := fun hkind => hslash (Lexeme.eq_of_delimiter? (hkind ▸ h) rfl) }

end Token

/-- No token and no gap begins with a character that is none of those they begin with. -/
theorem beginsNothing {c : Char} (hblank : isBlank c = false) (hstart : isNameStart c = false)
    (hdigit : c.isDigit = false) (hsign : Lexeme.delimiter? c = none) : BeginsNothing c := by
  intro text
  refine ⟨fun hname => ?_, fun hnumeral => ?_, ?_, ?_⟩
  · rw [isName_cons, hstart] at hname
    exact Bool.noConfusion hname.1
  · obtain ⟨d, tail, hcons, hd⟩ := hnumeral.exists_cons
    rw [← (List.cons.inj hcons).1, hdigit] at hd
    exact Bool.noConfusion hd
  · rintro kind ⟨d, hcons, hd⟩
    rw [← (List.cons.inj hcons).1, hsign] at hd
    cases hd
  · rintro rest hgap
    cases hgap with
    | blank hc =>
        rw [mem_blanks_iff, hblank] at hc
        exact Bool.noConfusion hc
    | comment => cases hsign

theorem Lexeme.chars_item (lexeme : Lexeme) (p : Position) :
    (lexeme.item p).chars = lexeme.chars := by
  cases lexeme with
  | token kind literal => exact String.toList_ofList
  | illegal c => rfl

/-- What is read behind a gap is right where it stands. -/
theorem Lexeme.isLexed_read {c : Char} {rest : List Char} (p : Position)
    (hblank : isBlank c = false) (hslash : c = '/' → rest.head? ≠ some '/') :
    ((read c rest).1.item p).IsLexed (read c rest).2 := by
  simp only [read]
  split
  · exact Token.isLexed_name (isLongest_name ‹_› rest)
  · rename_i hstart
    split
    · rename_i hdigit
      have hne : (c :: rest).takeWhile Char.isDigit ≠ [] := by simp [hdigit]
      simp only [readNumber]
      split
      · exact Token.isLexed_number (isLongest_fraction hne ‹_›)
      · exact Token.isLexed_number (isLongest_whole hne ‹_›)
    · rename_i hdigit
      split
      · exact Token.isLexed_sign ‹_› hslash
      · exact beginsNothing hblank (Bool.eq_false_iff.mpr hstart) (Bool.eq_false_iff.mpr hdigit) ‹_›

/-! ## The text as a whole -/

theorem partitions_ofChars (p : Position) (text : List Char) :
    Partitions text (TokenStream.ofChars p text).items := by
  induction p, text using TokenStream.ofChars.induct with
  | case1 p text gap hgap =>
      have hisGap := isGap_spanGap text
      rw [hgap] at hisGap
      rw [TokenStream.ofChars_of_nil hgap, ← eq_of_spanGap_nil hgap]
      exact .finish hisGap
  | case2 p text gap c rest hgap place lexeme ih =>
      have hisGap := isGap_spanGap text
      obtain ⟨hblank, hslash⟩ := spanGapFrom_snd_cons hgap
      rw [hgap, ← Lexeme.read_append, ← Lexeme.chars_item _ place] at hisGap
      rw [TokenStream.ofChars_of_cons hgap, ← append_eq_of_spanGap hgap,
        ← Lexeme.chars_item _ place, ← List.append_assoc]
      exact .item hisGap (Lexeme.isLexed_read place hblank hslash) ih

theorem Partitions.isLexed_of_mem {text : List Char} {items : List Item} (h : Partitions text items)
    {item : Item} (hitem : item ∈ items) : ∃ rest, item.IsLexed rest := by
  induction h with
  | finish _ => cases hitem
  | item _ hfirst _ ih =>
      cases List.mem_cons.mp hitem with
      | inl heq =>
          subst heq
          exact ⟨_, hfirst⟩
      | inr hrest => exact ih hrest

theorem TokenStream.map_item_range (stream : TokenStream) :
    (List.range (stream.items.length + 1)).map stream.item = stream.sequence := by
  apply List.ext_getElem
  · simp [sequence]
  · intro k _ _
    simp only [List.getElem_map, List.getElem_range, item, sequence, List.getElem_append,
      List.getD_eq_getElem?_getD]
    split
    · rw [List.getElem?_eq_getElem ‹_›, Option.getD_some]
    · rw [List.getElem?_eq_none (Nat.le_of_not_lt ‹_›), Option.getD_none, List.getElem_singleton]

/-- Asking a lexer for the next token again and again, up to the end of input, yields items that
make up the text together with the gaps between them. -/
theorem Lexer.partitions_next (source : String) :
    ((ofString source).callAll
        (List.replicate ((TokenStream.ofString source).items.length + 1) .next)).1.map Prod.snd =
      (TokenStream.ofString source).sequence.map (fun item => .result item.result) ∧
        Partitions source.toList (TokenStream.ofString source).items := by
  refine ⟨?_, partitions_ofChars .start source.toList⟩
  rw [(stands_ofString source).callAll_replicate_next, ← TokenStream.map_item_range,
    List.range_eq_range', List.map_map, List.map_map]
  rfl

end Reckoner
