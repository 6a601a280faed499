import Reckoner.Lexer
import Reckoner.Proofs.Lexing

/-!
# Scanning yields the items one by one

Scanning a text yields the first of its items and leaves a place and a text that have the others.
The place is right although comments and lexemes are skipped at once, because no line feed stands in
them.
-/

namespace Reckoner

namespace TokenStream

/-- The `n`-th item of a stream. Behind the last one this is the end of input, however often. -/
def item (stream : TokenStream) (n : Nat) : Item :=
  stream.items.getD n (.token stream.endToken)

/-- A stream without its first `n` items. -/
def drop (n : Nat) (stream : TokenStream) : TokenStream :=
  ⟨stream.items.drop n, stream.finish⟩

theorem drop_drop (m n : Nat) (stream : TokenStream) :
    (stream.drop n).drop m = stream.drop (n + m) := by
  simp [drop]

/-- Behind the items of a stream there is only the end of input. -/
theorem item_cases (stream : TokenStream) (n : Nat) :
    stream.item n ∈ stream.items ∨ stream.item n = .token stream.endToken := by
  rw [item, List.getD_eq_getElem?_getD]
  cases hn : stream.items[n]? with
  | none => exact .inr rfl
  | some found => exact .inl (List.mem_of_getElem? hn)

theorem item_drop (m n : Nat) (stream : TokenStream) :
    (stream.drop n).item m = stream.item (n + m) := by
  simp [item, drop, endToken]

end TokenStream

namespace Reading

/-- Taking the next token is taking the first item. -/
theorem on_next_eq (stream : TokenStream) :
    next.on stream = ((stream.item 0).result, stream.drop 1) := by
  rw [on_next]
  rcases stream with ⟨_ | ⟨_ | _, _⟩, finish⟩ <;> rfl

theorem on_peek_of_token {stream : TokenStream} {t : Token} (h : stream.item 0 = .token t) :
    peek.on stream = (.ok t, stream) := by
  rw [on_peek]
  rcases stream with ⟨_ | ⟨_ | _, _⟩, finish⟩ <;> cases h <;> rfl

theorem on_peek_of_illegal {stream : TokenStream} {error : IllegalCharacter}
    (h : stream.item 0 = .illegal error) :
    peek.on stream = (.error (.illegal error), stream.drop 1) := by
  rw [on_peek]
  rcases stream with ⟨_ | ⟨_ | _, _⟩, finish⟩ <;> cases h
  rfl

end Reading

theorem notMem_takeWhile {p : Char → Bool} {c : Char} (h : p c = false) (text : List Char) :
    c ∉ text.takeWhile p := by
  intro hmem
  have hc : p c = true := List.all_eq_true.mp List.all_takeWhile c hmem
  exact Bool.false_ne_true (h.symm.trans hc)

/-! ## Gaps -/

theorem eq_of_spanGap_nil {text gap : List Char} (h : spanGap text = (gap, [])) : gap = text := by
  have happ := spanGap_append text
  rwa [h, List.append_nil] at happ

/-- A gap, the lexeme behind it and what follows make up the text. -/
theorem append_eq_of_spanGap {text gap rest : List Char} {c : Char}
    (h : spanGap text = (gap, c :: rest)) :
    gap ++ ((Lexeme.read c rest).1.chars ++ (Lexeme.read c rest).2) = text := by
  have happ := spanGap_append text
  rwa [h, ← Lexeme.read_append] at happ

/-- A comment ends before the first line feed. -/
theorem spanGapFrom_true (text : List Char) :
    spanGapFrom true text =
      (text.takeWhile (· != '\n') ++ (spanGap (text.dropWhile (· != '\n'))).1,
        (spanGap (text.dropWhile (· != '\n'))).2) := by
  induction text with
  | nil => rfl
  | cons c text ih =>
      by_cases hc : c = '\n'
      · subst hc
        rfl
      · have hne : (c != '\n') = true := by simpa using hc
        rw [spanGapFrom, List.takeWhile_cons, List.dropWhile_cons]
        simp [hne, ih]

/-- A comment belongs to the gap, and so does the gap behind its line. -/
theorem spanGap_of_comment (text : List Char) :
    spanGap ('/' :: '/' :: text) =
      ('/' :: ('/' :: text).takeWhile (· != '\n') ++
          (spanGap (('/' :: text).dropWhile (· != '\n'))).1,
        (spanGap (('/' :: text).dropWhile (· != '\n'))).2) := by
  rw [spanGap, spanGapFrom, spanGapFrom_true]
  rfl

namespace TokenStream

variable {p : Position}

/-- A part of the gap at the beginning of a text can be left out. -/
theorem ofChars_of_gap {text front rest : List Char}
    (h : spanGap text = (front ++ (spanGap rest).1, (spanGap rest).2)) :
    ofChars p text = ofChars (p.after front) rest := by
  rcases hgap : spanGap rest with ⟨gap, _ | ⟨c, tail⟩⟩
  · rw [hgap] at h
    rw [ofChars_of_nil h, ofChars_of_nil hgap, Position.after_append]
  · rw [hgap] at h
    rw [ofChars_of_cons h, ofChars_of_cons hgap, Position.after_append]

/-- A comment is skipped at once, up to the end of its line. -/
theorem ofChars_comment (text : List Char) :
    ofChars p ('/' :: '/' :: text) =
      ofChars ((p.advance '/').skip (('/' :: text).takeWhile (· != '\n')))
        (('/' :: text).dropWhile (· != '\n')) := by
  have hfeed : '\n' ∉ ('/' :: text).takeWhile (· != '\n') := notMem_takeWhile rfl _
  rw [ofChars_of_gap (spanGap_of_comment text), Position.skip_eq_after hfeed, Position.after_cons]

end TokenStream

/-! ## Lexemes -/

namespace Lexeme

theorem exists_chars_readName {c : Char} (h : isNameStart c) (rest : List Char) :
    ∃ tail, (readName (c :: rest)).1.chars = c :: tail ∧ '\n' ∉ tail := by
  refine ⟨rest.takeWhile isNameChar, ?_, notMem_takeWhile rfl rest⟩
  simp [readName, chars, isNameChar_of_isNameStart h]

theorem exists_chars_readNumber {c : Char} (h : c.isDigit) (rest : List Char) :
    ∃ tail, (readNumber (c :: rest)).1.chars = c :: tail ∧ '\n' ∉ tail := by
  have hwhole := @notMem_takeWhile Char.isDigit '\n' rfl rest
  simp only [readNumber, List.takeWhile_cons, h, if_true]
  split
  · rename_i fraction _
    have hfraction := @notMem_takeWhile Char.isDigit '\n' rfl fraction
    refine ⟨_, rfl, ?_⟩
    simp [hwhole, hfraction]
  · exact ⟨_, rfl, hwhole⟩

/-- A lexeme begins with the character that it is read at, and no line feed follows in it. -/
theorem exists_chars_read (c : Char) (rest : List Char) :
    ∃ tail, (read c rest).1.chars = c :: tail ∧ '\n' ∉ tail := by
  simp only [read]
  split
  · exact exists_chars_readName ‹_› rest
  · split
    · exact exists_chars_readNumber ‹_› rest
    · split <;> exact ⟨[], rfl, by simp⟩

/-- No lexeme has a line feed behind its first character, so it can be skipped at once. -/
theorem skip_tail_chars_read (p : Position) (c : Char) (rest : List Char) :
    (p.advance c).skip (read c rest).1.chars.tail = p.after (read c rest).1.chars := by
  obtain ⟨tail, hchars, hfeed⟩ := exists_chars_read c rest
  rw [hchars, List.tail_cons, Position.skip_eq_after hfeed, Position.after_cons]

end Lexeme

/-! ## The next item -/

/-- Scanning a text yields its first item, and what it leaves has the other items. -/
theorem scan_eq (p : Position) (text : List Char) :
    (scan p text).1 = (TokenStream.ofChars p text).item 0 ∧
      TokenStream.ofChars (scan p text).2.1 (scan p text).2.2 =
        (TokenStream.ofChars p text).drop 1 := by
  fun_induction scan p text with
  | case1 p =>
      rw [@TokenStream.ofChars_of_nil p [] [] rfl]
      exact ⟨rfl, rfl⟩
  | case2 p c rest hblank ih => rwa [TokenStream.ofChars_blank hblank]
  | case3 p c rest _ hslash comment ih =>
      obtain ⟨rfl, tail, rfl⟩ := beginsComment_iff.mp hslash
      rwa [TokenStream.ofChars_comment]
  | case4 p c rest hblank hslash lexeme tail hread =>
      have hgap : spanGap (c :: rest) = ([], c :: rest) :=
        spanGap_of_lexeme (Bool.eq_false_iff.mpr hblank) (head?_ne_of_not_beginsComment hslash)
      have hskip := Lexeme.skip_tail_chars_read p c rest
      rw [hread] at hskip
      rw [TokenStream.ofChars_of_cons hgap, hread, hskip]
      exact ⟨rfl, rfl⟩

end Reckoner
