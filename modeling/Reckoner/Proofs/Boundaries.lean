import Reckoner.Proofs.Partition

/-!
# Boundaries between items

A lexer passes blanks, comments and lexemes one after another, and looks one character further at
most. So a text is read in two parts at every boundary between them. What follows a boundary can be
exchanged, as long as it begins alike or with a line feed, and the part before it is read as before.
-/

namespace Reckoner

/-- Whether reading a text that stands before `rest` passes blanks, comments and lexemes and comes
to `rest` behind the last of them. -/
inductive IsScanned : List Char → List Char → Prop
  | nil {rest : List Char} : IsScanned [] rest
  | blank {c : Char} {front rest : List Char} (hc : isBlank c) (h : IsScanned front rest) :
      IsScanned (c :: front) rest
  | comment {body front rest : List Char} (hbody : '\n' ∉ body)
      (hend : ∀ c ∈ (front ++ rest).head?, c = '\n') (h : IsScanned front rest) :
      IsScanned ('/' :: '/' :: body ++ front) rest
  | lexeme {c : Char} {tail front rest : List Char} (hblank : isBlank c = false)
      (hslash : c = '/' → (tail ++ (front ++ rest)).head? ≠ some '/')
      (hread : (Lexeme.read c (tail ++ (front ++ rest))).2 = front ++ rest)
      (h : IsScanned front rest) : IsScanned (c :: tail ++ front) rest

/-- Whether a text is empty, begins with a line feed or begins like another one. -/
def BeginsAlike (other text : List Char) : Prop :=
  ∀ c ∈ other.head?, c = '\n' ∨ c ∈ text.head?

section

variable {other rest : List Char}

theorem BeginsAlike.append (h : BeginsAlike other rest) (front : List Char) :
    BeginsAlike (front ++ other) (front ++ rest) := by
  cases front with
  | nil => exact h
  | cons c front => exact fun d hd => .inr hd

theorem beginsAlike_append (front rest : List Char) : BeginsAlike front (front ++ rest) := by
  cases front with
  | nil => exact fun d hd => by cases hd
  | cons c front => exact fun d hd => .inr hd

/-- What no text of a kind goes on with, it does not go on with behind an exchange either. -/
theorem BeginsAlike.forall_head? (h : BeginsAlike other rest) {P : Char → Prop} (hfeed : P '\n')
    (hrest : ∀ c ∈ rest.head?, P c) : ∀ c ∈ other.head?, P c := by
  intro c hc
  obtain rfl | hc := h c hc
  · exact hfeed
  · exact hrest c hc

theorem BeginsAlike.head?_ne_slash (h : BeginsAlike other rest) (front : List Char)
    (hslash : (front ++ rest).head? ≠ some '/') : (front ++ other).head? ≠ some '/' := by
  intro hhead
  obtain hfeed | hhead := h.append front '/' hhead
  · exact absurd hfeed (by decide)
  · exact hslash hhead

/-! ## Lexemes at a boundary -/

/-- Where a run of characters of one kind comes to `rest`, all before it are of the kind and it does
not go on. -/
theorem of_dropWhile_append {p : Char → Bool} {text : List Char}
    (h : (text ++ rest).dropWhile p = rest) :
    (∀ c ∈ text, p c) ∧ ∀ c ∈ rest.head?, p c = false := by
  have htake : (text ++ rest).takeWhile p = text := by
    have happ : (text ++ rest).takeWhile p ++ (text ++ rest).dropWhile p = text ++ rest :=
      List.takeWhile_append_dropWhile
    rw [h] at happ
    exact List.append_cancel_right happ
  constructor
  · intro c hc
    rw [← htake] at hc
    exact List.all_eq_true.mp List.all_takeWhile c hc
  · intro c hc
    have hstop := List.head?_dropWhile_not p (text ++ rest)
    rw [h, Option.mem_def.mp hc] at hstop
    simpa using hstop

namespace Lexeme

theorem readName_congr {text : List Char} (h : BeginsAlike other rest)
    (hread : (readName (text ++ rest)).2 = rest) :
    readName (text ++ other) = ((readName (text ++ rest)).1, other) := by
  obtain ⟨hall, hrest⟩ := of_dropWhile_append hread
  have hother := h.forall_head? (P := (isNameChar · = false)) rfl hrest
  rw [readName, readName, (takeWhile_append_of_stops hall hrest).1,
    (takeWhile_append_of_stops hall hother).1, (takeWhile_append_of_stops hall hother).2]

/-- A number at a boundary ends with digits, or with a point and perhaps more digits. -/
theorem readNumber_cases {text : List Char} (h : (readNumber (text ++ rest)).2 = rest) :
    ((∀ c ∈ text, c.isDigit) ∧ ∀ c ∈ rest.head?, c.isDigit = false ∧ c ≠ '.') ∨
      ∃ whole fraction, text = whole ++ '.' :: fraction ∧ (∀ c ∈ whole, c.isDigit) ∧
        (∀ c ∈ fraction, c.isDigit) ∧ ∀ c ∈ rest.head?, c.isDigit = false := by
  simp only [readNumber] at h
  split at h
  · rename_i behind hdrop
    right
    have hbehind : behind = behind.takeWhile Char.isDigit ++ rest := by
      rw [← h, List.takeWhile_append_dropWhile]
    obtain ⟨hfraction, hrest⟩ := of_dropWhile_append (hbehind ▸ h)
    refine ⟨(text ++ rest).takeWhile Char.isDigit, behind.takeWhile Char.isDigit, ?_,
      List.all_eq_true.mp List.all_takeWhile, hfraction, hrest⟩
    have htext : text ++ rest =
        (text ++ rest).takeWhile Char.isDigit ++ '.' :: behind.takeWhile Char.isDigit ++ rest := by
      rw [List.append_assoc, List.cons_append, ← hbehind, ← hdrop, List.takeWhile_append_dropWhile]
    exact List.append_cancel_right htext
  · rename_i hpoint
    left
    obtain ⟨hall, hrest⟩ := of_dropWhile_append h
    refine ⟨hall, fun c hc => ⟨hrest c hc, ?_⟩⟩
    rintro rfl
    obtain ⟨behind, rfl⟩ : ∃ behind, rest = '.' :: behind := List.head?_eq_some_iff.mp hc
    exact hpoint behind h

theorem readNumber_congr {text : List Char} (h : BeginsAlike other rest)
    (hread : (readNumber (text ++ rest)).2 = rest) :
    readNumber (text ++ other) = ((readNumber (text ++ rest)).1, other) := by
  obtain ⟨hall, hrest⟩ | ⟨whole, fraction, rfl, hwhole, hfraction, hrest⟩ := readNumber_cases hread
  · have hother := h.forall_head? (P := fun c => c.isDigit = false ∧ c ≠ '.') (by decide) hrest
    rw [readNumber_digits hall hrest, readNumber_digits hall hother]
  · have hother := h.forall_head? (P := (Char.isDigit · = false)) rfl hrest
    rw [List.append_assoc, List.append_assoc, List.cons_append, List.cons_append,
      readNumber_point hwhole hfraction hrest, readNumber_point hwhole hfraction hother]

/-- A lexeme that ends at a boundary is read in the same way whatever follows. A sign and an illegal
character end behind their one character in any case. -/
theorem read_congr {c : Char} {tail : List Char} (h : BeginsAlike other rest)
    (hread : (read c (tail ++ rest)).2 = rest) :
    read c (tail ++ other) = ((read c (tail ++ rest)).1, other) := by
  simp only [read, ← List.cons_append] at hread ⊢
  split
  · rename_i hstart
    rw [if_pos hstart] at hread
    exact readName_congr h hread
  · rename_i hstart
    rw [if_neg hstart] at hread
    split
    · rename_i hdigit
      rw [if_pos hdigit] at hread
      exact readNumber_congr h hread
    · rename_i hdigit
      rw [if_neg hdigit] at hread
      split at hread
      · obtain rfl : tail = [] := List.append_left_eq_self.mp hread
        rfl
      · obtain rfl : tail = [] := List.append_left_eq_self.mp hread
        rfl

/-- A lexeme that ends at a boundary consists of what stands before it. -/
theorem chars_read_of_snd_eq {c : Char} {tail : List Char}
    (hread : (read c (tail ++ rest)).2 = rest) : (read c (tail ++ rest)).1.chars = c :: tail := by
  have happ := read_append c (tail ++ rest)
  rw [hread, ← List.cons_append] at happ
  exact List.append_cancel_right happ

end Lexeme

end

namespace IsScanned

variable {front rest : List Char}

/-! ## Reading up to a boundary and on -/

theorem append {further : List Char} (h : IsScanned front (further ++ rest))
    (hfurther : IsScanned further rest) : IsScanned (front ++ further) rest := by
  generalize hbehind : further ++ rest = behind at h
  induction h with
  | nil => exact hfurther
  | blank hc _ ih => exact .blank hc (ih hbehind)
  | @comment body front _ hbody hend _ ih =>
      subst hbehind
      rw [← List.append_assoc] at hend
      rw [List.append_assoc]
      exact .comment hbody hend (ih rfl)
  | @lexeme c tail front _ hblank hslash hread _ ih =>
      subst hbehind
      rw [← List.append_assoc front] at hslash hread
      rw [List.append_assoc]
      exact .lexeme hblank hslash hread (ih rfl)

theorem of_isGap (h : IsGap front rest) : IsScanned front rest := by
  induction h with
  | nil => exact .nil
  | blank hc _ ih => exact .blank (mem_blanks_iff.mp hc) ih
  | comment hbody hend _ ih => exact .comment hbody hend ih

/-- What follows a boundary can be exchanged. -/
theorem congr {other : List Char} (h : IsScanned front rest) (hother : BeginsAlike other rest) :
    IsScanned front other := by
  induction h with
  | nil => exact .nil
  | blank hc _ ih => exact .blank hc (ih hother)
  | @comment body front rest hbody hend _ ih =>
      exact .comment hbody ((hother.append front).forall_head? rfl hend) (ih hother)
  | @lexeme c tail front rest hblank hslash hread _ ih =>
      have halike := hother.append front
      exact .lexeme hblank (fun hc => halike.head?_ne_slash tail (hslash hc))
        (congrArg Prod.snd (Lexeme.read_congr halike hread)) (ih hother)

end IsScanned

/-- A lexeme is read up to a boundary. -/
theorem isScanned_read {c : Char} {rest : List Char} (hblank : isBlank c = false)
    (hslash : c = '/' → rest.head? ≠ some '/') :
    IsScanned (Lexeme.read c rest).1.chars (Lexeme.read c rest).2 := by
  obtain ⟨tail, hchars, -⟩ := Lexeme.exists_chars_read c rest
  have hrest : tail ++ ([] ++ (Lexeme.read c rest).2) = rest := by
    have happ := Lexeme.read_append c rest
    rw [hchars] at happ
    exact (List.cons.inj happ).2
  rw [hchars, ← List.append_nil (c :: tail)]
  apply IsScanned.lexeme hblank
  · rwa [hrest]
  · rw [hrest]
    rfl
  · exact .nil

/-- The end of a text is a boundary. -/
theorem isScanned_nil (text : List Char) : IsScanned text [] := by
  induction Position.start, text using TokenStream.ofChars.induct with
  | case1 p text gap hgap =>
      have hscanned := IsScanned.of_isGap (isGap_spanGap text)
      rwa [hgap, eq_of_spanGap_nil hgap] at hscanned
  | case2 p text gap c rest hgap place lexeme ih =>
      have hscanned := IsScanned.of_isGap (isGap_spanGap text)
      obtain ⟨hblank, hslash⟩ := spanGapFrom_snd_cons hgap
      rw [hgap, ← Lexeme.read_append] at hscanned
      have hbehind : IsScanned (lexeme.chars ++ (Lexeme.read c rest).2) [] := by
        apply IsScanned.append _ ih
        rw [List.append_nil]
        exact isScanned_read hblank hslash
      rw [← append_eq_of_spanGap hgap]
      apply IsScanned.append _ hbehind
      rw [List.append_nil]
      exact hscanned

namespace TokenStream

variable {front rest : List Char}

/-- A comment is passed up to the end of its line. -/
theorem ofChars_passes_comment (p : Position) {body : List Char} (hbody : '\n' ∉ body)
    (hrest : ∀ c ∈ rest.head?, c = '\n') :
    ofChars p ('/' :: '/' :: body ++ rest) = ofChars (p.after ('/' :: '/' :: body)) rest := by
  have hfeed : '\n' ∉ '/' :: body := by simp [hbody]
  have hinside : ∀ c ∈ '/' :: body, (c != '\n') = true := fun c hc =>
    bne_iff_ne.mpr (ne_of_mem_of_not_mem hc hfeed)
  obtain ⟨htake, hdrop⟩ := takeWhile_append_of_stops (p := (· != '\n')) hinside
    fun c hc => by simp [hrest c hc]
  calc ofChars p ('/' :: '/' :: body ++ rest)
      = ofChars ((p.advance '/').skip ('/' :: body)) rest := by
        rw [List.cons_append, List.cons_append, ofChars_comment, ← List.cons_append, htake, hdrop]
    _ = ofChars (p.after ('/' :: '/' :: body)) rest := by
        rw [Position.skip_eq_after hfeed]
        rfl

/-- Up to a boundary the first lexeme of a text is the same without what follows. -/
theorem ofChars_lexeme_append (p : Position) {c : Char} {tail : List Char}
    (hblank : isBlank c = false) (hslash : c = '/' → (tail ++ rest).head? ≠ some '/')
    (hread : (Lexeme.read c (tail ++ rest)).2 = rest) :
    ofChars p (c :: tail ++ rest) =
      ⟨(Lexeme.read c (tail ++ rest)).1.item p :: (ofChars (p.after (c :: tail)) rest).items,
        (ofChars (p.after (c :: tail)) rest).finish⟩ := by
  have hchars := Lexeme.chars_read_of_snd_eq hread
  rw [List.cons_append, ofChars_of_cons (spanGap_of_lexeme hblank hslash)]
  simp only [Position.after_nil, hchars, hread]

/-- The items of one stream and then those of another. -/
def append (stream other : TokenStream) : TokenStream :=
  ⟨stream.items ++ other.items, other.finish⟩

/-- The items before a boundary are read without what follows, and the items behind it as if nothing
stood before it. -/
theorem ofChars_append (h : IsScanned front rest) (p : Position) :
    ofChars p (front ++ rest) = (ofChars p front).append (ofChars (p.after front) rest) := by
  induction h generalizing p with
  | nil =>
      rw [List.nil_append, @ofChars_of_nil p [] [] rfl]
      rfl
  | blank hc _ ih =>
      rw [List.cons_append, ofChars_blank hc, ofChars_blank hc, ih, Position.after_cons]
  | @comment body front rest hbody hend _ ih =>
      have hfront : ∀ c ∈ front.head?, c = '\n' :=
        (beginsAlike_append front rest).forall_head? rfl hend
      rw [List.append_assoc, ofChars_passes_comment p hbody hend,
        ofChars_passes_comment p hbody hfront, ih, ← Position.after_append]
  | @lexeme c tail front rest hblank hslash hread _ ih =>
      have halike := beginsAlike_append front rest
      have hslash' (hc : c = '/') := halike.head?_ne_slash tail (hslash hc)
      have hread' := Lexeme.read_congr halike hread
      rw [List.append_assoc, ofChars_lexeme_append p hblank hslash hread,
        ofChars_lexeme_append p hblank hslash' (congrArg Prod.snd hread'), ih, hread',
        ← Position.after_append]
      rfl

end TokenStream

/-! ## Boundaries that a lexer comes to -/

namespace Lexer

/-- Whether a lexer that reads a source comes to `rest` between two items: behind some of the items
it leaves a gap with `rest` behind it. -/
def Reaches (source rest : String) : Prop :=
  ∃ n gap, ((ofString source).callAll (List.replicate n .next)).2.rest = gap ++ rest.toList ∧
    IsGap gap rest.toList

end Lexer

/-- What scanning the next item leaves follows a boundary. -/
theorem exists_isScanned_scan (p : Position) (text : List Char) :
    ∃ front, text = front ++ (scan p text).2.2 ∧ IsScanned front (scan p text).2.2 := by
  fun_induction scan p text with
  | case1 p => exact ⟨[], rfl, .nil⟩
  | case2 p c rest hblank ih =>
      obtain ⟨front, hrest, hfront⟩ := ih
      exact ⟨c :: front, congrArg (c :: ·) hrest, .blank hblank hfront⟩
  | case3 p c rest _ hslash comment ih =>
      obtain ⟨rfl, tail, rfl⟩ := beginsComment_iff.mp hslash
      obtain ⟨front, hrest, hfront⟩ := ih
      refine ⟨'/' :: '/' :: tail.takeWhile (· != '\n') ++ front, ?_, ?_⟩
      · rw [List.append_assoc, ← hrest]
        simp
      · apply IsScanned.comment (notMem_takeWhile rfl tail) _ hfront
        rw [← hrest]
        exact fun d => eq_of_mem_head?_dropWhile
  | case4 p c rest hblank hslash lexeme tail hread =>
      have happ := Lexeme.read_append c rest
      have hscanned : IsScanned (Lexeme.read c rest).1.chars (Lexeme.read c rest).2 :=
        isScanned_read (Bool.eq_false_iff.mpr hblank) (head?_ne_of_not_beginsComment hslash)
      rw [hread] at happ hscanned
      exact ⟨_, happ.symm, hscanned⟩

namespace Lexer

/-- Taking items of a text leaves what follows a boundary. -/
theorem exists_isScanned_callAll {lexer : Lexer} (h : lexer.peeked = none) (n : Nat) :
    ∃ front, lexer.rest = front ++ (lexer.callAll (List.replicate n .next)).2.rest ∧
      IsScanned front (lexer.callAll (List.replicate n .next)).2.rest := by
  induction n generalizing lexer with
  | zero => exact ⟨[], rfl, .nil⟩
  | succ n ih =>
      have hnext : lexer.next.2.peeked = none ∧
          lexer.next.2.rest = (scan lexer.place lexer.rest).2.2 := by
        simp only [Lexer.next, h, and_self]
      obtain ⟨front, hrest, hfront⟩ := exists_isScanned_scan lexer.place lexer.rest
      obtain ⟨further, hbehind, hfurther⟩ := ih hnext.1
      rw [← hnext.2, hbehind] at hrest hfront
      refine ⟨front ++ further, ?_, hfront.append hfurther⟩
      rw [List.append_assoc]
      exact hrest

/-- Where a lexer comes to between two items is a boundary. -/
theorem Reaches.isScanned {source front rest : String} (h : Reaches source rest)
    (hsource : source = front ++ rest) : IsScanned front.toList rest.toList := by
  obtain ⟨n, gap, hrest, hgap⟩ := h
  obtain ⟨before, htext, hbefore⟩ := @exists_isScanned_callAll (ofString source) rfl n
  rw [hrest] at htext hbefore
  have hfront : front.toList = before ++ gap := by
    apply List.append_cancel_right
    calc front.toList ++ rest.toList
        = source.toList := by rw [hsource, String.toList_append]
      _ = before ++ gap ++ rest.toList := by
          rw [List.append_assoc]
          exact htext
  rw [hfront]
  exact hbefore.append (.of_isGap hgap)

end Lexer

end Reckoner
