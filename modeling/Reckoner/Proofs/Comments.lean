import Reckoner.Proofs.Boundaries
import Reckoner.Proofs.Layout

/-!
# Comments are inert

A text can be read without its comments. Where one is left out, what follows begins with a line feed
or is the end of the text, so neither does it join what stands before, nor are lines and columns
counted in another way. Only offsets become smaller, and the column where the text ends. So leaving
out any of the comments changes neither the program nor what running it does.
-/

namespace Reckoner

/-- Whether a text that stands before `rest` is a comment, wherever a lexer comes to it between two
items: it begins with two slashes and extends to the end of the line. -/
structure IsComment (text rest : String) : Prop where
  slashes : ∃ body, text = "//" ++ body
  inLine : '\n' ∉ text.toList
  ends : ∀ c ∈ rest.toList.head?, c = '\n'

/-- Whether a text becomes another one when some of its comments are left out. The text is a source
or what follows a comment of the source, and a lexer that reads the source comes to each of the
comments. -/
inductive Uncomments (source : String) : String → String → Prop
  | refl (text : String) : Uncomments source text text
  | comment {front comment rest other : String} (h : IsComment comment rest)
      (hreaches : Lexer.Reaches source (comment ++ rest))
      (hrest : Uncomments source rest other) :
      Uncomments source (front ++ comment ++ rest) (front ++ other)

namespace Position

/-- The place some bytes further on in the same line and column. -/
def shift (n : Nat) (p : Position) : Position :=
  { p with offset := p.offset + n }

/-- The place that a place of a text becomes when a comment is put in behind `front`. -/
def makeRoom (front comment : String) (p : Position) : Position :=
  if p.offset < front.utf8ByteSize then p else p.shift comment.utf8ByteSize

theorem shift_advance (n : Nat) (p : Position) (c : Char) :
    shift n (p.advance c) = (shift n p).advance c := by
  by_cases hc : c = '\n' <;> simp [shift, advance, hc, Nat.add_right_comm]

/-- Behind a line feed only the offset tells that there was a comment before. -/
theorem advance_after_comment {comment : String} (h : '\n' ∉ comment.toList) (p : Position) :
    (p.after comment.toList).advance '\n' = shift comment.utf8ByteSize (p.advance '\n') := by
  rw [← skip_eq_after h, skip, String.ofList_toList]
  simp [advance, shift, Nat.add_right_comm]

theorem offset_after_start (front : String) :
    (start.after front.toList).offset = front.utf8ByteSize := by
  rw [after_start, String.ofList_toList]
  rfl

/-- Places before the comment stay where they are. -/
theorem makeRoom_of_lt {front comment : String} {p : Position}
    (h : p.offset < (start.after front.toList).offset) : makeRoom front comment p = p := by
  rw [offset_after_start] at h
  exact if_pos h

/-- Places behind the beginning of the comment move on by its bytes. -/
theorem makeRoom_of_le {front comment : String} {p : Position}
    (h : (start.after front.toList).offset ≤ p.offset) :
    makeRoom front comment p = p.shift comment.utf8ByteSize := by
  rw [offset_after_start] at h
  exact if_neg (Nat.not_lt.mpr h)

end Position

theorem Item.relocate_congr {f g : Position → Position} {item : Item}
    (h : f item.position = g item.position) : item.relocate f = item.relocate g := by
  cases item with
  | token t => exact congrArg (fun p => Item.token { t with position := p }) h
  | illegal error => exact congrArg (fun p => Item.illegal { error with position := p }) h

theorem Item.relocate_id (item : Item) : item.relocate id = item := by
  cases item <;> rfl

namespace TokenStream

/-! ## The items without a comment -/

/-- Behind a comment there are the items that there are without it. -/
theorem items_after_comment {comment : String} (hcomment : '\n' ∉ comment.toList)
    {rest : List Char} (hends : ∀ c ∈ rest.head?, c = '\n') (p : Position) :
    (ofChars (p.after comment.toList) rest).items =
      (ofChars p rest).items.map (Item.relocate (.shift comment.utf8ByteSize)) := by
  cases rest with
  | nil =>
      rw [@ofChars_of_nil p [] [] rfl, @ofChars_of_nil _ [] [] rfl]
      rfl
  | cons c rest =>
      obtain rfl : c = '\n' := hends c rfl
      rw [ofChars_blank rfl, ofChars_blank rfl, Position.advance_after_comment hcomment,
        ← ofChars_relocate (Position.shift_advance _)]
      rfl

variable {front comment rest : String}

/-- Where a text is cut between two items each piece has its own items. -/
theorem items_ofString_append (h : IsScanned front.toList rest.toList) :
    (ofString (front ++ rest)).items = (ofString front).items ++
      (ofChars (Position.start.after front.toList) rest.toList).items := by
  rw [ofString, String.toList_append, ofChars_append h]
  rfl

theorem ofChars_comment_append {p : Position} (h : IsComment comment rest) :
    ofChars p (comment ++ rest).toList = ofChars (p.after comment.toList) rest.toList := by
  obtain ⟨body, rfl⟩ := h.slashes
  have hcomment : ("//" ++ body).toList = '/' :: '/' :: body.toList := by simp
  have hbody : '\n' ∉ body.toList := fun hmem => h.inLine (by simp [hmem])
  rw [String.toList_append, hcomment, ofChars_passes_comment p hbody h.ends]

/-- The items of a text are those that it has without one of its comments, with room made for the
comment. -/
theorem items_ofString_comment (h : IsComment comment rest)
    (hscanned : IsScanned front.toList (comment ++ rest).toList) :
    (ofString (front ++ comment ++ rest)).items =
      (ofString (front ++ rest)).items.map (Item.relocate (.makeRoom front comment)) := by
  have hrest : IsScanned front.toList rest.toList := hscanned.congr fun c hc => .inl (h.ends c hc)
  have hbefore : ∀ item ∈ (ofString front).items,
      item = item.relocate (.makeRoom front comment) := by
    intro item hitem
    have hlt := @Position.makeRoom_of_lt front comment _ (offset_lt_of_mem hitem)
    rw [@Item.relocate_congr _ id item hlt, Item.relocate_id]
  have hbehind : ∀ item ∈ (ofChars (Position.start.after front.toList) rest.toList).items,
      item.relocate (.shift comment.utf8ByteSize) = item.relocate (.makeRoom front comment) := by
    intro item hitem
    have hle := offset_le_of_mem (List.mem_append_left _ hitem)
    exact Item.relocate_congr (Position.makeRoom_of_le hle).symm
  calc (ofString (front ++ comment ++ rest)).items
      = (ofString front).items ++ (ofChars ((Position.start.after front.toList).after
          comment.toList) rest.toList).items := by
        rw [String.append_assoc, items_ofString_append hscanned, ofChars_comment_append h]
    _ = (ofString front).items ++ (ofChars (Position.start.after front.toList)
          rest.toList).items.map (Item.relocate (.shift comment.utf8ByteSize)) := by
        rw [items_after_comment h.inLine h.ends]
    _ = (ofString front).items.map (Item.relocate (.makeRoom front comment)) ++
          (ofChars (Position.start.after front.toList) rest.toList).items.map
            (Item.relocate (.makeRoom front comment)) := by
        rw [List.map_congr_left hbehind, ← List.map_congr_left hbefore, List.map_id']
    _ = (ofString (front ++ rest)).items.map (Item.relocate (.makeRoom front comment)) := by
        rw [items_ofString_append hrest, List.map_append]

theorem finish_ofString_append (front rest : String) : (ofString (front ++ rest)).finish =
    (Position.start.after front.toList).after rest.toList := by
  rw [ofString, finish_ofChars, String.toList_append, Position.after_append]

/-- A text ends where it ends without one of its comments, with room made for the comment, unless
the comment stands at its end: then the column is another one. -/
theorem finish_ofString_comment (h : IsComment comment rest) :
    let finish := (ofString (front ++ comment ++ rest)).finish
    let moved := (ofString (front ++ rest)).finish.makeRoom front comment
    finish.offset = moved.offset ∧ finish.line = moved.line ∧
      (rest ≠ "" → finish.column = moved.column) := by
  intro finish moved
  have hmoved : moved = ((Position.start.after front.toList).after rest.toList).shift
      comment.utf8ByteSize := by
    have hfinish := finish_ofString_append front rest
    have hle := Position.offset_le_after (Position.start.after front.toList) rest.toList
    rw [← hfinish] at hle ⊢
    exact Position.makeRoom_of_le hle
  have hfinish : finish =
      ((Position.start.after front.toList).after comment.toList).after rest.toList := by
    rw [← Position.after_append _ comment.toList, ← String.toList_append, ← finish_ofString_append,
      ← String.append_assoc]
  rw [hmoved, hfinish]
  cases hrest : rest.toList with
  | nil =>
      rw [← Position.skip_eq_after h.inLine, Position.skip, String.ofList_toList]
      exact ⟨rfl, rfl, fun hne => absurd (String.toList_eq_nil_iff.mp hrest) hne⟩
  | cons c tail =>
      obtain rfl : c = '\n' := h.ends c (by rw [hrest]; rfl)
      rw [Position.after_cons, Position.after_cons, Position.advance_after_comment h.inLine,
        ← Position.map_after (Position.shift_advance _)]
      exact ⟨rfl, rfl, fun _ => rfl⟩

end TokenStream

/-! ## Programs without offsets -/

/-- The place but for its offset. -/
def Position.withoutOffset (p : Position) : Position :=
  { p with offset := 0 }

/-- The failure but for the offset of its place. Where it is that the text ends, the column is left
out as well. -/
def ReadError.withoutOffset : ReadError → ReadError
  | unparsable (.unexpectedEnd expected position) =>
    unparsable (.unexpectedEnd expected ⟨0, position.line, 1⟩)
  | error => error.relocate .withoutOffset

/-- The failure but for the offset of its place. -/
def Failure.withoutOffset : Failure → Failure
  | read error => read error.withoutOffset
  | run error => run (error.relocate .withoutOffset)

/-- Whether two texts are read as programs with the same lines and columns, or refused alike, and do
the same when they are run. -/
structure SameButOffsets (source other : String) : Prop where
  parse_eq : ((Program.parse source).map (Program.relocate .withoutOffset)).mapError
      ReadError.withoutOffset =
    ((Program.parse other).map (Program.relocate .withoutOffset)).mapError ReadError.withoutOffset
  state_eq : ∀ state : Interpreter, (state.runSource source).2 = (state.runSource other).2
  result_eq : ∀ state : Interpreter,
    (state.runSource source).1.mapError Failure.withoutOffset =
      (state.runSource other).1.mapError Failure.withoutOffset

namespace SameButOffsets

theorem refl (source : String) : SameButOffsets source source :=
  ⟨rfl, fun _ => rfl, fun _ => rfl⟩

theorem trans {a b c : String} (hab : SameButOffsets a b) (hbc : SameButOffsets b c) :
    SameButOffsets a c :=
  ⟨hab.parse_eq.trans hbc.parse_eq, fun state => (hab.state_eq state).trans (hbc.state_eq state),
    fun state => (hab.result_eq state).trans (hbc.result_eq state)⟩

end SameButOffsets

section

variable {f : Position → Position} {source other : String}

/-- Whether a map keeps the lines and columns of the items of a text, and the line of its end. -/
structure KeepsColumns (f : Position → Position) (stream : TokenStream) : Prop where
  items : ∀ item ∈ stream.items, (f item.position).withoutOffset = item.position.withoutOffset
  finish : (f stream.finish).line = stream.finish.line

theorem KeepsColumns.withoutOffset_of_mem (h : KeepsColumns f (.ofString source)) {t : Token}
    (ht : .token t ∈ (TokenStream.ofString source).sequence) (hkind : t.kind ≠ .endOfInput) :
    (f t.position).withoutOffset = t.position.withoutOffset :=
  h.items _ (TokenStream.mem_items_of_kind_ne ht hkind)

/-- Expressions differ in offsets only, as their places are those of tokens. -/
theorem KeepsColumns.expr (h : KeepsColumns f (.ofString source)) {e : Expr}
    (he : e.IsPlaced (.ofString source)) :
    (e.relocate f).relocate .withoutOffset = e.relocate .withoutOffset := by
  induction e with
  | literal value => rfl
  | reference name position =>
      exact congrArg (Expr.reference name) (h.withoutOffset_of_mem he Kind.noConfusion)
  | operation op left right position ihl ihr =>
      obtain ⟨hl, hr, literal, hsign⟩ := he
      have hposition := h.withoutOffset_of_mem hsign op.sign_ne_endOfInput
      simp only [Expr.relocate, ihl hl, ihr hr, hposition]

/-- Programs differ in offsets only, as their places are those of tokens. -/
theorem KeepsColumns.program (h : KeepsColumns f (.ofString source)) {program : Program}
    (hparse : Program.parse source = .ok program) :
    (program.relocate f).relocate .withoutOffset = program.relocate .withoutOffset := by
  have hstatement : ∀ statement ∈ program.statements,
      (statement.relocate f).relocate .withoutOffset = statement.relocate .withoutOffset := by
    intro statement hmem
    have hvalue := h.expr (isPlaced_of_parse hparse statement hmem)
    cases statement with
    | assign name value => exact congrArg (Statement.assign name) hvalue
    | print value => exact congrArg Statement.print hvalue
  rw [Program.relocate, Program.relocate, List.map_map]
  exact congrArg Program.mk (List.map_congr_left hstatement)

/-- Failures to read differ in offsets only, and for the end of input in columns too. -/
theorem KeepsColumns.readError (h : KeepsColumns f (.ofString source)) {error : ReadError}
    (herror : error.IsAbout (.ofString source)) :
    (error.relocate f).withoutOffset = error.withoutOffset := by
  have htoken {t : Token} (ht : .token t ∈ (TokenStream.ofString source).sequence)
      (hkind : t.kind ≠ .endOfInput) :
      (t.relocate f).relocate .withoutOffset = t.relocate .withoutOffset :=
    congrArg (fun p => { t with position := p }) (h.withoutOffset_of_mem ht hkind)
  cases error with
  | illegal error =>
      exact congrArg (fun p => ReadError.illegal { error with position := p }) (h.items _ herror)
  | unparsable error =>
      cases error with
      | mismatch expected found =>
          exact congrArg (ReadError.unparsable ∘ SyntaxError.mismatch expected)
            (htoken herror.1 herror.2)
      | unexpectedToken expected found =>
          exact congrArg (ReadError.unparsable ∘ SyntaxError.unexpectedToken expected)
            (htoken herror.1 herror.2)
      | unexpectedEnd expected position =>
          obtain ⟨t, ht, hkind, rfl⟩ := herror
          have hfinish := TokenStream.position_of_kind_eq ht hkind
          rw [← TokenStream.finish_ofString] at hfinish
          rw [hfinish]
          exact congrArg (fun line => ReadError.unparsable (.unexpectedEnd expected ⟨0, line, 1⟩))
            h.finish
      | tooDeep t =>
          have hkind : t.kind ≠ .endOfInput := by
            obtain hparen | ⟨op, hsign⟩ := herror.2
            · rw [hparen]
              exact Kind.noConfusion
            · rw [hsign]
              exact op.sign_ne_endOfInput
          exact congrArg (ReadError.unparsable ∘ SyntaxError.tooDeep) (htoken herror.1 hkind)

theorem KeepsColumns.runtimeError (h : KeepsColumns f (.ofString source)) {error : RuntimeError}
    (herror : error.IsAbout (.ofString source)) :
    (error.relocate f).relocate .withoutOffset = error.relocate .withoutOffset := by
  cases error with
  | undefinedVariable name position =>
      exact congrArg (RuntimeError.undefinedVariable name)
        (h.withoutOffset_of_mem herror Kind.noConfusion)
  | divisionByZero position =>
      obtain ⟨literal, hmem⟩ := herror
      exact congrArg RuntimeError.divisionByZero (h.withoutOffset_of_mem hmem Kind.noConfusion)

/-- Texts whose items keep their lines and columns are the same but for offsets. -/
theorem KeepsColumns.sameButOffsets (h : KeepsColumns f (.ofString source))
    (hstream : TokenStream.ofString other = (TokenStream.ofString source).relocate f) :
    SameButOffsets other source where
  parse_eq := by
    rw [Program.parse_relocate hstream]
    cases hparse : Program.parse source with
    | error error => exact congrArg Except.error (h.readError (isAbout_of_parse hparse))
    | ok program => exact congrArg Except.ok (h.program hparse)
  state_eq state := by rw [Interpreter.runSource_relocate hstream]
  result_eq state := by
    rw [Interpreter.runSource_relocate hstream]
    cases hresult : (state.runSource source).1 with
    | ok outcome => rfl
    | error failure =>
        have habout := isAbout_of_runSource hresult
        cases failure with
        | read error => exact congrArg (Except.error ∘ Failure.read) (h.readError habout)
        | run error => exact congrArg (Except.error ∘ Failure.run) (h.runtimeError habout)

end

/-! ## Leaving out comments -/

theorem Position.withoutOffset_makeRoom (front comment : String) (p : Position) :
    (p.makeRoom front comment).withoutOffset = p.withoutOffset := by
  rw [makeRoom]
  split <;> rfl

/-- Leaving out one comment changes offsets only. The end of the text is mapped for itself, as its
column may change as well. -/
theorem sameButOffsets_comment {front comment rest : String} (h : IsComment comment rest)
    (hscanned : IsScanned front.toList (comment ++ rest).toList) :
    SameButOffsets (front ++ comment ++ rest) (front ++ rest) := by
  let source := TokenStream.ofString (front ++ comment ++ rest)
  let other := TokenStream.ofString (front ++ rest)
  let f := Function.update (Position.makeRoom front comment) other.finish source.finish
  have hf : ∀ item ∈ other.items, f item.position = item.position.makeRoom front comment := by
    intro item hitem
    have hlt := TokenStream.offset_lt_of_mem hitem
    rw [← TokenStream.finish_ofChars] at hlt
    apply Function.update_of_ne
    intro heq
    exact Nat.ne_of_lt hlt (congrArg Position.offset heq)
  have hfinish : f other.finish = source.finish := Function.update_self ..
  have hitems : source.items = other.items.map (Item.relocate f) := by
    calc source.items
        = other.items.map (Item.relocate (.makeRoom front comment)) :=
          TokenStream.items_ofString_comment h hscanned
      _ = other.items.map (Item.relocate f) :=
          List.map_congr_left fun item hitem => Item.relocate_congr (hf item hitem).symm
  have hkeeps : KeepsColumns f other := by
    constructor
    · intro item hitem
      rw [hf item hitem, Position.withoutOffset_makeRoom]
    · rw [hfinish, (TokenStream.finish_ofString_comment h).2.1, Position.makeRoom]
      split <;> rfl
  apply hkeeps.sameButOffsets
  calc source
      = ⟨source.items, source.finish⟩ := rfl
    _ = other.relocate f := by rw [hitems, ← hfinish, TokenStream.relocate]

theorem Uncomments.ends {source rest other : String} (h : Uncomments source rest other)
    (hrest : ∀ c ∈ rest.toList.head?, c = '\n') : ∀ c ∈ other.toList.head?, c = '\n' := by
  cases h with
  | refl => exact hrest
  | @comment front comment behind other h =>
      obtain ⟨body, rfl⟩ := h.slashes
      cases hfront : front.toList with
      | nil =>
          rw [String.toList_append, String.toList_append, hfront] at hrest
          exact absurd (hrest '/' (by simp)) (by decide)
      | cons c tail =>
          rw [String.toList_append, String.toList_append, hfront] at hrest
          rw [String.toList_append, hfront]
          exact hrest

/-- Leaving out comments behind some text changes offsets only. The comments are left out from the
last to the first, so that what stands before a comment is as it is in the source. -/
theorem Uncomments.sameButOffsets {source rest other : String} (h : Uncomments source rest other)
    {front : String} (hsource : source = front ++ rest) :
    SameButOffsets (front ++ rest) (front ++ other) := by
  induction h generalizing front with
  | refl text => exact .refl _
  | @comment further comment rest other h hreaches hrest ih =>
      have hlater : SameButOffsets (front ++ further ++ comment ++ rest)
          (front ++ further ++ comment ++ other) := by
        apply ih
        rw [hsource]
        simp only [String.append_assoc]
      have hscanned : IsScanned (front ++ further).toList (comment ++ rest).toList := by
        apply hreaches.isScanned
        rw [hsource]
        simp only [String.append_assoc]
      have hother : ∀ c ∈ other.toList.head?, c = '\n' := hrest.ends h.ends
      have halike : BeginsAlike (comment ++ other).toList (comment ++ rest).toList := by
        rw [String.toList_append, String.toList_append]
        exact BeginsAlike.append (fun c hc => .inl (hother c hc)) comment.toList
      have hfirst : SameButOffsets (front ++ further ++ comment ++ other)
          (front ++ further ++ other) :=
        sameButOffsets_comment ⟨h.slashes, h.inLine, hother⟩ (hscanned.congr halike)
      simpa only [String.append_assoc] using hlater.trans hfirst

/-- A text has the items that it has without one of its comments, in the same lines and columns;
only the offsets behind the comment are larger by its bytes, and the column in which the text ends
is another one if the comment stands there. So leaving out any of the comments of a text changes the
program in nothing but offsets, and running it has the same outcome and leaves the same state. -/
theorem comments_are_inert (source : String) :
    (∀ front comment rest : String, source = front ++ comment ++ rest → IsComment comment rest →
      Lexer.Reaches source (comment ++ rest) →
      let stream := TokenStream.ofString source
      let other := TokenStream.ofString (front ++ rest)
      let moved := Position.makeRoom front comment
      stream.items = other.items.map (Item.relocate moved) ∧
        stream.finish.offset = (moved other.finish).offset ∧
        stream.finish.line = (moved other.finish).line ∧
        (rest ≠ "" → stream.finish.column = (moved other.finish).column)) ∧
    ∀ other : String, Uncomments source source other → SameButOffsets source other := by
  constructor
  · intro front comment rest hsource h hreaches stream other moved
    have hscanned : IsScanned front.toList (comment ++ rest).toList := by
      apply hreaches.isScanned
      rw [hsource, String.append_assoc]
    subst hsource
    exact ⟨TokenStream.items_ofString_comment h hscanned, TokenStream.finish_ofString_comment h⟩
  · intro other h
    have hsame := h.sameButOffsets (String.empty_append (s := source)).symm
    rwa [String.empty_append, String.empty_append] at hsame

/-- Between a number and the sign below it stands a comment with quotation marks, a letter of two
bytes and a slash; another one ends the text. -/
theorem comments_are_inert_two :
    let first := "// \"é\" ; /"
    let last := "// x"
    let rest := "\n/ 2; print(x); " ++ last ++ ""
    let source := "let x = 8 " ++ first ++ rest
    (IsComment first rest ∧ Lexer.Reaches source (first ++ rest) ∧
      Uncomments source source ("let x = 8 " ++ ("\n/ 2; print(x); " ++ ""))) ∧
    (TokenStream.ofString source).items = (TokenStream.ofString ("let x = 8 " ++ rest)).items.map
      (Item.relocate (.makeRoom "let x = 8 " first)) ∧
    SameButOffsets source ("let x = 8 " ++ ("\n/ 2; print(x); " ++ "")) := by
  intro first last rest source
  have hfeed : rest.toList.head? = some '\n' := by decide +kernel
  have hfirst : IsComment first rest := by
    refine ⟨⟨" \"é\" ; /", by decide +kernel⟩, by decide +kernel, ?_⟩
    rw [hfeed]
    exact fun c hc => (Option.some.inj hc).symm
  have hlast : IsComment last "" := ⟨⟨" x", by decide +kernel⟩, by decide +kernel, by simp⟩
  have hgap (text : List Char) : IsGap [' '] text := .blank (by decide) .nil
  have hreaches : Lexer.Reaches source (first ++ rest) :=
    ⟨4, [' '], by decide +kernel, hgap _⟩
  have hreaches' : Lexer.Reaches source (last ++ "") := ⟨12, [' '], by decide +kernel, hgap _⟩
  have hboth : Uncomments source source ("let x = 8 " ++ ("\n/ 2; print(x); " ++ "")) :=
    .comment hfirst hreaches (.comment hlast hreaches' (.refl ""))
  exact ⟨⟨hfirst, hreaches, hboth⟩, ((comments_are_inert source).1 _ _ _ rfl hfirst hreaches).1,
    (comments_are_inert source).2 _ hboth⟩

end Reckoner
