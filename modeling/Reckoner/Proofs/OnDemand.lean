import Reckoner.Proofs.Partition
import Reckoner.Proofs.Places
import Reckoner.Proofs.Simulation

/-!
# Reading on demand

A token stream has all items of a text at once. A lexer scans an item when it is asked for it, and
keeps a token that it was asked to look at. Reading from a lexer yields the same as reading from the
items that are left, so a parser gives the same replies. Moreover a lexer has scanned its text just
up to the end of the item that it scanned last, and behind an expression this is the token that it
keeps.
-/

namespace Reckoner

/-! ## What a lexer has scanned -/

theorem Lexeme.position_of_item_eq {lexeme : Lexeme} {p : Position} {t : Token}
    (h : lexeme.item p = .token t) : t.position = p := by
  cases lexeme with
  | token kind literal =>
      cases h
      rfl
  | illegal c => cases h

/-- Scanning passes a gap and the next item, and comes to the place behind the item. -/
theorem exists_gap_scan (p : Position) (text : List Char) :
    ∃ gap, text = gap ++ (scan p text).1.chars ++ (scan p text).2.2 ∧
      (scan p text).2.1 = p.after (gap ++ (scan p text).1.chars) ∧
      ∀ t, (scan p text).1 = .token t → t.position = p.after gap := by
  fun_induction scan p text with
  | case1 p =>
      refine ⟨[], rfl, rfl, ?_⟩
      rintro t ⟨⟩
      rfl
  | case2 p c rest hblank ih =>
      obtain ⟨gap, hrest, hplace, hposition⟩ := ih
      exact ⟨c :: gap, congrArg (c :: ·) hrest, hplace, hposition⟩
  | case3 p c rest _ hslash comment ih =>
      obtain ⟨gap, hrest, hplace, hposition⟩ := ih
      have hcomment : (p.advance c).skip comment = p.after (c :: comment) := by
        rw [Position.skip_eq_after (notMem_takeWhile rfl rest), Position.after_cons]
      generalize scan ((p.advance c).skip comment) _ = scanned at hrest hplace hposition ⊢
      rw [hcomment] at hplace hposition
      refine ⟨c :: comment ++ gap, ?_, ?_, ?_⟩
      · rw [List.append_assoc (c :: comment), List.append_assoc (c :: comment), ← hrest,
          List.cons_append, List.takeWhile_append_dropWhile]
      · rw [hplace, ← Position.after_append, List.append_assoc]
      · intro t ht
        rw [hposition t ht, ← Position.after_append]
  | case4 p c rest hblank hslash lexeme tail hread =>
      have happ := Lexeme.read_append c rest
      have hskip := Lexeme.skip_tail_chars_read p c rest
      rw [hread] at happ hskip
      refine ⟨[], ?_, ?_, fun t ht => Lexeme.position_of_item_eq ht⟩
      · rw [List.nil_append, Lexeme.chars_item, happ]
      · rw [hskip, List.nil_append, Lexeme.chars_item]

namespace Lexer

/-- Whether a lexer has scanned some text at the beginning of its source and nothing behind it. If
it keeps a token, this stands at the end of the scanned text. -/
structure HasScanned (lexer : Lexer) (front : List Char) : Prop where
  source_eq : lexer.source.toList = front ++ lexer.rest
  place_eq : lexer.place = Position.start.after front
  peeked_eq : ∀ t, lexer.peeked = some t →
    ∃ before, front = before ++ t.literal.toList ∧ t.position = Position.start.after before

theorem hasScanned_ofString (source : String) : (ofString source).HasScanned [] where
  source_eq := rfl
  place_eq := rfl
  peeked_eq t h := by cases h

variable {lexer : Lexer} {front : List Char}

/-- Whether a lexer keeps a token, and has scanned a source up to the end of this token and no
further. -/
structure HasScannedTo (lexer : Lexer) (source : String) (t : Token) : Prop where
  peeked_eq : lexer.peeked = some t
  text_eq : ∃ before, source = before ++ t.literal ++ String.ofList lexer.rest ∧
    t.position = .behind before ∧ lexer.place = .behind (before ++ t.literal)

theorem HasScanned.hasScannedTo (h : lexer.HasScanned front) {t : Token}
    (ht : lexer.peeked = some t) : lexer.HasScannedTo lexer.source t where
  peeked_eq := ht
  text_eq := by
    obtain ⟨before, rfl, hposition⟩ := h.peeked_eq t ht
    refine ⟨String.ofList before, ?_, ?_, ?_⟩
    · rw [← String.toList_inj, h.source_eq]
      simp
    · rw [hposition, Position.after_start]
    · rw [h.place_eq, Position.after_start]
      simp

/-- What a lexer has scanned behind scanning one more item, and where a token stands that it
scans. -/
theorem HasScanned.scan (h : lexer.HasScanned front) {item : Item} {place : Position}
    {rest : List Char} (hscan : scan lexer.place lexer.rest = (item, place, rest)) :
    ∃ before, lexer.source.toList = before ++ item.chars ++ rest ∧
      place = Position.start.after (before ++ item.chars) ∧
      ∀ t, item = .token t → t.position = Position.start.after before := by
  obtain ⟨gap, hrest, hplace, hposition⟩ := exists_gap_scan lexer.place lexer.rest
  rw [hscan] at hrest hplace hposition
  simp only [h.place_eq, ← Position.after_append] at hplace hposition
  refine ⟨front ++ gap, ?_, ?_, hposition⟩
  · rw [h.source_eq, hrest, List.append_assoc, List.append_assoc, List.append_assoc]
  · rw [hplace, List.append_assoc]

/-- Taking a token scans up to its end and no further. -/
theorem HasScanned.next (h : lexer.HasScanned front) :
    ∃ further, lexer.next.2.HasScanned further := by
  cases hpeeked : lexer.peeked with
  | some t =>
      simp only [Lexer.next, hpeeked]
      exact ⟨front, h.source_eq, h.place_eq, by simp⟩
  | none =>
      rcases hscan : Reckoner.scan lexer.place lexer.rest with ⟨item, place, rest⟩
      obtain ⟨before, hsource, hplace, -⟩ := h.scan hscan
      simp only [Lexer.next, hpeeked, hscan]
      exact ⟨before ++ item.chars, hsource, hplace, by simp⟩

theorem HasScanned.peek (h : lexer.HasScanned front) :
    ∃ further, lexer.peek.2.HasScanned further := by
  cases hpeeked : lexer.peeked with
  | some t =>
      simp only [Lexer.peek, hpeeked]
      exact ⟨front, h⟩
  | none =>
      rcases hscan : Reckoner.scan lexer.place lexer.rest with ⟨item, place, rest⟩
      obtain ⟨before, hsource, hplace, hposition⟩ := h.scan hscan
      simp only [Lexer.peek, Lexer.next, hpeeked, hscan]
      refine ⟨before ++ item.chars, ?_⟩
      cases item with
      | illegal error => exact ⟨hsource, hplace, by rintro _ ⟨⟩⟩
      | token t =>
          refine ⟨hsource, hplace, ?_⟩
          rintro _ ⟨⟩
          exact ⟨before, rfl, hposition t rfl⟩

end Lexer

/-! ## The elementary actions on lexers -/

namespace Reading

theorem next_on_lexer (lexer : Lexer) : next.on lexer = lexer.next :=
  on_ask Lexer.next lexer

theorem peek_on_lexer (lexer : Lexer) : peek.on lexer = lexer.peek :=
  on_ask Lexer.peek lexer

/-- A lexer is at its end if the token that it is asked to look at is the end of input. -/
theorem atEnd_on_lexer (lexer : Lexer) :
    atEnd.on lexer =
      (lexer.peek.1.map fun token => decide (token.kind = .endOfInput), lexer.peek.2) := by
  change (ask Lexer.peek >>= fun token => pure (decide (token.kind = .endOfInput))).on lexer = _
  rw [on_bind, on_ask]
  rcases lexer.peek with ⟨_ | _, rest⟩ <;> rfl

end Reading

/-! ## The same results -/

theorem TokenStream.item_drop_zero (n : Nat) (stream : TokenStream) :
    (stream.drop n).item 0 = stream.item n :=
  item_drop 0 n stream

namespace Lexer

/-- Whether a lexer of a source has just some items of it left. All that it has scanned, it has
scanned in order. -/
structure HasLeft (source : String) (lexer : Lexer) (stream : TokenStream) : Prop where
  stands : ∃ n, lexer.Stands source n false ∧ stream = (TokenStream.ofString source).drop n
  scanned : ∃ front, lexer.HasScanned front

theorem hasLeft_ofString (source : String) :
    (ofString source).HasLeft source (.ofString source) where
  stands := ⟨0, stands_ofString source, rfl⟩
  scanned := ⟨[], hasScanned_ofString source⟩

variable (source : String)

theorem simulates_next : Reading.Simulates (HasLeft source) Reading.next Reading.next := by
  intro lexer stream h
  obtain ⟨n, hstands, rfl⟩ := h.stands
  obtain ⟨front, hscanned⟩ := h.scanned
  obtain ⟨hresult, hleft⟩ := hstands.next
  rw [Reading.next_on_lexer, Reading.on_next_eq, TokenStream.item_drop_zero, TokenStream.drop_drop]
  exact ⟨hresult, ⟨n + 1, hleft, rfl⟩, hscanned.next⟩

theorem simulates_peek : Reading.Simulates (HasLeft source) Reading.peek Reading.peek := by
  intro lexer stream h
  obtain ⟨n, hstands, rfl⟩ := h.stands
  obtain ⟨front, hscanned⟩ := h.scanned
  have hfirst := TokenStream.item_drop_zero n (.ofString source)
  rw [Reading.peek_on_lexer]
  cases hitem : (TokenStream.ofString source).item n with
  | token t =>
      obtain ⟨hresult, hleft⟩ := hstands.peek_of_token hitem
      rw [Reading.on_peek_of_token (hfirst.trans hitem)]
      exact ⟨hresult, ⟨n, hleft, rfl⟩, hscanned.peek⟩
  | illegal error =>
      obtain ⟨hresult, hleft⟩ := hstands.peek_of_illegal hitem
      rw [Reading.on_peek_of_illegal (hfirst.trans hitem), TokenStream.drop_drop]
      exact ⟨hresult, ⟨n + 1, hleft, rfl⟩, hscanned.peek⟩

/-- No item of a text is the end of input, so a token of this kind shows that none is left. -/
theorem simulates_atEnd : Reading.Simulates (HasLeft source) Reading.atEnd Reading.atEnd := by
  intro lexer stream h
  obtain ⟨hresult, hleft⟩ := simulates_peek source h
  obtain ⟨n, -, hstream⟩ := h.stands
  rw [Reading.peek_on_lexer, Reading.on_peek] at hresult hleft
  rw [Reading.atEnd_on_lexer, Reading.on_atEnd, hresult]
  rcases hitems : stream.items with _ | ⟨t | error, rest⟩
  · rw [hitems] at hleft
    exact ⟨rfl, hleft⟩
  · rw [hitems] at hleft
    have hmem : .token t ∈ ((TokenStream.ofString source).drop n).items := by
      rw [← hstream, hitems]
      exact List.mem_cons_self
    have hkind : t.kind ≠ .endOfInput :=
      TokenStream.kind_ne_of_mem_ofChars (List.mem_of_mem_drop hmem)
    exact ⟨congrArg Except.ok (decide_eq_false hkind), hleft⟩
  · rw [hitems] at hleft
    exact ⟨rfl, hleft⟩

/-- Reading from a lexer is reading from the items that it has left. -/
theorem exprsAlike_hasLeft : Reading.ExprsAlike (HasLeft source) := by
  have htokens : Reading.TokensAlike (HasLeft source) :=
    ⟨simulates_next source, simulates_peek source, simulates_atEnd source⟩
  exact ⟨htokens, htokens.sum (htokens.factor maxDepth)⟩

end Lexer

/-! ## The token behind an expression -/

/-- A token that was looked at is kept. -/
theorem Lexer.peeked_of_peek {lexer rest : Lexer} {t : Token} (h : lexer.peek = (.ok t, rest)) :
    rest.peeked = some t := by
  rw [Lexer.peek] at h
  split at h
  · rename_i first hpeeked
    cases h
    exact hpeeked
  · split at h
    · cases h
      rfl
    · cases h

namespace Reading

/-- A chain that ends was stopped by a token, and the lexer keeps this token. -/
theorem exists_peeked_of_chain {operator? : Kind → Option Operator} {operand : Reading Lexer Expr}
    {left e : Expr} {lexer rest : Lexer}
    (h : (chain operator? operand left).on lexer = (.ok e, rest)) : ∃ t, rest.peeked = some t := by
  induction left using chain.induct generalizing lexer with
  | case1 left ih =>
      rw [chain] at h
      obtain ⟨token, kept, hpeek, h⟩ := on_bind_eq_ok.mp h
      rw [peek_on_lexer] at hpeek
      cases hoperator : operator? token.kind with
      | none =>
          simp only [hoperator] at h
          cases h
          exact ⟨token, Lexer.peeked_of_peek hpeek⟩
      | some operator =>
          simp only [hoperator] at h
          obtain ⟨sign, behind, -, h⟩ := on_bind_eq_ok.mp h
          obtain ⟨right, further, -, h⟩ := on_bind_eq_ok.mp h
          split at h
          · exact ih operator sign right ‹_› h
          · cases h

/-- Behind an expression a lexer keeps the next token. -/
theorem exists_peeked_of_expression {lexer rest : Lexer} {e : Expr}
    (h : expression.on lexer = (.ok e, rest)) : ∃ t, rest.peeked = some t := by
  obtain ⟨left, middle, -, hchain⟩ := on_bind_eq_ok.mp h
  exact exists_peeked_of_chain hchain

end Reading

/-! ## Parsers on lexers -/

namespace Parser

/-- A parser at the beginning of a text, which it scans on demand. -/
def onDemand (source : String) : Parser Lexer :=
  ⟨.ofString source, false⟩

theorem follows_onDemand (source : String) :
    Follows (Lexer.HasLeft source) (onDemand source) (ofString source) :=
  ⟨Lexer.hasLeft_ofString source, rfl⟩

/-- A parser that scans its text on demand gives the same replies as one that has all items. -/
theorem requestAll_onDemand (source : String) (requests : List Request) :
    ((onDemand source).requestAll requests).1 = ((ofString source).requestAll requests).1 ∧
      Follows (Lexer.HasLeft source) ((onDemand source).requestAll requests).2
        ((ofString source).requestAll requests).2 :=
  (follows_onDemand source).requestAll (Lexer.exprsAlike_hasLeft source) requests

/-- Iterating a new parser yields the statements of a text that is a program, with their places, and
nothing behind them. If the text is no program it yields some statements and then the failure of the
text. In any mix of requests nothing follows the end of the iteration. All this holds of a parser
that has all items of the text, and of one that scans them on demand and keeps the token that it
looked at. -/
theorem iteration_streams_program (source : String) :
    (ofString source).Streams source ∧ (onDemand source).Streams source := by
  have hstreams := streams_ofString source
  have hreplies (requests : List Request) := (requestAll_onDemand source requests).1
  have hiterate (k : Nat) : (onDemand source).iterate k = (ofString source).iterate k :=
    hreplies (List.replicate k .advance)
  refine ⟨hstreams, ?_, ?_⟩
  · simp only [hiterate]
    exact hstreams.iterate_eq
  · intro requests
    rw [hreplies]
    exact hstreams.fused requests

/-- Behind an expression the lexer keeps the next token and has scanned the source up to its end. -/
theorem Follows.hasScannedTo {source : String} {lexing : Parser Lexer} {parser : Parser}
    (h : Follows (Lexer.HasLeft source) lexing parser) {e : Expr} {t : Token}
    (he : parser.expression.1 = .ok e) (ht : parser.expression.2.stream.item 0 = .token t) :
    lexing.expression.2.stream.HasScannedTo source t := by
  obtain ⟨hresult, hleft⟩ := h.perform (Lexer.exprsAlike_hasLeft source).expression
  obtain ⟨n, hstands, hstream⟩ := hleft.stream.stands
  obtain ⟨front, hscanned⟩ := hleft.stream.scanned
  obtain ⟨s, hs⟩ := Reading.exists_peeked_of_expression (Prod.ext (hresult.trans he) rfl)
  obtain ⟨hitem, -⟩ := hstands.scanned s hs
  obtain rfl : s = t := by
    rw [← TokenStream.item_drop_zero n, ← hstream] at hitem
    exact Item.token.inj (hitem.symm.trans ht)
  have hto := hscanned.hasScannedTo hs
  rwa [hstands.source_eq] at hto

end Parser

end Reckoner
