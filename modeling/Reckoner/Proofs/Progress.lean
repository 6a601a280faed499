import Reckoner.Proofs.Layout
import Reckoner.Proofs.OnDemand
import Reckoner.Proofs.Spacing

/-!
# Readers get on

A lexer that keeps no token passes a character when it is asked for the next token, unless it
delivers the end of input. So a text has no more items than bytes, and iterating over it ends. A
statement takes at least five tokens, and a turn of a chain that joins an operand at least two.
Hence a loop that reads statements up to the end of the text needs no more than one turn for every
five bytes.
-/

namespace Reckoner

/-! ## Scanning passes characters -/

/-- Scanning comes to the end of the text or to an item that has characters. -/
theorem scan_ends_or_passes (p : Position) (text : List Char) :
    (∃ t, (scan p text).1 = .token t ∧ t.kind = .endOfInput) ∨ (scan p text).1.chars ≠ [] := by
  fun_induction scan p text with
  | case1 p => exact .inl ⟨_, rfl, rfl⟩
  | case2 p c rest _ ih => exact ih
  | case3 p c rest _ _ comment ih => exact ih
  | case4 p c rest _ _ lexeme tail hread =>
      obtain ⟨_, hchars, -⟩ := Lexeme.exists_chars_read c rest
      rw [hread] at hchars
      rw [Lexeme.chars_item, hchars]
      exact .inr (List.cons_ne_nil _ _)

theorem offset_lt_scan {p : Position} {text : List Char} (h : (scan p text).1.chars ≠ []) :
    p.offset < (scan p text).2.1.offset := by
  obtain ⟨gap, -, hplace, -⟩ := exists_gap_scan p text
  obtain ⟨c, tail, hchars⟩ := List.exists_cons_of_ne_nil h
  rw [hplace, hchars, Position.after_append]
  exact (p.offset_le_after gap).trans_lt (Position.offset_lt_after_cons _ c tail)

theorem length_le_utf8ByteSize (text : List Char) :
    text.length ≤ (String.ofList text).utf8ByteSize := by
  induction text with
  | nil => exact Nat.zero_le _
  | cons c text ih =>
      have hpos := c.utf8Size_pos
      rw [String.ofList_cons, String.utf8ByteSize_append, String.utf8ByteSize_singleton,
        List.length_cons]
      omega

namespace TokenStream

/-- A text has no more items than characters. -/
theorem length_items_ofChars_le (p : Position) (text : List Char) :
    (ofChars p text).items.length ≤ text.length := by
  induction p, text using ofChars.induct with
  | case1 p text gap hgap =>
      rw [ofChars_of_nil hgap]
      exact Nat.zero_le _
  | case2 p text gap c rest hgap place lexeme ih =>
      rw [ofChars_of_cons hgap]
      exact (Nat.succ_le_succ ih).trans (Lexeme.length_read_snd_lt hgap)

/-- A text has no more items than bytes. -/
theorem length_items_ofString_le (source : String) :
    (ofString source).items.length ≤ source.utf8ByteSize := by
  have hbytes := length_le_utf8ByteSize source.toList
  rw [String.ofList_toList] at hbytes
  exact (length_items_ofChars_le .start source.toList).trans hbytes

end TokenStream

namespace Lexer

/-- The number of bytes that a lexer has not scanned. -/
def remaining (lexer : Lexer) : Nat :=
  (String.ofList lexer.rest).utf8ByteSize

variable {lexer : Lexer} {front : List Char}

/-- A lexer that keeps no token delivers the end of input or scans some bytes. -/
theorem next_ends_or_passes (h : lexer.peeked = none) :
    (∃ t, lexer.next.1 = .ok t ∧ t.kind = .endOfInput) ∨
      lexer.place.offset < lexer.next.2.place.offset := by
  simp only [next, h]
  obtain ⟨t, ht, hend⟩ | hchars := scan_ends_or_passes lexer.place lexer.rest
  · rw [ht]
    exact .inl ⟨t, rfl, hend⟩
  · exact .inr (offset_lt_scan hchars)

theorem HasScanned.offset_add_remaining (h : lexer.HasScanned front) :
    lexer.place.offset + lexer.remaining = lexer.source.utf8ByteSize := by
  rw [h.place_eq, Position.after_start, remaining, ← String.ofList_toList (s := lexer.source),
    h.source_eq, String.ofList_append, String.utf8ByteSize_append]
  rfl

theorem HasScanned.call (h : lexer.HasScanned front) (call : Call) :
    ∃ further, (lexer.call call).2.HasScanned further := by
  cases call with
  | next => exact h.next
  | peek => exact h.peek
  | expect kind => exact h.next
  | advance =>
      obtain ⟨further, hnext⟩ := h.next
      change ∃ further, lexer.advance.2.HasScanned further
      rw [advance]
      split
      · exact ⟨front, h⟩
      · rcases hresult : lexer.next with ⟨error | t, rest⟩
        · rw [hresult] at hnext
          exact ⟨further, hnext.source_eq, hnext.place_eq, hnext.peeked_eq⟩
        · rw [hresult] at hnext
          exact ⟨further, hnext.source_eq, hnext.place_eq, hnext.peeked_eq⟩
  | restart => exact ⟨[], hasScanned_ofString lexer.source⟩

/-- Whatever is called, a lexer has scanned just some text at the beginning of its source. -/
theorem HasScanned.callAll (h : lexer.HasScanned front) (calls : List Call) :
    ∃ further, (lexer.callAll calls).2.HasScanned further := by
  induction calls generalizing lexer front with
  | nil => exact ⟨front, h⟩
  | cons call calls ih =>
      obtain ⟨further, hcall⟩ := h.call call
      exact ih hcall

/-! ## Iterating ends -/

/-- Whether iterating yields some results and then nothing, however often it is asked for more. -/
def Iterates (lexer : Lexer) (results : List (Except ReadError Token)) : Prop :=
  ∀ k, (lexer.callAll (List.replicate (results.length + k) .advance)).1 =
    results.map (fun result => (.advance, .result result)) ++ List.replicate k (.advance, .nothing)

theorem Iterates.cons {rest : Lexer} {result : Except ReadError Token}
    {results : List (Except ReadError Token)} (hadvance : lexer.advance = (some result, rest))
    (h : rest.Iterates results) : lexer.Iterates (result :: results) := by
  intro k
  rw [List.length_cons, Nat.add_right_comm, List.replicate_succ, callAll_cons, Lexer.call, hadvance,
    h k]
  rfl

variable {source : String} {n : Nat}

theorem Stands.iterates_of_ended (h : lexer.Stands source n true) : lexer.Iterates [] := by
  intro k
  rw [List.length_nil, Nat.zero_add]
  exact h.callAll_replicate_advance_of_ended k

/-- Iterating yields no more than the items that are left and the end of input. -/
theorem Stands.exists_iterates (h : lexer.Stands source n false) {m : Nat}
    (hm : (TokenStream.ofString source).items.length - n = m) :
    ∃ results, lexer.Iterates results ∧ results.length ≤ m + 1 := by
  induction m generalizing lexer n with
  | zero =>
      obtain ⟨hresult, hnext⟩ := h.advance
      rw [endsIteration_item, decide_eq_true (by omega)] at hnext
      exact ⟨_, hnext.iterates_of_ended.cons (Prod.ext hresult rfl), Nat.le_refl _⟩
  | succ m ih =>
      obtain ⟨hresult, hnext⟩ := h.advance
      rw [endsIteration_item, decide_eq_false (by omega)] at hnext
      obtain ⟨results, hresults, hlength⟩ := ih hnext (by omega)
      exact ⟨_, hresults.cons (Prod.ext hresult rfl), Nat.succ_le_succ hlength⟩

/-- Wherever a lexer stands in a text, iterating ends after at most one item more than the text has
bytes. -/
theorem Stands.exists_iterates_of_utf8ByteSize {ended : Bool} (h : lexer.Stands source n ended) :
    ∃ results, lexer.Iterates results ∧ results.length ≤ source.utf8ByteSize + 1 := by
  cases ended with
  | true => exact ⟨[], h.iterates_of_ended, Nat.zero_le _⟩
  | false =>
      have hitems := TokenStream.length_items_ofString_le source
      obtain ⟨results, hresults, hlength⟩ := h.exists_iterates rfl
      exact ⟨results, hresults, by omega⟩

end Lexer

/-! ## Statements and turns take tokens -/

theorem Derives.length_pos {c : Category} {u : List Token} {e : Expr} (h : Derives c u e) :
    0 < u.length := by
  induction h with
  | number _ | identifier _ => exact Nat.one_pos
  | parentheses _ _ _ _ => exact Nat.succ_pos _
  | ofFactor _ ih | ofProduct _ ih => exact ih
  | operation _ _ _ _ ihu _ =>
      rw [List.length_append]
      exact Nat.lt_add_right _ ihu

/-- A statement has five tokens at least. -/
theorem DerivesStatement.five_le_length {u : List Token} {statement : Statement}
    (h : DerivesStatement u statement) : 5 ≤ u.length := by
  cases h with
  | assignment _ _ _ hu _ =>
      have hpos := hu.length_pos
      simp only [List.length_append, List.length_cons, List.length_nil]
      omega
  | printing _ _ hu _ _ =>
      have hpos := hu.length_pos
      simp only [List.length_append, List.length_cons, List.length_nil]
      omega

namespace Reading

theorem Yields.mono {action : Reading TokenStream α} {P R : List Token → α → Prop}
    (h : Yields action P) (hPR : ∀ u result, P u result → R u result) : Yields action R := by
  intro stream rest result hon
  obtain ⟨u, hu, hP⟩ := h hon
  exact ⟨u, hu, hPR u result hP⟩

/-- A statement takes at least five tokens. -/
theorem statement_takes_five : Yields statement fun u _ => 5 ≤ u.length :=
  yields_statement.mono fun _ _ hu => hu.derives.five_le_length

/-- One turn of a chain behind `left`. If the next token is one of the operations, an operand
follows and both are joined. -/
def turn (operator? : Kind → Option Operator) (operand : Reading TokenStream Expr) (left : Expr) :
    Reading TokenStream (Option Expr) := do
  let token ← peek
  match operator? token.kind with
  | none => return none
  | some operator =>
    let token ← next
    let right ← operand
    if 1 + max left.depth right.depth ≤ maxDepth then
      return some (.operation operator left right token.position)
    else refuse (.tooDeep token)

variable {operator? : Kind → Option Operator} {operand : Reading TokenStream Expr}

/-- A chain is its turns, up to the first one that joins nothing. -/
theorem chain_eq_turn (operator? : Kind → Option Operator) (operand : Reading TokenStream Expr)
    (left : Expr) : chain operator? operand left =
      turn operator? operand left >>= fun joined =>
        joined.elim (pure left) (chain operator? operand) := by
  rw [chain, turn, bind_assoc]
  refine bind_congr fun token => ?_
  cases operator? token.kind with
  | none => rfl
  | some operator =>
      simp only [bind_assoc]
      refine bind_congr fun token => bind_congr fun right => ?_
      split
      · rw [pure_bind]
        rfl
      · rfl

/-- A turn of a chain at a sign joins an operand. -/
theorem turn_on_prepend {t : Token} {operator : Operator} (ht : operator? t.kind = some operator)
    (left : Expr) (stream : TokenStream) :
    (turn operator? operand left).on (stream.prepend [t]) = (do
      let right ← operand
      if 1 + max left.depth right.depth ≤ maxDepth then
        return some (.operation operator left right t.position)
      else refuse (.tooDeep t) : Reading TokenStream (Option Expr)).on stream := by
  rw [turn, on_bind, peek_on_prepend]
  simp only [ht]
  rw [on_bind, next_on_prepend]
  rfl

/-- A turn of a chain before anything else ends it. -/
theorem turn_on_of_peek {stream : TokenStream} {t : Token}
    (hpeek : peek.on stream = (.ok t, stream)) (ht : operator? t.kind = none) (left : Expr) :
    (turn operator? operand left).on stream = (.ok none, stream) := by
  rw [turn, on_bind, hpeek]
  simp only [ht, on_pure]

/-- What a turn joins has the given left side, and the turn takes at least two tokens. -/
theorem turn_takes_two (hend : operator? .endOfInput = none)
    (h : Yields operand fun u _ => 0 < u.length) (left : Expr) :
    Yields (turn operator? operand left) fun u joined => ∀ e, joined = some e →
      (∃ operator right position, e = .operation operator left right position) ∧
        2 ≤ u.length := by
  intro stream rest joined hon
  rcases stream.head_cases with hnil | ⟨t, tail, rfl⟩ | ⟨error, tail, hitems⟩
  · rw [turn_on_of_peek (peek_on_of_nil hnil) hend, Prod.mk.injEq, Except.ok.injEq] at hon
    obtain ⟨rfl, rfl⟩ := hon
    exact ⟨[], rfl, by simp⟩
  · cases ht : operator? t.kind with
    | none =>
        rw [turn_on_of_peek (peek_on_prepend t [] tail) ht, Prod.mk.injEq, Except.ok.injEq] at hon
        obtain ⟨rfl, rfl⟩ := hon
        exact ⟨[], rfl, by simp⟩
    | some operator =>
        rw [turn_on_prepend ht] at hon
        obtain ⟨right, middle, hright, hjoined⟩ := on_bind_eq_ok.mp hon
        obtain ⟨v, rfl, hv⟩ := h hright
        split at hjoined
        · cases hjoined
          refine ⟨t :: v, (TokenStream.prepend_append [t] v rest).symm, ?_⟩
          rintro _ ⟨⟩
          exact ⟨⟨operator, right, t.position, rfl⟩, Nat.succ_le_succ hv⟩
        · cases hjoined
  · rw [turn, on_bind, peek_on_of_illegal hitems] at hon
    cases (Prod.mk.inj hon).1

/-- Whether a chain is made of turns, each of which takes at least `k` tokens if it joins an operand
to the left side. -/
structure TurnsTake (k : Nat) (operator? : Kind → Option Operator)
    (operand : Reading TokenStream Expr) : Prop where
  chain_eq : ∀ left, chain operator? operand left =
    turn operator? operand left >>= fun joined =>
      joined.elim (pure left) (chain operator? operand)
  takes : ∀ left, Yields (turn operator? operand left) fun u joined => ∀ e, joined = some e →
    (∃ operator right position, e = .operation operator left right position) ∧ k ≤ u.length

theorem turnsTake_two {c : Category} {levels : Nat} (hend : operator? .endOfInput = none)
    (h : Yields operand (DerivesWithin levels c)) : TurnsTake 2 operator? operand where
  chain_eq := chain_eq_turn operator? operand
  takes := turn_takes_two hend (h.mono fun _ _ hu => hu.derives.length_pos)

/-! ## Programs -/

theorem program_of_atEnd {stream : TokenStream} (h : stream.atEnd) :
    program stream = .ok ⟨[]⟩ := by
  rw [program, statements_of_atEnd h]

theorem program_of_error {stream rest : TokenStream} {error : ReadError} (hend : ¬stream.atEnd)
    (h : statement.on stream = (.error error, rest)) : program stream = .error error := by
  rw [program, statements_of_error hend h]

theorem program_of_ok {stream rest : TokenStream} {first : Statement}
    (h : statement.on stream = (.ok first, rest)) :
    program stream = (program rest).map fun further => ⟨first :: further.statements⟩ := by
  rw [program, statements_of_ok h, program]
  rcases statements rest with ⟨further, _ | error⟩ <;> rfl

section

variable {σ τ : Type} [TokenSource σ] [TokenSource τ] [ExprSource σ] [ExprSource τ]

/-- The statements up to the end of the text. In each turn of the loop the next token shows whether
there is one more. There is no result if `turns` turns do not come to the end of the text. -/
def programWithin : Nat → Reading σ (Option (List Statement))
  | 0 => return none
  | turns + 1 => do
    match ← element? with
    | none =>
      let _ ← expect .endOfInput
      return some []
    | some first =>
      let further ← programWithin turns
      return further.map (first :: ·)

/-- Loops with the same number of turns read alike where tokens and expressions do. -/
theorem ExprsAlike.programWithin {R : σ → τ → Prop} (h : ExprsAlike R) (turns : Nat) :
    Simulates R (programWithin turns : Reading σ (Option (List Statement)))
      (programWithin turns) := by
  induction turns with
  | zero => exact simulates_pure none
  | succ turns ih =>
      apply h.element?.bind
      intro found
      cases found with
      | none => exact (h.tokens.expect _).bind fun _ => simulates_pure _
      | some first => exact ih.bind fun further => simulates_pure _

end

theorem on_bind_pure_fst {σ : Type} (action : Reading σ α) (f : α → β) (source : σ) :
    ((action >>= fun result => pure (f result)).on source).1 = (action.on source).1.map f := by
  rw [on_bind]
  rcases action.on source with ⟨_ | _, _⟩ <;> rfl

theorem programWithin_on_of_atEnd {stream : TokenStream} (h : stream.atEnd) (turns : Nat) :
    ((programWithin (turns + 1)).on stream).1 = .ok (some []) := by
  have hitem : stream.item 0 = .token stream.endToken := by
    rw [TokenStream.item, List.isEmpty_iff.mp h]
    rfl
  have hexpect : (expect .endOfInput).on stream = (.ok stream.endToken, stream.drop 1) := by
    rw [expect, on_bind, on_next_eq, hitem]
    rfl
  rw [programWithin, on_bind, element?_on_of_atEnd h]
  change ((expect .endOfInput >>= fun _ => pure (some [])).on stream).1 = _
  rw [on_bind, hexpect]
  rfl

/-- One turn for every five items that are left, and one for the end of the text, are enough, since
a statement takes five tokens. -/
theorem programWithin_on {stream : TokenStream} {turns : Nat}
    (hturns : stream.items.length < 5 * turns) :
    ((programWithin turns).on stream).1 = (program stream).map (some ·.statements) := by
  induction turns generalizing stream with
  | zero => exact absurd hturns (Nat.not_lt_zero _)
  | succ turns ih =>
      by_cases hend : stream.atEnd
      · rw [programWithin_on_of_atEnd hend, program_of_atEnd hend]
        rfl
      · rw [programWithin, on_bind, element?_on_of_not_atEnd hend]
        rcases hon : statement.on stream with ⟨error | first, rest⟩
        · rw [program_of_error hend hon]
          rfl
        · have hrest : rest.items.length < 5 * turns := by
            obtain ⟨u, rfl, hlength⟩ := statement_takes_five hon
            rw [TokenStream.items_prepend, List.length_append, List.length_map] at hturns
            omega
          change ((programWithin turns >>= fun further =>
            pure (further.map (first :: ·))).on rest).1 = _
          rw [on_bind_pure_fst, ih hrest, program_of_ok hon]
          cases program rest <;> rfl

end Reading

/-- Reading all that is left from a lexer comes to an end, with the program or the failure that the
items left have. -/
theorem Parser.Follows.program {source : String} {lexing : Parser Lexer} {parser : Parser}
    (h : Follows (Lexer.HasLeft source) lexing parser) {turns : Nat}
    (hturns : source.utf8ByteSize < 5 * turns) :
    (lexing.perform (Reading.programWithin turns)).1 = parser.program.map (some ·.statements) := by
  obtain ⟨n, -, hstream⟩ := h.stream.stands
  have hitems := TokenStream.length_items_ofString_le source
  have hleft : parser.stream.items.length < 5 * turns := by
    rw [hstream, TokenStream.drop, List.length_drop]
    omega
  have hperform := h.perform ((Lexer.exprsAlike_hasLeft source).programWithin turns)
  exact hperform.1.trans (Reading.programWithin_on hleft)

end Reckoner
