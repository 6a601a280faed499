import Reckoner.Interpreter
import Reckoner.Proofs.Partition
import Reckoner.Proofs.Places
import Reckoner.Proofs.Soundness

/-!
# Reports point at what they are about

Each failure is about an item of the source text or about its end. An action that reads keeps track
of this for the tokens it takes; a statement that runs finds its places in the tree, where they are
those of tokens. Since tokens stand where they say, the label of a report covers just the text that
the report is about.
-/

namespace Reckoner

namespace TokenStream

/-- Whether a stream is what is left of another one. -/
def IsRest (stream whole : TokenStream) : Prop :=
  stream.items <:+ whole.items ∧ stream.finish = whole.finish

variable {stream whole : TokenStream} {t : Token}

/-- The sequence of what is left of a stream is a part of the sequence of the stream. -/
theorem IsRest.mem_sequence (h : stream.IsRest whole) {item : Item}
    (hitem : item ∈ stream.sequence) : item ∈ whole.sequence := by
  rw [sequence, List.mem_append, endToken, h.2] at hitem
  rw [sequence, List.mem_append, endToken]
  exact hitem.imp (fun hmem => h.1.mem hmem) id

theorem IsRest.tail {u : List Token} (h : (stream.prepend u).IsRest whole) :
    stream.IsRest whole :=
  ⟨(List.suffix_append _ _).trans h.1, h.2⟩

/-- The first item of what is left of a stream is one of the stream, and so is the end. -/
theorem IsRest.head_cases (h : stream.IsRest whole) :
    (stream.items = [] ∧ .token stream.endToken ∈ whole.sequence) ∨
      (∃ t tail, stream = prepend [t] tail ∧ .token t ∈ whole.sequence ∧ tail.IsRest whole) ∨
        ∃ error tail, stream.items = .illegal error :: tail ∧ .illegal error ∈ whole.items := by
  obtain hnil | ⟨t, tail, rfl⟩ | ⟨error, tail, hitems⟩ := stream.head_cases
  · exact .inl ⟨hnil, h.mem_sequence (by simp [sequence])⟩
  · exact .inr (.inl ⟨t, tail, rfl, h.mem_sequence (by simp [sequence]), h.tail⟩)
  · exact .inr (.inr ⟨error, tail, hitems, h.1.mem (by simp [hitems])⟩)

end TokenStream

/-! ## Failures to read -/

/-- Whether a failure to read is about an item of a stream, or about its end. -/
def ReadError.IsAbout (whole : TokenStream) : ReadError → Prop
  | illegal error => .illegal error ∈ whole.items
  | unparsable (.mismatch _ found) | unparsable (.unexpectedToken _ found) =>
      .token found ∈ whole.sequence ∧ found.kind ≠ .endOfInput
  | unparsable (.unexpectedEnd _ position) =>
      ∃ t, .token t ∈ whole.sequence ∧ t.kind = .endOfInput ∧ t.position = position
  | unparsable (.tooDeep t) =>
      .token t ∈ whole.sequence ∧ (t.kind = .leftParen ∨ ∃ op : Operator, t.kind = op.sign)

namespace Reading

variable {whole : TokenStream}

/-- Whether an outcome of reading a part of a stream leaves a part of it together with a result that
has a property, or else is a failure about the stream. -/
def Accounts (whole : TokenStream) (P : α → Prop) : Except ReadError α × TokenStream → Prop
  | (.ok result, rest) => rest.IsRest whole ∧ P result
  | (.error error, _) => error.IsAbout whole

/-- Whether all outcomes of an action that reads parts of a stream are such. -/
def Reports (whole : TokenStream) (action : Reading TokenStream α) (P : α → Prop) : Prop :=
  ∀ ⦃stream : TokenStream⦄, stream.IsRest whole → Accounts whole P (action.on stream)

/-- Actions that report about a stream one after the other do so together. -/
theorem Reports.bind {action : Reading TokenStream α} {further : α → Reading TokenStream β}
    {P : α → Prop} {Q : β → Prop} (h : Reports whole action P)
    (hf : ∀ first, P first → Reports whole (further first) Q) :
    Reports whole (action >>= further) Q := by
  intro stream hs
  have hfirst := h hs
  rw [on_bind]
  cases hon : action.on stream with
  | mk result rest =>
      rw [hon] at hfirst
      cases result with
      | error error => exact hfirst
      | ok first => exact hf first hfirst.2 hfirst.1

theorem reports_pure {result : α} {P : α → Prop} (h : P result) : Reports whole (pure result) P :=
  fun _ hs => ⟨hs, h⟩

theorem reports_refuse {error : SyntaxError} {P : α → Prop}
    (h : (ReadError.unparsable error).IsAbout whole) : Reports whole (refuse error) P :=
  fun _ _ => h

/-- A token that is taken stands in the sequence, and an illegal character is one of the items. -/
theorem reports_next : Reports whole next fun t => .token t ∈ whole.sequence := by
  intro stream hs
  obtain ⟨hnil, hend⟩ | ⟨t, tail, rfl, ht, htail⟩ | ⟨error, tail, hitems, herror⟩ := hs.head_cases
  · rw [next_on_of_nil hnil]
    exact ⟨hs, hend⟩
  · rw [next_on_prepend]
    exact ⟨htail, ht⟩
  · rw [next_on_of_illegal hitems]
    exact herror

/-- A token that is looked at stands in the sequence, and an illegal character is one of the
items. -/
theorem reports_peek : Reports whole peek fun t => .token t ∈ whole.sequence := by
  intro stream hs
  obtain ⟨hnil, hend⟩ | ⟨t, tail, rfl, ht, -⟩ | ⟨error, tail, hitems, herror⟩ := hs.head_cases
  · rw [peek_on_of_nil hnil]
    exact ⟨hs, hend⟩
  · rw [peek_on_prepend]
    exact ⟨hs, ht⟩
  · rw [peek_on_of_illegal hitems]
    exact herror

/-- A token that is refused is an item, unless it is the end of input. -/
theorem isAbout_refused {t : Token} (h : .token t ∈ whole.sequence) {expected : Expectation}
    {error : SyntaxError}
    (herror : t.kind ≠ .endOfInput → (ReadError.unparsable error).IsAbout whole) :
    (ReadError.unparsable (if t.kind = .endOfInput then .unexpectedEnd expected t.position
      else error)).IsAbout whole := by
  split
  · exact ⟨t, h, ‹_›, rfl⟩
  · exact herror ‹_›

theorem reports_expect (kind : Kind) : Reports whole (expect kind) fun _ => True := by
  apply reports_next.bind
  intro t ht
  split
  · exact reports_pure trivial
  · exact reports_refuse (isAbout_refused ht fun hkind => ⟨ht, hkind⟩)

/-- A chain reports the sign of an operation that is too high. The end of input is no sign, so the
chain stops before it. -/
theorem reports_chain {operator? : Kind → Option Operator} {operand : Reading TokenStream Expr}
    (hop : ∀ {k op}, operator? k = some op → k = op.sign)
    (h : Reports whole operand fun _ => True) (left : Expr) :
    Reports whole (chain operator? operand left) fun _ => True := by
  have hend : operator? .endOfInput = none := operator?_endOfInput hop
  induction left using chain.induct with
  | case1 left ih =>
      intro stream hs
      obtain ⟨hnil, -⟩ | ⟨t, tail, rfl, ht, htail⟩ | ⟨error, tail, hitems, herror⟩ := hs.head_cases
      · rw [chain_on_of_peek (peek_on_of_nil hnil) hend]
        exact ⟨hs, trivial⟩
      · cases hoperator : operator? t.kind with
        | none =>
            rw [chain_on_of_peek (peek_on_prepend t [] tail) hoperator]
            exact ⟨hs, trivial⟩
        | some operator =>
            have hchain : Reports whole (chainTail operator? operand left operator t)
                fun _ => True := by
              apply h.bind
              intro right _
              split
              · exact ih operator t right ‹_›
              · exact reports_refuse ⟨ht, .inr ⟨operator, hop hoperator⟩⟩
            rw [chain_on_prepend hoperator]
            exact hchain htail
      · rw [chain, on_bind, peek_on_of_illegal hitems]
        exact herror

theorem reports_product {factor : Reading TokenStream Expr}
    (h : Reports whole factor fun _ => True) : Reports whole (product factor) fun _ => True :=
  h.bind fun left _ => reports_chain (fun hk => (multiplicative?_eq_some hk).2) h left

theorem reports_sum {factor : Reading TokenStream Expr} (h : Reports whole factor fun _ => True) :
    Reports whole (sum factor) fun _ => True :=
  (reports_product h).bind fun left _ =>
    reports_chain (fun hk => (additive?_eq_some hk).2) (reports_product h) left

/-- Only what a parenthesis opens depends on the number of levels. -/
theorem reports_factor_of {levels : Nat}
    (h : ∀ {l : Token}, .token l ∈ whole.sequence → l.kind = .leftParen →
      Reports whole (parenthesized levels l) fun _ => True) :
    Reports whole (factor levels) fun _ => True := by
  rw [factor_eq]
  apply reports_next.bind
  intro t ht
  rw [factorTail]
  split
  · exact reports_pure trivial
  · exact reports_pure trivial
  · exact h ht ‹_›
  · exact reports_refuse (isAbout_refused ht fun hkind => ⟨ht, hkind⟩)

theorem reports_factor (levels : Nat) : Reports whole (factor levels) fun _ => True := by
  induction levels with
  | zero => exact reports_factor_of fun hl hleft => reports_refuse ⟨hl, .inl hleft⟩
  | succ levels ih =>
      apply reports_factor_of
      intro l _ _
      exact (reports_sum ih).bind fun _ _ => (reports_expect _).bind fun _ _ => reports_pure trivial

theorem reports_expression : Reports whole expression fun _ => True :=
  reports_sum (reports_factor maxDepth)

theorem reports_statement : Reports whole statement fun _ => True := by
  apply reports_peek.bind
  intro t ht
  split
  · exact (reports_expect _).bind fun _ _ => (reports_expect _).bind fun _ _ =>
      (reports_expect _).bind fun _ _ => reports_expression.bind fun _ _ =>
        (reports_expect _).bind fun _ _ => reports_pure trivial
  · exact (reports_expect _).bind fun _ _ => (reports_expect _).bind fun _ _ =>
      reports_expression.bind fun _ _ => (reports_expect _).bind fun _ _ =>
        (reports_expect _).bind fun _ _ => reports_pure trivial
  · exact reports_refuse (isAbout_refused ht fun hkind => ⟨ht, hkind⟩)

/-- The failure that ends the statements of a stream is about the stream. -/
theorem isAbout_of_statements {stream : TokenStream} (hs : stream.IsRest whole)
    {error : ReadError} (h : (statements stream).2 = some error) : error.IsAbout whole := by
  induction stream using statements.induct with
  | case1 stream hend =>
      rw [statements_of_atEnd hend] at h
      cases h
  | case2 stream hend first rest hon =>
      rw [statements_of_error hend hon] at h
      have haccount := reports_statement hs
      rw [hon] at haccount
      cases h
      exact haccount
  | case3 stream hend first rest hon ih =>
      rw [statements_of_ok hon] at h
      have haccount := reports_statement hs
      rw [hon] at haccount
      exact ih haccount.1 h

end Reading

/-! ## Failures to run -/

/-- Whether the places in an expression are those of tokens of a stream: of its variables, and of
the signs of its operations. -/
def Expr.IsPlaced (whole : TokenStream) : Expr → Prop
  | literal _ => True
  | reference name position => .token ⟨.identifier, name, position⟩ ∈ whole.sequence
  | operation op left right position => left.IsPlaced whole ∧ right.IsPlaced whole ∧
      ∃ literal, .token ⟨op.sign, literal, position⟩ ∈ whole.sequence

/-- Whether a failure to run is about a token of a stream: a variable, or a division sign. -/
def RuntimeError.IsAbout (whole : TokenStream) : RuntimeError → Prop
  | undefinedVariable name position => .token ⟨.identifier, name, position⟩ ∈ whole.sequence
  | divisionByZero position => ∃ literal, .token ⟨.slash, literal, position⟩ ∈ whole.sequence

section

variable {whole : TokenStream}

/-- The places in an expression are those of its tokens. -/
theorem Derives.isPlaced {c : Category} {u : List Token} {e : Expr} (h : Derives c u e)
    (hu : ∀ t ∈ u, .token t ∈ whole.sequence) : e.IsPlaced whole := by
  induction h with
  | number => trivial
  | @identifier t h =>
      have ht := hu t List.mem_cons_self
      rcases t with ⟨kind, literal, position⟩
      cases h
      exact ht
  | parentheses _ _ _ ih => exact ih fun t ht => hu t (by simp [ht])
  | ofFactor _ ih => exact ih hu
  | ofProduct _ ih => exact ih hu
  | @operation c u v t op a b _ _ hsign _ ihu ihv =>
      refine ⟨ihu fun s hs => hu s (by simp [hs]), ihv fun s hs => hu s (by simp [hs]),
        t.literal, ?_⟩
      rw [← hsign]
      exact hu t (by simp)

theorem DerivesStatement.isPlaced {u : List Token} {statement : Statement}
    (h : DerivesStatement u statement) (hu : ∀ t ∈ u, .token t ∈ whole.sequence) :
    statement.value.IsPlaced whole := by
  cases h with
  | assignment _ _ _ he _ => exact he.isPlaced fun t ht => hu t (by simp [ht])
  | printing _ _ he _ _ => exact he.isPlaced fun t ht => hu t (by simp [ht])

theorem DerivesProgram.isPlaced {u : List Token} {found : List Statement}
    (h : DerivesProgram u found) (hu : ∀ t ∈ u, .token t ∈ whole.sequence) :
    ∀ statement ∈ found, statement.value.IsPlaced whole := by
  intro statement hstatement
  obtain ⟨v, hv, hsub⟩ := h.exists_of_mem hstatement
  exact hv.isPlaced fun t ht => hu t (hsub ht)

/-- Of two computations in turn the first one fails, or it succeeds and the second one fails. -/
theorem bind_eq_error {ε α β : Type} {x : Except ε α} {f : α → Except ε β} {error : ε}
    (h : (x >>= f) = .error error) : x = .error error ∨ ∃ a, x = .ok a ∧ f a = .error error := by
  cases x with
  | error first =>
      cases h
      exact .inl rfl
  | ok a => exact .inr ⟨a, rfl, h⟩

/-- An operation that fails is blamed at its sign. -/
theorem isAbout_of_apply {op : Operator} {left right : Number} {position : Position}
    {error : RuntimeError} (h : op.apply left right position = .error error)
    (hsign : ∃ literal, .token ⟨op.sign, literal, position⟩ ∈ whole.sequence) :
    error.IsAbout whole := by
  cases op with
  | divide =>
      rw [Operator.apply] at h
      split at h
      · cases h
        exact hsign
      · cases h
  | _ => cases h

theorem isAbout_of_evaluate {store : Store} {e : Expr} {error : RuntimeError}
    (h : e.evaluate store = .error error) (he : e.IsPlaced whole) : error.IsAbout whole := by
  induction e with
  | literal => cases h
  | reference name position =>
      rw [Expr.evaluate] at h
      split at h
      · cases h
      · cases h
        exact he
  | operation op left right position ihl ihr =>
      obtain ⟨hleft, hright, hsign⟩ := he
      rw [Expr.evaluate] at h
      obtain hl | ⟨l, -, h⟩ := bind_eq_error h
      · exact ihl hl hleft
      · obtain hr | ⟨r, -, h⟩ := bind_eq_error h
        · exact ihr hr hright
        · exact isAbout_of_apply h hsign

theorem isAbout_of_execute {state : Interpreter} {statement : Statement} {error : RuntimeError}
    (h : state.execute statement = .error error) (hs : statement.value.IsPlaced whole) :
    error.IsAbout whole := by
  cases statement with
  | assign name e =>
      obtain he | ⟨_, -, hnone⟩ := bind_eq_error h
      · exact isAbout_of_evaluate he hs
      · cases hnone
  | print e =>
      obtain he | ⟨_, -, hnone⟩ := bind_eq_error h
      · exact isAbout_of_evaluate he hs
      · cases hnone

theorem isAbout_of_executeAll {state : Interpreter} {found : List Statement}
    {error : RuntimeError} (h : (state.executeAll found).1 = some error)
    (hs : ∀ statement ∈ found, statement.value.IsPlaced whole) : error.IsAbout whole := by
  induction found generalizing state with
  | nil => cases h
  | cons statement rest ih =>
      obtain ⟨hfirst, hrest⟩ := List.forall_mem_cons.mp hs
      rw [Interpreter.executeAll] at h
      split at h
      · exact ih h hrest
      · rename_i failure hexecute
        cases h
        exact isAbout_of_execute hexecute hfirst

end

/-- Whether a failure is about an item of a stream, or about its end. -/
def Failure.IsAbout (whole : TokenStream) : Failure → Prop
  | read error => error.IsAbout whole
  | run error => error.IsAbout whole

/-- A text that is no program is refused at one of its items or at its end. -/
theorem isAbout_of_parse {source : String} {error : ReadError}
    (h : Program.parse source = .error error) : error.IsAbout (.ofString source) := by
  apply Reading.isAbout_of_statements ⟨List.suffix_refl _, rfl⟩
  rw [Program.parse, Reading.program] at h
  split at h
  · cases h
  · rename_i hfound
    cases h
    rw [hfound]

/-- The places in a program that was read are those of the tokens of its text. -/
theorem isPlaced_of_parse {source : String} {program : Program}
    (h : Program.parse source = .ok program) :
    ∀ statement ∈ program.statements, statement.value.IsPlaced (.ofString source) := by
  rw [Program.parse, Reading.program] at h
  split at h
  · rename_i found hfound
    cases h
    obtain ⟨u, hseq, hderives, -⟩ := Reading.statements_sound hfound
    apply hderives.isPlaced
    intro t ht
    rw [hseq]
    exact List.mem_map_of_mem ht
  · cases h

theorem isAbout_of_run {whole : TokenStream} {state : Interpreter} {program : Program}
    {error : RuntimeError} (h : (state.run program).1 = .error error)
    (hs : ∀ statement ∈ program.statements, statement.value.IsPlaced whole) :
    error.IsAbout whole := by
  rw [Interpreter.run] at h
  split at h
  · cases h
  · rename_i failure final hfailure
    cases h
    exact isAbout_of_executeAll (congrArg Prod.fst hfailure) hs

/-- A failure to run a text is about this text. -/
theorem isAbout_of_runSource {state : Interpreter} {source : String} {failure : Failure}
    (h : (state.runSource source).1 = .error failure) : failure.IsAbout (.ofString source) := by
  rw [Interpreter.runSource] at h
  split at h
  · rename_i hparse
    cases h
    exact isAbout_of_parse hparse
  · rename_i program hparse
    cases hrun : (state.run program).1 with
    | ok outcome =>
        simp only [hrun] at h
        cases h
    | error error =>
        simp only [hrun] at h
        cases h
        exact isAbout_of_run hrun (isPlaced_of_parse hparse)

/-! ## Labels -/

/-- Whether a report points at a piece of a source: its label covers the piece and nothing else, and
the position that it gives is that of the beginning of the piece. -/
def Diagnostic.PointsAt (d : Diagnostic) (piece source : String) : Prop :=
  ∃ before rest, source = before ++ piece ++ rest ∧ d.position = .behind before ∧
    d.label.offset = before.utf8ByteSize ∧ d.label.length = piece.utf8ByteSize

theorem Position.Marks.pointsAt {d : Diagnostic} {piece source : String}
    (h : d.position.Marks piece source) (hoffset : d.label.offset = d.position.offset)
    (hlength : d.label.length = piece.utf8ByteSize) : d.PointsAt piece source := by
  obtain ⟨before, rest, hsource, hposition⟩ := h
  refine ⟨before, rest, hsource, hposition, ?_, hlength⟩
  rw [hoffset, hposition]
  rfl

namespace TokenStream

variable {source : String}

theorem mem_items_of_kind_ne {t : Token} (h : .token t ∈ (ofString source).sequence)
    (ht : t.kind ≠ .endOfInput) : .token t ∈ (ofString source).items := by
  rw [sequence, List.mem_append, List.mem_singleton] at h
  apply h.resolve_right
  rintro ⟨⟩
  exact ht rfl

/-- The end of input stands behind the text. -/
theorem position_of_kind_eq {t : Token} (h : .token t ∈ (ofString source).sequence)
    (ht : t.kind = .endOfInput) : t.position = .behind source := by
  rw [sequence, List.mem_append, List.mem_singleton] at h
  cases h with
  | inl hitem => exact absurd ht (kind_ne_of_mem_ofChars hitem)
  | inr hend =>
      cases hend
      exact finish_ofString source

/-- A token whose kind is that of a single character is this character. -/
theorem literal_of_delimiter? (c : Char) {t : Token} (h : .token t ∈ (ofString source).sequence)
    (hc : Lexeme.delimiter? c = some t.kind) :
    .token t ∈ (ofString source).items ∧ t.literal = String.singleton c := by
  obtain ⟨hnumber, hword, hend⟩ := Lexeme.kind_of_delimiter? hc
  have hitem := mem_items_of_kind_ne h hend
  obtain ⟨_, hlexed⟩ := (partitions_ofChars _ _).isLexed_of_mem hitem
  obtain ⟨d, hd, hkind⟩ := hlexed.sign hnumber hword
  refine ⟨hitem, ?_⟩
  rw [← String.toList_inj, hd, Lexeme.eq_of_delimiter? hkind hc]
  exact (String.toList_singleton c).symm

theorem literal_of_sign (op : Operator) {t : Token} (h : .token t ∈ (ofString source).sequence)
    (ht : t.kind = op.sign) : .token t ∈ (ofString source).items ∧ t.literal = op.symbol := by
  obtain ⟨c, hsymbol, hc⟩ := op.exists_toList_symbol
  obtain ⟨hitem, hliteral⟩ := literal_of_delimiter? c h (ht ▸ hc)
  refine ⟨hitem, ?_⟩
  rw [hliteral, ← String.toList_inj, hsymbol]
  exact String.toList_singleton c

end TokenStream

/-- Whether the report of a failure points at the text that the failure is about. If this is the end
of the source, the label covers the last byte, if there is one. -/
def Failure.IsLocated (source : String) (failure : Failure) : Prop :=
  match failure with
  | read (.illegal error) =>
      failure.diagnostic.PointsAt (String.singleton error.char) source
  | read (.unparsable (.mismatch _ found)) | read (.unparsable (.unexpectedToken _ found)) =>
      .token found ∈ (TokenStream.ofString source).items ∧
        failure.diagnostic.PointsAt found.literal source
  | read (.unparsable (.unexpectedEnd _ _)) =>
      failure.diagnostic.position = .behind source ∧
        failure.diagnostic.label.offset = source.utf8ByteSize - 1 ∧
          failure.diagnostic.label.offset + failure.diagnostic.label.length = source.utf8ByteSize
  | read (.unparsable (.tooDeep _)) =>
      ∃ piece, (piece = "(" ∨ ∃ op : Operator, piece = op.symbol) ∧
        failure.diagnostic.PointsAt piece source
  | run (.undefinedVariable name _) => failure.diagnostic.PointsAt name source
  | run (.divisionByZero _) => failure.diagnostic.PointsAt "/" source

theorem pointsAt_of_token {source : String} {t : Token} {d : Diagnostic}
    (h : .token t ∈ (TokenStream.ofString source).items) (hposition : d.position = t.position)
    (hoffset : d.label.offset = t.position.offset)
    (hlength : d.label.length = t.literal.utf8ByteSize) : d.PointsAt t.literal source := by
  have hstands : t.position.Marks t.literal source := TokenStream.stands_of_mem h
  rw [← hposition] at hstands hoffset
  exact hstands.pointsAt hoffset hlength

/-- A failure to read that is about a text points at the text that it is about. -/
theorem ReadError.isLocated_of_isAbout {source : String} {error : ReadError}
    (h : error.IsAbout (.ofString source)) : (Failure.read error).IsLocated source := by
  cases error with
  | illegal error =>
      have hstands : error.position.Marks (String.singleton error.char) source :=
        TokenStream.stands_of_mem h
      exact Position.Marks.pointsAt hstands rfl String.utf8ByteSize_singleton.symm
  | unparsable error =>
      cases error with
      | mismatch expected found | unexpectedToken expected found =>
          have hmem := TokenStream.mem_items_of_kind_ne h.1 h.2
          exact ⟨hmem, pointsAt_of_token hmem rfl rfl rfl⟩
      | unexpectedEnd expected position =>
          obtain ⟨t, hmem, ht, rfl⟩ := h
          have hend := TokenStream.position_of_kind_eq hmem ht
          have hoffset : t.position.offset = source.utf8ByteSize := congrArg Position.offset hend
          refine ⟨hend, congrArg (· - 1) hoffset, ?_⟩
          calc t.position.offset - 1 + (t.position.offset - (t.position.offset - 1))
            _ = t.position.offset := Nat.add_sub_of_le (Nat.sub_le _ 1)
            _ = source.utf8ByteSize := hoffset
      | tooDeep t =>
          obtain ⟨hmem, hleft | ⟨op, hop⟩⟩ := h
          · obtain ⟨hitem, hliteral⟩ := TokenStream.literal_of_delimiter? '(' hmem (hleft ▸ rfl)
            exact ⟨t.literal, .inl hliteral, pointsAt_of_token hitem rfl rfl rfl⟩
          · obtain ⟨hitem, hliteral⟩ := TokenStream.literal_of_sign op hmem hop
            exact ⟨t.literal, .inr ⟨op, hliteral⟩, pointsAt_of_token hitem rfl rfl rfl⟩

/-- A failure to run that is about a text points at the text that it is about. -/
theorem RuntimeError.isLocated_of_isAbout {source : String} {error : RuntimeError}
    (h : error.IsAbout (.ofString source)) : (Failure.run error).IsLocated source := by
  cases error with
  | undefinedVariable name position =>
      have hmem := TokenStream.mem_items_of_kind_ne h Kind.noConfusion
      exact pointsAt_of_token hmem rfl rfl rfl
  | divisionByZero position =>
      obtain ⟨literal, h⟩ := h
      obtain ⟨hitem, hliteral⟩ := TokenStream.literal_of_sign .divide h rfl
      subst hliteral
      exact pointsAt_of_token hitem rfl rfl rfl

/-- The failures that a source text has: at listing its tokens, at reading it as a program, and at
running it in some state. -/
inductive Failure.Arises (source : String) : Failure → Prop
  | listing {error : IllegalCharacter}
      (h : (TokenStream.ofString source).tokens = .error error) :
      Arises source (.read (.illegal error))
  | reading {error : ReadError} (h : Program.parse source = .error error) :
      Arises source (.read error)
  | running {state : Interpreter} {failure : Failure}
      (h : (state.runSource source).1 = .error failure) : Arises source failure

/-- Failures are about the text that they arise from. -/
theorem Failure.Arises.isAbout {source : String} {failure : Failure} (h : failure.Arises source) :
    failure.IsAbout (.ofString source) := by
  cases h with
  | @listing error h =>
      obtain ⟨u, rest, hitems⟩ := TokenStream.tokens_eq_error_iff.mp h
      change Item.illegal error ∈ (TokenStream.ofString source).items
      rw [hitems]
      exact List.mem_append_right _ List.mem_cons_self
  | reading h => exact isAbout_of_parse h
  | running h => exact isAbout_of_runSource h

/-- Whatever failure a source text has, its report points at the text that the failure is about. -/
theorem Failure.isLocated_of_arises {source : String} {failure : Failure}
    (h : failure.Arises source) : failure.IsLocated source := by
  have habout := h.isAbout
  cases failure with
  | read error => exact error.isLocated_of_isAbout habout
  | run error => exact error.isLocated_of_isAbout habout

/-- In `// é` and `print(1 / x);` below, the variable without a value is the seventeenth byte and
the eleventh column of the second line. -/
theorem Failure.isLocated_of_arises_second_line :
    let failure : Failure := .run (.undefinedVariable "x" ⟨16, 2, 11⟩)
    failure.Arises "// é\nprint(1 / x);" ∧ failure.IsLocated "// é\nprint(1 / x);" := by
  have harises : Arises "// é\nprint(1 / x);" (.run (.undefinedVariable "x" ⟨16, 2, 11⟩)) :=
    @Arises.running _ .fresh _ (by decide +kernel)
  exact ⟨harises, isLocated_of_arises harises⟩

end Reckoner
