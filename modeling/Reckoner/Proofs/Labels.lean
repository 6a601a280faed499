import Reckoner.Proofs.Depths
import Reckoner.Proofs.Reports

/-!
# Labels and characters

The label of a failure to read covers some characters of the source text, so that the text can be
sliced at both of its ends. The failure that the text ends too soon is the only exception. Its label
is the last byte of the text, which is less than a character if the last character has more bytes.
-/

namespace Reckoner

/-- Whether both ends of a label stand between characters of a source text, or at its ends. -/
structure Label.IsAligned (label : Label) (source : String) : Prop where
  offset : String.Pos.Raw.IsValid source ⟨label.offset⟩
  finish : String.Pos.Raw.IsValid source ⟨label.offset + label.length⟩

theorem Diagnostic.PointsAt.isAligned {d : Diagnostic} {piece source : String}
    (h : d.PointsAt piece source) : d.label.IsAligned source := by
  obtain ⟨before, rest, rfl, -, hoffset, hlength⟩ := h
  refine ⟨?_, ?_⟩
  · rw [hoffset, String.append_assoc]
    exact String.Pos.Raw.isValid_rawEndPos.append_right _
  · rw [hoffset, hlength, ← String.utf8ByteSize_append]
    exact String.Pos.Raw.isValid_rawEndPos.append_right _

/-- The last byte of a text begins a character if and only if the last character is one byte. -/
theorem isValid_lastByte_iff (source : String) :
    String.Pos.Raw.IsValid source ⟨source.utf8ByteSize - 1⟩ ↔
      ∀ c ∈ source.toList.getLast?, c.utf8Size = 1 := by
  induction source using String.push_induction with
  | empty => simp
  | push front c _ =>
      have hpos := c.utf8Size_pos
      rw [String.toList_push, List.getLast?_concat, String.Pos.Raw.isValid_push,
        String.utf8ByteSize_push]
      simp only [Option.mem_some, forall_eq']
      constructor
      · rintro (hfront | hback)
        · have hle := hfront.le_utf8ByteSize
          simp only at hle
          omega
        · have hbyte := congrArg String.Pos.Raw.byteIdx hback
          simp only [String.Pos.Raw.byteIdx_add_char, String.byteIdx_rawEndPos] at hbyte
          omega
      · intro hone
        rw [hone]
        exact .inl String.Pos.Raw.isValid_rawEndPos

/-! ## The failures to read a text -/

/-- The failures to read that a source text has: at listing its tokens, at reading it as a program,
in the answers of a lexer and the replies of a parser, and at reading as a program what a parser has
left. -/
inductive ReadError.Occurs (source : String) : ReadError → Prop
  | listing {error : IllegalCharacter}
      (h : (TokenStream.ofString source).tokens = .error error) : Occurs source (.illegal error)
  | parsing {error : ReadError} (h : Program.parse source = .error error) : Occurs source error
  | answered {error : ReadError} {calls : List Call} {call : Call}
      (h : (call, .result (.error error)) ∈ ((Lexer.ofString source).callAll calls).1) :
      Occurs source error
  | replied {error : ReadError} {requests : List Parser.Request} {reply : Parser.Reply}
      (h : reply ∈ ((Parser.ofString source).requestAll requests).1)
      (hfailure : reply.failure? = some error) : Occurs source error
  | finishing {error : ReadError} {requests : List Parser.Request}
      (h : ((Parser.ofString source).requestAll requests).2.program = .error error) :
      Occurs source error

theorem TokenStream.item_mem_sequence (stream : TokenStream) (n : Nat) :
    stream.item n ∈ stream.sequence := by
  rw [sequence, List.mem_append, List.mem_singleton]
  exact stream.item_cases n

/-- A call fails at an illegal character, or at a token of another kind than is required. -/
theorem Call.isAbout_of_deliver {stream : TokenStream} {n : Nat} {call : Call} {error : ReadError}
    (h : call.deliver (stream.item n) = .result (.error error)) : error.IsAbout stream := by
  cases hitem : stream.item n with
  | illegal illegal =>
      have hmem : .illegal illegal ∈ stream.items := by
        rw [← hitem]
        exact (stream.item_cases n).resolve_right (by simp [hitem])
      rw [hitem] at h
      cases call <;> cases h <;> exact hmem
  | token t =>
      have hmem := stream.item_mem_sequence n
      rw [hitem] at h hmem
      cases call with
      | expect kind =>
          have hrequire : t.require kind = .error error := Answer.result.inj h
          rw [Token.require] at hrequire
          split at hrequire
          · cases hrequire
          · cases hrequire
            exact Reading.isAbout_refused hmem fun hkind => ⟨hmem, hkind⟩
      | next | peek | advance | restart => cases h

namespace Parser

variable {parser : Parser} {whole : TokenStream}

theorem isRest_perform (h : parser.stream.IsRest whole) {action : Reading TokenStream α}
    (haction : Reading.Consumes action) : (parser.perform action).2.stream.IsRest whole := by
  have hleft := haction parser.stream
  exact ⟨hleft.1.trans h.1, hleft.2.trans h.2⟩

theorem isAbout_of_perform (h : parser.stream.IsRest whole) {action : Reading TokenStream α}
    {P : α → Prop} (haction : Reading.Reports whole action P) {error : ReadError}
    (herror : (parser.perform action).1 = .error error) : error.IsAbout whole := by
  have haccount := haction h
  rwa [(Prod.ext herror rfl : action.on parser.stream = (.error error, _))] at haccount

/-- A parser has items left of those that it had before a request. -/
theorem isRest_request (h : parser.stream.IsRest whole) (asked : Request) :
    (parser.request asked).2.stream.IsRest whole := by
  cases asked with
  | advance =>
      change parser.advance.2.stream.IsRest whole
      rcases parser.advance_cases with hadvance | ⟨-, hstream⟩
      · rwa [hadvance]
      · rw [hstream]
        exact isRest_perform h Reading.consumes_statement
  | statement => exact isRest_perform h Reading.consumes_statement
  | expression => exact isRest_perform h Reading.consumes_expression

theorem isAbout_of_request (h : parser.stream.IsRest whole) {asked : Request} {error : ReadError}
    (hfailure : (parser.request asked).1.failure? = some error) : error.IsAbout whole := by
  obtain ⟨-, hresult, -⟩ | ⟨-, hresult⟩ := cases_of_failure? hfailure
  · exact isAbout_of_perform h Reading.reports_statement hresult
  · exact isAbout_of_perform h Reading.reports_expression hresult

theorem isRest_requestAll (h : parser.stream.IsRest whole) (requests : List Request) :
    (parser.requestAll requests).2.stream.IsRest whole := by
  induction requests generalizing parser with
  | nil => exact h
  | cons asked rest ih => exact ih (isRest_request h asked)

theorem isAbout_of_requestAll (h : parser.stream.IsRest whole) {requests : List Request}
    {reply : Reply} (hreply : reply ∈ (parser.requestAll requests).1) {error : ReadError}
    (hfailure : reply.failure? = some error) : error.IsAbout whole := by
  induction requests generalizing parser with
  | nil => cases hreply
  | cons asked rest ih =>
      rcases List.mem_cons.mp hreply with rfl | hreply
      · exact isAbout_of_request h hfailure
      · exact ih (isRest_request h asked) hreply

end Parser

theorem ReadError.Occurs.isAbout {source : String} {error : ReadError} (h : error.Occurs source) :
    error.IsAbout (.ofString source) := by
  have hwhole : (Parser.ofString source).stream.IsRest (.ofString source) :=
    ⟨List.suffix_refl _, rfl⟩
  cases h with
  | listing h => exact (Failure.Arises.listing h).isAbout
  | parsing h => exact isAbout_of_parse h
  | answered h =>
      obtain hnothing | ⟨k, hdeliver⟩ :=
        @Lexer.Stands.mem_callAll _ _ [] (Lexer.stands_ofString source) _ _ h
      · cases hnothing
      · exact Call.isAbout_of_deliver hdeliver.symm
  | replied h hfailure => exact Parser.isAbout_of_requestAll hwhole h hfailure
  | @finishing _ requests h =>
      apply Reading.isAbout_of_statements (Parser.isRest_requestAll hwhole requests)
      rw [Parser.program, Reading.program] at h
      split at h
      · cases h
      · rename_i hfound
        cases h
        rw [hfound]

/-! ## Labels -/

/-- The label of a failure points at a piece of the text, unless the failure is that the text ends
too soon: then it is the last byte, if there is one. -/
theorem ReadError.pointsAt_or_of_isAbout {source : String} {error : ReadError}
    (h : error.IsAbout (.ofString source)) :
    (∃ piece, error.diagnostic.PointsAt piece source ∧
        ∀ expected position, error ≠ .unparsable (.unexpectedEnd expected position)) ∨
      ∃ expected position, error = .unparsable (.unexpectedEnd expected position) ∧
        error.diagnostic.label.offset = source.utf8ByteSize - 1 ∧
        error.diagnostic.label.offset + error.diagnostic.label.length = source.utf8ByteSize := by
  have hlocated := error.isLocated_of_isAbout h
  cases error with
  | illegal error => exact .inl ⟨_, hlocated, by simp⟩
  | unparsable error =>
      cases error with
      | mismatch expected found => exact .inl ⟨_, hlocated.2, by simp⟩
      | unexpectedToken expected found => exact .inl ⟨_, hlocated.2, by simp⟩
      | unexpectedEnd expected position => exact .inr ⟨expected, position, rfl, hlocated.2⟩
      | tooDeep t =>
          obtain ⟨piece, -, hpoints⟩ := hlocated
          exact .inl ⟨piece, hpoints, by simp⟩

/-- The label of a failure to read ends between two characters of the text, or where the text ends.
It begins there too, unless the failure is that the text ends too soon. Then it begins before the
last byte, and this is between two characters if and only if the last character is one byte. -/
theorem ReadError.isAligned_label_iff {source : String} {error : ReadError}
    (h : error.Occurs source) :
    let label := error.diagnostic.label
    String.Pos.Raw.IsValid source ⟨label.offset + label.length⟩ ∧
      (label.IsAligned source ↔
        ∀ expected position, error = .unparsable (.unexpectedEnd expected position) →
          ∀ c ∈ source.toList.getLast?, c.utf8Size = 1) := by
  intro label
  obtain ⟨piece, hpoints, hne⟩ | ⟨expected, position, rfl, hoffset, hfinish⟩ :=
    pointsAt_or_of_isAbout h.isAbout
  · have haligned : label.IsAligned source := hpoints.isAligned
    refine ⟨haligned.finish, fun _ expected position herror => absurd herror (hne _ _), ?_⟩
    exact fun _ => haligned
  · have hend : String.Pos.Raw.IsValid source ⟨label.offset + label.length⟩ := by
      rw [hfinish]
      exact String.Pos.Raw.isValid_rawEndPos
    have hstart : String.Pos.Raw.IsValid source ⟨label.offset⟩ ↔
        ∀ c ∈ source.toList.getLast?, c.utf8Size = 1 := by
      rw [hoffset]
      exact isValid_lastByte_iff source
    refine ⟨hend, fun haligned _ _ _ => hstart.mp haligned.offset, fun hlast => ?_⟩
    exact ⟨hstart.mpr (hlast expected position rfl), hend⟩

/-- In `let é = 1;` the illegal character has two bytes and the label covers both. -/
theorem ReadError.isAligned_label_iff_two_bytes :
    let error : ReadError := .illegal ⟨'é', 4, 1, 5⟩
    error.Occurs "let é = 1;" ∧ error.diagnostic.label.IsAligned "let é = 1;" := by
  intro error
  have hoccurs : error.Occurs "let é = 1;" := .parsing (by decide +kernel)
  exact ⟨hoccurs, (isAligned_label_iff hoccurs).2.mpr (by simp [error])⟩

/-- In `print(1) // é` the missing semicolon is reported at the second byte of the last
character. -/
theorem ReadError.exists_not_isAligned_label :
    ∃ error : ReadError, error.Occurs "print(1) // é" ∧
      error.diagnostic.label = ⟨13, 1, "input ends here"⟩ ∧
        ¬error.diagnostic.label.IsAligned "print(1) // é" := by
  let error : ReadError := .unparsable (.unexpectedEnd (.kind .semicolon) ⟨14, 1, 14⟩)
  have hoccurs : error.Occurs "print(1) // é" := .parsing (by decide +kernel)
  have hsplit : ¬String.Pos.Raw.IsValid "print(1) // é" ⟨13⟩ :=
    String.Pos.Raw.isValid_eq_false_iff.mp (by decide +kernel)
  exact ⟨error, hoccurs, rfl, fun haligned => hsplit haligned.offset⟩

end Reckoner
