import Mathlib.Data.List.Forall2
import Reckoner.Parser
import Reckoner.Proofs.Soundness

/-!
# Reading statement by statement

Iterating a parser yields the statements that reading the whole text finds, and then the failure
that the whole text has, if it has one. Behind a failure, and behind the end of the text, the
iteration stays at its end, whatever else the parser is asked for.
-/

namespace Reckoner

namespace Reading

theorem consumes_assignment : Consumes assignment :=
  (consumes_expect _).bind fun _ => (consumes_expect _).bind fun _ =>
    (consumes_expect _).bind fun _ => consumes_expression.bind fun _ =>
      (consumes_expect _).bind fun _ => consumes_pure _

theorem consumes_printing : Consumes printing :=
  (consumes_expect _).bind fun _ => (consumes_expect _).bind fun _ =>
    consumes_expression.bind fun _ => (consumes_expect _).bind fun _ =>
      (consumes_expect _).bind fun _ => consumes_pure _

theorem consumes_statement : Consumes statement :=
  consumes_peek.bind fun token => by
    split
    · exact consumes_assignment
    · exact consumes_printing
    · exact consumes_refuse _

theorem element?_on_of_atEnd {stream : TokenStream} (h : stream.atEnd) :
    element?.on stream = (.ok none, stream) := by
  have hitems : stream.items = [] := List.isEmpty_iff.mp h
  rw [element?, on_bind, on_atEnd, hitems]
  rfl

/-- Before the end of the text the next element is the next statement. -/
theorem element?_on_of_not_atEnd {stream : TokenStream} (h : ¬stream.atEnd) :
    element?.on stream = ((statement.on stream).1.map some, (statement.on stream).2) := by
  rw [element?, on_bind, on_atEnd]
  rcases stream.head_cases with hnil | ⟨t, tail, rfl⟩ | ⟨error, tail, hitems⟩
  · exact absurd (List.isEmpty_iff.mpr hnil) h
  · change (statement >>= fun found => pure (some found)).on (tail.prepend [t]) = _
    rw [on_bind]
    rcases statement.on (tail.prepend [t]) with ⟨_ | _, rest⟩ <;> rfl
  · rw [hitems, statement, on_bind, peek_on_of_illegal hitems]
    rfl

/-- Whether some statements can be read from a stream one after another, and what they leave of
it. -/
def Passes (stream : TokenStream) (found : List Statement) (rest : TokenStream) : Prop :=
  ∃ pieces, List.Forall₂ DerivesStatementWithin pieces found ∧ stream = rest.prepend pieces.flatten

theorem passes_nil (stream : TokenStream) : Passes stream [] stream :=
  ⟨[], .nil, rfl⟩

theorem Passes.cons {u : List Token} {first : Statement} {found : List Statement}
    {stream rest : TokenStream} (hu : DerivesStatementWithin u first)
    (h : Passes stream found rest) : Passes (stream.prepend u) (first :: found) rest := by
  obtain ⟨pieces, hpieces, rfl⟩ := h
  exact ⟨u :: pieces, .cons hu hpieces, (TokenStream.prepend_append u pieces.flatten rest).symm⟩

/-- The statements of a stream can be read one after another. Behind them the stream is at its end,
or the next statement fails. -/
theorem passes_statements (stream : TokenStream) :
    ∃ rest, Passes stream (statements stream).1 rest ∧
      match (statements stream).2 with
      | none => rest.atEnd
      | some error => (statement.on rest).1 = .error error := by
  induction stream using statements.induct with
  | case1 stream hend =>
      rw [statements_of_atEnd hend]
      exact ⟨stream, passes_nil stream, hend⟩
  | case2 stream hend error rest hon =>
      rw [statements_of_error hend hon]
      exact ⟨stream, passes_nil stream, congrArg Prod.fst hon⟩
  | case3 stream hend first rest hon ih =>
      obtain ⟨left, hpasses, hleft⟩ := ih
      obtain ⟨u, rfl, hu⟩ := yields_statement hon
      rw [statements_of_ok hon]
      exact ⟨left, hpasses.cons hu, hleft⟩

end Reading

namespace Parser

/-- What a parser can be asked for. -/
inductive Request where
  /-- Asks for the next element of the iteration. -/
  | advance
  | statement
  | expression
deriving DecidableEq, Repr

/-- What a parser replies. -/
inductive Reply where
  | element (result : Option (Except ReadError Statement))
  | statement (result : Except ReadError Statement)
  | expression (result : Except ReadError Expr)

/-- Whether a reply is the end of the iteration: there is no element, or it is a failure. -/
def Reply.EndsIteration : Reply → Prop
  | element none | element (some (.error _)) => True
  | _ => False

/-- Whether no element follows the end of the iteration. -/
def Fused (replies : List Reply) : Prop :=
  replies.Pairwise fun first later =>
    first.EndsIteration → ∀ result, later = .element result → result = none

section

variable {σ : Type} [TokenSource σ] [ExprSource σ]

/-- Makes a request. -/
def request (parser : Parser σ) : Request → Reply × Parser σ
  | .advance => (.element parser.advance.1, parser.advance.2)
  | .statement => (.statement parser.statement.1, parser.statement.2)
  | .expression => (.expression parser.expression.1, parser.expression.2)

/-- Makes some requests in turn. -/
def requestAll (parser : Parser σ) : List Request → List Reply × Parser σ
  | [] => ([], parser)
  | request :: rest =>
    let (reply, next) := parser.request request
    let (replies, final) := next.requestAll rest
    (reply :: replies, final)

/-- The replies when a parser is asked for the next element `k` times. -/
def iterate (parser : Parser σ) (k : Nat) : List Reply :=
  (parser.requestAll (List.replicate k .advance)).1

/-- Whether iterating a parser yields the statements of a text that is a program, with their places,
and nothing behind them, or if the text is no program some statements and then the failure of the
text; and whether in any mix of requests nothing follows the end of the iteration. -/
structure Streams (parser : Parser σ) (source : String) : Prop where
  iterate_eq : match Program.parse source with
    | .ok program => ∀ k, parser.iterate k = (List.range k).map fun j =>
        .element (program.statements.map Except.ok)[j]?
    | .error error => ∃ found : List Statement, ∀ k, parser.iterate k = (List.range k).map fun j =>
        .element (found.map Except.ok ++ [.error error])[j]?
  fused : ∀ requests, Fused (parser.requestAll requests).1

end

/-- What the iteration is still going to yield. -/
def elements (parser : Parser) : List (Except ReadError Statement) :=
  if parser.failed then []
  else
    (Reading.statements parser.stream).1.map .ok ++
      (Reading.statements parser.stream).2.toList.map .error

variable {parser : Parser}

/-! ## The elements of the iteration -/

/-- Whether the iteration is at its end. -/
def HasEnded (parser : Parser) : Prop :=
  parser.failed ∨ parser.stream.atEnd

/-- At the end of the iteration there are no elements, and nothing is read. -/
theorem HasEnded.advance_eq (h : parser.HasEnded) : parser.advance = (none, parser) := by
  rcases parser with ⟨stream, _ | _⟩
  · have hend : stream.atEnd := h.resolve_left Bool.false_ne_true
    rw [advance, perform, Reading.element?_on_of_atEnd hend]
    rfl
  · rfl

/-- Before the end of the iteration the next element is the next statement, and a failure ends the
iteration. -/
theorem advance_of_statement {stream rest : TokenStream} {result : Except ReadError Statement}
    (hend : ¬stream.atEnd) (h : Reading.statement.on stream = (result, rest)) :
    (⟨stream, false⟩ : Parser).advance =
      (some result, ⟨rest, match result with | .ok _ => false | .error _ => true⟩) := by
  have helement : Reading.element?.on stream = (result.map some, rest) := by
    rw [Reading.element?_on_of_not_atEnd hend, h]
  rw [advance, perform, helement]
  cases result <;> rfl

/-- The iteration is at its end, or asking for the next element reads a statement. -/
theorem advance_cases (parser : Parser) :
    parser.advance = (none, parser) ∨
      (parser.advance.1 = some parser.statement.1 ∧
        parser.advance.2.stream = parser.statement.2.stream) := by
  by_cases h : parser.HasEnded
  · exact .inl h.advance_eq
  · rcases parser with ⟨stream, _ | _⟩
    · have hadvance := advance_of_statement (fun hend => h (.inr hend)) (@rfl _ (_, _))
      exact .inr ⟨congrArg Prod.fst hadvance, congrArg (·.2.stream) hadvance⟩
    · exact absurd (.inl rfl) h

/-- Asking for the next element yields the first one that is left and leaves the others. -/
theorem advance_eq (parser : Parser) :
    parser.advance.1 = parser.elements.head? ∧
      parser.advance.2.elements = parser.elements.tail := by
  rcases parser with ⟨stream, _ | _⟩
  · by_cases hend : stream.atEnd
    · have helements : (⟨stream, false⟩ : Parser).elements = [] := by
        simp [elements, Reading.statements_of_atEnd hend]
      rw [HasEnded.advance_eq (.inr hend)]
      simp [helements]
    · rcases hon : Reading.statement.on stream with ⟨error | first, rest⟩
      · rw [advance_of_statement hend hon]
        simp [elements, Reading.statements_of_error hend hon]
      · rw [advance_of_statement hend hon]
        simp [elements, Reading.statements_of_ok hon]
  · exact ⟨rfl, rfl⟩

/-- Asking for elements again and again yields those that are left, in their order, and none behind
the last. -/
theorem iterate_eq (parser : Parser) (k : Nat) :
    parser.iterate k = (List.range k).map fun j => .element parser.elements[j]? := by
  induction k generalizing parser with
  | zero => rfl
  | succ k ih =>
      obtain ⟨hfirst, hrest⟩ := advance_eq parser
      calc parser.iterate (k + 1)
          = .element parser.advance.1 :: parser.advance.2.iterate k := rfl
        _ = .element parser.elements.head? ::
              (List.range k).map fun j => .element parser.elements.tail[j]? := by
            rw [hfirst, ih, hrest]
        _ = (List.range (k + 1)).map fun j => .element parser.elements[j]? := by
            simp [List.range_succ_eq_map, List.head?_eq_getElem?, Function.comp_def]

/-! ## The end of the iteration -/

/-- No action puts items back, and none takes a failure back. -/
theorem HasEnded.perform (h : parser.HasEnded) {action : Reading TokenStream α}
    (haction : Reading.Consumes action) : (parser.perform action).2.HasEnded := by
  cases h with
  | inl hfailed => exact .inl hfailed
  | inr hend =>
      have hitems : parser.stream.items = [] := List.isEmpty_iff.mp hend
      have hsuffix := (haction parser.stream).1
      rw [hitems, List.suffix_nil] at hsuffix
      exact .inr (List.isEmpty_iff.mpr hsuffix)

theorem HasEnded.request (h : parser.HasEnded) (asked : Request) :
    (parser.request asked).2.HasEnded := by
  cases asked with
  | advance =>
      rw [Parser.request, h.advance_eq]
      exact h
  | statement => exact h.perform Reading.consumes_statement
  | expression => exact h.perform Reading.consumes_expression

/-- Behind the end of the iteration no request yields an element. -/
theorem HasEnded.requestAll (h : parser.HasEnded) (requests : List Request) :
    ∀ reply ∈ (parser.requestAll requests).1,
      ∀ result, reply = .element result → result = none := by
  induction requests generalizing parser with
  | nil => simp [Parser.requestAll]
  | cons asked rest ih =>
      refine List.forall_mem_cons.mpr ⟨?_, ih (h.request asked)⟩
      intro result hresult
      cases asked with
      | advance =>
          change Reply.element parser.advance.1 = _ at hresult
          rw [h.advance_eq] at hresult
          exact (Reply.element.inj hresult).symm
      | statement => cases hresult
      | expression => cases hresult

/-- A reply that ends the iteration leaves a parser at the end of the iteration. -/
theorem hasEnded_of_endsIteration {asked : Request}
    (h : (parser.request asked).1.EndsIteration) : (parser.request asked).2.HasEnded := by
  cases asked with
  | advance =>
      change (Reply.element parser.advance.1).EndsIteration at h
      change parser.advance.2.HasEnded
      by_cases hended : parser.HasEnded
      · rwa [hended.advance_eq]
      · obtain ⟨stream, failed⟩ := parser
        obtain ⟨hfailed, hend⟩ := not_or.mp hended
        obtain rfl : failed = false := Bool.eq_false_iff.mpr hfailed
        rcases hon : Reading.statement.on stream with ⟨error | first, rest⟩
        · rw [advance_of_statement hend hon]
          exact .inl rfl
        · rw [advance_of_statement hend hon] at h
          exact h.elim
  | statement => exact h.elim
  | expression => exact h.elim

/-- In any mix of requests nothing follows the end of the iteration. -/
theorem fused_requestAll (parser : Parser) (requests : List Request) :
    Fused (parser.requestAll requests).1 := by
  induction requests generalizing parser with
  | nil => exact List.Pairwise.nil
  | cons asked rest ih =>
      refine List.pairwise_cons.mpr ⟨?_, ih _⟩
      intro later hlater hends
      exact (hasEnded_of_endsIteration hends).requestAll rest later hlater

/-! ## Streaming and reading at once -/

theorem elements_ofString (source : String) :
    match Program.parse source with
    | .ok program => (ofString source).elements = program.statements.map .ok
    | .error error => ∃ found : List Statement,
        (ofString source).elements = found.map .ok ++ [.error error] := by
  rw [Program.parse, Reading.program, elements, ofString]
  rcases Reading.statements (.ofString source) with ⟨found, _ | error⟩
  · exact List.append_nil _
  · exact ⟨found, rfl⟩

/-- A parser that has all items of a text streams what the text holds. -/
theorem streams_ofString (source : String) : (ofString source).Streams source where
  iterate_eq := by
    have helements := elements_ofString source
    cases hparse : Program.parse source with
    | ok program =>
        rw [hparse] at helements
        intro k
        rw [← helements]
        exact iterate_eq _ k
    | error error =>
        rw [hparse] at helements
        obtain ⟨found, hfound⟩ := helements
        refine ⟨found, fun k => ?_⟩
        rw [← hfound]
        exact iterate_eq _ k
  fused := fused_requestAll _

end Parser

end Reckoner
