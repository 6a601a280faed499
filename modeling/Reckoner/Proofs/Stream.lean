import Reckoner.Reading.Program

/-!
# Tokens in front of a stream

A stream with tokens put in front of it is read like those tokens first. The sequence of a stream is
what repeated reading delivers, up to the first end of input.
-/

namespace Reckoner

namespace TokenStream

/-- The stream with some tokens in front of it. -/
def prepend (tokens : List Token) (stream : TokenStream) : TokenStream :=
  ⟨tokens.map .token ++ stream.items, stream.finish⟩

/-- The items of a stream up to the end of input. -/
def sequence (stream : TokenStream) : List Item :=
  stream.items ++ [.token stream.endToken]

@[simp] theorem items_prepend (u : List Token) (stream : TokenStream) :
    (stream.prepend u).items = u.map .token ++ stream.items := rfl

@[simp] theorem prepend_nil (stream : TokenStream) : stream.prepend [] = stream := rfl

/-- Putting two pieces in front one by one, the second first, is putting both in front. -/
theorem prepend_append (u v : List Token) (stream : TokenStream) :
    stream.prepend (u ++ v) = (stream.prepend v).prepend u := by
  simp [prepend]

/-- What may stand at the beginning of a stream. -/
theorem head_cases (stream : TokenStream) : stream.items = [] ∨
    (∃ t rest, stream = prepend [t] rest) ∨
      ∃ error rest, stream.items = .illegal error :: rest := by
  rcases stream with ⟨_ | ⟨t | error, rest⟩, finish⟩
  · exact .inl rfl
  · exact .inr (.inl ⟨t, ⟨rest, finish⟩, rfl⟩)
  · exact .inr (.inr ⟨error, rest, rfl⟩)

theorem sequence_prepend (u : List Token) (stream : TokenStream) :
    (stream.prepend u).sequence = u.map .token ++ stream.sequence := by
  simp [prepend, sequence, endToken]

/-- A listing is complete precisely if all items are tokens. -/
theorem listing_go_eq_none_iff {stream : TokenStream} {items : List Item} {tokens : List Token} :
    listing.go stream items = (tokens, none) ↔
      items ++ [.token stream.endToken] = tokens.map .token := by
  induction items generalizing tokens with
  | nil => cases tokens <;> simp [listing.go, eq_comm]
  | cons item items ih =>
      cases item with
      | token t =>
          cases tokens with
          | nil => simp [listing.go]
          | cons first tokens =>
              simp only [listing.go, List.cons.injEq, List.cons_append, List.map_cons,
                Item.token.injEq, ← ih, Prod.ext_iff, and_assoc]
      | illegal error => cases tokens <;> simp [listing.go]

/-- A listing ends at an illegal character precisely if this is the first item that is no token. -/
theorem listing_go_eq_some_iff {stream : TokenStream} {items : List Item}
    {error : IllegalCharacter} : (listing.go stream items).2 = some error ↔
      ∃ u rest, items = List.map .token u ++ .illegal error :: rest := by
  induction items with
  | nil => simp [listing.go]
  | cons item items ih =>
      cases item with
      | token t =>
          simp only [listing.go, ih]
          constructor
          · rintro ⟨u, rest, rfl⟩
            exact ⟨t :: u, rest, rfl⟩
          · rintro ⟨u, rest, hu⟩
            cases u with
            | nil => simp at hu
            | cons first u =>
                simp only [List.map_cons, List.cons_append, List.cons.injEq] at hu
                exact ⟨u, rest, hu.2⟩
      | illegal first =>
          simp only [listing.go, Option.some.injEq]
          constructor
          · rintro rfl
            exact ⟨[], items, rfl⟩
          · rintro ⟨u, rest, hu⟩
            cases u with
            | nil => simpa using And.left (List.cons.inj hu)
            | cons t u => simp at hu

/-- The tokens of a stream are its sequence, when no character in it is illegal. -/
theorem tokens_eq_ok_iff {stream : TokenStream} {tokens : List Token} :
    stream.tokens = .ok tokens ↔ stream.sequence = tokens.map .token := by
  rw [sequence, ← listing_go_eq_none_iff, TokenStream.tokens, listing]
  rcases listing.go stream stream.items with ⟨found, _ | error⟩ <;> simp

/-- There are no tokens of a stream precisely if a character is illegal, and the first one is the
failure. -/
theorem tokens_eq_error_iff {stream : TokenStream} {error : IllegalCharacter} :
    stream.tokens = .error error ↔
      ∃ u rest, stream.items = List.map .token u ++ .illegal error :: rest := by
  rw [← @listing_go_eq_some_iff stream, TokenStream.tokens, listing]
  rcases listing.go stream stream.items with ⟨found, _ | error⟩ <;> simp

end TokenStream

/-- Kinds that carry no number are compared like constants. -/
theorem Kind.beq_iff_eq {j k : Kind} (h : ∀ value, k ≠ .number value) :
    (j == k) = true ↔ j = k := by
  cases j <;> cases k <;>
    first
    | exact absurd rfl (h _)
    | decide
    | exact iff_of_false Bool.noConfusion Kind.noConfusion

namespace Reading

/-- At its end a stream yields the end of input and remains as it is. -/
theorem next_on_of_nil {stream : TokenStream} (h : stream.items = []) :
    next.on stream = (.ok stream.endToken, stream) := by
  rw [on_next, h]

theorem peek_on_of_nil {stream : TokenStream} (h : stream.items = []) :
    peek.on stream = (.ok stream.endToken, stream) := by
  rw [on_peek, h]

theorem next_on_of_illegal {stream : TokenStream} {error : IllegalCharacter} {rest : List Item}
    (h : stream.items = .illegal error :: rest) :
    next.on stream = (.error (.illegal error), { stream with items := rest }) := by
  rw [on_next, h]

/-- An illegal character is taken and reported even if it is only looked at. -/
theorem peek_on_of_illegal {stream : TokenStream} {error : IllegalCharacter} {rest : List Item}
    (h : stream.items = .illegal error :: rest) :
    peek.on stream = (.error (.illegal error), { stream with items := rest }) := by
  rw [on_peek, h]

@[simp] theorem next_on_prepend (t : Token) (u : List Token) (stream : TokenStream) :
    next.on (stream.prepend (t :: u)) = (.ok t, stream.prepend u) := by
  rw [on_next]
  rfl

@[simp] theorem peek_on_prepend (t : Token) (u : List Token) (stream : TokenStream) :
    peek.on (stream.prepend (t :: u)) = (.ok t, stream.prepend (t :: u)) := by
  rw [on_peek]
  rfl

theorem expect_on_prepend {kind : Kind} (hk : ∀ value, kind ≠ .number value) {t : Token}
    (ht : t.kind = kind) (u : List Token) (stream : TokenStream) :
    (expect kind).on (stream.prepend (t :: u)) = (.ok t, stream.prepend u) := by
  rw [expect, on_bind, next_on_prepend]
  simp only [if_pos ((Kind.beq_iff_eq hk).mpr ht), on_pure]

end Reading

end Reckoner
