import Reckoner.Lexer

/-!
# Reading from a source of tokens

A reading action takes tokens from a source and yields a result or fails. It leaves the source where
it stopped, also when it fails. `next`, `peek` and `expect` are the elementary actions; all others
are built from them. Tokens can be read from a token stream, which has all items of a text at once,
or from a lexer, which scans an item when it is asked for it.
-/

namespace Reckoner

/-- An action that reads from a source. -/
abbrev Reading (σ : Type) := EStateM ReadError σ

/-- What tokens can be read from. -/
class TokenSource (σ : Type) where
  /-- Takes the next token. An illegal character is taken too, and reported. -/
  next : Reading σ Token
  /-- Looks at the next token without taking it. An illegal character is taken, and reported. -/
  peek : Reading σ Token
  /-- Whether nothing but the end of input is left. An illegal character is taken, and reported. -/
  atEnd : Reading σ Bool

namespace Reading

export TokenSource (next peek atEnd)

variable {σ : Type}

/-- What an action yields on a source, and what it leaves of the source. -/
def on (action : Reading σ α) (source : σ) : Except ReadError α × σ :=
  match action.run source with
  | .ok result rest => (.ok result, rest)
  | .error error rest => (.error error, rest)

/-- The action that asks a source by a call. -/
def ask (call : σ → Except ReadError α × σ) : Reading σ α := fun source =>
  match call source with
  | (.ok result, rest) => .ok result rest
  | (.error error, rest) => .error error rest

/-- Refuses a token sequence. -/
def refuse (error : SyntaxError) : Reading σ α :=
  throw (.unparsable error)

/-- Takes the next token, which must be of the given kind. Kinds are compared by `==`, so that
numbers are compared by value. A token of another kind is taken as well. -/
def expect [TokenSource σ] (kind : Kind) : Reading σ Token := do
  let token ← next
  if token.kind == kind then return token
  else refuse (.ofMismatch kind token)

@[simp] theorem on_pure (result : α) (source : σ) :
    (pure result : Reading σ α).on source = (.ok result, source) := rfl

@[simp] theorem on_refuse (error : SyntaxError) (source : σ) :
    (refuse error : Reading σ α).on source = (.error (.unparsable error), source) := rfl

theorem on_ask (call : σ → Except ReadError α × σ) (source : σ) :
    (ask call).on source = call source := by
  simp only [on, EStateM.run, ask]
  rcases call source with ⟨_ | _, rest⟩ <;> rfl

/-- Behind a success the second of two actions in turn goes on with the source that is left. A
failure of the first is the failure of both. -/
theorem on_bind (action : Reading σ α) (further : α → Reading σ β) (source : σ) :
    (action >>= further).on source =
      match action.on source with
      | (.ok result, rest) => (further result).on rest
      | (.error error, rest) => (.error error, rest) := by
  simp only [on, EStateM.run, bind, EStateM.bind]
  cases action source <;> rfl

/-- Two actions in turn succeed when the first does and the second does behind it. -/
theorem on_bind_eq_ok {action : Reading σ α} {further : α → Reading σ β} {source rest : σ}
    {result : β} : (action >>= further).on source = (.ok result, rest) ↔
      ∃ first middle, action.on source = (.ok first, middle) ∧
        (further first).on middle = (.ok result, rest) := by
  rw [on_bind]
  rcases action.on source with ⟨_ | first, middle⟩ <;> simp [and_assoc]

/-! ## Sources -/

instance : TokenSource TokenStream where
  next stream :=
    match stream.items with
    | [] => .ok stream.endToken stream
    | .token token :: rest => .ok token { stream with items := rest }
    | .illegal error :: rest => .error (.illegal error) { stream with items := rest }
  peek stream :=
    match stream.items with
    | [] => .ok stream.endToken stream
    | .token token :: _ => .ok token stream
    | .illegal error :: rest => .error (.illegal error) { stream with items := rest }
  atEnd stream :=
    match stream.items with
    | [] => .ok true stream
    | .token _ :: _ => .ok false stream
    | .illegal error :: rest => .error (.illegal error) { stream with items := rest }

instance : TokenSource Lexer where
  next := ask Lexer.next
  peek := ask Lexer.peek
  atEnd := do
    let token ← ask Lexer.peek
    return token.kind = .endOfInput

/-! ## What is left of the stream -/

/-- Whether an action leaves a stream of which it took the first items, maybe none. -/
def Consumes (action : Reading TokenStream α) : Prop :=
  ∀ stream, (action.on stream).2.items <:+ stream.items ∧
    (action.on stream).2.finish = stream.finish

theorem consumes_pure (result : α) : Consumes (pure result) :=
  fun _ => ⟨List.suffix_refl _, rfl⟩

theorem consumes_refuse (error : SyntaxError) : Consumes (refuse error : Reading TokenStream α) :=
  fun _ => ⟨List.suffix_refl _, rfl⟩

/-- What consumes at each step consumes as a whole. -/
theorem Consumes.bind {action : Reading TokenStream α} {further : α → Reading TokenStream β}
    (h : Consumes action) (hf : ∀ result, Consumes (further result)) :
    Consumes (action >>= further) := by
  intro stream
  have hs := h stream
  rw [on_bind]
  cases hon : action.on stream with
  | mk result rest =>
    rw [hon] at hs
    cases result with
    | error error => exact hs
    | ok result =>
      have hr := hf result rest
      exact ⟨hr.1.trans hs.1, hr.2.trans hs.2⟩

/-- The next token of a stream, by what stands at its beginning. -/
theorem on_next (stream : TokenStream) :
    next.on stream =
      match stream.items with
      | [] => (.ok stream.endToken, stream)
      | .token token :: rest => (.ok token, { stream with items := rest })
      | .illegal error :: rest => (.error (.illegal error), { stream with items := rest }) := by
  simp only [on, EStateM.run, next]
  rcases stream.items with _ | ⟨_ | _, _⟩ <;> rfl

/-- Looking ahead in a stream, by what stands at its beginning. -/
theorem on_peek (stream : TokenStream) :
    peek.on stream =
      match stream.items with
      | [] => (.ok stream.endToken, stream)
      | .token token :: _ => (.ok token, stream)
      | .illegal error :: rest => (.error (.illegal error), { stream with items := rest }) := by
  simp only [on, EStateM.run, peek]
  rcases stream.items with _ | ⟨_ | _, _⟩ <;> rfl

/-- Asking whether a stream is at its end, by what stands at its beginning. -/
theorem on_atEnd (stream : TokenStream) :
    atEnd.on stream =
      match stream.items with
      | [] => (.ok true, stream)
      | .token _ :: _ => (.ok false, stream)
      | .illegal error :: rest => (.error (.illegal error), { stream with items := rest }) := by
  simp only [on, EStateM.run, atEnd]
  rcases stream.items with _ | ⟨_ | _, _⟩ <;> rfl

theorem consumes_next : Consumes next := by
  intro stream
  rw [on_next]
  split
  · exact ⟨List.suffix_refl _, rfl⟩
  · exact ⟨by simp [*], rfl⟩
  · exact ⟨by simp [*], rfl⟩

theorem consumes_peek : Consumes peek := by
  intro stream
  rw [on_peek]
  split
  · exact ⟨List.suffix_refl _, rfl⟩
  · exact ⟨List.suffix_refl _, rfl⟩
  · exact ⟨by simp [*], rfl⟩

theorem consumes_expect (kind : Kind) : Consumes (expect kind) :=
  consumes_next.bind fun token => by
    split
    · exact consumes_pure token
    · exact consumes_refuse _

/-! ## Progress -/

/-- Whether an action that succeeds takes at least one item. -/
def Progresses (action : Reading TokenStream α) : Prop :=
  ∀ ⦃stream rest result⦄, action.on stream = (.ok result, rest) →
    rest.items.length < stream.items.length

theorem progresses_refuse (error : SyntaxError) :
    Progresses (refuse error : Reading TokenStream α) := by
  intro stream rest result h
  injection h with h
  cases h

/-- If the first step takes something, the whole does. -/
theorem Progresses.bind {action : Reading TokenStream α} {further : α → Reading TokenStream β}
    (h : Progresses action) (hf : ∀ result, Consumes (further result)) :
    Progresses (action >>= further) := by
  intro stream rest result hon
  obtain ⟨first, middle, hfirst, hrest⟩ := on_bind_eq_ok.mp hon
  have hle := (hf first middle).1.length_le
  rw [hrest] at hle
  exact Nat.lt_of_le_of_lt hle (h hfirst)

/-- If what follows takes something, the whole does. -/
theorem Consumes.bind_progresses {action : Reading TokenStream α}
    {further : α → Reading TokenStream β} (h : Consumes action)
    (hf : ∀ result, Progresses (further result)) : Progresses (action >>= further) := by
  intro stream rest result hon
  obtain ⟨first, middle, hfirst, hrest⟩ := on_bind_eq_ok.mp hon
  have hle := (h stream).1.length_le
  rw [hfirst] at hle
  exact Nat.lt_of_lt_of_le (hf first hrest) hle

/-- Every kind but the end of input takes an item to satisfy. -/
theorem progresses_expect {kind : Kind} (h : (Kind.endOfInput == kind) = false) :
    Progresses (expect kind) := by
  intro stream rest token hon
  obtain ⟨first, middle, hnext, hrest⟩ := on_bind_eq_ok.mp hon
  rw [on_next] at hnext
  split at hnext <;> simp only [Prod.mk.injEq, Except.ok.injEq, reduceCtorEq, false_and] at hnext
  · obtain ⟨rfl, rfl⟩ := hnext
    rw [TokenStream.endToken, h] at hrest
    injection hrest with hrest
    cases hrest
  · rename_i hitems
    obtain ⟨rfl, rfl⟩ := hnext
    split at hrest
    · injection hrest with _ hrest
      simp [← hrest, hitems]
    · injection hrest with hrest
      cases hrest

end Reading

end Reckoner
