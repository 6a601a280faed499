import Reckoner.Interpreter
import Reckoner.Proofs.RoundTrip

/-!
# Reading and running do not depend on places

Places are carried along and never looked at. So mapping the places of all items of a text maps the
places in what is read, in its failures and in the failures of running it, and changes nothing else.
-/

namespace Reckoner

/-! ## Places mapped -/

variable (f : Position → Position)

/-- The token at the mapped place. -/
def Token.relocate (t : Token) : Token :=
  { t with position := f t.position }

/-- The illegal character at the mapped place. -/
def IllegalCharacter.relocate (error : IllegalCharacter) : IllegalCharacter :=
  { error with position := f error.position }

/-- The item at the mapped place. -/
def Item.relocate : Item → Item
  | token t => token (t.relocate f)
  | illegal error => illegal (error.relocate f)

/-- The stream with the places of its items and of its end mapped. -/
def TokenStream.relocate (stream : TokenStream) : TokenStream :=
  ⟨stream.items.map (Item.relocate f), f stream.finish⟩

/-- The error with the place of what it blames mapped. -/
def SyntaxError.relocate : SyntaxError → SyntaxError
  | mismatch expected found => mismatch expected (found.relocate f)
  | unexpectedToken expected found => unexpectedToken expected (found.relocate f)
  | unexpectedEnd expected position => unexpectedEnd expected (f position)
  | tooDeep t => tooDeep (t.relocate f)

/-- The failure to read with the place of what it blames mapped. -/
def ReadError.relocate : ReadError → ReadError
  | illegal error => illegal (error.relocate f)
  | unparsable error => unparsable (error.relocate f)

/-- The failure of a statement with its place mapped. -/
def RuntimeError.relocate : RuntimeError → RuntimeError
  | undefinedVariable name position => undefinedVariable name (f position)
  | divisionByZero position => divisionByZero (f position)

/-- The failure with its place mapped. -/
def Failure.relocate : Failure → Failure
  | read error => read (error.relocate f)
  | run error => run (error.relocate f)

/-- The item of a lexeme at a mapped place is the mapped item. -/
theorem Lexeme.relocate_item (lexeme : Lexeme) (p : Position) :
    (lexeme.item p).relocate f = lexeme.item (f p) := by
  cases lexeme <;> rfl

theorem SyntaxError.relocate_ofMismatch (expected : Kind) (t : Token) :
    (ofMismatch expected t).relocate f = ofMismatch expected (t.relocate f) := by
  by_cases h : t.kind = .endOfInput <;> simp [ofMismatch, Token.relocate, relocate, h]

/-- A map that commutes with each character commutes with texts. -/
theorem Position.map_after {f : Position → Position}
    (hf : ∀ p c, f (p.advance c) = (f p).advance c) (p : Position) (text : List Char) :
    f (p.after text) = (f p).after text := by
  induction text generalizing p with
  | nil => rfl
  | cons c text ih => rw [after_cons, after_cons, ih, hf]

/-- Counting bytes and lines on from another place maps the places of a text. -/
theorem TokenStream.ofChars_relocate {f : Position → Position}
    (hf : ∀ p c, f (p.advance c) = (f p).advance c) (p : Position) (text : List Char) :
    (ofChars p text).relocate f = ofChars (f p) text := by
  induction p, text using ofChars.induct with
  | case1 p text gap hgap =>
      rw [ofChars_of_nil hgap, ofChars_of_nil hgap, relocate, Position.map_after hf,
        List.map_nil]
  | case2 p text gap c rest hgap place lexeme ih =>
      rw [Position.map_after hf] at ih
      rw [ofChars_of_cons hgap, ofChars_of_cons hgap, ← Position.map_after hf p gap]
      simp only
      rw [← ih, ← Lexeme.relocate_item]
      rfl

/-! ## Reading -/

namespace Reading

/-- An outcome of reading with places mapped, in the result by `g`. -/
def relocateOutcome (g : α → β) (outcome : Except ReadError α × TokenStream) :
    Except ReadError β × TokenStream :=
  ((outcome.1.map g).mapError (ReadError.relocate f), outcome.2.relocate f)

/-- Whether an action does on a stream with places mapped what another one does on the stream, with
places mapped. -/
def Relocates (g : α → β) (action : Reading TokenStream α) (mapped : Reading TokenStream β) :
    Prop :=
  ∀ stream : TokenStream,
    mapped.on (stream.relocate f) = relocateOutcome f g (action.on stream)

variable {f}

/-- Actions that relocate one after the other relocate together. -/
theorem Relocates.bind {g : α → α'} {k : β → β'} {action : Reading TokenStream α}
    {mapped : Reading TokenStream α'} {further : α → Reading TokenStream β}
    {further' : α' → Reading TokenStream β'} (h : Relocates f g action mapped)
    (hf : ∀ result, Relocates f k (further result) (further' (g result))) :
    Relocates f k (action >>= further) (mapped >>= further') := by
  intro stream
  rw [on_bind, on_bind, h stream]
  rcases action.on stream with ⟨error | result, rest⟩
  · rfl
  · exact hf result rest

theorem relocates_pure (g : α → β) (result : α) :
    Relocates f g (pure result) (pure (g result)) :=
  fun _ => rfl

theorem relocates_refuse (g : α → β) (error : SyntaxError) :
    Relocates f g (refuse error) (refuse (error.relocate f)) :=
  fun _ => rfl

theorem relocates_next : Relocates f (Token.relocate f) next next := by
  intro stream
  rw [on_next, on_next]
  rcases stream with ⟨_ | ⟨_ | _, _⟩, finish⟩ <;> rfl

theorem relocates_peek : Relocates f (Token.relocate f) peek peek := by
  intro stream
  rw [on_peek, on_peek]
  rcases stream with ⟨_ | ⟨_ | _, _⟩, finish⟩ <;> rfl

/-- A mapped token is required and refused alike, since only kinds are compared. -/
theorem relocates_expect (kind : Kind) :
    Relocates f (Token.relocate f) (expect kind) (expect kind) := by
  apply relocates_next.bind
  intro t
  change Relocates f _ _ (if t.kind == kind then _ else _)
  split
  · exact relocates_pure _ t
  · rw [← SyntaxError.relocate_ofMismatch]
    exact relocates_refuse _ _

/-- A chain relocates if its operands do. By induction on what the chain may still take, for every
left side. -/
theorem relocates_chain (operator? : Kind → Option Operator) {operand : Reading TokenStream Expr}
    (h : Relocates f (Expr.relocate f) operand operand) (left : Expr) :
    Relocates f (Expr.relocate f) (chain operator? operand left)
      (chain operator? operand (left.relocate f)) := by
  induction left using chain.induct with
  | case1 left ih =>
      rw [chain, chain]
      apply relocates_peek.bind
      intro t
      have hkind : (t.relocate f).kind = t.kind := rfl
      rw [hkind]
      cases operator? t.kind with
      | none => exact relocates_pure _ left
      | some operator =>
          apply relocates_next.bind
          intro t
          apply h.bind
          intro right
          rw [Expr.depth_relocate, Expr.depth_relocate]
          split
          · exact ih operator t right ‹_›
          · exact relocates_refuse _ _

theorem relocates_product {factor : Reading TokenStream Expr}
    (h : Relocates f (Expr.relocate f) factor factor) :
    Relocates f (Expr.relocate f) (product factor) (product factor) :=
  h.bind (relocates_chain _ h)

theorem relocates_sum {factor : Reading TokenStream Expr}
    (h : Relocates f (Expr.relocate f) factor factor) :
    Relocates f (Expr.relocate f) (sum factor) (sum factor) :=
  (relocates_product h).bind (relocates_chain _ (relocates_product h))

theorem relocates_factorTail {levels : Nat} {t : Token}
    (h : Relocates f (Expr.relocate f) (parenthesized levels t)
      (parenthesized levels (t.relocate f))) :
    Relocates f (Expr.relocate f) (factorTail levels t) (factorTail levels (t.relocate f)) := by
  rcases t with ⟨kind, literal, position⟩
  cases kind with
  | number value => exact relocates_pure _ (Expr.literal value)
  | identifier => exact relocates_pure _ (Expr.reference literal position)
  | leftParen => exact h
  | _ => exact relocates_refuse _ (.ofUnexpected .factor _)

/-- A factor relocates, level by level of the parentheses. -/
theorem relocates_factor (levels : Nat) :
    Relocates f (Expr.relocate f) (factor levels) (factor levels) := by
  induction levels with
  | zero =>
      rw [factor_eq]
      exact relocates_next.bind fun t => relocates_factorTail (relocates_refuse _ (.tooDeep t))
  | succ levels ih =>
      rw [factor_eq]
      exact relocates_next.bind fun _ => relocates_factorTail <|
        (relocates_sum ih).bind fun inner => (relocates_expect _).bind fun _ =>
          relocates_pure _ inner

theorem relocates_expression : Relocates f (Expr.relocate f) expression expression :=
  relocates_sum (relocates_factor maxDepth)

theorem relocates_assignment : Relocates f (Statement.relocate f) assignment assignment :=
  (relocates_expect _).bind fun _ => (relocates_expect _).bind fun name =>
    (relocates_expect _).bind fun _ => relocates_expression.bind fun value =>
      (relocates_expect _).bind fun _ => relocates_pure _ (Statement.assign name.literal value)

theorem relocates_printing : Relocates f (Statement.relocate f) printing printing :=
  (relocates_expect _).bind fun _ => (relocates_expect _).bind fun _ =>
    relocates_expression.bind fun value => (relocates_expect _).bind fun _ =>
      (relocates_expect _).bind fun _ => relocates_pure _ (Statement.print value)

theorem relocates_statement : Relocates f (Statement.relocate f) statement statement := by
  apply relocates_peek.bind
  intro t
  rcases t with ⟨kind, literal, position⟩
  cases kind with
  | letKeyword => exact relocates_assignment
  | printKeyword => exact relocates_printing
  | _ => exact relocates_refuse _ (.ofUnexpected .statement _)

/-- Reading a stream with places mapped yields the statements and the failure with places mapped. -/
theorem statements_relocate (f : Position → Position) (stream : TokenStream) :
    statements (stream.relocate f) =
      ((statements stream).1.map (Statement.relocate f),
        (statements stream).2.map (ReadError.relocate f)) := by
  have hatEnd (stream : TokenStream) : (stream.relocate f).atEnd = stream.atEnd := by
    simp [TokenStream.atEnd, TokenStream.relocate]
  induction stream using statements.induct with
  | case1 stream hend =>
      rw [statements_of_atEnd hend, statements_of_atEnd ((hatEnd stream).trans hend)]
      rfl
  | case2 stream hend error rest hon =>
      have hmapped := relocates_statement (f := f) stream
      rw [hon] at hmapped
      rw [← hatEnd] at hend
      rw [statements_of_error hend hmapped, statements_of_error (by rwa [hatEnd] at hend) hon]
      rfl
  | case3 stream hend first rest hon ih =>
      have hmapped := relocates_statement (f := f) stream
      rw [hon] at hmapped
      rw [statements_of_ok hmapped, statements_of_ok hon]
      change (first.relocate f :: (statements (rest.relocate f)).1,
        (statements (rest.relocate f)).2) = _
      rw [ih]
      rfl

end Reading

/-! ## Running -/

/-- An operation at a mapped place fails there, and yields the same value. -/
theorem Operator.apply_relocate (op : Operator) (left right : Number) (position : Position) :
    op.apply left right (f position) =
      (op.apply left right position).mapError (RuntimeError.relocate f) := by
  cases op with
  | divide =>
      simp only [apply]
      split <;> rfl
  | _ => rfl

/-- A mapped expression has the same value, or fails at the mapped place. -/
theorem Expr.evaluate_relocate (store : Store) (e : Expr) :
    (e.relocate f).evaluate store =
      (e.evaluate store).mapError (RuntimeError.relocate f) := by
  induction e with
  | literal value => rfl
  | reference name position =>
      simp only [relocate, evaluate]
      split <;> rfl
  | operation op left right position ihl ihr =>
      simp only [relocate, evaluate, ihl, ihr]
      cases left.evaluate store with
      | error error => rfl
      | ok l =>
          cases right.evaluate store with
          | error error => rfl
          | ok r => exact op.apply_relocate f l r position

namespace Interpreter

/-- A mapped statement does the same, or fails at the mapped place. -/
theorem execute_relocate (state : Interpreter) (statement : Statement) :
    state.execute (statement.relocate f) =
      (state.execute statement).mapError (RuntimeError.relocate f) := by
  cases statement with
  | assign name e =>
      simp only [Statement.relocate, execute, evaluate, Expr.evaluate_relocate]
      cases e.evaluate state.store <;> rfl
  | print e =>
      simp only [Statement.relocate, execute, evaluate, Expr.evaluate_relocate]
      cases e.evaluate state.store <;> rfl

/-- Statements with places mapped have the same effects, and the place of their failure mapped. -/
theorem executeAll_relocate (state : Interpreter) (statements : List Statement) :
    state.executeAll (statements.map (Statement.relocate f)) =
      ((state.executeAll statements).1.map (RuntimeError.relocate f),
        (state.executeAll statements).2) := by
  induction statements generalizing state with
  | nil => rfl
  | cons statement rest ih =>
      rw [List.map_cons, executeAll, executeAll, execute_relocate]
      cases state.execute statement with
      | error error => rfl
      | ok next => exact ih next

end Interpreter

end Reckoner
