import Reckoner.Proofs.Streaming

/-!
# Reading alike from two sources

Two sources are related when reading cannot tell them apart. If the elementary actions yield the
same on related sources and leave related sources, then so do all actions that are built from them:
a production of the grammar, the iteration of a parser, and any sequence of requests. What a
relation says besides is up to it.
-/

namespace Reckoner

variable {σ τ : Type}

namespace Reading

/-- Whether two actions yield the same wherever their sources are related, and leave related
sources, also when they fail. -/
def Simulates (R : σ → τ → Prop) (action : Reading σ α) (other : Reading τ α) : Prop :=
  ∀ ⦃first second⦄, R first second →
    (action.on first).1 = (other.on second).1 ∧ R (action.on first).2 (other.on second).2

variable {R : σ → τ → Prop}

theorem simulates_pure (result : α) : Simulates R (pure result) (pure result) :=
  fun _ _ h => ⟨rfl, h⟩

theorem simulates_refuse (error : SyntaxError) :
    Simulates R (refuse error : Reading σ α) (refuse error) :=
  fun _ _ h => ⟨rfl, h⟩

/-- The second of two actions in turn is only reached behind equal results of the first. -/
theorem Simulates.bind {action : Reading σ α} {other : Reading τ α} {further : α → Reading σ β}
    {behind : α → Reading τ β} (h : Simulates R action other)
    (hf : ∀ result, Simulates R (further result) (behind result)) :
    Simulates R (action >>= further) (other >>= behind) := by
  intro first second hrel
  have hboth := h hrel
  rw [on_bind, on_bind]
  revert hboth
  rcases action.on first with ⟨result, rest⟩
  rcases other.on second with ⟨_, left⟩
  rintro ⟨rfl, hleft⟩
  cases result with
  | error error => exact ⟨rfl, hleft⟩
  | ok result => exact hf result hleft

variable [TokenSource σ] [TokenSource τ]

/-- Whether the elementary actions of two sources simulate each other. -/
structure TokensAlike (R : σ → τ → Prop) : Prop where
  next : Simulates R next next
  peek : Simulates R peek peek
  atEnd : Simulates R atEnd atEnd

namespace TokensAlike

variable (h : TokensAlike R)

include h

theorem expect (kind : Kind) : Simulates R (expect kind) (expect kind) := by
  apply h.next.bind
  intro token
  split
  · exact simulates_pure token
  · exact simulates_refuse _

/-- Chains of operands that simulate each other do so turn by turn. -/
theorem chain (operator? : Kind → Option Operator) {operand : Reading σ Expr}
    {other : Reading τ Expr} (ho : Simulates R operand other) (left : Expr) :
    Simulates R (chain operator? operand left) (chain operator? other left) := by
  induction left using chain.induct with
  | case1 left ih =>
      rw [Reading.chain, Reading.chain]
      apply h.peek.bind
      intro token
      cases operator? token.kind with
      | none => exact simulates_pure left
      | some operator =>
          apply h.next.bind
          intro sign
          apply ho.bind
          intro right
          split
          · exact ih operator sign right ‹_›
          · exact simulates_refuse _

variable {action : Reading σ Expr} {other : Reading τ Expr}

theorem product (hf : Simulates R action other) : Simulates R (product action) (product other) :=
  hf.bind (h.chain _ hf)

theorem sum (hf : Simulates R action other) : Simulates R (sum action) (sum other) :=
  (h.product hf).bind (h.chain _ (h.product hf))

theorem closed (he : Simulates R action other) : Simulates R (closed action) (closed other) :=
  he.bind fun inner => (h.expect _).bind fun _ => simulates_pure inner

/-- Factors are read alike if what stands in parentheses is. -/
theorem factorWith {parenthesized : Token → Reading σ Expr} {behind : Token → Reading τ Expr}
    (hp : ∀ token, Simulates R (parenthesized token) (behind token)) :
    Simulates R (factorWith parenthesized) (factorWith behind) := by
  apply h.next.bind
  intro token
  rcases token with ⟨kind, literal, position⟩
  cases kind with
  | number value => exact simulates_pure _
  | identifier => exact simulates_pure _
  | leftParen => exact hp _
  | _ => exact simulates_refuse _

/-- Each pair of parentheses is read alike if what stands in it is. -/
theorem factor (levels : Nat) :
    Simulates R (Reading.factor levels : Reading σ Expr) (Reading.factor levels) := by
  induction levels with
  | zero => exact h.factorWith fun token => simulates_refuse _
  | succ levels ih => exact h.factorWith fun _ => h.closed (h.sum ih)

end TokensAlike

variable [ExprSource σ] [ExprSource τ]

/-- Whether tokens and expressions are read alike from two sources. -/
structure ExprsAlike (R : σ → τ → Prop) : Prop where
  tokens : TokensAlike R
  expression : Simulates R expression expression

namespace ExprsAlike

variable (h : ExprsAlike R)

include h

theorem assignment : Simulates R assignment assignment :=
  (h.tokens.expect _).bind fun _ => (h.tokens.expect _).bind fun _ =>
    (h.tokens.expect _).bind fun _ => h.expression.bind fun _ =>
      (h.tokens.expect _).bind fun _ => simulates_pure _

theorem printing : Simulates R printing printing :=
  (h.tokens.expect _).bind fun _ => (h.tokens.expect _).bind fun _ => h.expression.bind fun _ =>
    (h.tokens.expect _).bind fun _ => (h.tokens.expect _).bind fun _ => simulates_pure _

theorem statement : Simulates R statement statement := by
  apply h.tokens.peek.bind
  intro token
  rcases token with ⟨kind, literal, position⟩
  cases kind with
  | letKeyword => exact h.assignment
  | printKeyword => exact h.printing
  | _ => exact simulates_refuse _

/-- The elements of the iteration are read alike where tokens and expressions are. -/
theorem element? : Simulates R element? element? := by
  apply h.tokens.atEnd.bind
  intro ended
  split
  · exact simulates_pure none
  · exact h.statement.bind fun found => simulates_pure (some found)

end ExprsAlike

end Reading

/-! ## Parsers -/

namespace Parser

/-- Whether what two parsers have not read is related, and either both have failed or neither. -/
structure Follows (R : σ → τ → Prop) (parser : Parser σ) (other : Parser τ) : Prop where
  stream : R parser.stream other.stream
  failed_eq : parser.failed = other.failed

variable {R : σ → τ → Prop} {parser : Parser σ} {other : Parser τ}

namespace Follows

/-- An action that is simulated yields the same and keeps the parsers together. -/
theorem perform (h : Follows R parser other) {action : Reading σ α} {behind : Reading τ α}
    (ha : Reading.Simulates R action behind) :
    (parser.perform action).1 = (other.perform behind).1 ∧
      Follows R (parser.perform action).2 (other.perform behind).2 :=
  ⟨(ha h.stream).1, (ha h.stream).2, h.failed_eq⟩

variable [TokenSource σ] [TokenSource τ] [ExprSource σ] [ExprSource τ]

/-- The next elements of parsers that follow each other are the same. -/
theorem advance (h : Follows R parser other) (hR : Reading.ExprsAlike R) :
    parser.advance.1 = other.advance.1 ∧ Follows R parser.advance.2 other.advance.2 := by
  have hboth := h.perform hR.element?
  rw [Parser.advance, Parser.advance, h.failed_eq]
  cases other.failed with
  | true => exact ⟨rfl, h⟩
  | false =>
      revert hboth
      rcases parser.perform Reading.element? with ⟨result, rest⟩
      rcases other.perform Reading.element? with ⟨_, left⟩
      rintro ⟨rfl, hleft⟩
      rcases result with error | _ | found
      · exact ⟨rfl, hleft.stream, rfl⟩
      · exact ⟨rfl, hleft⟩
      · exact ⟨rfl, hleft⟩

/-- Each request has the same reply from parsers that follow each other. -/
theorem request (h : Follows R parser other) (hR : Reading.ExprsAlike R) (asked : Request) :
    (parser.request asked).1 = (other.request asked).1 ∧
      Follows R (parser.request asked).2 (other.request asked).2 := by
  cases asked with
  | advance =>
      obtain ⟨hresult, hleft⟩ := h.advance hR
      exact ⟨congrArg Reply.element hresult, hleft⟩
  | statement =>
      obtain ⟨hresult, hleft⟩ := h.perform hR.statement
      exact ⟨congrArg Reply.statement hresult, hleft⟩
  | expression =>
      obtain ⟨hresult, hleft⟩ := h.perform hR.expression
      exact ⟨congrArg Reply.expression hresult, hleft⟩

/-- Parsers whose sources are read alike give the same replies to any requests. -/
theorem requestAll (h : Follows R parser other) (hR : Reading.ExprsAlike R)
    (requests : List Request) :
    (parser.requestAll requests).1 = (other.requestAll requests).1 ∧
      Follows R (parser.requestAll requests).2 (other.requestAll requests).2 := by
  induction requests generalizing parser other with
  | nil => exact ⟨rfl, h⟩
  | cons asked rest ih =>
      obtain ⟨hreply, hnext⟩ := h.request hR asked
      obtain ⟨hreplies, hfinal⟩ := ih hnext
      exact ⟨congrArg₂ List.cons hreply hreplies, hfinal⟩

end Follows

end Parser

end Reckoner
