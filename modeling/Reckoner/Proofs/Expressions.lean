import Reckoner.Interpreter
import Reckoner.Proofs.OnDemand
import Reckoner.Proofs.Recognition

/-!
# One maximal expression

An expression is read as far as it goes: up to a token that is no sign of an operation. This token
is left, and it is the last that was looked at. So which expression a text begins with does not
depend on what follows the token.
-/

namespace Reckoner

/-- Whether an item is a token that ends an expression before it: any but the sign of an
operation. -/
def Item.EndsExpression (item : Item) : Prop :=
  ∃ t, item = .token t ∧ ∀ op : Operator, t.kind ≠ op.sign

namespace Reading

/-! ## Where chains stop -/

/-- A chain stops before a token that is none of its signs. Whatever holds of the streams that its
operands leave, and of the stream that it begins with, holds of the stream that it leaves. -/
theorem stops_of_chain {operator? : Kind → Option Operator} {operand : Reading TokenStream Expr}
    (hend : operator? .endOfInput = none) {S : TokenStream → Prop}
    (hoperand : ∀ ⦃stream rest e⦄, operand.on stream = (.ok e, rest) → S rest) {left e : Expr}
    {stream rest : TokenStream} (hs : S stream)
    (h : (chain operator? operand left).on stream = (.ok e, rest)) :
    S rest ∧ Stops operator? rest := by
  induction left using chain.induct generalizing stream with
  | case1 left ih =>
      rcases stream.head_cases with hnil | ⟨t, tail, rfl⟩ | ⟨error, tail, hitems⟩
      · have hpeek := peek_on_of_nil hnil
        rw [chain_on_of_peek hpeek hend] at h
        cases h
        exact ⟨hs, rest.endToken, hpeek, hend⟩
      · cases ht : operator? t.kind with
        | none =>
            have hstops : Stops operator? (tail.prepend [t]) := stops_prepend ht [] tail
            rw [hstops.chain_on] at h
            cases h
            exact ⟨hs, hstops⟩
        | some operator =>
            rw [chain_on_prepend ht] at h
            obtain ⟨right, behind, hright, h⟩ := on_bind_eq_ok.mp h
            split at h
            · exact ih operator t right ‹_› (hoperand hright) h
            · cases h
      · rw [chain, on_bind, peek_on_of_illegal hitems] at h
        cases h

theorem stops_of_product {factor : Reading TokenStream Expr} {stream rest : TokenStream} {e : Expr}
    (h : (product factor).on stream = (.ok e, rest)) : Stops multiplicative? rest := by
  obtain ⟨left, middle, -, hchain⟩ := on_bind_eq_ok.mp h
  exact (stops_of_chain (S := fun _ => True) rfl (fun _ _ _ _ => trivial) trivial hchain).2

theorem stops_of_sum {factor : Reading TokenStream Expr} {stream rest : TokenStream} {e : Expr}
    (h : (sum factor).on stream = (.ok e, rest)) :
    Stops multiplicative? rest ∧ Stops additive? rest := by
  obtain ⟨left, middle, hproduct, hchain⟩ := on_bind_eq_ok.mp h
  exact stops_of_chain rfl (fun _ _ _ => stops_of_product) (stops_of_product hproduct) hchain

theorem peek_on_eq_ok_iff {stream : TokenStream} {t : Token} :
    peek.on stream = (.ok t, stream) ↔ stream.item 0 = .token t := by
  constructor
  · intro h
    cases hitem : stream.item 0 with
    | token first =>
        rw [on_peek_of_token hitem] at h
        cases h
        rfl
    | illegal error =>
        rw [on_peek_of_illegal hitem] at h
        cases h
  · exact on_peek_of_token

/-- The chains of an expression stop before the tokens that end an expression. -/
theorem endsExpression_iff {stream : TokenStream} : (stream.item 0).EndsExpression ↔
    Stops multiplicative? stream ∧ Stops additive? stream := by
  simp only [Stops, peek_on_eq_ok_iff]
  constructor
  · rintro ⟨t, ht, hsign⟩
    refine ⟨⟨t, ht, ?_⟩, t, ht, ?_⟩
    · exact Option.eq_none_iff_forall_ne_some.mpr fun op hop =>
        hsign op (multiplicative?_eq_some hop).2
    · exact Option.eq_none_iff_forall_ne_some.mpr fun op hop =>
        hsign op (additive?_eq_some hop).2
  · rintro ⟨⟨t, ht, hmul⟩, s, hs, hadd⟩
    obtain rfl := Item.token.inj (ht.symm.trans hs)
    refine ⟨t, ht, fun op hsign => ?_⟩
    rw [hsign] at hmul hadd
    cases op with
    | plus | minus => cases hadd
    | times | divide => cases hmul

/-- An expression is read from a stream if the first tokens derive it within the limits and behind
them a token ends it. Nothing else is read as an expression. -/
theorem expression_on_eq_ok_iff {stream rest : TokenStream} {e : Expr} :
    expression.on stream = (.ok e, rest) ↔
      ∃ u, stream = rest.prepend u ∧ Derives .sum u e ∧ e.depth ≤ maxDepth ∧
        NestsWithin maxDepth 0 (u.map Token.kind) ∧ (rest.item 0).EndsExpression := by
  rw [endsExpression_iff]
  constructor
  · intro h
    obtain ⟨u, hstream, hu⟩ := yields_expression h
    exact ⟨u, hstream, hu.derives, hu.depth_le, hu.nests_zero, stops_of_sum h⟩
  · rintro ⟨u, rfl, hu, hdepth, hnests, hmul, hadd⟩
    exact expression_on_prepend hu hdepth hnests hmul hadd

end Reading

/-! ## What an expression depends on -/

/-- A stream whose sequence begins with some tokens has these tokens in front, unless the last of
them is the end of input. -/
theorem TokenStream.exists_eq_prepend {stream : TokenStream} {u : List Token} {t : Token}
    (h : u.map .token ++ [.token t] <+: stream.sequence) :
    ∃ rest : TokenStream, stream = rest.prepend u ∧ rest.item 0 = .token t := by
  obtain ⟨v, hv⟩ := h
  rcases stream with ⟨items, finish⟩
  rw [sequence] at hv
  rcases List.eq_nil_or_concat' v with rfl | ⟨v, last, rfl⟩
  · rw [List.append_nil] at hv
    obtain ⟨rfl, hlast⟩ := List.append_inj' hv rfl
    refine ⟨⟨[], finish⟩, by simp [prepend], ?_⟩
    exact (List.singleton_inj.mp hlast).symm
  · rw [← List.append_assoc] at hv
    obtain ⟨rfl, -⟩ := List.append_inj' hv rfl
    exact ⟨⟨.token t :: v, finish⟩, by simp [prepend], rfl⟩

namespace Parser

theorem expression_eq_iff {stream rest : TokenStream} {failed : Bool}
    {result : Except ReadError Expr} :
    (⟨stream, failed⟩ : Parser).expression = (result, ⟨rest, failed⟩) ↔
      Reading.expression.on stream = (result, rest) := by
  rw [expression, perform]
  rcases Reading.expression.on stream with ⟨found, left⟩
  simp

/-- A text that begins with the items of another one, up to the token behind an expression, begins
with the same expression. -/
theorem expression_of_prefix {source other : String} {e : Expr} {u : List Item}
    {rest : TokenStream} {t : Token} (h : (ofString source).expression = (.ok e, ⟨rest, false⟩))
    (hu : (TokenStream.ofString source).items = u ++ rest.items) (ht : rest.item 0 = .token t)
    (hother : u ++ [.token t] <+: (TokenStream.ofString other).sequence) :
    (ofString other).expression.1 = .ok e := by
  obtain ⟨tokens, hstream, hderives, hdepth, hnests, hends⟩ :=
    Reading.expression_on_eq_ok_iff.mp (expression_eq_iff.mp h)
  obtain rfl : u = tokens.map .token := by
    rw [hstream, TokenStream.items_prepend] at hu
    exact (List.append_cancel_right hu).symm
  obtain ⟨left, hleft, hitem⟩ := TokenStream.exists_eq_prepend hother
  rw [ht, ← hitem] at hends
  have hon : Reading.expression.on (.ofString other) = (.ok e, left) :=
    Reading.expression_on_eq_ok_iff.mpr ⟨tokens, hleft, hderives, hdepth, hnests, hends⟩
  exact congrArg Prod.fst (expression_eq_iff.mpr hon : (ofString other).expression = _)

/-- Reading an expression takes one maximal expression and looks one token ahead.

The items that it takes are tokens that derive the expression within the limits, and the next item
is a token that ends an expression; wherever this is so, these tokens are taken. A parser that scans
its text on demand replies the same to all requests; behind an expression it keeps the next token
and has scanned the text up to the end of this token only. So the value of the expression at the
beginning of a text does not depend on what follows this token. -/
theorem expression_takes_one :
    (∀ (u : List Item) (rest : TokenStream) (failed : Bool) (e : Expr),
      (⟨⟨u ++ rest.items, rest.finish⟩, failed⟩ : Parser).expression = (.ok e, ⟨rest, failed⟩) ↔
        ∃ tokens, u = List.map .token tokens ∧ Derives .sum tokens e ∧ e.depth ≤ maxDepth ∧
          NestsWithin maxDepth 0 (tokens.map Token.kind) ∧ (rest.item 0).EndsExpression) ∧
    (∀ (source : String) (requests : List Request),
      let parser := ((ofString source).requestAll requests).2
      let lexing := ((onDemand source).requestAll requests).2
      ((onDemand source).requestAll requests).1 = ((ofString source).requestAll requests).1 ∧
        lexing.expression.1 = parser.expression.1 ∧
          ∀ e t, parser.expression.1 = .ok e → parser.expression.2.stream.item 0 = .token t →
            lexing.expression.2.stream.HasScannedTo source t) ∧
    ∀ (source other : String) (e : Expr) (u : List Item) (rest : TokenStream) (t : Token)
        (state : Interpreter),
      (ofString source).expression = (.ok e, ⟨rest, false⟩) →
        (TokenStream.ofString source).items = u ++ rest.items → rest.item 0 = .token t →
          u ++ [.token t] <+: (TokenStream.ofString other).sequence →
            state.evaluateSource other = state.evaluateSource source := by
  refine ⟨?_, ?_, ?_⟩
  · intro u rest failed e
    rw [expression_eq_iff, Reading.expression_on_eq_ok_iff]
    refine exists_congr fun tokens => and_congr_left fun _ => ?_
    simp [TokenStream.prepend]
  · intro source requests parser lexing
    obtain ⟨hreplies, hfollows⟩ := requestAll_onDemand source requests
    have hexpression := hfollows.perform (Lexer.exprsAlike_hasLeft source).expression
    exact ⟨hreplies, hexpression.1, fun e t => hfollows.hasScannedTo⟩
  · intro source other e u rest t state h hu ht hother
    have hboth := expression_of_prefix h hu ht hother
    rw [Interpreter.evaluateSource, Interpreter.evaluateSource, h, hboth]

/-- Behind `1 + 2` only the semicolon is looked at, so the illegal character behind it does not
matter. -/
theorem expression_takes_one_illegal :
    let t : Token := ⟨.semicolon, ";", ⟨5, 1, 6⟩⟩
    let rest : TokenStream := ⟨[.token t, .illegal ⟨'é', ⟨6, 1, 7⟩⟩], ⟨8, 1, 8⟩⟩
    ∃ e u, (ofString "1 + 2;é").expression = (.ok e, ⟨rest, false⟩) ∧
      (TokenStream.ofString "1 + 2;é").items = u ++ rest.items ∧
      (onDemand "1 + 2;é").expression.2.stream.HasScannedTo "1 + 2;é" t ∧
      u ++ [.token t] <+: (TokenStream.ofString "1 + 2; x").sequence ∧
      Interpreter.fresh.evaluateSource "1 + 2; x" =
        Interpreter.fresh.evaluateSource "1 + 2;é" := by
  intro t rest
  let e : Expr := .operation .plus (.literal (.int 1)) (.literal (.int 2)) ⟨2, 1, 3⟩
  let u : List Item := (TokenStream.ofString "1 + 2").items
  have h : (ofString "1 + 2;é").expression = (.ok e, ⟨rest, false⟩) := by decide +kernel
  have hu : (TokenStream.ofString "1 + 2;é").items = u ++ rest.items := by decide +kernel
  have hother : u ++ [.token t] <+: (TokenStream.ofString "1 + 2; x").sequence := by
    decide +kernel
  obtain ⟨-, hscanned, hevaluate⟩ := expression_takes_one
  refine ⟨e, u, h, hu, ?_, hother, hevaluate _ _ e u rest t .fresh h hu rfl hother⟩
  exact (hscanned "1 + 2;é" []).2.2 e t (congrArg Prod.fst h) (by decide +kernel)

end Parser

end Reckoner
