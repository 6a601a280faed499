import Reckoner.Proofs.Lexing
import Reckoner.Proofs.Nesting

/-!
# Where the depth limits are reached

The two limits are met at different moments: one when a parenthesis is opened, the other when both
operands of an operation have been read. The tokens that have been taken by then show what stands
there. Either a factor is due while `maxDepth` parentheses are open, and another one is opened, or
an operation stands between two expressions of which one already has `maxDepth` levels.
-/

namespace Reckoner

/-! ## Expressions within the limit -/

namespace Expr

/-- An expression and all expressions that it contains. -/
def subtrees : Expr → List Expr
  | literal value => [literal value]
  | reference name position => [reference name position]
  | operation operator left right position =>
    operation operator left right position :: (left.subtrees ++ right.subtrees)

/-- No part of an expression is higher than the expression. -/
theorem depth_le_of_mem_subtrees {e part : Expr} (h : part ∈ e.subtrees) :
    part.depth ≤ e.depth := by
  induction e with
  | literal value => exact (List.mem_singleton.mp h) ▸ Nat.le_refl _
  | reference name position => exact (List.mem_singleton.mp h) ▸ Nat.le_refl _
  | operation operator left right position ihl ihr =>
      rw [subtrees, List.mem_cons, List.mem_append] at h
      rcases h with rfl | h | h
      · exact Nat.le_refl _
      · have hleft := ihl h
        rw [depth]
        omega
      · have hright := ihr h
        rw [depth]
        omega

end Expr

/-! ## Places of an expression -/

/-- The tokens that may stand in an expression before a part of it of some level. -/
inductive Before : Category → List Token → Prop
  | start : Before .sum []
  | inside {v : List Token} {t : Token} (hv : Before .factor v) (ht : t.kind = .leftParen) :
      Before .sum (v ++ [t])
  /-- The first operand of a chain begins where the chain begins. -/
  | first {c : Category} {v : List Token} (hv : Before c v) : Before c.tighter v
  /-- A further operand follows what has been joined before and the sign of an operation. -/
  | further {c : Category} {u v : List Token} {t : Token} {op : Operator} {a : Expr}
      (hv : Before c v) (hop : op.category = c) (hu : Derives c u a) (ht : t.kind = op.sign) :
      Before c.tighter (v ++ u ++ [t])

/-- Whether some tokens of an expression are just those with which a depth limit is reached, by the
given one of them. -/
inductive ReachesLimit : List Token → Token → Prop
  | parenthesis {v : List Token} {t : Token} (hv : Before .factor v) (ht : t.kind = .leftParen)
      (hopen : openParentheses 0 (v.map Token.kind) = maxDepth) : ReachesLimit (v ++ [t]) t
  | operation {c : Category} {u v w : List Token} {t : Token} {op : Operator} {a b : Expr}
      (hv : Before c v) (hop : op.category = c) (hu : Derives c u a) (ht : t.kind = op.sign)
      (hw : Derives c.tighter w b) (ha : a.depth ≤ maxDepth) (hb : b.depth ≤ maxDepth)
      (hmax : a.depth = maxDepth ∨ b.depth = maxDepth) : ReachesLimit (v ++ u ++ t :: w) t

/-- What stands before a part of an expression contains no `print`. -/
theorem Before.printKeyword_notMem {c : Category} {v : List Token} (h : Before c v) :
    .printKeyword ∉ v.map Token.kind := by
  induction h with
  | start => simp
  | inside _ ht ih => simpa [ht] using ih
  | first _ ih => exact ih
  | @further c u v t op a _ _ hu ht ih =>
      simp only [List.map_append, List.map_cons, List.map_nil, List.mem_append, List.mem_singleton,
        not_or, ht]
      exact ⟨⟨ih, hu.printKeyword_notMem⟩, op.sign_ne_printKeyword.symm⟩

/-- Whether some tokens may stand before a part of an expression inside which at most `levels` more
parentheses may be open at one time. -/
structure BeforeWithin (levels : Nat) (c : Category) (v : List Token) : Prop where
  before : Before c v
  open_add : openParentheses 0 (v.map Token.kind) + levels = maxDepth

namespace BeforeWithin

variable {levels : Nat} {c : Category} {u v : List Token} {t : Token}

theorem start : BeforeWithin maxDepth .sum [] :=
  ⟨.start, Nat.zero_add maxDepth⟩

/-- Behind a parenthesis one level fewer is left. -/
theorem inside (h : BeforeWithin (levels + 1) .factor v) (ht : t.kind = .leftParen) :
    BeforeWithin levels .sum (v ++ [t]) where
  before := .inside h.before ht
  open_add := by
    have hopen := h.open_add
    rw [List.map_append, openParentheses_append h.before.printKeyword_notMem]
    simp only [List.map_cons, List.map_nil, ht, openParentheses]
    omega

theorem first (h : BeforeWithin levels c v) : BeforeWithin levels c.tighter v :=
  ⟨.first h.before, h.open_add⟩

/-- An operand that is complete leaves the levels that were left before it. -/
theorem further {op : Operator} {a : Expr} (h : BeforeWithin levels c v) (hop : op.category = c)
    (hu : Derives c u a) (ht : t.kind = op.sign) :
    BeforeWithin levels c.tighter (v ++ u ++ [t]) where
  before := .further h.before hop hu ht
  open_add := by
    rw [List.map_append, List.map_append, List.append_assoc,
      openParentheses_append h.before.printKeyword_notMem,
      openParentheses_append hu.printKeyword_notMem, hu.openParentheses_eq, List.map_cons,
      List.map_nil, ht, op.openParentheses_sign, h.open_add]

end BeforeWithin

namespace Reading

/-! ## What is taken up to a limit -/

/-- Whether, where an action fails at a depth limit, the tokens that it takes and the token that it
blames are related. -/
def Overflows (action : Reading TokenStream α) (R : List Token → Token → Prop) : Prop :=
  ∀ ⦃stream rest t⦄, action.on stream = (.error (.unparsable (.tooDeep t)), rest) →
    ∃ u, stream = rest.prepend u ∧ R u t

variable {R : List Token → Token → Prop}

theorem overflows_pure (result : α) : Overflows (pure result) R := by
  intro stream rest t hon
  simp at hon

theorem overflows_refuse {error : SyntaxError} (h : ∀ t, error ≠ .tooDeep t) :
    Overflows (refuse error : Reading TokenStream α) R := by
  intro stream rest t hon
  rw [on_refuse, Prod.mk.injEq, Except.error.injEq, ReadError.unparsable.injEq] at hon
  exact absurd hon.1 (h t)

theorem overflows_tooDeep {t : Token} (h : R [] t) :
    Overflows (refuse (.tooDeep t) : Reading TokenStream α) R := by
  intro stream rest s hon
  rw [on_refuse, Prod.mk.injEq, Except.error.injEq, ReadError.unparsable.injEq,
    SyntaxError.tooDeep.injEq] at hon
  obtain ⟨rfl, rfl⟩ := hon
  exact ⟨[], rfl, h⟩

/-- What two actions take up to a limit is what the first one takes and then what the second
takes. -/
theorem Overflows.bind {action : Reading TokenStream α} {further : α → Reading TokenStream β}
    {P : List Token → α → Prop} (h : Overflows action R) (hp : Yields action P)
    (hf : ∀ u first, P u first → Overflows (further first) fun v t => R (u ++ v) t) :
    Overflows (action >>= further) R := by
  intro stream rest t hon
  rw [on_bind] at hon
  cases hfirst : action.on stream with
  | mk result middle =>
    rw [hfirst] at hon
    cases result with
    | error error =>
        obtain ⟨herror, rfl⟩ := Prod.mk.inj hon
        rw [Except.error.inj herror] at hfirst
        exact h hfirst
    | ok first =>
        obtain ⟨u, rfl, hu⟩ := hp hfirst
        obtain ⟨v, rfl, hv⟩ := hf u first hu hon
        exact ⟨u ++ v, (TokenStream.prepend_append u v rest).symm, hv⟩

theorem overflows_next : Overflows next R := by
  intro stream rest t hon
  rw [on_next] at hon
  split at hon <;> simp at hon

theorem overflows_peek : Overflows peek R := by
  intro stream rest t hon
  rw [on_peek] at hon
  split at hon <;> simp at hon

theorem overflows_expect (kind : Kind) : Overflows (expect kind) R := by
  apply overflows_next.bind yields_next
  intro u t hu
  split
  · exact overflows_pure t
  · apply overflows_refuse
    intro s
    rw [SyntaxError.ofMismatch]
    split <;> simp

theorem overflows_ofUnexpected (expected : Expectation) (t : Token) :
    Overflows (refuse (.ofUnexpected expected t) : Reading TokenStream α) R := by
  apply overflows_refuse
  intro s
  rw [SyntaxError.ofUnexpected]
  split <;> simp

/-! ## Expressions -/

variable {operator? : Kind → Option Operator} {operand : Reading TokenStream Expr} {levels : Nat}
  {v : List Token}

/-- A chain reaches a limit within an operand, or with an operation that would get too many levels.
Each operation joins an operand to the left side, and the tokens `u` of this side grow by it. -/
theorem overflows_chain {c : Category}
    (hop : ∀ {k op}, operator? k = some op → op.category = c ∧ k = op.sign)
    (hyields : Yields operand (DerivesWithin levels c.tighter))
    (h : ∀ v, BeforeWithin levels c.tighter v →
      Overflows operand fun w t => ReachesLimit (v ++ w) t)
    (hv : BeforeWithin levels c v) (left : Expr) : ∀ u, DerivesWithin levels c u left →
      Overflows (chain operator? operand left) fun w t => ReachesLimit (v ++ u ++ w) t := by
  have hend : operator? .endOfInput = none := operator?_endOfInput fun hs => (hop hs).2
  induction left using chain.induct with
  | case1 left ih =>
      intro u hu stream rest t hon
      rcases chain_on_cases hend operand left stream with
        hstop | ⟨s, tail, operator, rfl, hs, htail⟩ | ⟨error, tail, hillegal⟩
      · rw [hstop] at hon
        cases (Prod.mk.inj hon).1
      · obtain ⟨hc, hsign⟩ := hop hs
        have behind : Overflows (chainTail operator? operand left operator s) fun w t =>
            ReachesLimit (v ++ u ++ s :: w) t := by
          have hoperand := h (v ++ u ++ [s]) (hv.further hc hu.derives hsign)
          simp only [List.append_assoc, List.singleton_append] at hoperand ⊢
          apply hoperand.bind hyields
          intro w right hw
          split
          · rename_i hd
            have hrest := ih operator s right hd (u ++ s :: w) (.operation hc hu hsign hw hd)
            simpa only [List.append_assoc, List.cons_append] using hrest
          · rename_i hd
            have hleft := hu.depth_le
            have hright := hw.depth_le
            apply overflows_tooDeep
            rw [List.append_nil, ← List.append_assoc]
            exact .operation hv.before hc hu.derives hsign hw.derives hleft hright (by omega)
        rw [htail] at hon
        obtain ⟨w, rfl, hw⟩ := behind hon
        exact ⟨s :: w, (TokenStream.prepend_append [s] w rest).symm, hw⟩
      · rw [hillegal] at hon
        cases (Prod.mk.inj hon).1

section

variable {factor : Reading TokenStream Expr}
  (hyields : Yields factor (DerivesWithin levels .factor))
  (h : ∀ v, BeforeWithin levels .factor v → Overflows factor fun w t => ReachesLimit (v ++ w) t)

include hyields h

theorem overflows_product (hv : BeforeWithin levels .product v) :
    Overflows (product factor) fun w t => ReachesLimit (v ++ w) t := by
  apply (h v hv.first).bind hyields
  intro u left hu
  have hchain := overflows_chain multiplicative?_eq_some hyields h hv left u hu.ofFactor
  simpa only [List.append_assoc] using hchain

theorem overflows_sum (hv : BeforeWithin levels .sum v) :
    Overflows (sum factor) fun w t => ReachesLimit (v ++ w) t := by
  have hproduct := yields_product hyields
  have hover : ∀ v, BeforeWithin levels .product v →
      Overflows (product factor) fun w t => ReachesLimit (v ++ w) t :=
    fun v hv => overflows_product hyields h hv
  apply (hover v hv.first).bind hproduct
  intro u left hu
  have hchain := overflows_chain additive?_eq_some hproduct hover hv left u hu.ofProduct
  simpa only [List.append_assoc] using hchain

end

theorem overflows_parenthesized
    (h : ∀ v, BeforeWithin levels .factor v →
      Overflows (factor levels) fun w t => ReachesLimit (v ++ w) t)
    (hv : BeforeWithin (levels + 1) .factor v) {l : Token} (hl : l.kind = .leftParen) :
    Overflows (parenthesized (levels + 1) l) fun w t => ReachesLimit (v ++ l :: w) t := by
  have hsum := overflows_sum (yields_factor levels) h (hv.inside hl)
  simp only [List.append_assoc, List.singleton_append] at hsum
  apply hsum.bind (yields_sum (yields_factor levels))
  intro u e hu
  apply (overflows_expect _).bind (yields_expect (by simp) (by simp))
  intro w r hr
  exact overflows_pure e

/-- A factor reaches a limit only behind an opening parenthesis. -/
theorem overflows_factor_of_parenthesized
    (h : ∀ l : Token, l.kind = .leftParen →
      Overflows (parenthesized levels l) fun w t => R (l :: w) t) :
    Overflows (factor levels) R := by
  rw [factor_eq]
  apply overflows_next.bind yields_next
  intro u t hu
  rw [factorTail]
  split
  · exact overflows_pure _
  · exact overflows_pure _
  · rename_i ht
    obtain rfl : u = [t] := hu.resolve_right fun hu => by simp [ht] at hu
    exact h t ht
  · exact overflows_ofUnexpected _ _

/-- A factor reaches the limits within what stands before it, level by level of the parentheses. -/
theorem overflows_factor (levels : Nat) : ∀ v, BeforeWithin levels .factor v →
    Overflows (factor levels) fun w t => ReachesLimit (v ++ w) t := by
  induction levels with
  | zero =>
      intro v hv
      apply overflows_factor_of_parenthesized
      intro l hl
      exact overflows_tooDeep (.parenthesis hv.before hl hv.open_add)
  | succ levels ih =>
      intro v hv
      apply overflows_factor_of_parenthesized
      intro l hl
      exact overflows_parenthesized ih hv hl

/-- An expression that fails at a depth limit has just reached it. -/
theorem overflows_expression : Overflows expression ReachesLimit :=
  overflows_sum (yields_factor maxDepth) (overflows_factor maxDepth) .start

end Reading

/-! ## Statements -/

/-- The tokens of a statement before its expression. -/
inductive OpensStatement : List Token → Prop
  | assignment {l n a : Token} (hl : l.kind = .letKeyword) (hn : n.kind = .identifier)
      (ha : a.kind = .assign) : OpensStatement [l, n, a]
  | printing {p l : Token} (hp : p.kind = .printKeyword) (hl : l.kind = .leftParen) :
      OpensStatement [p, l]

/-- Whether a depth limit is reached in an expression behind tokens of some form. -/
def ReachesLimitBehind (Opens : List Token → Prop) (u : List Token) (t : Token) : Prop :=
  ∃ opening v, u = opening ++ v ∧ Opens opening ∧ ReachesLimit v t

namespace Reading

/-- What stands before an expression in a statement does not count for the limits. -/
theorem Overflows.behind {action : Reading TokenStream α} (h : Overflows action ReachesLimit)
    (Opens : List Token → Prop) {opening : List Token} (ho : Opens opening) :
    Overflows action fun u t => ReachesLimitBehind Opens (opening ++ u) t := by
  intro stream rest t hon
  obtain ⟨u, rfl, hu⟩ := h hon
  exact ⟨u, rfl, opening, u, rfl, ho, hu⟩

theorem overflows_assignment : Overflows assignment (ReachesLimitBehind OpensStatement) := by
  apply (overflows_expect _).bind (yields_expect (by simp) (by simp))
  rintro _ l ⟨rfl, hl⟩
  apply (overflows_expect _).bind (yields_expect (by simp) (by simp))
  rintro _ n ⟨rfl, hn⟩
  apply (overflows_expect _).bind (yields_expect (by simp) (by simp))
  rintro _ a ⟨rfl, ha⟩
  change Overflows _ fun v t => ReachesLimitBehind OpensStatement ([l, n, a] ++ v) t
  apply (overflows_expression.behind _ (.assignment hl hn ha)).bind yields_expression
  intro u e hu
  apply (overflows_expect _).bind (yields_expect (by simp) (by simp))
  intro _ s hs
  exact overflows_pure _

theorem overflows_printing : Overflows printing (ReachesLimitBehind OpensStatement) := by
  apply (overflows_expect _).bind (yields_expect (by simp) (by simp))
  rintro _ p ⟨rfl, hp⟩
  apply (overflows_expect _).bind (yields_expect (by simp) (by simp))
  rintro _ l ⟨rfl, hl⟩
  change Overflows _ fun v t => ReachesLimitBehind OpensStatement ([p, l] ++ v) t
  apply (overflows_expression.behind _ (.printing hp hl)).bind yields_expression
  intro u e hu
  apply (overflows_expect _).bind (yields_expect (by simp) (by simp))
  intro _ r hr
  apply (overflows_expect _).bind (yields_expect (by simp) (by simp))
  intro _ s hs
  exact overflows_pure _

/-- A statement that fails at a depth limit has just reached it in its expression. -/
theorem overflows_statement : Overflows statement (ReachesLimitBehind OpensStatement) := by
  apply overflows_peek.bind yields_peek
  rintro _ t rfl
  split
  · exact overflows_assignment
  · exact overflows_printing
  · exact overflows_ofUnexpected _ _

end Reading

/-! ## Requests -/

namespace Parser

/-- The expressions that a reply contains. -/
def Reply.expressions : Reply → List Expr
  | element (some (.ok found)) | statement (.ok found) => [found.value]
  | expression (.ok e) => [e]
  | _ => []

/-- The failure that a reply reports. -/
def Reply.failure? : Reply → Option ReadError
  | element (some (.error error)) | statement (.error error) | expression (.error error) =>
    some error
  | _ => none

/-- The tokens that a request may take before it takes those of an expression. -/
def Request.Opens : Request → List Token → Prop
  | advance, opening | statement, opening => OpensStatement opening
  | expression, opening => opening = []

variable {parser : Parser} {asked : Request}

theorem advance_eq_some {result : Except ReadError Statement}
    (h : parser.advance.1 = some result) :
    parser.statement.1 = result ∧ parser.advance.2.stream = parser.statement.2.stream := by
  rcases parser.advance_cases with hadvance | ⟨hresult, hstream⟩
  · rw [hadvance] at h
    cases h
  · exact ⟨Option.some.inj (hresult.symm.trans h), hstream⟩

/-- A parser that reads something takes tokens to which its result is related. -/
theorem perform_eq_ok {action : Reading TokenStream α} {R : List Token → α → Prop} {result : α}
    (hyields : Reading.Yields action R) (h : (parser.perform action).1 = .ok result) :
    ∃ u, R u result := by
  obtain ⟨u, -, hu⟩ := hyields (Prod.ext h rfl : action.on parser.stream = (.ok result, _))
  exact ⟨u, hu⟩

theorem perform_eq_tooDeep {action : Reading TokenStream α} {R : List Token → Token → Prop}
    {t : Token} (hover : Reading.Overflows action R)
    (h : (parser.perform action).1 = .error (.unparsable (.tooDeep t))) :
    ∃ u, parser.stream = (parser.perform action).2.stream.prepend u ∧ R u t :=
  hover (Prod.ext h rfl : action.on parser.stream = (.error (.unparsable (.tooDeep t)), _))

/-- The expressions of a reply have at most `maxDepth` levels. -/
theorem depth_le_of_mem_expressions {e : Expr} (h : e ∈ (parser.request asked).1.expressions) :
    e.depth ≤ maxDepth := by
  have statement_depth {found : Statement} (h : parser.statement.1 = .ok found) :
      found.value.depth ≤ maxDepth := by
    obtain ⟨u, hu⟩ := perform_eq_ok Reading.yields_statement h
    exact hu.depth_le
  cases asked with
  | advance =>
      change e ∈ (Reply.element parser.advance.1).expressions at h
      rcases hadvance : parser.advance.1 with _ | (_ | found)
      · simp [hadvance, Reply.expressions] at h
      · simp [hadvance, Reply.expressions] at h
      · rw [hadvance] at h
        obtain rfl := List.mem_singleton.mp h
        exact statement_depth (advance_eq_some hadvance).1
  | statement =>
      change e ∈ (Reply.statement parser.statement.1).expressions at h
      rcases hstatement : parser.statement.1 with _ | found
      · simp [hstatement, Reply.expressions] at h
      · rw [hstatement] at h
        obtain rfl := List.mem_singleton.mp h
        exact statement_depth hstatement
  | expression =>
      change e ∈ (Reply.expression parser.expression.1).expressions at h
      rcases hexpression : parser.expression.1 with _ | found
      · simp [hexpression, Reply.expressions] at h
      · rw [hexpression] at h
        obtain rfl := List.mem_singleton.mp h
        obtain ⟨u, hu⟩ := perform_eq_ok Reading.yields_expression hexpression
        exact hu.depth_le

/-- A request that fails has failed to read a statement, or an expression if it asked for one. -/
theorem cases_of_failure? {error : ReadError}
    (h : (parser.request asked).1.failure? = some error) :
    (asked ≠ .expression ∧ parser.statement.1 = .error error ∧
        (parser.request asked).2.stream = parser.statement.2.stream) ∨
      (asked = .expression ∧ parser.expression.1 = .error error) := by
  cases asked with
  | advance =>
      change (Reply.element parser.advance.1).failure? = _ at h
      rcases hadvance : parser.advance.1 with _ | (found | _)
      · simp [hadvance, Reply.failure?] at h
      · rw [hadvance] at h
        obtain rfl := Option.some.inj h
        exact .inl ⟨Request.noConfusion, advance_eq_some hadvance⟩
      · simp [hadvance, Reply.failure?] at h
  | statement =>
      change (Reply.statement parser.statement.1).failure? = _ at h
      rcases hstatement : parser.statement.1 with found | _
      · rw [hstatement] at h
        obtain rfl := Option.some.inj h
        exact .inl ⟨Request.noConfusion, rfl, rfl⟩
      · simp [hstatement, Reply.failure?] at h
  | expression =>
      change (Reply.expression parser.expression.1).failure? = _ at h
      rcases hexpression : parser.expression.1 with found | _
      · rw [hexpression] at h
        obtain rfl := Option.some.inj h
        exact .inr ⟨rfl, rfl⟩
      · simp [hexpression, Reply.failure?] at h

/-- A request that fails at a depth limit has taken tokens with which this limit is reached. -/
theorem request_reachesLimit {t : Token}
    (h : (parser.request asked).1.failure? = some (.unparsable (.tooDeep t))) :
    ∃ u, parser.stream = (parser.request asked).2.stream.prepend u ∧
      ReachesLimitBehind asked.Opens u t := by
  obtain ⟨hasked, hresult, hstream⟩ | ⟨rfl, hresult⟩ := cases_of_failure? h
  · have hopens : asked.Opens = OpensStatement := by
      cases asked with
      | advance | statement => rfl
      | expression => exact absurd rfl hasked
    rw [hstream, hopens]
    exact perform_eq_tooDeep Reading.overflows_statement hresult
  · have hover := Reading.overflows_expression.behind Request.expression.Opens rfl
    exact perform_eq_tooDeep hover hresult

theorem mem_requestAll {requests : List Request} {reply : Reply}
    (h : reply ∈ (parser.requestAll requests).1) :
    ∃ (reached : Parser) (asked : Request), reply = (reached.request asked).1 := by
  induction requests generalizing parser with
  | nil => cases h
  | cons asked rest ih =>
      rcases List.mem_cons.mp h with rfl | h
      · exact ⟨parser, asked, rfl⟩
      · exact ih h

/-- After any requests in any order, whatever failed between them: a parser that counts the open
parentheses has given the same replies, and its count is zero. Every expression in a reply, and each
part of it, has at most `maxDepth` levels. Reading an expression of any level leaves the count as it
was. If the next request fails at a depth limit, the tokens that it takes end with a parenthesis
that is opened where a factor is due and `maxDepth` parentheses of the expression are open, or with
an operation on two expressions of at most `maxDepth` levels, one of which has just as many; what
the failure blames is this parenthesis or the sign of this operation. -/
theorem depth_limits_hold (source : String) (requests : List Request) :
    ∃ replies parser, (ofString source).requestAll requests = (replies, parser) ∧
      (∃ peak, ((ofString source).tallying maxDepth).requestAll requests =
        (replies, ⟨⟨parser.stream, 0, 0, peak⟩, parser.failed⟩)) ∧
      (∀ reply ∈ replies, ∀ e ∈ reply.expressions, ∀ part ∈ e.subtrees, part.depth ≤ maxDepth) ∧
      (∀ k, Tally.KeepsNesting (Tally.sum (Tally.factor k) :
          Reading (Tally maxDepth TokenStream) Expr) ∧
        Tally.KeepsNesting (Reading.product (Tally.factor k) :
          Reading (Tally maxDepth TokenStream) Expr) ∧
        Tally.KeepsNesting (Tally.factor k : Reading (Tally maxDepth TokenStream) Expr)) ∧
      ∀ asked t, (parser.request asked).1.failure? = some (.unparsable (.tooDeep t)) →
        ∃ u, parser.stream = (parser.request asked).2.stream.prepend u ∧
          ReachesLimitBehind asked.Opens u t := by
  refine ⟨_, _, rfl, ?_, ?_, Tally.keepsNesting, fun asked t => request_reachesLimit⟩
  · exact exists_requestAll_tallying rfl (Nat.le_refl _) (ofString source) requests
  · intro reply hreply e he part hpart
    obtain ⟨reached, asked, rfl⟩ := mem_requestAll hreply
    exact Nat.le_trans (Expr.depth_le_of_mem_subtrees hpart) (depth_le_of_mem_expressions he)

end Parser

/-! ## Too many parentheses -/

namespace Reading

/-- An expression cannot begin with one parenthesis too many. -/
theorem factor_on_leftParens {u : List Token} (hu : ∀ l ∈ u, l.kind = .leftParen) {t : Token}
    (ht : t.kind = .leftParen) (rest : TokenStream) :
    (factor u.length).on (rest.prepend (u ++ [t])) = (.error (.unparsable (.tooDeep t)), rest) := by
  induction u with
  | nil =>
      rw [factor_eq, on_bind, List.nil_append, next_on_prepend]
      simp only [factorTail, ht]
      rfl
  | cons l u ih =>
      obtain ⟨hl, hu⟩ := List.forall_mem_cons.mp hu
      rw [factor_eq, on_bind, List.cons_append, next_on_prepend]
      simp only [factorTail, hl, parenthesized, List.length_cons, sum, product, on_bind, ih hu]

end Reading

theorem TokenStream.exists_ofChars_leftParens (p : Position) (n : Nat) (rest : List Char) :
    ∃ u stream, u.length = n ∧ (∀ l ∈ u, l.kind = .leftParen) ∧
      ofChars p (List.replicate n '(' ++ rest) = prepend u stream := by
  induction n generalizing p with
  | zero => exact ⟨[], _, rfl, by simp, rfl⟩
  | succ n ih =>
      obtain ⟨u, stream, hlength, hkinds, hchars⟩ := ih (p.advance '(')
      refine ⟨⟨.leftParen, String.ofList ['('], p⟩ :: u, stream, ?_, ?_, ?_⟩
      · rw [List.length_cons, hlength]
      · exact List.forall_mem_cons.mpr ⟨rfl, hkinds⟩
      · rw [List.replicate_succ, List.cons_append, ofChars_delimiter rfl (by simp), hchars]
        rfl

namespace Parser

/-- A text that begins with more than `maxDepth` parentheses fails at a depth limit when an
expression is asked for. -/
theorem failure?_leftParens (rest : List Char) :
    ∃ t, ((ofString (String.ofList (List.replicate (maxDepth + 1) '(' ++ rest))).request
      .expression).1.failure? = some (.unparsable (.tooDeep t)) := by
  obtain ⟨u, stream, hlength, hkinds, hchars⟩ :=
    TokenStream.exists_ofChars_leftParens .start (maxDepth + 1) rest
  obtain ⟨v, t, rfl⟩ : ∃ v t, u = v ++ [t] := by
    rcases List.eq_nil_or_concat' u with rfl | hconcat
    · cases hlength
    · exact hconcat
  rw [List.length_append, List.length_singleton, Nat.add_right_cancel_iff] at hlength
  rw [List.forall_mem_append, List.forall_mem_singleton] at hkinds
  have hfactor := Reading.factor_on_leftParens hkinds.1 hkinds.2 stream
  rw [hlength] at hfactor
  refine ⟨t, ?_⟩
  have hexpression : Reading.expression.on (stream.prepend (v ++ [t])) =
      (.error (.unparsable (.tooDeep t)), stream) := by
    simp only [Reading.expression, Reading.sum, Reading.product, Reading.on_bind, hfactor]
  simp only [ofString, TokenStream.ofString, String.toList_ofList, hchars, request, expression,
    perform, hexpression, Reply.failure?]

/-- In a text of one parenthesis too many a limit is reached. -/
theorem depth_limits_hold_leftParens :
    let source := String.ofList (List.replicate (maxDepth + 1) '(')
    ∃ t u, ((ofString source).request .expression).1.failure? = some (.unparsable (.tooDeep t)) ∧
      ReachesLimitBehind Request.expression.Opens u t := by
  intro source
  obtain ⟨t, hfailure⟩ := failure?_leftParens []
  rw [List.append_nil] at hfailure
  obtain ⟨replies, parser, hrequests, -, -, -, hblame⟩ := depth_limits_hold source []
  obtain ⟨-, rfl⟩ := Prod.mk.inj hrequests
  obtain ⟨u, -, hu⟩ := hblame .expression t hfailure
  exact ⟨t, u, hfailure, hu⟩

end Parser

end Reckoner
