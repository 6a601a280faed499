import Reckoner.Proofs.Grammar
import Reckoner.Proofs.Stream

/-!
# What is read follows the grammar

An action is sound for a relation between tokens and results when the tokens that it takes are
related to its result. The actions for expressions and statements are sound for the grammar with the
two limits on depth.
-/

namespace Reckoner

/-- Whether tokens derive a tree of no more than `maxDepth` levels, and open no more than `levels`
parentheses at one time besides those open before. -/
structure DerivesWithin (levels : Nat) (c : Category) (u : List Token) (e : Expr) : Prop where
  derives : Derives c u e
  depth_le : e.depth ≤ maxDepth
  nests : ∀ n, NestsWithin (n + levels) n (u.map Token.kind)

namespace DerivesWithin

/-- A factor of one token opens no parenthesis. -/
theorem leaf {levels : Nat} {t : Token} {e : Expr} (h : Derives .factor [t] e)
    (hd : e.depth = 1) : DerivesWithin levels .factor [t] e where
  derives := h
  depth_le := by simp [hd, maxDepth]
  nests n := by
    have ht : t.kind ≠ .printKeyword := fun ht => h.printKeyword_notMem (by simp [ht])
    have hn := h.openParentheses_eq n
    rw [List.map_cons, List.map_nil] at hn ⊢
    rw [nestsWithin_cons ht, hn, nestsWithin_nil]
    omega

theorem nests_zero {c : Category} {u : List Token} {e : Expr} (h : DerivesWithin maxDepth c u e) :
    NestsWithin maxDepth 0 (u.map Token.kind) := by
  simpa only [Nat.zero_add] using h.nests 0

theorem ofFactor {levels : Nat} {u : List Token} {e : Expr}
    (h : DerivesWithin levels .factor u e) : DerivesWithin levels .product u e :=
  ⟨.ofFactor h.derives, h.depth_le, h.nests⟩

theorem ofProduct {levels : Nat} {u : List Token} {e : Expr}
    (h : DerivesWithin levels .product u e) : DerivesWithin levels .sum u e :=
  ⟨.ofProduct h.derives, h.depth_le, h.nests⟩

/-- A factor is an expression of any level. -/
theorem ofFactor_any {levels : Nat} {u : List Token} {e : Expr}
    (h : DerivesWithin levels .factor u e) (c : Category) : DerivesWithin levels c u e := by
  cases c with
  | factor => exact h
  | product => exact h.ofFactor
  | sum => exact h.ofFactor.ofProduct

/-- An expression of any level is a sum. -/
theorem toSum {levels : Nat} {c : Category} {u : List Token} {e : Expr}
    (h : DerivesWithin levels c u e) : DerivesWithin levels .sum u e := by
  cases c with
  | factor => exact h.ofFactor.ofProduct
  | product => exact h.ofProduct
  | sum => exact h

/-- An operation keeps the limits if its operands do and it is not too high itself. -/
theorem operation {levels : Nat} {c : Category} {u v : List Token} {t : Token} {op : Operator}
    {a b : Expr} (hop : op.category = c) (hu : DerivesWithin levels c u a) (ht : t.kind = op.sign)
    (hv : DerivesWithin levels c.tighter v b) (hd : 1 + max a.depth b.depth ≤ maxDepth) :
    DerivesWithin levels c (u ++ t :: v) (.operation op a b t.position) where
  derives := .operation hop hu.derives ht hv.derives
  depth_le := hd
  nests n := (hu.derives.nestsWithin_operation ht).mpr ⟨hu.nests n, hv.nests n⟩

/-- Parentheses need one level more than what stands in them. -/
theorem parentheses {levels : Nat} {l r : Token} {u : List Token} {e : Expr}
    (hl : l.kind = .leftParen) (hu : DerivesWithin levels .sum u e) (hr : r.kind = .rightParen) :
    DerivesWithin (levels + 1) .factor (l :: u ++ [r]) e where
  derives := .parentheses hl hu.derives hr
  depth_le := hu.depth_le
  nests n := by
    rw [hu.derives.nestsWithin_parentheses hl hr, Nat.add_comm levels 1, ← Nat.add_assoc]
    exact hu.nests (n + 1)

end DerivesWithin

/-- Whether tokens derive a statement within the limits. -/
structure DerivesStatementWithin (u : List Token) (statement : Statement) : Prop where
  derives : DerivesStatement u statement
  depth_le : statement.value.depth ≤ maxDepth
  nests : NestsWithin maxDepth 0 (u.map Token.kind)

theorem DerivesStatementWithin.assignment {l n a s : Token} {u : List Token} {e : Expr}
    (hl : l.kind = .letKeyword) (hn : n.kind = .identifier) (ha : a.kind = .assign)
    (hu : DerivesWithin maxDepth .sum u e) (hs : s.kind = .semicolon) :
    DerivesStatementWithin (l :: n :: a :: u ++ [s]) (.assign n.literal e) where
  derives := .assignment hl hn ha hu.derives hs
  depth_le := hu.depth_le
  nests := (nestsWithin_assignment hl hn ha hu.derives hs).mpr hu.nests_zero

theorem DerivesStatementWithin.printing {p l r s : Token} {u : List Token} {e : Expr}
    (hp : p.kind = .printKeyword) (hl : l.kind = .leftParen)
    (hu : DerivesWithin maxDepth .sum u e) (hr : r.kind = .rightParen)
    (hs : s.kind = .semicolon) :
    DerivesStatementWithin (p :: l :: u ++ [r, s]) (.print e) where
  derives := .printing hp hl hu.derives hr hs
  depth_le := hu.depth_le
  nests := (nestsWithin_printing hp hl hu.derives hr hs).mpr hu.nests_zero

namespace Reading

/-- Whether the tokens that an action takes and its result are related. -/
def Yields (action : Reading TokenStream α) (R : List Token → α → Prop) : Prop :=
  ∀ ⦃stream rest result⦄, action.on stream = (.ok result, rest) →
    ∃ u, stream = rest.prepend u ∧ R u result

theorem yields_pure {result : α} {R : List Token → α → Prop} (h : R [] result) :
    Yields (pure result) R := by
  intro stream rest other hon
  simp only [on_pure, Prod.mk.injEq, Except.ok.injEq] at hon
  obtain ⟨rfl, rfl⟩ := hon
  exact ⟨[], rfl, h⟩

theorem yields_refuse {error : SyntaxError} {R : List Token → α → Prop} :
    Yields (refuse error) R := by
  intro stream rest result hon
  simp at hon

/-- The tokens that two actions take in turn stand behind one another. -/
theorem Yields.bind {action : Reading TokenStream α} {further : α → Reading TokenStream β}
    {P : List Token → α → Prop} {R : List Token → β → Prop} (h : Yields action P)
    (hf : ∀ u first, P u first → Yields (further first) fun v result => R (u ++ v) result) :
    Yields (action >>= further) R := by
  intro stream rest result hon
  obtain ⟨first, middle, hfirst, hrest⟩ := on_bind_eq_ok.mp hon
  obtain ⟨u, rfl, hu⟩ := h hfirst
  obtain ⟨v, rfl, hv⟩ := hf u first hu hrest
  exact ⟨u ++ v, (TokenStream.prepend_append u v rest).symm, hv⟩

/-- The next token is taken, unless it is the end of input. -/
theorem yields_next :
    Yields next fun u t => u = [t] ∨ u = [] ∧ t.kind = .endOfInput := by
  intro stream rest t hon
  rcases stream.head_cases with hnil | ⟨first, tail, rfl⟩ | ⟨error, tail, hitems⟩
  · rw [next_on_of_nil hnil] at hon
    simp only [Prod.mk.injEq, Except.ok.injEq] at hon
    obtain ⟨rfl, rfl⟩ := hon
    exact ⟨[], rfl, .inr ⟨rfl, rfl⟩⟩
  · rw [next_on_prepend] at hon
    simp only [Prod.mk.injEq, Except.ok.injEq] at hon
    obtain ⟨rfl, rfl⟩ := hon
    exact ⟨[first], rfl, .inl rfl⟩
  · rw [next_on_of_illegal hitems] at hon
    simp at hon

theorem yields_peek : Yields peek fun u _ => u = [] := by
  intro stream rest t hon
  rw [on_peek] at hon
  split at hon <;> simp only [Prod.mk.injEq, reduceCtorEq, false_and] at hon
  · exact ⟨[], hon.2, rfl⟩
  · exact ⟨[], hon.2, rfl⟩

/-- Requiring a kind takes a token of that kind. -/
theorem yields_expect {kind : Kind} (hk : ∀ value, kind ≠ .number value)
    (hend : kind ≠ .endOfInput) : Yields (expect kind) fun u t => u = [t] ∧ t.kind = kind := by
  apply yields_next.bind
  intro u t hu
  split
  · rename_i hbeq
    have ht := (Kind.beq_iff_eq hk).mp hbeq
    refine yields_pure ?_
    rcases hu with rfl | ⟨_, hu⟩
    · exact ⟨rfl, ht⟩
    · exact absurd (ht.symm.trans hu) hend
  · exact yields_refuse

theorem additive?_eq_some {k : Kind} {op : Operator} (h : additive? k = some op) :
    op.category = .sum ∧ k = op.sign := by
  cases k <;> cases h <;> exact ⟨rfl, rfl⟩

theorem multiplicative?_eq_some {k : Kind} {op : Operator} (h : multiplicative? k = some op) :
    op.category = .product ∧ k = op.sign := by
  cases k <;> cases h <;> exact ⟨rfl, rfl⟩

/-- What a chain does behind an operation that the next token stands for. -/
def chainTail (operator? : Kind → Option Operator) (operand : Reading TokenStream Expr)
    (left : Expr) (operator : Operator) (t : Token) : Reading TokenStream Expr := do
  let right ← operand
  if 1 + max left.depth right.depth ≤ maxDepth then
    chain operator? operand (.operation operator left right t.position)
  else refuse (.tooDeep t)

variable {operator? : Kind → Option Operator} {operand : Reading TokenStream Expr} {left : Expr}

/-- A chain goes on at a sign that it accepts. -/
theorem chain_on_prepend {t : Token} {operator : Operator}
    (ht : operator? t.kind = some operator) (u : List Token) (stream : TokenStream) :
    (chain operator? operand left).on (stream.prepend (t :: u)) =
      (chainTail operator? operand left operator t).on (stream.prepend u) := by
  rw [chain, on_bind, peek_on_prepend]
  simp only [ht]
  rw [on_bind, next_on_prepend]
  rfl

/-- What a factor does behind an opening parenthesis. -/
def parenthesized : Nat → Token → Reading TokenStream Expr
  | 0, t => refuse (.tooDeep t)
  | levels + 1, _ => do
    let inner ← sum (factor levels)
    let _ ← expect .rightParen
    return inner

/-- What a factor does behind its first token. -/
def factorTail (levels : Nat) (t : Token) : Reading TokenStream Expr :=
  match t.kind with
  | .number value => return .literal value
  | .identifier => return .reference t.literal t.position
  | .leftParen => parenthesized levels t
  | _ => refuse (.ofUnexpected .factor t)

theorem factor_eq (levels : Nat) : factor levels = next >>= factorTail levels := by
  cases levels with
  | zero =>
      rw [factor]
      apply bind_congr
      intro t
      rcases t with ⟨kind, literal, position⟩
      cases kind <;> rfl
  | succ levels =>
      rw [factor]
      apply bind_congr
      intro t
      rcases t with ⟨kind, literal, position⟩
      cases kind <;> rfl

/-- A chain ends before a token that stands for none of its operations. -/
theorem chain_on_of_peek {stream : TokenStream} {t : Token}
    (hpeek : peek.on stream = (.ok t, stream)) (ht : operator? t.kind = none) :
    (chain operator? operand left).on stream = (.ok left, stream) := by
  rw [chain, on_bind, hpeek]
  simp only [ht, on_pure]

/-- The end of input is the sign of no operation. -/
theorem operator?_endOfInput (hop : ∀ {k op}, operator? k = some op → k = op.sign) :
    operator? .endOfInput = none := by
  rw [Option.eq_none_iff_forall_ne_some]
  intro op hs
  cases op <;> exact Kind.noConfusion (hop hs)

/-- A chain ends at once, or it goes on behind an operation, or an illegal character follows. -/
theorem chain_on_cases (hend : operator? .endOfInput = none) (operand : Reading TokenStream Expr)
    (left : Expr) (stream : TokenStream) :
    (chain operator? operand left).on stream = (.ok left, stream) ∨
      (∃ t tail operator, stream = tail.prepend [t] ∧ operator? t.kind = some operator ∧
        (chain operator? operand left).on stream =
          (chainTail operator? operand left operator t).on tail) ∨
      ∃ error rest, (chain operator? operand left).on stream = (.error (.illegal error), rest) := by
  rcases stream.head_cases with hnil | ⟨t, tail, rfl⟩ | ⟨error, tail, hitems⟩
  · exact .inl (chain_on_of_peek (peek_on_of_nil hnil) hend)
  · cases ht : operator? t.kind with
    | none => exact .inl (chain_on_of_peek (peek_on_prepend t [] tail) ht)
    | some operator => exact .inr (.inl ⟨t, tail, operator, rfl, ht, chain_on_prepend ht [] tail⟩)
  · refine .inr (.inr ⟨error, { stream with items := tail }, ?_⟩)
    rw [chain, on_bind, peek_on_of_illegal hitems]

/-- A chain extends each derivation of its left side. -/
theorem yields_chain {c : Category} {levels : Nat}
    (hop : ∀ {k op}, operator? k = some op → op.category = c ∧ k = op.sign)
    (h : Yields operand (DerivesWithin levels c.tighter)) (left : Expr) :
    Yields (chain operator? operand left) fun v e =>
      ∀ u, DerivesWithin levels c u left → DerivesWithin levels c (u ++ v) e := by
  have hend : operator? .endOfInput = none := operator?_endOfInput fun hs => (hop hs).2
  induction left using chain.induct with
  | case1 left ih =>
      intro stream rest e hon
      rcases chain_on_cases hend operand left stream with
        hstop | ⟨t, tail, operator, rfl, ht, htail⟩ | ⟨error, tail, hillegal⟩
      · rw [hstop, Prod.mk.injEq, Except.ok.injEq] at hon
        obtain ⟨rfl, rfl⟩ := hon
        exact ⟨[], rfl, fun u hu => by rwa [List.append_nil]⟩
      · obtain ⟨hc, hsign⟩ := hop ht
        have further : Yields (chainTail operator? operand left operator t) fun v e =>
            ∀ u, DerivesWithin levels c u left → DerivesWithin levels c (u ++ t :: v) e := by
          apply h.bind
          intro v right hv
          split
          · rename_i hd
            intro stream rest e hon
            obtain ⟨w, rfl, hw⟩ := ih operator t right hd hon
            refine ⟨w, rfl, fun u hu => ?_⟩
            have := hw (u ++ t :: v) (.operation hc hu hsign hv hd)
            rwa [List.append_assoc, List.cons_append] at this
          · exact yields_refuse
        rw [htail] at hon
        obtain ⟨v, rfl, hv⟩ := further hon
        exact ⟨t :: v, (TokenStream.prepend_append [t] v rest).symm, hv⟩
      · rw [hillegal] at hon
        cases (Prod.mk.inj hon).1

theorem yields_product {levels : Nat} {factor : Reading TokenStream Expr}
    (h : Yields factor (DerivesWithin levels .factor)) :
    Yields (product factor) (DerivesWithin levels .product) :=
  h.bind fun u left hu => by
    intro stream rest e hon
    obtain ⟨v, rfl, hv⟩ := yields_chain multiplicative?_eq_some h left hon
    exact ⟨v, rfl, hv u hu.ofFactor⟩

theorem yields_sum {levels : Nat} {factor : Reading TokenStream Expr}
    (h : Yields factor (DerivesWithin levels .factor)) :
    Yields (sum factor) (DerivesWithin levels .sum) :=
  (yields_product h).bind fun u left hu => by
    intro stream rest e hon
    obtain ⟨v, rfl, hv⟩ := yields_chain additive?_eq_some (yields_product h) left hon
    exact ⟨v, rfl, hv u hu.ofProduct⟩

/-- What stands behind an opened parenthesis makes with it a factor of one level more. -/
theorem yields_parenthesized {levels : Nat}
    (h : Yields (factor levels) (DerivesWithin levels .factor)) {l : Token}
    (hl : l.kind = .leftParen) : Yields (parenthesized (levels + 1) l) fun v e =>
      DerivesWithin (levels + 1) .factor (l :: v) e := by
  apply (yields_sum h).bind
  intro u e hu
  apply (yields_expect (by simp) (by simp)).bind
  intro v r hr
  obtain ⟨rfl, hr⟩ := hr
  refine yields_pure ?_
  rw [List.append_nil]
  exact .parentheses hl hu hr

/-- The tokens that reading a factor takes derive it within the levels of parentheses left. By
induction on these levels. The four cases of the first token are those of the grammar, and only a
parenthesis needs the induction. -/
theorem yields_factor (levels : Nat) : Yields (factor levels) (DerivesWithin levels .factor) := by
  have step {levels : Nat} (hp : ∀ {l : Token}, l.kind = .leftParen →
      Yields (parenthesized levels l) fun v e => DerivesWithin levels .factor (l :: v) e) :
      Yields (factor levels) (DerivesWithin levels .factor) := by
    rw [factor_eq]
    apply yields_next.bind
    intro u t hu
    rw [factorTail]
    have taken {k : Kind} (ht : t.kind = k) (hk : k ≠ .endOfInput) : u = [t] :=
      hu.resolve_right fun hu => hk (ht.symm.trans hu.2)
    split
    · rename_i value ht
      obtain rfl := taken ht (by simp)
      exact yields_pure (.leaf (.number ht) rfl)
    · rename_i ht
      obtain rfl := taken ht (by simp)
      exact yields_pure (.leaf (.identifier ht) rfl)
    · rename_i ht
      obtain rfl := taken ht (by simp)
      exact hp ht
    · exact yields_refuse
  induction levels with
  | zero => exact step fun _ => yields_refuse
  | succ levels ih => exact step (yields_parenthesized ih)

/-- The tokens that reading an expression takes derive it within the limits. -/
theorem yields_expression : Yields expression (DerivesWithin maxDepth .sum) :=
  yields_sum (yields_factor maxDepth)

theorem yields_assignment : Yields assignment DerivesStatementWithin := by
  apply (yields_expect (by simp) (by simp)).bind
  rintro _ l ⟨hl, hlet⟩
  apply (yields_expect (by simp) (by simp)).bind
  rintro _ n ⟨hn, hname⟩
  apply (yields_expect (by simp) (by simp)).bind
  rintro _ a ⟨ha, hassign⟩
  apply yields_expression.bind
  intro u e hu
  apply (yields_expect (by simp) (by simp)).bind
  rintro _ s ⟨hs, hsemicolon⟩
  subst hl hn ha hs
  exact yields_pure (.assignment hlet hname hassign hu hsemicolon)

theorem yields_printing : Yields printing DerivesStatementWithin := by
  apply (yields_expect (by simp) (by simp)).bind
  rintro _ p ⟨hp, hprint⟩
  apply (yields_expect (by simp) (by simp)).bind
  rintro _ l ⟨hl, hleft⟩
  apply yields_expression.bind
  intro u e hu
  apply (yields_expect (by simp) (by simp)).bind
  rintro _ r ⟨hr, hright⟩
  apply (yields_expect (by simp) (by simp)).bind
  rintro _ s ⟨hs, hsemicolon⟩
  subst hp hl hr hs
  exact yields_pure (.printing hprint hleft hu hright hsemicolon)

/-- The tokens that reading a statement takes derive it within the limits. -/
theorem yields_statement : Yields statement DerivesStatementWithin := by
  apply yields_peek.bind
  intro _ t hu
  subst hu
  split
  · exact yields_assignment
  · exact yields_printing
  · exact yields_refuse

theorem statements_of_atEnd {stream : TokenStream} (h : stream.atEnd) :
    statements stream = ([], none) := by
  rw [statements, if_pos h]

theorem statements_of_error {stream rest : TokenStream} {error : ReadError}
    (hend : ¬stream.atEnd) (h : statement.on stream = (.error error, rest)) :
    statements stream = ([], some error) := by
  rw [statements, if_neg hend]
  split
  · rename_i hon
    cases h.symm.trans hon
    rfl
  · rename_i hon
    cases h.symm.trans hon

theorem statements_of_ok {stream rest : TokenStream} {first : Statement}
    (h : statement.on stream = (.ok first, rest)) :
    statements stream = (first :: (statements rest).1, (statements rest).2) := by
  have hend : ¬stream.atEnd := by
    intro hend
    have hlt := progresses_statement h
    rw [List.isEmpty_iff.mp hend] at hlt
    exact Nat.not_lt_zero _ hlt
  rw [statements, if_neg hend]
  split
  · rename_i hon
    cases h.symm.trans hon
  · rename_i hon
    cases h.symm.trans hon
    rfl

/-- The statements of a stream that is read to its end are derived by all of its tokens. -/
theorem statements_sound {stream : TokenStream} {found : List Statement}
    (h : statements stream = (found, none)) :
    ∃ u, stream.sequence = u.map .token ∧ DerivesProgram u found ∧
      (∀ statement ∈ found, statement.value.depth ≤ maxDepth) ∧
      NestsWithin maxDepth 0 (u.map Token.kind) := by
  induction stream using statements.induct generalizing found with
  | case1 stream hend =>
      rw [statements_of_atEnd hend] at h
      obtain ⟨rfl, -⟩ := Prod.mk.inj h
      have hitems : stream.items = [] := List.isEmpty_iff.mp hend
      refine ⟨[stream.endToken], by simp [TokenStream.sequence, hitems], .finish rfl, by simp, ?_⟩
      exact (nestsWithin_cons (by simp [TokenStream.endToken])).mpr
        ⟨Nat.zero_le _, nestsWithin_nil.mpr (Nat.zero_le _)⟩
  | case2 stream hend error rest hon =>
      rw [statements_of_error hend hon] at h
      simp at h
  | case3 stream hend first rest hon ih =>
      rw [statements_of_ok hon] at h
      obtain ⟨rfl, hnone⟩ := Prod.mk.inj h
      obtain ⟨v, hseq, hv, hdepth, hnests⟩ := ih (Prod.ext rfl hnone)
      obtain ⟨u, rfl, hu⟩ := yields_statement hon
      refine ⟨u ++ v, ?_, .cons hu.derives hv, ?_, ?_⟩
      · rw [TokenStream.sequence_prepend, hseq, List.map_append]
      · exact List.forall_mem_cons.mpr ⟨hu.depth_le, hdepth⟩
      · rw [List.map_append, hu.derives.nestsWithin_append]
        exact ⟨hu.nests, hnests⟩

end Reading

/-- A text is read as a program if its statements are read up to the end of input. -/
theorem Program.parse_eq_ok_iff_statements {source : String} {program : Program} :
    parse source = .ok program ↔
      Reading.statements (.ofString source) = (program.statements, none) := by
  rw [parse, Reading.program]
  rcases Reading.statements (.ofString source) with ⟨found, _ | error⟩
  · rcases program with ⟨statements⟩
    simp
  · simp

end Reckoner
