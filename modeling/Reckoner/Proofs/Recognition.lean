import Reckoner.Proofs.Soundness

/-!
# Reading recognizes the grammar

Each derivation within the limits is followed step by step: reading the tokens of a chain arrives at
the loop that continues the chain. Together with soundness this says which programs a source text is
read as.
-/

namespace Reckoner

namespace Reading

/-- Whether a chain of the given operations ends before a stream. -/
def Stops (operator? : Kind → Option Operator) (stream : TokenStream) : Prop :=
  ∃ t, peek.on stream = (.ok t, stream) ∧ operator? t.kind = none

/-- A chain stops where no sign of its operations follows. -/
theorem Stops.chain_on {operator? : Kind → Option Operator} {stream : TokenStream}
    (h : Stops operator? stream) (operand : Reading TokenStream Expr) (left : Expr) :
    (chain operator? operand left).on stream = (.ok left, stream) := by
  obtain ⟨t, hpeek, ht⟩ := h
  exact chain_on_of_peek hpeek ht

theorem stops_prepend {operator? : Kind → Option Operator} {t : Token}
    (h : operator? t.kind = none) (u : List Token) (stream : TokenStream) :
    Stops operator? (stream.prepend (t :: u)) :=
  ⟨t, peek_on_prepend t u stream, h⟩

theorem additive?_sign {op : Operator} (h : op.category = .sum) : additive? op.sign = some op := by
  cases op <;> first | rfl | cases h

theorem multiplicative?_sign {op : Operator} (h : op.category = .product) :
    multiplicative? op.sign = some op := by
  cases op <;> first | rfl | cases h

theorem multiplicative?_sign_eq_none {op : Operator} (h : op.category = .sum) :
    multiplicative? op.sign = none := by
  cases op <;> first | rfl | cases h

/-- A chain takes an operation with the operand behind it, unless this adds a level too many. -/
theorem chain_on_operation {operator? : Kind → Option Operator} {operand : Reading TokenStream Expr}
    {t : Token} {op : Operator} {v : List Token} {a b : Expr} {rest : TokenStream}
    (ht : operator? t.kind = some op) (hv : operand.on (rest.prepend v) = (.ok b, rest))
    (hd : 1 + max a.depth b.depth ≤ maxDepth) :
    (chain operator? operand a).on (rest.prepend (t :: v)) =
      (chain operator? operand (.operation op a b t.position)).on rest := by
  rw [chain_on_prepend ht, chainTail, on_bind, hv]
  simp only [if_pos hd]

/-- Reading some tokens as an expression of some level. Behind a sum or a product the chain may go
on, so these arrive at the loop that continues it. -/
def Follows (levels : Nat) : Category → List Token → Expr → Prop
  | .factor, u, e => ∀ rest : TokenStream, (factor levels).on (rest.prepend u) = (.ok e, rest)
  | .product, u, e => ∀ rest : TokenStream, (product (factor levels)).on (rest.prepend u) =
      (chain multiplicative? (factor levels) e).on rest
  | .sum, u, e => ∀ rest, Stops multiplicative? rest →
      (sum (factor levels)).on (rest.prepend u) =
        (chain additive? (product (factor levels)) e).on rest

theorem Follows.parentheses {levels : Nat} {l r : Token} {u : List Token} {e : Expr}
    (hl : l.kind = .leftParen) (hu : Follows levels .sum u e) (hr : r.kind = .rightParen) :
    Follows (levels + 1) .factor (l :: u ++ [r]) e := by
  intro rest
  have hmul : Stops multiplicative? (rest.prepend [r]) := stops_prepend (by rw [hr]; rfl) [] rest
  have hadd : Stops additive? (rest.prepend [r]) := stops_prepend (by rw [hr]; rfl) [] rest
  rw [factor_eq, on_bind, List.cons_append, next_on_prepend]
  simp only [factorTail, hl]
  rw [parenthesized, on_bind, TokenStream.prepend_append, hu _ hmul, hadd.chain_on]
  simp only
  rw [on_bind, expect_on_prepend (by simp) hr]
  rfl

/-- An operation is read as its operands are, one behind the other. -/
theorem Follows.operation {levels : Nat} {c : Category} {u v : List Token} {t : Token}
    {op : Operator} {a b : Expr} (hop : op.category = c) (hu : Follows levels c u a)
    (ht : t.kind = op.sign) (hv : Follows levels c.tighter v b)
    (hd : 1 + max a.depth b.depth ≤ maxDepth) :
    Follows levels c (u ++ t :: v) (.operation op a b t.position) := by
  cases c with
  | factor => cases op <;> cases hop
  | product =>
      intro rest
      have hmul : multiplicative? t.kind = some op := by rw [ht, multiplicative?_sign hop]
      rw [TokenStream.prepend_append, hu, chain_on_operation hmul (hv rest) hd]
  | sum =>
      intro rest hstops
      have hadd : additive? t.kind = some op := by rw [ht, additive?_sign hop]
      have hmul : multiplicative? t.kind = none := by rw [ht, multiplicative?_sign_eq_none hop]
      have hoperand : (product (factor levels)).on (rest.prepend v) = (.ok b, rest) := by
        rw [hv rest, hstops.chain_on]
      rw [TokenStream.prepend_append, hu _ (stops_prepend hmul v rest),
        chain_on_operation hadd hoperand hd]

/-- Derivations within the limits are followed. -/
theorem follows_of_derives {c : Category} {u : List Token} {e : Expr} (h : Derives c u e)
    {levels n : Nat} (hd : e.depth ≤ maxDepth)
    (hn : NestsWithin (n + levels) n (u.map Token.kind)) : Follows levels c u e := by
  induction h generalizing levels n with
  | @number t value ht =>
      intro rest
      rw [factor_eq, on_bind, next_on_prepend]
      simp only [factorTail, ht, on_pure, TokenStream.prepend_nil]
  | @identifier t ht =>
      intro rest
      rw [factor_eq, on_bind, next_on_prepend]
      simp only [factorTail, ht, on_pure, TokenStream.prepend_nil]
  | parentheses hl hu hr ih =>
      rw [hu.nestsWithin_parentheses hl hr] at hn
      have hle : n + 1 ≤ n + levels := hn [] List.nil_prefix
      obtain ⟨levels, rfl⟩ : ∃ k, levels = k + 1 := ⟨levels - 1, by omega⟩
      refine .parentheses hl (@ih levels (n + 1) hd ?_) hr
      rwa [Nat.add_assoc, Nat.add_comm 1 levels]
  | ofFactor _ ih =>
      intro rest
      rw [product, on_bind, ih hd hn rest]
  | ofProduct _ ih =>
      intro rest hstops
      rw [sum, on_bind, ih hd hn rest, hstops.chain_on]
  | operation hop hu ht hv ihu ihv =>
      rw [hu.nestsWithin_operation ht] at hn
      have hdepth := hd
      simp only [Expr.depth] at hdepth
      exact .operation hop (ihu (by omega) hn.1) ht (ihv (by omega) hn.2) hd

/-- Tokens that derive an expression within the limits are read as this expression, up to what
cannot continue it. -/
theorem expression_on_prepend {u : List Token} {e : Expr} (h : Derives .sum u e)
    (hd : e.depth ≤ maxDepth) (hn : NestsWithin maxDepth 0 (u.map Token.kind))
    {rest : TokenStream} (hmul : Stops multiplicative? rest) (hadd : Stops additive? rest) :
    expression.on (rest.prepend u) = (.ok e, rest) := by
  have hfollows : Follows maxDepth .sum u e := by
    apply follows_of_derives h hd
    rwa [Nat.zero_add]
  rw [expression_eq, hfollows rest hmul, hadd.chain_on]

theorem assignment_on_prepend {l n a s : Token} {u : List Token} {e : Expr}
    (hl : l.kind = .letKeyword) (hn : n.kind = .identifier) (ha : a.kind = .assign)
    (hu : Derives .sum u e) (hs : s.kind = .semicolon) (hd : e.depth ≤ maxDepth)
    (hnests : NestsWithin maxDepth 0 (u.map Token.kind)) (rest : TokenStream) :
    assignment.on (rest.prepend (l :: n :: a :: u ++ [s])) =
      (.ok (.assign n.literal e), rest) := by
  have hmul : Stops multiplicative? (rest.prepend [s]) := stops_prepend (by rw [hs]; rfl) [] rest
  have hadd : Stops additive? (rest.prepend [s]) := stops_prepend (by rw [hs]; rfl) [] rest
  simp only [assignment, List.cons_append, on_bind, on_pure, TokenStream.prepend_append,
    expect_on_prepend, hl, hn, ha, hs, ne_eq, reduceCtorEq, not_false_eq_true, implies_true,
    expression_on_prepend hu hd hnests hmul hadd, TokenStream.prepend_nil]

theorem printing_on_prepend {p l r s : Token} {u : List Token} {e : Expr}
    (hp : p.kind = .printKeyword) (hl : l.kind = .leftParen) (hu : Derives .sum u e)
    (hr : r.kind = .rightParen) (hs : s.kind = .semicolon) (hd : e.depth ≤ maxDepth)
    (hnests : NestsWithin maxDepth 0 (u.map Token.kind)) (rest : TokenStream) :
    printing.on (rest.prepend (p :: l :: u ++ [r, s])) = (.ok (.print e), rest) := by
  have hmul : Stops multiplicative? (rest.prepend [r, s]) :=
    stops_prepend (by rw [hr]; rfl) [s] rest
  have hadd : Stops additive? (rest.prepend [r, s]) := stops_prepend (by rw [hr]; rfl) [s] rest
  simp only [printing, List.cons_append, on_bind, on_pure, TokenStream.prepend_append,
    expect_on_prepend, hp, hl, hr, hs, ne_eq, reduceCtorEq, not_false_eq_true, implies_true,
    expression_on_prepend hu hd hnests hmul hadd, TokenStream.prepend_nil]

/-- Tokens that derive a statement within the limits are read as this statement, whatever
follows. -/
theorem statement_on_prepend {u : List Token} {found : Statement} (h : DerivesStatement u found)
    (hd : found.value.depth ≤ maxDepth) (hn : NestsWithin maxDepth 0 (u.map Token.kind))
    (rest : TokenStream) : statement.on (rest.prepend u) = (.ok found, rest) := by
  cases h with
  | assignment hl hname ha hu hs =>
      rw [nestsWithin_assignment hl hname ha hu hs] at hn
      rw [statement, on_bind, List.cons_append, peek_on_prepend]
      simp only [hl]
      exact assignment_on_prepend hl hname ha hu hs hd hn rest
  | printing hp hl hu hr hs =>
      rw [nestsWithin_printing hp hl hu hr hs] at hn
      rw [statement, on_bind, List.cons_append, peek_on_prepend]
      simp only [hp]
      exact printing_on_prepend hp hl hu hr hs hd hn rest

/-- A stream whose tokens derive statements within the limits is read as these statements. -/
theorem statements_complete {u : List Token} {found : List Statement} (h : DerivesProgram u found)
    (hd : ∀ statement ∈ found, statement.value.depth ≤ maxDepth)
    (hn : NestsWithin maxDepth 0 (u.map Token.kind)) {stream : TokenStream}
    (hseq : stream.sequence = u.map .token) : statements stream = (found, none) := by
  induction h generalizing stream with
  | finish ht =>
      have hitems : stream.items = [] := by
        have hlen := congrArg List.length hseq
        simpa [TokenStream.sequence] using hlen
      exact statements_of_atEnd (List.isEmpty_iff.mpr hitems)
  | @cons u v first further hu hv ih =>
      obtain ⟨hfirst, hfurther⟩ := List.forall_mem_cons.mp hd
      rw [List.map_append, hu.nestsWithin_append] at hn
      obtain ⟨rest, rfl, hrest⟩ : ∃ rest : TokenStream, stream = rest.prepend u ∧
          rest.sequence = v.map .token := by
        obtain ⟨w, t, rfl, -⟩ := hv.exists_eq_append
        rw [TokenStream.sequence, ← List.append_assoc, List.map_append] at hseq
        obtain ⟨hitems, hend⟩ := List.append_inj' hseq rfl
        refine ⟨⟨w.map .token, stream.finish⟩, ?_, ?_⟩
        · rcases stream with ⟨items, finish⟩
          simpa [TokenStream.prepend] using hitems
        · simpa [TokenStream.sequence, TokenStream.endToken] using hend
      rw [statements_of_ok (statement_on_prepend hu hfirst hn.1 rest), ih hfurther hn.2 hrest]

end Reading

/-- A source text is read as a program precisely if it has no illegal character, its tokens derive
the program, no expression of the program has too many levels, and at no place too many factor
parentheses are open. -/
theorem parse_eq_ok_iff (source : String) (program : Program) :
    Program.parse source = .ok program ↔
      ∃ tokens, (TokenStream.ofString source).tokens = .ok tokens ∧
        DerivesProgram tokens program.statements ∧
        (∀ statement ∈ program.statements, statement.value.depth ≤ maxDepth) ∧
        NestsWithin maxDepth 0 (tokens.map Token.kind) := by
  have hparse : Program.parse source = .ok program ↔
      Reading.statements (.ofString source) = (program.statements, none) := by
    rw [Program.parse, Reading.program]
    rcases Reading.statements (.ofString source) with ⟨found, _ | error⟩
    · rcases program with ⟨statements⟩
      simp
    · simp
  simp only [hparse, TokenStream.tokens_eq_ok_iff]
  constructor
  · exact Reading.statements_sound
  · rintro ⟨tokens, hseq, hderives, hdepth, hnests⟩
    exact Reading.statements_complete hderives hdepth hnests hseq

end Reckoner
