import Mathlib.Computability.Language
import Reckoner.Proofs.Recognition

/-!
# The languages of the grammar

The token sequences of each part of the grammar form a language. A chain is an operand followed by
any number of signs and operands, and the first token of a word decides how the word goes on: it
tells which rule of the grammar applies, and what the rest of the word consists of.
-/

namespace Reckoner

open scoped Computability

/-- The words of one token, whose kind has a property. -/
def letters (P : Kind → Prop) : Language Token :=
  {u | ∃ t : Token, P t.kind ∧ u = [t]}

/-- The words of one token of the given kind. -/
def single (kind : Kind) : Language Token :=
  letters (· = kind)

/-- The words of one token that stands for one of the given operations. -/
def signs (operator? : Kind → Option Operator) : Language Token :=
  letters (operator? · ≠ none)

/-- The token sequences of the expressions of a level. -/
def expressions (c : Category) : Language Token :=
  {u | ∃ e, Derives c u e}

/-- The token sequences of assignments. -/
def assignments : Language Token :=
  single .letKeyword * (single .identifier * (single .assign *
    (expressions .sum * single .semicolon)))

/-- The token sequences of printing statements. -/
def printings : Language Token :=
  single .printKeyword * (single .leftParen * (expressions .sum *
    (single .rightParen * single .semicolon)))

/-- The token sequences of programs, up to the end of input. -/
def programs : Language Token :=
  {u | ∃ found, DerivesProgram u found}

/-- Whether no word begins with a token that stands for one of the given operations. -/
def Avoids (operator? : Kind → Option Operator) (K : Language Token) : Prop :=
  ∀ ⦃t w⦄, t :: w ∈ K → operator? t.kind = none

section

variable {kind : Kind} {operator? : Kind → Option Operator} {t : Token} {w : List Token}
  {K : Language Token}

theorem exists_mem_single (kind : Kind) : ∃ u, u ∈ single kind :=
  ⟨[⟨kind, "", .start⟩], _, rfl, rfl⟩

/-- A word of letters with a property and of `K` behind them is such a letter and a word of `K`. -/
theorem cons_mem_letters_mul {P : Kind → Prop} :
    t :: w ∈ letters P * K ↔ P t.kind ∧ w ∈ K := by
  constructor
  · rintro ⟨_, ⟨first, hfirst, rfl⟩, v, hv, huv⟩
    obtain ⟨rfl, rfl⟩ := List.cons.inj huv
    exact ⟨hfirst, hv⟩
  · rintro ⟨ht, hw⟩
    exact Language.append_mem_mul (a := [t]) ⟨t, ht, rfl⟩ hw

theorem cons_mem_single_mul : t :: w ∈ single kind * K ↔ t.kind = kind ∧ w ∈ K :=
  cons_mem_letters_mul

theorem mem_single_mul {x : List Token} (h : x ∈ single kind * K) :
    ∃ t w, x = t :: w ∧ t.kind = kind ∧ w ∈ K := by
  obtain ⟨_, ⟨t, ht, rfl⟩, w, hw, rfl⟩ := h
  exact ⟨t, w, rfl, ht, hw⟩

/-- Words that begin with a kind which is no sign begin with no sign. -/
theorem avoids_single_mul (h : operator? kind = none) : Avoids operator? (single kind * K) := by
  intro t w hw
  rw [(cons_mem_single_mul.mp hw).1, h]

theorem exists_mem_mul {L : Language Token} (hL : ∃ u, u ∈ L) (hK : ∃ u, u ∈ K) :
    ∃ u, u ∈ L * K := by
  obtain ⟨u, hu⟩ := hL
  obtain ⟨v, hv⟩ := hK
  exact ⟨u ++ v, Language.append_mem_mul hu hv⟩

/-- How a word goes on that may begin with further operations of a chain. -/
theorem cons_mem_chain_mul {O : Language Token} :
    t :: w ∈ (signs operator? * O)∗ * K ↔
      t :: w ∈ K ∨ operator? t.kind ≠ none ∧ w ∈ O * ((signs operator? * O)∗ * K) := by
  have hunfold : (signs operator? * O)∗ * K =
      K + signs operator? * (O * ((signs operator? * O)∗ * K)) := by
    conv_lhs => rw [← Language.one_add_self_mul_kstar_eq_kstar]
    rw [add_mul, one_mul, mul_assoc, mul_assoc]
  rw [hunfold, Language.mem_add, signs, cons_mem_letters_mul, ← signs, ← hunfold]

end

/-! ## Expressions -/

/-- The operations of a level. -/
def Category.operator? : Category → Kind → Option Operator
  | sum => Reading.additive?
  | product => Reading.multiplicative?
  | factor => fun _ => none

/-- A kind that stands for an operation of a level is the sign of this operation. -/
theorem Category.operator?_eq_some {c : Category} {k : Kind} {op : Operator}
    (h : c.operator? k = some op) : op.category = c ∧ k = op.sign := by
  cases c with
  | sum => exact Reading.additive?_eq_some h
  | product => exact Reading.multiplicative?_eq_some h
  | factor => cases h

theorem Category.operator?_sign {c : Category} {op : Operator} (h : op.category = c) :
    c.operator? op.sign = some op := by
  cases c with
  | sum => exact Reading.additive?_sign h
  | product => exact Reading.multiplicative?_sign h
  | factor => cases op <;> cases h

/-- An expression of the next tighter level is one of the level itself. -/
theorem mem_expressions_of_tighter (c : Category) {u : List Token} (h : u ∈ expressions c.tighter) :
    u ∈ expressions c := by
  obtain ⟨e, he⟩ := h
  cases c with
  | sum => exact ⟨e, .ofProduct he⟩
  | product => exact ⟨e, .ofFactor he⟩
  | factor => exact ⟨e, he⟩

/-- Expressions of a level are chains of expressions of the next level. -/
theorem expressions_eq (c : Category) : expressions c =
    expressions c.tighter * (signs c.operator? * expressions c.tighter)∗ := by
  apply le_antisymm
  · have one {c : Category} {u : List Token} {e : Expr} (h : Derives c.tighter u e) :
        u ∈ expressions c.tighter * (signs c.operator? * expressions c.tighter)∗ := by
      have := Language.append_mem_mul (show u ∈ expressions c.tighter from ⟨e, h⟩)
        (Language.nil_mem_kstar (signs c.operator? * expressions c.tighter))
      rwa [List.append_nil] at this
    rintro u ⟨e, he⟩
    induction he with
    | number h => exact @one .factor _ _ (.number h)
    | identifier h => exact @one .factor _ _ (.identifier h)
    | parentheses hl hu hr => exact @one .factor _ _ (.parentheses hl hu hr)
    | ofFactor h => exact @one .product _ _ h
    | ofProduct h => exact @one .sum _ _ h
    | @operation c u v t op a b hop _ ht hv ihu =>
        obtain ⟨x, hx, y, hy, rfl⟩ := ihu
        have hsign : t :: v ∈ signs c.operator? * expressions c.tighter := by
          rw [← List.singleton_append]
          refine Language.append_mem_mul ⟨t, ?_, rfl⟩ ⟨b, hv⟩
          simp [ht, Category.operator?_sign hop]
        have hstar : (signs c.operator? * expressions c.tighter)∗ *
            (signs c.operator? * expressions c.tighter) ≤
              (signs c.operator? * expressions c.tighter)∗ := kstar_mul_le_kstar
        rw [List.append_assoc]
        exact Language.append_mem_mul hx (hstar (Language.append_mem_mul hy hsign))
  · apply mul_kstar_le fun _ => mem_expressions_of_tighter c
    rintro _ ⟨u, ⟨a, ha⟩, _, ⟨_, ⟨t, ht, rfl⟩, v, ⟨b, hb⟩, rfl⟩, rfl⟩
    obtain ⟨op, hop⟩ := Option.ne_none_iff_exists'.mp ht
    obtain ⟨hc, hsign⟩ := Category.operator?_eq_some hop
    exact ⟨_, .operation hc ha hsign hb⟩

/-- The first token of a factor says which factor it is. -/
theorem cons_mem_factor_mul {t : Token} {w : List Token} {K : Language Token} :
    t :: w ∈ expressions .factor * K ↔
      ((∃ value, t.kind = .number value) ∨ t.kind = .identifier) ∧ w ∈ K ∨
        t.kind = .leftParen ∧ w ∈ expressions .sum * (single .rightParen * K) := by
  constructor
  · rintro ⟨u, ⟨e, he⟩, v, hv, huv⟩
    cases he with
    | number h =>
        obtain ⟨rfl, rfl⟩ := List.cons.inj huv
        exact .inl ⟨.inl ⟨_, h⟩, hv⟩
    | identifier h =>
        obtain ⟨rfl, rfl⟩ := List.cons.inj huv
        exact .inl ⟨.inr h, hv⟩
    | @parentheses l r u _ hl hu hr =>
        simp only [List.cons_append, List.append_assoc, List.nil_append, List.cons.injEq] at huv
        obtain ⟨rfl, rfl⟩ := huv
        refine .inr ⟨hl, ?_⟩
        exact Language.append_mem_mul ⟨_, hu⟩ (cons_mem_single_mul.mpr ⟨hr, hv⟩)
    | @operation _ _ _ _ op _ _ hop => cases op <;> cases hop
  · rintro (⟨hleaf, hw⟩ | ⟨hl, u, ⟨e, he⟩, x, hx, rfl⟩)
    · refine Language.append_mem_mul (a := [t]) ?_ hw
      rcases hleaf with ⟨value, ht⟩ | ht
      · exact ⟨_, .number ht⟩
      · exact ⟨_, .identifier ht⟩
    · obtain ⟨r, w, rfl, hr, hw⟩ := mem_single_mul hx
      have hfactor : t :: u ++ [r] ∈ expressions .factor := ⟨e, .parentheses hl he hr⟩
      have := Language.append_mem_mul hfactor hw
      rwa [List.append_assoc] at this

theorem exists_mem_expressions (c : Category) : ∃ u, u ∈ expressions c := by
  have hfactor : [⟨.identifier, "", .start⟩] ∈ expressions .factor := ⟨_, .identifier rfl⟩
  cases c with
  | sum =>
      have hproduct := mem_expressions_of_tighter .product hfactor
      exact ⟨_, mem_expressions_of_tighter .sum hproduct⟩
  | product => exact ⟨_, mem_expressions_of_tighter .product hfactor⟩
  | factor => exact ⟨_, hfactor⟩

/-! ## Statements -/

theorem cons_mem_assignments_mul {t : Token} {w : List Token} {K : Language Token}
    (h : t :: w ∈ assignments * K) : t.kind = .letKeyword := by
  rw [assignments, mul_assoc] at h
  exact (cons_mem_single_mul.mp h).1

theorem cons_mem_printings_mul {t : Token} {w : List Token} {K : Language Token}
    (h : t :: w ∈ printings * K) : t.kind = .printKeyword := by
  rw [printings, mul_assoc] at h
  exact (cons_mem_single_mul.mp h).1

theorem exists_cons_mem_assignments_mul {K : Language Token} (hK : ∃ w, w ∈ K) :
    ∃ t w, t.kind = .letKeyword ∧ t :: w ∈ assignments * K := by
  obtain ⟨w, hw⟩ := exists_mem_mul (exists_mem_mul (exists_mem_single .identifier)
    (exists_mem_mul (exists_mem_single .assign)
      (exists_mem_mul (exists_mem_expressions .sum) (exists_mem_single .semicolon)))) hK
  refine ⟨⟨.letKeyword, "", .start⟩, w, rfl, ?_⟩
  rw [assignments, mul_assoc]
  exact cons_mem_single_mul.mpr ⟨rfl, hw⟩

theorem exists_cons_mem_printings_mul {K : Language Token} (hK : ∃ w, w ∈ K) :
    ∃ t w, t.kind = .printKeyword ∧ t :: w ∈ printings * K := by
  obtain ⟨w, hw⟩ := exists_mem_mul (exists_mem_mul (exists_mem_single .leftParen)
    (exists_mem_mul (exists_mem_expressions .sum)
      (exists_mem_mul (exists_mem_single .rightParen) (exists_mem_single .semicolon)))) hK
  refine ⟨⟨.printKeyword, "", .start⟩, w, rfl, ?_⟩
  rw [printings, mul_assoc]
  exact cons_mem_single_mul.mpr ⟨rfl, hw⟩

/-- Tokens that derive a statement are a word of the language of statements. -/
theorem derivesStatement_mem {u : List Token} {found : Statement} (h : DerivesStatement u found) :
    u ∈ assignments + printings := by
  cases h with
  | @assignment l n a s u e hl hn ha hu hs =>
      refine (Language.mem_add _ _ _).mpr (.inl ?_)
      simp only [assignments, List.cons_append, cons_mem_single_mul]
      exact ⟨hl, hn, ha, Language.append_mem_mul ⟨e, hu⟩ ⟨s, hs, rfl⟩⟩
  | @printing p l r s u e hp hl hu hr hs =>
      refine (Language.mem_add _ _ _).mpr (.inr ?_)
      simp only [printings, List.cons_append, cons_mem_single_mul]
      refine ⟨hp, hl, Language.append_mem_mul ⟨e, hu⟩ ?_⟩
      exact cons_mem_single_mul.mpr ⟨hr, s, hs, rfl⟩

/-- Each word of the language of statements derives a statement. -/
theorem exists_derivesStatement {u : List Token} (h : u ∈ assignments + printings) :
    ∃ found, DerivesStatement u found := by
  rcases (Language.mem_add _ _ _).mp h with h | h
  · obtain ⟨l, _, rfl, hl, h⟩ := mem_single_mul h
    obtain ⟨n, _, rfl, hn, h⟩ := mem_single_mul h
    obtain ⟨a, _, rfl, ha, h⟩ := mem_single_mul h
    obtain ⟨u, ⟨e, he⟩, _, ⟨s, hs, rfl⟩, rfl⟩ := h
    exact ⟨_, .assignment hl hn ha he hs⟩
  · obtain ⟨p, _, rfl, hp, h⟩ := mem_single_mul h
    obtain ⟨l, _, rfl, hl, h⟩ := mem_single_mul h
    obtain ⟨u, ⟨e, he⟩, _, hx, rfl⟩ := h
    obtain ⟨r, _, rfl, hr, s, hs, rfl⟩ := mem_single_mul hx
    exact ⟨_, .printing hp hl he hr hs⟩

/-- A statement in front of a program makes a program. -/
theorem mem_programs_of_mul {w : List Token} (h : w ∈ (assignments + printings) * programs) :
    w ∈ programs := by
  obtain ⟨u, hu, v, ⟨rest, hv⟩, rfl⟩ := h
  obtain ⟨found, hfound⟩ := exists_derivesStatement hu
  exact ⟨found :: rest, .cons hfound hv⟩

/-- A program that does not end at once begins with a statement. -/
theorem cons_mem_programs {t : Token} {w : List Token} (h : t :: w ∈ programs)
    (ht : t.kind ≠ .endOfInput) : t :: w ∈ (assignments + printings) * programs := by
  obtain ⟨found, h⟩ := h
  generalize hx : t :: w = x at h
  cases h with
  | finish hend =>
      obtain ⟨rfl, -⟩ := List.cons.inj hx
      exact absurd hend ht
  | cons hu hv => exact Language.append_mem_mul (derivesStatement_mem hu) ⟨_, hv⟩

theorem exists_mem_programs : ∃ u, u ∈ programs :=
  ⟨[⟨.endOfInput, "", .start⟩], [], .finish rfl⟩

end Reckoner
