import Reckoner.Reading.Program

/-!
# The grammar of programs

```text
program    := statement* END_OF_INPUT
statement  := LET IDENTIFIER ASSIGN sum SEMICOLON | PRINT LPAREN sum RPAREN SEMICOLON
sum        := product ((PLUS | MINUS) product)*
product    := factor ((STAR | SLASH) factor)*
factor     := NUMBER | IDENTIFIER | LPAREN sum RPAREN
```

The relations below say which tokens derive which tree. They know of no limit; the nesting of
parentheses is a matter of the tokens alone and is counted apart, by `openParentheses`.
-/

namespace Reckoner

/-- The levels of expressions, from the loosest to the tightest. -/
inductive Category where
  | sum
  | product
  | factor

/-- The level of the operands to the right of an operation. -/
def Category.tighter : Category → Category
  | sum => product
  | product | factor => factor

namespace Operator

/-- The token that stands for an operation. -/
def sign : Operator → Kind
  | plus => .plus
  | minus => .minus
  | times => .star
  | divide => .slash

/-- The level of the chains that an operation builds. -/
def category : Operator → Category
  | plus | minus => .sum
  | times | divide => .product

/-- An operation is written with one character, the delimiter that is its sign. -/
theorem exists_toList_symbol (op : Operator) :
    ∃ c, op.symbol.toList = [c] ∧ Lexeme.delimiter? c = some op.sign := by
  cases op <;> exact ⟨_, rfl, rfl⟩

end Operator

/-- The tokens of an expression of some level, with the tree that they derive. An operation takes an
operand of its own level to the left and one of the next level to the right. Parentheses leave no
trace in the tree. -/
inductive Derives : Category → List Token → Expr → Prop
  | number {t : Token} {value : Number} (h : t.kind = .number value) :
      Derives .factor [t] (.literal value)
  | identifier {t : Token} (h : t.kind = .identifier) :
      Derives .factor [t] (.reference t.literal t.position)
  | parentheses {l r : Token} {u : List Token} {e : Expr} (hl : l.kind = .leftParen)
      (hu : Derives .sum u e) (hr : r.kind = .rightParen) : Derives .factor (l :: u ++ [r]) e
  | ofFactor {u : List Token} {e : Expr} (h : Derives .factor u e) : Derives .product u e
  | ofProduct {u : List Token} {e : Expr} (h : Derives .product u e) : Derives .sum u e
  | operation {c : Category} {u v : List Token} {t : Token} {op : Operator} {a b : Expr}
      (hop : op.category = c) (hu : Derives c u a) (ht : t.kind = op.sign)
      (hv : Derives c.tighter v b) : Derives c (u ++ t :: v) (.operation op a b t.position)

/-- The tokens of a statement. -/
inductive DerivesStatement : List Token → Statement → Prop
  | assignment {l n a s : Token} {u : List Token} {e : Expr} (hl : l.kind = .letKeyword)
      (hn : n.kind = .identifier) (ha : a.kind = .assign) (hu : Derives .sum u e)
      (hs : s.kind = .semicolon) : DerivesStatement (l :: n :: a :: u ++ [s]) (.assign n.literal e)
  | printing {p l r s : Token} {u : List Token} {e : Expr} (hp : p.kind = .printKeyword)
      (hl : l.kind = .leftParen) (hu : Derives .sum u e) (hr : r.kind = .rightParen)
      (hs : s.kind = .semicolon) : DerivesStatement (p :: l :: u ++ [r, s]) (.print e)

/-- The tokens of the statements of a program, the last of them the end of input. -/
inductive DerivesProgram : List Token → List Statement → Prop
  | finish {t : Token} (h : t.kind = .endOfInput) : DerivesProgram [t] []
  | cons {u v : List Token} {statement : Statement} {rest : List Statement}
      (hu : DerivesStatement u statement) (hv : DerivesProgram v rest) :
      DerivesProgram (u ++ v) (statement :: rest)

/-- The number of factor parentheses open behind tokens of the given kinds, when `n` are open before
them. The parenthesis behind `print` is no factor parenthesis, and the one that closes it finds none
open. -/
def openParentheses : Nat → List Kind → Nat
  | n, [] => n
  | n, .printKeyword :: .leftParen :: rest => openParentheses n rest
  | n, .leftParen :: rest => openParentheses (n + 1) rest
  | n, .rightParen :: rest => openParentheses (n - 1) rest
  | n, _ :: rest => openParentheses n rest

/-- Whether at no place more than `limit` factor parentheses are open. -/
def NestsWithin (limit n : Nat) (kinds : List Kind) : Prop :=
  ∀ before, before <+: kinds → openParentheses n before ≤ limit

/-! ## Open parentheses -/

theorem openParentheses_cons {k : Kind} (h : k ≠ .printKeyword) (n : Nat) (kinds : List Kind) :
    openParentheses n (k :: kinds) = openParentheses (openParentheses n [k]) kinds := by
  cases k <;> first | contradiction | rfl

theorem openParentheses_append {u : List Kind} (h : .printKeyword ∉ u) (n : Nat) (v : List Kind) :
    openParentheses n (u ++ v) = openParentheses (openParentheses n u) v := by
  induction u generalizing n with
  | nil => rfl
  | cons k u ih =>
      obtain ⟨hk, hu⟩ := List.ne_and_not_mem_of_not_mem_cons h
      calc openParentheses n (k :: u ++ v)
          = openParentheses (openParentheses n [k]) (u ++ v) := openParentheses_cons hk.symm n _
        _ = openParentheses (openParentheses (openParentheses n [k]) u) v := ih hu _
        _ = openParentheses (openParentheses n (k :: u)) v := by
            rw [openParentheses_cons hk.symm n u]

theorem nestsWithin_nil {limit n : Nat} : NestsWithin limit n [] ↔ n ≤ limit := by
  simp [NestsWithin, openParentheses]

theorem nestsWithin_cons {k : Kind} (h : k ≠ .printKeyword) {limit n : Nat} {kinds : List Kind} :
    NestsWithin limit n (k :: kinds) ↔
      n ≤ limit ∧ NestsWithin limit (openParentheses n [k]) kinds := by
  constructor
  · intro hn
    constructor
    · exact hn [] List.nil_prefix
    · intro before hb
      rw [← openParentheses_cons h]
      exact hn (k :: before) (List.cons_prefix_cons.mpr ⟨rfl, hb⟩)
  · rintro ⟨hn, hrest⟩ before hb
    cases List.prefix_cons_iff.mp hb with
    | inl hnil =>
        rw [hnil]
        exact hn
    | inr hcons =>
        obtain ⟨tail, rfl, ht⟩ := hcons
        rw [openParentheses_cons h]
        exact hrest tail ht

/-- A sequence nests within a limit if its first piece does, and then its rest from what the first
piece leaves open. -/
theorem nestsWithin_append {u : List Kind} (h : .printKeyword ∉ u) {limit n : Nat}
    {v : List Kind} : NestsWithin limit n (u ++ v) ↔
      NestsWithin limit n u ∧ NestsWithin limit (openParentheses n u) v := by
  induction u generalizing n with
  | nil =>
      rw [List.nil_append, openParentheses, nestsWithin_nil]
      constructor
      · intro hv
        exact ⟨hv [] List.nil_prefix, hv⟩
      · exact And.right
  | cons k u ih =>
      obtain ⟨hk, hu⟩ := List.ne_and_not_mem_of_not_mem_cons h
      rw [List.cons_append, nestsWithin_cons hk.symm, ih hu, nestsWithin_cons hk.symm, and_assoc,
        openParentheses_cons hk.symm n u]

/-! ## Expressions -/

theorem Operator.sign_ne_printKeyword (op : Operator) : op.sign ≠ .printKeyword := by
  cases op <;> exact Kind.noConfusion

theorem Operator.sign_ne_endOfInput (op : Operator) : op.sign ≠ .endOfInput := by
  cases op <;> exact Kind.noConfusion

theorem Operator.openParentheses_sign (op : Operator) (n : Nat) :
    openParentheses n [op.sign] = n := by
  cases op <;> rfl

namespace Derives

/-- No expression contains `print`, so every parenthesis of an expression is a factor
parenthesis. -/
theorem printKeyword_notMem {c : Category} {u : List Token} {e : Expr} (h : Derives c u e) :
    .printKeyword ∉ u.map Token.kind := by
  induction h with
  | number h => simp [h]
  | identifier h => simp [h]
  | parentheses hl _ hr ih => simpa [hl, hr] using ih
  | ofFactor _ ih => exact ih
  | ofProduct _ ih => exact ih
  | @operation _ _ _ _ op _ _ _ _ ht _ ihu ihv =>
      simp only [List.map_append, List.map_cons, List.mem_append, List.mem_cons, not_or, ht]
      exact ⟨ihu, op.sign_ne_printKeyword.symm, ihv⟩

/-- Behind an expression as many parentheses are open as before it. -/
theorem openParentheses_eq {c : Category} {u : List Token} {e : Expr} (h : Derives c u e)
    (n : Nat) : openParentheses n (u.map Token.kind) = n := by
  induction h generalizing n with
  | number h => simp [h, openParentheses]
  | identifier h => simp [h, openParentheses]
  | parentheses hl hu hr ih =>
      simp only [List.map_append, List.map_cons, List.map_nil, hl, hr, List.cons_append]
      rw [openParentheses_cons (by simp), openParentheses_append hu.printKeyword_notMem, ih]
      rfl
  | ofFactor _ ih => exact ih n
  | ofProduct _ ih => exact ih n
  | @operation _ _ _ _ op _ _ _ hu ht _ ihu ihv =>
      rw [List.map_append, openParentheses_append hu.printKeyword_notMem, ihu, List.map_cons, ht,
        openParentheses_cons op.sign_ne_printKeyword, op.openParentheses_sign, ihv]

theorem nestsWithin_append {c : Category} {u : List Token} {e : Expr} (h : Derives c u e)
    {limit n : Nat} {v : List Kind} : NestsWithin limit n (u.map Token.kind ++ v) ↔
      NestsWithin limit n (u.map Token.kind) ∧ NestsWithin limit n v := by
  rw [Reckoner.nestsWithin_append h.printKeyword_notMem, h.openParentheses_eq]

/-- An operation nests as deep as its operands do. Its sign opens nothing, and the left operand
closes what it opens. -/
theorem nestsWithin_operation {c : Category} {u v : List Token} {e : Expr} (h : Derives c u e)
    {t : Token} {op : Operator} (ht : t.kind = op.sign) {limit n : Nat} :
    NestsWithin limit n ((u ++ t :: v).map Token.kind) ↔
      NestsWithin limit n (u.map Token.kind) ∧ NestsWithin limit n (v.map Token.kind) := by
  rw [List.map_append, h.nestsWithin_append, List.map_cons, ht,
    nestsWithin_cons op.sign_ne_printKeyword, op.openParentheses_sign]
  constructor
  · intro hn
    exact ⟨hn.1, hn.2.2⟩
  · intro hn
    exact ⟨hn.1, hn.1 [] List.nil_prefix, hn.2⟩

/-- Parentheses around an expression leave one level fewer to it. -/
theorem nestsWithin_parentheses {u : List Token} {e : Expr} (h : Derives .sum u e) {l r : Token}
    (hl : l.kind = .leftParen) (hr : r.kind = .rightParen) {limit n : Nat} :
    NestsWithin limit n ((l :: u ++ [r]).map Token.kind) ↔
      NestsWithin limit (n + 1) (u.map Token.kind) := by
  rw [List.map_append, List.map_cons, hl, List.cons_append, nestsWithin_cons (by simp),
    h.nestsWithin_append, List.map_cons, hr, nestsWithin_cons (by simp), List.map_nil,
    nestsWithin_nil]
  change n ≤ limit ∧ NestsWithin limit (n + 1) _ ∧ n + 1 ≤ limit ∧ n ≤ limit ↔ _
  constructor
  · intro hn
    exact hn.2.1
  · intro hu
    have hle : n + 1 ≤ limit := hu [] List.nil_prefix
    exact ⟨by omega, hu, hle, by omega⟩

end Derives

theorem nestsWithin_print {limit n : Nat} {kinds : List Kind} :
    NestsWithin limit n (.printKeyword :: .leftParen :: kinds) ↔ NestsWithin limit n kinds := by
  constructor
  · intro h before hb
    exact h (.printKeyword :: .leftParen :: before)
      (List.cons_prefix_cons.mpr ⟨rfl, List.cons_prefix_cons.mpr ⟨rfl, hb⟩⟩)
  · intro h before hb
    have hn : n ≤ limit := h [] List.nil_prefix
    cases List.prefix_cons_iff.mp hb with
    | inl hnil =>
        rw [hnil]
        exact hn
    | inr hcons =>
        obtain ⟨first, rfl, hfirst⟩ := hcons
        cases List.prefix_cons_iff.mp hfirst with
        | inl hnil =>
            rw [hnil]
            exact hn
        | inr hcons =>
            obtain ⟨second, rfl, hsecond⟩ := hcons
            exact h second hsecond

/-- An assignment nests as deep as its expression does, and leaves no parenthesis open. -/
theorem nestsWithin_assignment_append {l n a s : Token} {u : List Token} {e : Expr}
    (hl : l.kind = .letKeyword) (hn : n.kind = .identifier) (ha : a.kind = .assign)
    (hu : Derives .sum u e) (hs : s.kind = .semicolon) {limit : Nat} {v : List Kind} :
    NestsWithin limit 0 ((l :: n :: a :: u ++ [s]).map Token.kind ++ v) ↔
      NestsWithin limit 0 (u.map Token.kind) ∧ NestsWithin limit 0 v := by
  simp only [List.map_append, List.map_cons, List.map_nil, List.cons_append, List.append_assoc,
    List.nil_append, hl, hn, ha, hs]
  simp [nestsWithin_cons, hu.nestsWithin_append, openParentheses]

theorem nestsWithin_assignment {l n a s : Token} {u : List Token} {e : Expr}
    (hl : l.kind = .letKeyword) (hn : n.kind = .identifier) (ha : a.kind = .assign)
    (hu : Derives .sum u e) (hs : s.kind = .semicolon) {limit : Nat} :
    NestsWithin limit 0 ((l :: n :: a :: u ++ [s]).map Token.kind) ↔
      NestsWithin limit 0 (u.map Token.kind) := by
  have h := @nestsWithin_assignment_append _ _ _ _ _ _ hl hn ha hu hs limit []
  simpa only [List.append_nil, nestsWithin_nil, Nat.zero_le, and_true] using h

theorem nestsWithin_printing_append {p l r s : Token} {u : List Token} {e : Expr}
    (hp : p.kind = .printKeyword) (hl : l.kind = .leftParen) (hu : Derives .sum u e)
    (hr : r.kind = .rightParen) (hs : s.kind = .semicolon) {limit : Nat} {v : List Kind} :
    NestsWithin limit 0 ((p :: l :: u ++ [r, s]).map Token.kind ++ v) ↔
      NestsWithin limit 0 (u.map Token.kind) ∧ NestsWithin limit 0 v := by
  simp only [List.map_append, List.map_cons, List.map_nil, List.cons_append, List.append_assoc,
    List.nil_append, hp, hl, hr, hs, nestsWithin_print]
  simp [nestsWithin_cons, hu.nestsWithin_append, openParentheses]

theorem nestsWithin_printing {p l r s : Token} {u : List Token} {e : Expr}
    (hp : p.kind = .printKeyword) (hl : l.kind = .leftParen) (hu : Derives .sum u e)
    (hr : r.kind = .rightParen) (hs : s.kind = .semicolon) {limit : Nat} :
    NestsWithin limit 0 ((p :: l :: u ++ [r, s]).map Token.kind) ↔
      NestsWithin limit 0 (u.map Token.kind) := by
  have h := @nestsWithin_printing_append _ _ _ _ _ _ hp hl hu hr hs limit []
  simpa only [List.append_nil, nestsWithin_nil, Nat.zero_le, and_true] using h

/-- The parentheses of a statement and of what follows it are counted apart. -/
theorem DerivesStatement.nestsWithin_append {u : List Token} {statement : Statement}
    (h : DerivesStatement u statement) {limit : Nat} {v : List Kind} :
    NestsWithin limit 0 (u.map Token.kind ++ v) ↔
      NestsWithin limit 0 (u.map Token.kind) ∧ NestsWithin limit 0 v := by
  cases h with
  | assignment hl hn ha hu hs =>
      rw [nestsWithin_assignment_append hl hn ha hu hs, nestsWithin_assignment hl hn ha hu hs]
  | printing hp hl hu hr hs =>
      rw [nestsWithin_printing_append hp hl hu hr hs, nestsWithin_printing hp hl hu hr hs]

/-- The last token of a program is the end of input. -/
theorem DerivesProgram.exists_eq_append {u : List Token} {found : List Statement}
    (h : DerivesProgram u found) : ∃ v t, u = v ++ [t] ∧ t.kind = .endOfInput := by
  induction h with
  | @finish t ht => exact ⟨[], t, rfl, ht⟩
  | @cons u _ _ _ _ _ ih =>
      obtain ⟨v, t, rfl, ht⟩ := ih
      exact ⟨u ++ v, t, (List.append_assoc u v [t]).symm, ht⟩

/-- The tokens of a statement of a program are among those of the program. -/
theorem DerivesProgram.exists_of_mem {u : List Token} {found : List Statement}
    (h : DerivesProgram u found) {statement : Statement} (hs : statement ∈ found) :
    ∃ v, DerivesStatement v statement ∧ v ⊆ u := by
  induction h with
  | finish _ => cases hs
  | @cons v w _ _ hv _ ih =>
      cases List.mem_cons.mp hs with
      | inl heq =>
          subst heq
          exact ⟨v, hv, List.subset_append_left v w⟩
      | inr hrest =>
          obtain ⟨x, hx, hsub⟩ := ih hrest
          exact ⟨x, hx, List.subset_append_of_subset_right v hsub⟩

end Reckoner
