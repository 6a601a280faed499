import Mathlib.Logic.Function.Basic
import Reckoner.Proofs.Effects
import Reckoner.Proofs.Reports

/-!
# Integers stay exact

An expression is worth an integer precisely if all of it is integral: its literals, the values of
its variables, and its operations, among which is no division. This integer is what the expression
is worth in the ring of integers, where nothing is rounded. A program without divisions and
floating-point literals thus computes with integers only, and a ledger over the integers has the
same entries.
-/

namespace Reckoner

/-! ## Integral expressions -/

/-- The integer that a number is. -/
def Number.int? : Number → Option Int
  | int z => some z
  | float _ => none

/-- What an operation does to integers. A quotient is none. -/
def Operator.int? : Operator → Option (Int → Int → Int)
  | plus => some (· + ·)
  | minus => some (· - ·)
  | times => some (· * ·)
  | divide => none

/-- The integer that a variable of a store holds. -/
def Store.int? (store : Store) (name : String) : Option Int :=
  (store.get? name).bind Number.int?

namespace Expr

/-- What an expression is worth in the integers, when its variables have the given values there. -/
def int? (values : String → Option Int) : Expr → Option Int
  | literal value => value.int?
  | reference name _ => values name
  | operation operator left right _ => do
    let f ← operator.int?
    return f (← left.int? values) (← right.int? values)

/-- Whether a node is a literal that is an integer, a variable with a property, or an operation
that is no division. -/
def Node.IsIntegral (P : String → Prop) : Node → Prop
  | literal value => ∃ z, value = .int z
  | reference name _ => P name
  | operation operator _ => operator ≠ .divide

/-- Whether an expression has no division, all of its literals are integers, and all of its
variables have a property. -/
def IsIntegral (P : String → Prop) (e : Expr) : Prop :=
  ∀ node ∈ e.postorder, node.IsIntegral P

end Expr

theorem Number.int?_eq_some_iff {n : Number} {z : Int} : n.int? = some z ↔ n = .int z := by
  cases n <;> simp [int?]

theorem Store.int?_eq_some_iff {store : Store} {name : String} {z : Int} :
    store.int? name = some z ↔ store.get? name = some (.int z) := by
  simp [int?, Option.bind_eq_some_iff, Number.int?_eq_some_iff]

theorem Operator.isSome_int?_iff {op : Operator} : op.int?.isSome ↔ op ≠ .divide := by
  cases op <;> simp [int?]

/-- Two numbers are combined to an integer precisely if both are integers. -/
theorem Number.combine_eq_int_iff {f : Int → Int → Int}
    {rounded : Binary64 → Binary64 → Binary64} {a b : Number} {z : Int} :
    combine f rounded a b = .int z ↔ ∃ x y, a = .int x ∧ b = .int y ∧ f x y = z := by
  cases a <;> cases b <;> simp [combine]

theorem Operator.apply_of_int? {op : Operator} {f : Int → Int → Int}
    (h : op.int? = some f) (a b : Number) (position : Position) :
    ∃ rounded, op.apply a b position = .ok (Number.combine f rounded a b) := by
  cases op <;> cases h <;> exact ⟨_, rfl⟩

/-- An operation results in an integer if it is no division and both operands are integers, and then
it is exact. -/
theorem Operator.apply_eq_int_iff {op : Operator} {a b : Number} {position : Position} {z : Int} :
    op.apply a b position = .ok (.int z) ↔
      ∃ f x y, op.int? = some f ∧ a = .int x ∧ b = .int y ∧ f x y = z := by
  by_cases hdivide : op = .divide
  · have hfloat : a / b = .float (a.toBinary64 / b.toBinary64) := rfl
    rw [hdivide, apply]
    split <;> simp [int?, hfloat]
  · obtain ⟨f, hop⟩ := Option.isSome_iff_exists.mp (isSome_int?_iff.mpr hdivide)
    obtain ⟨rounded, happly⟩ := apply_of_int? hop a b position
    rw [happly, Except.ok.injEq, Number.combine_eq_int_iff]
    simp [hop]

namespace Expr

variable {values : String → Option Int} {P : String → Prop} {left right : Expr} {op : Operator}
  {position : Position}

/-- An operation is integral if it is no division and its operands are integral. -/
theorem isIntegral_operation : (operation op left right position).IsIntegral P ↔
    op ≠ .divide ∧ left.IsIntegral P ∧ right.IsIntegral P := by
  simp only [IsIntegral, postorder, List.forall_mem_append, List.forall_mem_singleton,
    Node.IsIntegral]
  exact and_comm

/-- The value of an operation in the integers comes from those of its operands. -/
theorem int?_operation_eq_some_iff {z : Int} :
    (operation op left right position).int? values = some z ↔
      ∃ f x y, op.int? = some f ∧ left.int? values = some x ∧
        right.int? values = some y ∧ f x y = z := by
  simp [int?, Option.bind_eq_some_iff]

/-- An expression is worth something in the integers precisely if it is integral. -/
theorem exists_int?_iff {e : Expr} :
    (∃ z, e.int? values = some z) ↔ e.IsIntegral fun name => ∃ z, values name = some z := by
  induction e with
  | literal value =>
      cases value <;> simp [int?, Number.int?, IsIntegral, postorder, Node.IsIntegral]
  | reference name position => simp [int?, IsIntegral, postorder, Node.IsIntegral]
  | operation op left right position ihl ihr =>
      rw [isIntegral_operation, ← ihl, ← ihr, ← Operator.isSome_int?_iff,
        Option.isSome_iff_exists]
      simp only [int?_operation_eq_some_iff]
      constructor
      · rintro ⟨_, f, x, y, hop, hleft, hright, -⟩
        exact ⟨⟨f, hop⟩, ⟨x, hleft⟩, ⟨y, hright⟩⟩
      · rintro ⟨⟨f, hop⟩, ⟨x, hleft⟩, ⟨y, hright⟩⟩
        exact ⟨_, f, x, y, hop, hleft, hright, rfl⟩

theorem evaluate_operation_eq_ok_iff {store : Store} {n : Number} :
    (operation op left right position).evaluate store = .ok n ↔
      ∃ a b, left.evaluate store = .ok a ∧ right.evaluate store = .ok b ∧
        op.apply a b position = .ok n := by
  rw [evaluate]
  cases left.evaluate store with
  | error error => simp [bind, Except.bind]
  | ok a => cases right.evaluate store <;> simp [bind, Except.bind]

/-- An expression evaluates to an integer precisely if it is worth this integer. -/
theorem evaluate_eq_int_iff {store : Store} {e : Expr} {z : Int} :
    e.evaluate store = .ok (.int z) ↔ e.int? store.int? = some z := by
  induction e generalizing z with
  | literal value =>
      rw [evaluate, int?, Number.int?_eq_some_iff, Except.ok.injEq]
  | reference name position =>
      rw [evaluate, int?, Store.int?_eq_some_iff]
      cases store.get? name <;> simp
  | operation op left right position ihl ihr =>
      rw [evaluate_operation_eq_ok_iff, int?_operation_eq_some_iff]
      simp only [Operator.apply_eq_int_iff, ← ihl, ← ihr]
      constructor
      · rintro ⟨a, b, hleft, hright, f, x, y, hop, rfl, rfl, hz⟩
        exact ⟨f, x, y, hop, hleft, hright, hz⟩
      · rintro ⟨f, x, y, hop, hleft, hright, hz⟩
        exact ⟨_, _, hleft, hright, f, x, y, hop, rfl, rfl, hz⟩

/-- Where all variables are integers, an integral expression evaluates to an integer if none of its
variables is missing. -/
theorem evaluate_cases {store : Store}
    (hstore : ∀ name n, store.get? name = some n → ∃ z, n = .int z) {e : Expr}
    (he : e.IsIntegral fun _ => True) : (∃ z, e.evaluate store = .ok (.int z)) ∨
      ∃ name position, e.evaluate store = .error (.undefinedVariable name position) := by
  induction e with
  | literal value =>
      obtain ⟨z, rfl⟩ : ∃ z, value = .int z := he _ List.mem_cons_self
      exact .inl ⟨z, rfl⟩
  | reference name position =>
      rw [evaluate]
      cases hvalue : store.get? name with
      | none => exact .inr ⟨name, position, rfl⟩
      | some n =>
          obtain ⟨z, rfl⟩ := hstore name n hvalue
          exact .inl ⟨z, rfl⟩
  | operation op left right position ihl ihr =>
      obtain ⟨hop, hleft, hright⟩ := isIntegral_operation.mp he
      rw [evaluate]
      rcases ihl hleft with ⟨x, hx⟩ | ⟨name, place, herror⟩
      · rcases ihr hright with ⟨y, hy⟩ | ⟨name, place, herror⟩
        · obtain ⟨f, hf⟩ := Option.isSome_iff_exists.mp (Operator.isSome_int?_iff.mpr hop)
          rw [hx, hy]
          exact .inl ⟨_, Operator.apply_eq_int_iff.mpr ⟨f, x, y, hf, rfl, rfl, rfl⟩⟩
        · rw [hx, herror]
          exact .inr ⟨name, place, rfl⟩
      · rw [herror]
        exact .inr ⟨name, place, rfl⟩

end Expr

/-! ## Ledgers -/

/-- Integral values of variables, and the integers printed so far. -/
structure Ledger where
  values : String → Option Int
  printed : List Int

namespace Ledger

/-- The ledger without entries. -/
def empty : Ledger := ⟨fun _ => none, []⟩

/-- The ledger behind a statement whose expression is worth something in the integers. -/
def execute (ledger : Ledger) : Statement → Option Ledger
  | .assign name e => do
    let z ← e.int? ledger.values
    return { ledger with values := Function.update ledger.values name (some z) }
  | .print e => do
    let z ← e.int? ledger.values
    return { ledger with printed := ledger.printed ++ [z] }

/-- The ledger behind the statements up to the first whose expression is worth nothing in the
integers. -/
def executeAll (ledger : Ledger) : List Statement → Ledger
  | [] => ledger
  | statement :: rest =>
    match ledger.execute statement with
    | some next => next.executeAll rest
    | none => ledger

/-- Whether a state has the variables and the printed lines of a ledger. -/
structure Describes (ledger : Ledger) (state : Interpreter) : Prop where
  store : ∀ name, state.store.get? name = (ledger.values name).map .int
  output : state.output = ledger.printed.map toString

variable {ledger : Ledger} {state : Interpreter}

theorem describes_fresh : empty.Describes .fresh :=
  ⟨fun _ => rfl, rfl⟩

theorem Describes.int?_eq (h : ledger.Describes state) : state.store.int? = ledger.values := by
  funext name
  rw [Store.int?, h.store name]
  cases ledger.values name <;> rfl

/-- An integral expression evaluates to what it is worth in the ledger. If it is worth nothing
there, one of its variables is missing, since a value would be integral and hence its worth. -/
theorem Describes.evaluate_cases (h : ledger.Describes state) {e : Expr}
    (he : e.IsIntegral fun _ => True) :
    (∃ z, e.int? ledger.values = some z ∧ state.evaluate e = .ok (.int z)) ∨
      e.int? ledger.values = none ∧
        ∃ name position, state.evaluate e = .error (.undefinedVariable name position) := by
  have hstore : ∀ name n, state.store.get? name = some n → ∃ z, n = .int z := by
    intro name n hn
    rw [h.store name, Option.map_eq_some_iff] at hn
    obtain ⟨z, -, rfl⟩ := hn
    exact ⟨z, rfl⟩
  have hexact (z : Int) : state.evaluate e = .ok (.int z) ↔ e.int? ledger.values = some z := by
    rw [Interpreter.evaluate, Expr.evaluate_eq_int_iff, h.int?_eq]
  rcases Expr.evaluate_cases hstore he with ⟨z, hz⟩ | ⟨name, position, herror⟩
  · exact .inl ⟨z, (hexact z).mp hz, hz⟩
  · refine .inr ⟨?_, name, position, herror⟩
    rw [Option.eq_none_iff_forall_ne_some]
    intro z hz
    have hok := (hexact z).mpr hz
    rw [Interpreter.evaluate, herror] at hok
    cases hok

theorem Describes.define (h : ledger.Describes state) (name : String) (z : Int) :
    Describes { ledger with values := Function.update ledger.values name (some z) }
      { state with store := state.store.define name (.int z) } where
  store other := by
    rw [Store.get?_define]
    simp only [Function.update_apply]
    split
    · rfl
    · exact h.store other
  output := h.output

theorem Describes.print (h : ledger.Describes state) (z : Int) :
    Describes { ledger with printed := ledger.printed ++ [z] }
      { state with output := state.output ++ [(Number.int z).text] } where
  store := h.store
  output := by
    rw [h.output, List.map_append]
    rfl

/-- A statement with an integral expression does the same to the ledger and to the state, unless a
variable is missing. -/
theorem Describes.execute_cases (h : ledger.Describes state) {statement : Statement}
    (hs : statement.value.IsIntegral fun _ => True) :
    (∃ next after, ledger.execute statement = some next ∧
        state.execute statement = .ok after ∧ next.Describes after) ∨
      ledger.execute statement = none ∧
        ∃ name position, state.execute statement = .error (.undefinedVariable name position) := by
  cases statement with
  | assign name e =>
      rw [execute, Interpreter.execute]
      rcases h.evaluate_cases (e := e) hs with
        ⟨z, hexact, hvalue⟩ | ⟨hexact, missing, position, herror⟩
      · rw [hexact, hvalue]
        exact .inl ⟨_, _, rfl, rfl, h.define name z⟩
      · rw [hexact, herror]
        exact .inr ⟨rfl, missing, position, rfl⟩
  | print e =>
      rw [execute, Interpreter.execute]
      rcases h.evaluate_cases (e := e) hs with
        ⟨z, hexact, hvalue⟩ | ⟨hexact, missing, position, herror⟩
      · rw [hexact, hvalue]
        exact .inl ⟨_, _, rfl, rfl, h.print z⟩
      · rw [hexact, herror]
        exact .inr ⟨rfl, missing, position, rfl⟩

/-- Statements with integral expressions do the same to the ledger and to the state, and no division
fails among them. -/
theorem Describes.executeAll (h : ledger.Describes state) {statements : List Statement}
    (hs : ∀ statement ∈ statements, statement.value.IsIntegral fun _ => True) :
    (ledger.executeAll statements).Describes (state.executeAll statements).2 ∧
      ∀ position, (state.executeAll statements).1 ≠ some (.divisionByZero position) := by
  induction statements generalizing ledger state with
  | nil => exact ⟨h, by simp [Interpreter.executeAll]⟩
  | cons statement rest ih =>
      obtain ⟨hfirst, hrest⟩ := List.forall_mem_cons.mp hs
      rw [Ledger.executeAll]
      rcases h.execute_cases hfirst with
        ⟨next, after, hnext, hafter, hdescribes⟩ | ⟨hnone, missing, position, herror⟩
      · rw [hnext, Interpreter.executeAll_of_ok hafter]
        exact ih hdescribes hrest
      · rw [hnone, Interpreter.executeAll_of_error herror]
        exact ⟨h, by simp⟩

end Ledger

/-! ## Integral programs -/

/-- Whether a program has no divisions and all of its literals are integers. -/
def Program.IsIntegral (program : Program) : Prop :=
  ∀ statement ∈ program.statements, statement.value.IsIntegral fun _ => True

/-- Whether a token is no division sign, and no number that is written with a point. -/
def Token.IsIntegral (t : Token) : Prop :=
  t.kind ≠ .slash ∧ ∀ n, t.kind = .number n → '.' ∉ t.literal.toList

/-- A number is read as an integer precisely if it is written without a point. -/
theorem Lexeme.int_iff_of_read {c : Char} {rest literal : List Char} {n : Number}
    (h : (read c rest).1 = .token (.number n) literal) : (∃ z, n = .int z) ↔ '.' ∉ literal := by
  have hdigits (text : List Char) : '.' ∉ text.takeWhile Char.isDigit := fun hmem =>
    Bool.noConfusion (List.mem_takeWhile_imp hmem)
  replace h := readNumber_of_read h
  simp only [readNumber] at h
  split at h
  · cases h
    simp
  · cases h
    exact iff_of_true ⟨_, rfl⟩ (hdigits _)

theorem Token.isIntegral_iff_of_kind {t : Token} {k : Kind} (ht : t.kind = k)
    (hk : ∀ n, k ≠ .number n) : t.IsIntegral ↔ k ≠ .slash := by
  rw [IsIntegral, ht]
  exact and_iff_left fun n hn => absurd hn (hk n)

section

variable {source : String} {t : Token} {u : List Token}

theorem Token.isIntegral_iff_of_number {n : Number} (ht : t.kind = .number n)
    (h : .token t ∈ (TokenStream.ofString source).sequence) :
    t.IsIntegral ↔ ∃ z, n = .int z := by
  have hitem := TokenStream.mem_items_of_kind_ne h (by simp [ht])
  obtain ⟨c, rest, hread⟩ := TokenStream.exists_read_of_mem hitem
  rw [ht] at hread
  simp [IsIntegral, ht, Lexeme.int_iff_of_read hread]

theorem Operator.sign_eq_slash_iff {op : Operator} : op.sign = .slash ↔ op = .divide := by
  cases op <;> simp [sign]

/-- An expression of a text is integral precisely if its tokens are. -/
theorem Derives.isIntegral_iff {c : Category} {e : Expr} (h : Derives c u e)
    (hu : ∀ t ∈ u, .token t ∈ (TokenStream.ofString source).sequence) :
    (e.IsIntegral fun _ => True) ↔ ∀ t ∈ u, t.IsIntegral := by
  induction h with
  | number ht =>
      have hnumber := Token.isIntegral_iff_of_number ht (hu _ List.mem_cons_self)
      simp [Expr.IsIntegral, Expr.postorder, Expr.Node.IsIntegral, hnumber]
  | identifier ht =>
      have hname := Token.isIntegral_iff_of_kind ht (by simp)
      simp [Expr.IsIntegral, Expr.postorder, Expr.Node.IsIntegral, hname]
  | parentheses hl _ hr ih =>
      have hleft := Token.isIntegral_iff_of_kind hl (by simp)
      have hright := Token.isIntegral_iff_of_kind hr (by simp)
      rw [ih fun t ht => hu t (by simp [ht])]
      simp [hleft, hright, or_imp, forall_and]
  | ofFactor _ ih => exact ih hu
  | ofProduct _ ih => exact ih hu
  | @operation _ _ _ _ op _ _ _ _ ht _ iha ihb =>
      have hsign := Token.isIntegral_iff_of_kind ht (by cases op <;> simp [Operator.sign])
      rw [Expr.isIntegral_operation, iha fun t ht => hu t (by simp [ht]),
        ihb fun t ht => hu t (by simp [ht])]
      simp [hsign, Operator.sign_eq_slash_iff, or_imp, forall_and, and_left_comm]

theorem DerivesStatement.isIntegral_iff {statement : Statement} (h : DerivesStatement u statement)
    (hu : ∀ t ∈ u, .token t ∈ (TokenStream.ofString source).sequence) :
    (statement.value.IsIntegral fun _ => True) ↔ ∀ t ∈ u, t.IsIntegral := by
  cases h with
  | assignment hl hn ha he hs =>
      rw [Statement.value, he.isIntegral_iff fun t ht => hu t (by simp [ht])]
      simp [Token.isIntegral_iff_of_kind hl, Token.isIntegral_iff_of_kind hn,
        Token.isIntegral_iff_of_kind ha, Token.isIntegral_iff_of_kind hs, or_imp, forall_and]
  | printing hp hl he hr hs =>
      rw [Statement.value, he.isIntegral_iff fun t ht => hu t (by simp [ht])]
      simp [Token.isIntegral_iff_of_kind hp, Token.isIntegral_iff_of_kind hl,
        Token.isIntegral_iff_of_kind hr, Token.isIntegral_iff_of_kind hs, or_imp, forall_and]

/-- A program is integral precisely if all its tokens are. -/
theorem DerivesProgram.isIntegral_iff {found : List Statement} (h : DerivesProgram u found)
    (hu : ∀ t ∈ u, .token t ∈ (TokenStream.ofString source).sequence) :
    (⟨found⟩ : Program).IsIntegral ↔ ∀ t ∈ u, t.IsIntegral := by
  rw [Program.IsIntegral]
  induction h with
  | finish hend => simp [Token.isIntegral_iff_of_kind hend]
  | cons hfirst _ ih =>
      rw [List.forall_mem_cons, List.forall_mem_append,
        hfirst.isIntegral_iff fun t ht => hu t (List.mem_append_left _ ht),
        ih fun t ht => hu t (List.mem_append_right _ ht)]

/-- A text is an integral program precisely if it has no division sign and no number that is written
with a point. -/
theorem Program.isIntegral_iff_of_parse {program : Program} (h : parse source = .ok program) :
    program.IsIntegral ↔ ∀ t, .token t ∈ (TokenStream.ofString source).items → t.IsIntegral := by
  rw [parse_eq_ok_iff_statements] at h
  obtain ⟨u, hseq, hderives, -⟩ := Reading.statements_sound h
  have hmem (t : Token) : t ∈ u ↔ .token t ∈ (TokenStream.ofString source).sequence := by
    simp [hseq]
  have hend : (TokenStream.ofString source).endToken.IsIntegral :=
    (Token.isIntegral_iff_of_kind (k := .endOfInput) rfl (by simp)).mpr (by simp)
  rw [hderives.isIntegral_iff fun t ht => (hmem t).mp ht]
  simp [hmem, TokenStream.sequence, or_imp, forall_and, hend]

end

/-- Where an expression has a value, this is an integer precisely if the expression has no division,
its literals are integers and its variables hold integers; and then it is the value that the
expression has in the integers. A program without divisions whose literals are integers, as it is
written without division signs and points, runs without a failing division, and the variables that
it leaves and the lines that it prints are those of a ledger over the integers. -/
theorem integers_stay_exact :
    (∀ (store : Store) (e : Expr) (n : Number), e.evaluate store = .ok n →
      ((∃ z, n = .int z) ↔ e.IsIntegral fun name => ∃ z, store.get? name = some (.int z)) ∧
        ∀ z, n = .int z ↔ e.int? store.int? = some z) ∧
    (∀ program : Program, program.IsIntegral →
      (∀ position, (Interpreter.fresh.run program).1 ≠ .error (.divisionByZero position)) ∧
        (Ledger.empty.executeAll program.statements).Describes
          (Interpreter.fresh.run program).2) ∧
    ∀ source program, Program.parse source = .ok program → (program.IsIntegral ↔
      ∀ t, .token t ∈ (TokenStream.ofString source).items → t.IsIntegral) := by
  refine ⟨?_, ?_, fun source program => Program.isIntegral_iff_of_parse⟩
  · intro store e n hn
    have hexact (z : Int) : n = .int z ↔ e.int? store.int? = some z := by
      rw [← Expr.evaluate_eq_int_iff, hn, Except.ok.injEq]
    have hintegral := @Expr.exists_int?_iff store.int? e
    simp only [Store.int?_eq_some_iff, ← hexact] at hintegral
    exact ⟨hintegral, hexact⟩
  · intro program hprogram
    obtain ⟨hdescribes, hdivision⟩ := Ledger.describes_fresh.executeAll hprogram
    rcases hrun : Interpreter.fresh.executeAll program.statements with ⟨failure | error, final⟩
    · rw [hrun] at hdescribes
      rw [Interpreter.run_of_none hrun]
      exact ⟨by simp, hdescribes⟩
    · rw [hrun] at hdescribes hdivision
      rw [Interpreter.run_of_some hrun]
      refine ⟨fun position hposition => ?_, hdescribes⟩
      exact hdivision position (congrArg some (Except.error.inj hposition))

/-- The square of an integer that has no floating-point equal is printed with all of its digits. -/
theorem integers_stay_exact_square :
    let source := "let n = 9007199254740993; print(n * n - 1);"
    let program : Program := ⟨[.assign "n" (.literal (.int 9007199254740993)),
      .print (.operation .minus (.operation .times (.reference "n" ⟨32, 1, 33⟩)
        (.reference "n" ⟨36, 1, 37⟩) ⟨34, 1, 35⟩) (.literal (.int 1)) ⟨38, 1, 39⟩)]⟩
    Program.parse source = .ok program ∧ program.IsIntegral ∧
      (∀ t, .token t ∈ (TokenStream.ofString source).items → t.IsIntegral) ∧
      (Interpreter.fresh.run program).2.output = ["81129638414606699710187514626048"] := by
  intro source program
  obtain ⟨-, hprograms, hsources⟩ := integers_stay_exact
  have hparse : Program.parse source = .ok program :=
    Program.parse_eq_ok_iff_statements.mpr (by decide +kernel)
  have hintegral : program.IsIntegral := by
    simp [program, Program.IsIntegral, Statement.value, Expr.IsIntegral, Expr.postorder,
      Expr.Node.IsIntegral]
  refine ⟨hparse, hintegral, (hsources source program hparse).mp hintegral, ?_⟩
  have hprinted : (Ledger.empty.executeAll program.statements).printed =
      [81129638414606699710187514626048] := by decide +kernel
  rw [(hprograms program hintegral).2.output, hprinted]
  decide +kernel

end Reckoner
