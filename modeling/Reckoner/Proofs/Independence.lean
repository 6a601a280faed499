import Mathlib.Data.List.Nodup
import Reckoner.Proofs.Changes
import Reckoner.Proofs.Dependence

/-!
# Exchanging neighbours

Two statements next to each other can be exchanged if neither assigns a variable that the other one
reads or assigns, and not both print. Each of them then evaluates to the same value in either place,
and their effects commute up to the order in which the store lists its names. No value and no line
depends on this order, so the rest of a program cannot tell which of the two came first.
-/

namespace Reckoner

namespace Statement

/-- Whether a statement reads a variable or assigns it. -/
def Mentions (statement : Statement) (name : String) : Prop :=
  statement.target? = some name ∨
    ∃ position, .reference name position ∈ statement.value.postorder

/-- Whether neither of two statements assigns a variable that the other one mentions, and at most
one of them prints. -/
structure Independent (s t : Statement) : Prop where
  spares_left : ∀ name, t.target? = some name → ¬ s.Mentions name
  spares_right : ∀ name, s.target? = some name → ¬ t.Mentions name
  not_both_print : ¬ (s.isPrint ∧ t.isPrint)

theorem Independent.symm {s t : Statement} (h : s.Independent t) : t.Independent s :=
  ⟨h.spares_right, h.spares_left, fun hprint => h.not_both_print hprint.symm⟩

end Statement

/-- Stores that give every name the same value have the same entries, maybe in another order. -/
theorem Store.perm_of_get?_eq {a b : Store} (h : ∀ name, a.get? name = b.get? name) :
    a.entries.Perm b.entries := by
  have hnodup (store : Store) : store.entries.Nodup := List.Nodup.of_map Prod.fst store.nodup
  rw [List.perm_ext_iff_of_nodup (hnodup a) (hnodup b)]
  rintro ⟨name, value⟩
  rw [mem_entries_iff, mem_entries_iff, h]

namespace Interpreter

variable {state a b : Interpreter} {s t : Statement}

/-! ## The effect of a statement -/

/-- The state behind a statement whose expression has the given value. -/
def effect (state : Interpreter) (statement : Statement) (value : Number) : Interpreter :=
  match statement with
  | .assign name _ => { state with store := state.store.define name value }
  | .print _ => { state with output := state.output ++ [value.text] }

/-- A statement evaluates its expression and then has its effect. -/
theorem execute_eq (state : Interpreter) (statement : Statement) :
    state.execute statement = (state.evaluate statement.value).map (state.effect statement) := by
  cases statement with
  | assign name e =>
      rw [execute, Statement.value]
      cases state.evaluate e <;> rfl
  | print e =>
      rw [execute, Statement.value]
      cases state.evaluate e <;> rfl

theorem output_effect (state : Interpreter) (statement : Statement) (value : Number) :
    (state.effect statement value).output =
      state.output ++ if statement.isPrint then [value.text] else [] := by
  cases statement with
  | assign name e => exact (List.append_nil _).symm
  | print e => rfl

theorem get?_effect (state : Interpreter) (statement : Statement) (value : Number) (name : String) :
    (state.effect statement value).store.get? name =
      if statement.target? = some name then some value else state.store.get? name := by
  cases statement with
  | assign target e =>
      rw [effect, Store.get?_define]
      simp only [Statement.target?, Option.some.injEq, eq_comm]
  | print e => rfl

/-- The value of a statement is the same behind an effect on variables that it does not mention. -/
theorem evaluate_effect (h : ∀ name, t.target? = some name → ¬ s.Mentions name) (value : Number) :
    (state.effect t value).evaluate s.value = state.evaluate s.value := by
  apply Expr.evaluate_congr
  intro name position hread
  rw [get?_effect, if_neg fun htarget => h name htarget (.inr ⟨position, hread⟩)]

/-! ## States that differ in the order of names -/

/-- Whether two states have the same lines and give every name the same value. Their stores may list
the names in different orders. -/
structure SameButOrder (a b : Interpreter) : Prop where
  output_eq : a.output = b.output
  get?_eq : ∀ name, a.store.get? name = b.store.get? name

/-- Statements fail with the same error or succeed in both states, and the order of names remains
the only difference. -/
theorem SameButOrder.executeAll (h : SameButOrder a b) (statements : List Statement) :
    (a.executeAll statements).1 = (b.executeAll statements).1 ∧
      SameButOrder (a.executeAll statements).2 (b.executeAll statements).2 := by
  obtain ⟨hfailure, -, heffects⟩ := @executeAll_alike a b [] statements fun name _ => h.get?_eq name
  obtain ⟨lines, ha, hb⟩ := heffects.output
  refine ⟨hfailure, ?_, fun name => heffects.get?_eq (.inr (h.get?_eq name))⟩
  rw [ha, hb, h.output_eq]

/-- The effects of independent statements commute, as at most one of the two adds a line. -/
theorem sameButOrder_effect (h : s.Independent t) (state : Interpreter) (u v : Number) :
    SameButOrder ((state.effect s u).effect t v) ((state.effect t v).effect s u) where
  output_eq := by
    rw [output_effect, output_effect, output_effect, output_effect]
    by_cases hs : s.isPrint
    · have ht : ¬ t.isPrint := fun ht => h.not_both_print ⟨hs, ht⟩
      simp only [if_neg ht, List.append_nil]
    · simp only [if_neg hs, List.append_nil]
  get?_eq name := by
    rw [get?_effect, get?_effect, get?_effect, get?_effect]
    by_cases hs : s.target? = some name
    · have ht : t.target? ≠ some name := fun ht => h.spares_right name hs (.inl ht)
      rw [if_neg ht, if_neg ht]
    · rw [if_neg hs, if_neg hs]

/-! ## The two orders -/

/-- Of two statements the second one evaluates as if the first one had not been executed. -/
theorem executeAll_pair (h : s.Independent t) (state : Interpreter) :
    state.executeAll [s, t] =
      match state.evaluate s.value, state.evaluate t.value with
      | .error error, _ => (some error, state)
      | .ok u, .error error => (some error, state.effect s u)
      | .ok u, .ok v => (none, (state.effect s u).effect t v) := by
  rw [executeAll, execute_eq]
  cases state.evaluate s.value with
  | error error => rfl
  | ok u =>
      simp only [Except.map]
      rw [executeAll, execute_eq, evaluate_effect h.spares_right]
      cases state.evaluate t.value <;> rfl

/-- Independent statements fail in either order, or succeed in either order and leave the same but
for the order of names. -/
theorem executeAll_pair_cases (h : s.Independent t) (state : Interpreter) :
    ((∃ error next, state.executeAll [s, t] = (some error, next)) ∧
      ∃ error next, state.executeAll [t, s] = (some error, next)) ∨
    ∃ a b, state.executeAll [s, t] = (none, a) ∧ state.executeAll [t, s] = (none, b) ∧
      SameButOrder a b := by
  rw [executeAll_pair h, executeAll_pair h.symm]
  cases state.evaluate s.value with
  | error error =>
      cases state.evaluate t.value with
      | error error' => exact .inl ⟨⟨error, _, rfl⟩, error', _, rfl⟩
      | ok v => exact .inl ⟨⟨error, _, rfl⟩, error, _, rfl⟩
  | ok u =>
      cases state.evaluate t.value with
      | error error => exact .inl ⟨⟨error, _, rfl⟩, error, _, rfl⟩
      | ok v => exact .inr ⟨_, _, rfl, rfl, sameButOrder_effect h state u v⟩

/-- The same holds with any statements before the two and behind them. -/
theorem executeAll_exchange_cases (h : s.Independent t) (state : Interpreter)
    (before after : List Statement) :
    ((∃ error next, state.executeAll (before ++ s :: t :: after) = (some error, next)) ∧
      ∃ error next, state.executeAll (before ++ t :: s :: after) = (some error, next)) ∨
    ∃ a b, state.executeAll (before ++ s :: t :: after) = (none, a) ∧
      state.executeAll (before ++ t :: s :: after) = (none, b) ∧ SameButOrder a b := by
  have hsplit (x y : Statement) : before ++ x :: y :: after = before ++ ([x, y] ++ after) := rfl
  rw [hsplit, hsplit, executeAll_append, executeAll_append]
  rcases state.executeAll before with ⟨_ | error, middle⟩
  · simp only [executeAll_append]
    obtain ⟨⟨e, next, hst⟩, e', next', hts⟩ | ⟨a, b, hst, hts, hsame⟩ :=
      executeAll_pair_cases h middle
    · rw [hst, hts]
      exact .inl ⟨⟨e, next, rfl⟩, e', next', rfl⟩
    · rw [hst, hts]
      obtain ⟨hfailure, hfinal⟩ := hsame.executeAll after
      rcases ha : a.executeAll after with ⟨_ | error, finalA⟩ <;>
        rcases hb : b.executeAll after with ⟨_ | error', finalB⟩ <;>
          rw [ha, hb] at hfailure hfinal
      · exact .inr ⟨finalA, finalB, ha, hb, hfinal⟩
      · cases hfailure
      · cases hfailure
      · exact .inl ⟨⟨error, finalA, ha⟩, error', finalB, hb⟩
  · exact .inl ⟨⟨error, middle, rfl⟩, error, middle, rfl⟩

/-- Exchanging two independent statements that stand next to each other changes nothing but the
order of names: the program succeeds in one order if and only if it succeeds in the other one, and
then it prints the same lines and leaves the same value for every name. -/
theorem run_exchange (state : Interpreter) {s t : Statement} (h : s.Independent t)
    (before after : List Statement) :
    let inOrder := state.run ⟨before ++ s :: t :: after⟩
    let exchanged := state.run ⟨before ++ t :: s :: after⟩
    match inOrder.1, exchanged.1 with
    | .ok a, .ok b =>
        a.output = b.output ∧ (∀ name, a.store.get? name = b.store.get? name) ∧
          a.store.entries.Perm b.store.entries ∧ inOrder.2.output = exchanged.2.output ∧
            inOrder.2.store = a.store ∧ exchanged.2.store = b.store
    | .error _, .error _ => True
    | _, _ => False := by
  obtain ⟨⟨e, next, hst⟩, e', next', hts⟩ | ⟨a, b, hst, hts, hsame⟩ :=
    executeAll_exchange_cases h state before after
  · rw [run_of_some hst, run_of_some hts]
    trivial
  · rw [run_of_none hst, run_of_none hts]
    refine ⟨?_, hsame.get?_eq, Store.perm_of_get?_eq hsame.get?_eq, hsame.output_eq, rfl, rfl⟩
    rw [hsame.output_eq]

/-- In a state where `x` is `3`, `let a = x + 1;` and `let b = x / 2;` can be exchanged before
`print(a - b);`. The line is the same, but the names are listed in another order. -/
theorem run_exchange_two_names :
    let x : Expr := .reference "x" .start
    let s : Statement := .assign "a" (.operation .plus x (.literal (.int 1)) .start)
    let t : Statement := .assign "b" (.operation .divide x (.literal (.int 2)) .start)
    let difference : Expr :=
      .operation .minus (.reference "a" .start) (.reference "b" .start) .start
    let state : Interpreter := ⟨Store.empty.define "x" (.int 3), ["1"]⟩
    s.Independent t ∧ ∃ a b,
      (state.run ⟨[s, t, .print difference]⟩).1 = .ok a ∧
      (state.run ⟨[t, s, .print difference]⟩).1 = .ok b ∧
      a.output = b.output ∧ a.store.entries.Perm b.store.entries ∧
      a.store.names = ["x", "a", "b"] ∧ b.store.names = ["x", "b", "a"] := by
  intro x s t difference state
  have hindependent : s.Independent t := by
    constructor <;> simp [s, t, x, Statement.Mentions, Statement.target?, Statement.value,
      Expr.postorder, Statement.isPrint]
  have hexchange := run_exchange state hindependent [] [.print difference]
  have hst : (state.run ⟨[s, t, .print difference]⟩).1.toOption.map (·.store.names) =
      some ["x", "a", "b"] := by decide +kernel
  have hts : (state.run ⟨[t, s, .print difference]⟩).1.toOption.map (·.store.names) =
      some ["x", "b", "a"] := by decide +kernel
  rw [List.nil_append, List.nil_append] at hexchange
  cases ha : (state.run ⟨[s, t, .print difference]⟩).1 with
  | error error =>
      rw [ha] at hst
      cases hst
  | ok a =>
      cases hb : (state.run ⟨[t, s, .print difference]⟩).1 with
      | error error =>
          rw [hb] at hts
          cases hts
      | ok b =>
          rw [ha] at hst
          rw [hb] at hts
          simp only [ha, hb] at hexchange
          exact ⟨hindependent, a, b, rfl, rfl, hexchange.1, hexchange.2.2.1,
            Option.some.inj hst, Option.some.inj hts⟩

end Interpreter

end Reckoner
