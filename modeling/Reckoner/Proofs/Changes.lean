import Reckoner.Proofs.Executors

/-!
# What a trace reports as changed

A trace finds the changes of a step by comparing the stores around it. Variables that the statement
did not assign keep their values, so they are not reported; only not-a-number, which differs from
itself, is reported at every step.
-/

namespace Reckoner

/-- The variable that a change is about. -/
def Change.name : Change → String
  | added name _ | updated name _ _ => name

/-! ## Comparing stores -/

/-- Only not-a-number differs from itself. -/
theorem Number.differs_self_iff (value : Number) :
    value.differs value ↔ value = .float .nan := by
  have hdiffers : value.differs value = !value.equals value := by
    simp [differs, bne, BEq.beq]
  rw [hdiffers, Bool.not_eq_true']
  cases value with
  | int n => simp [equals]
  | float x => cases x <;> simp [equals, toBinary64, Binary64.equals]

namespace Store

/-- The change of a variable that has a value now, if it counts as changed. -/
def change? (before : Store) (name : String) (value : Number) : Option Change :=
  match before.get? name with
  | none => some (.added name value)
  | some old => if old.differs value then some (.updated name old value) else none

theorem changes_eq (before after : Store) :
    before.changes after = after.entries.filterMap fun (name, value) =>
      before.change? name value := rfl

/-- What becomes of a variable that has a value now. -/
theorem change?_eq_some_iff {before : Store} {name : String} {value : Number} {change : Change} :
    before.change? name value = some change ↔
      (before.get? name = none ∧ change = .added name value) ∨
      ∃ old, before.get? name = some old ∧ old.differs value ∧
        change = .updated name old value := by
  unfold change?
  cases before.get? name with
  | none => simp [@eq_comm _ change]
  | some old => simp [@eq_comm _ change]

theorem name_of_change? {before : Store} {name : String} {value : Number} {change : Change}
    (h : before.change? name value = some change) : change.name = name := by
  obtain ⟨-, rfl⟩ | ⟨old, -, -, rfl⟩ := change?_eq_some_iff.mp h
  · rfl
  · rfl

/-- A variable without a value before, or with another one, is changed. -/
theorem isSome_change?_iff {before : Store} {name : String} {value : Number} :
    (before.change? name value).isSome ↔
      ∀ old, before.get? name = some old → old.differs value := by
  unfold change?
  split
  · simp [*]
  · split <;> simp [*]

theorem mem_iff_lookup_eq {entries : List (String × Number)} {name : String} {value : Number}
    (h : (entries.map Prod.fst).Nodup) :
    (name, value) ∈ entries ↔ entries.lookup name = some value := by
  induction entries with
  | nil => simp
  | cons entry rest ih =>
      obtain ⟨other, found⟩ := entry
      rw [List.map_cons, List.nodup_cons] at h
      by_cases hname : name = other
      · subst hname
        have hrest : (name, value) ∉ rest := fun hmem =>
          h.1 (List.mem_map.mpr ⟨(name, value), hmem, rfl⟩)
        simp [hrest, eq_comm]
      · have hbeq : (name == other) = false := beq_false_of_ne hname
        simp [List.lookup_cons, hname, hbeq, ih h.2]

/-- The entry of a name is the value that is found for it. -/
theorem mem_entries_iff {store : Store} {name : String} {value : Number} :
    (name, value) ∈ store.entries ↔ store.get? name = some value :=
  mem_iff_lookup_eq store.nodup

/-- The changes are named in the order of the store, each name at most once. -/
theorem changes_names_sublist (before after : Store) :
    List.Sublist ((before.changes after).map Change.name) after.names := by
  rw [changes_eq, names]
  induction after.entries with
  | nil => exact List.Sublist.slnil
  | cons entry rest ih =>
      rw [List.filterMap_cons, List.map_cons]
      split
      · exact ih.cons _
      · rename_i change hchange
        rw [List.map_cons, name_of_change? hchange]
        exact ih.cons_cons _

theorem nodup_changes_names (before after : Store) :
    ((before.changes after).map Change.name).Nodup :=
  (changes_names_sublist before after).nodup after.nodup

theorem mem_changes_iff {before after : Store} {change : Change} :
    change ∈ before.changes after ↔
      ∃ name value, after.get? name = some value ∧ before.change? name value = some change := by
  simp [changes_eq, mem_entries_iff]

/-- A variable is reported if its value counts as changed. -/
theorem mem_changes_names_iff {before after : Store} {name : String} :
    name ∈ (before.changes after).map Change.name ↔
      ∃ value, after.get? name = some value ∧
        ∀ old, before.get? name = some old → old.differs value := by
  simp only [List.mem_map, mem_changes_iff]
  constructor
  · rintro ⟨change, ⟨other, value, hvalue, hchange⟩, rfl⟩
    rw [name_of_change? hchange]
    refine ⟨value, hvalue, isSome_change?_iff.mp ?_⟩
    rw [hchange]
    rfl
  · rintro ⟨value, hvalue, hdiffers⟩
    obtain ⟨change, hchange⟩ := Option.isSome_iff_exists.mp (isSome_change?_iff.mpr hdiffers)
    exact ⟨change, ⟨name, value, hvalue, hchange⟩, name_of_change? hchange⟩

/-- Of the variables that kept their values, those are reported that are not-a-number. -/
theorem mem_changes_names_of_eq {before after : Store} {name : String}
    (h : after.get? name = before.get? name) :
    name ∈ (before.changes after).map Change.name ↔ after.get? name = some (.float .nan) := by
  rw [mem_changes_names_iff, ← h]
  constructor
  · rintro ⟨value, hvalue, hdiffers⟩
    rw [hvalue, (Number.differs_self_iff value).mp (hdiffers value hvalue)]
  · intro hnan
    refine ⟨.float .nan, hnan, fun old hold => ?_⟩
    obtain rfl := Option.some.inj (hold.symm.trans hnan)
    exact (Number.differs_self_iff _).mpr rfl

end Store

namespace Interpreter

variable {state next : Interpreter} {statement : Statement}

/-! ## Steps of a trace -/

/-- A statement leaves the variables alone that it does not assign. -/
theorem get?_of_execute (h : state.execute statement = .ok next) {name : String}
    (hname : statement.target? ≠ some name) : next.store.get? name = state.store.get? name := by
  obtain ⟨target, e, value, rfl, -, rfl⟩ | ⟨e, value, rfl, -, rfl⟩ := execute_cases h
  · have hne : name ≠ target := fun heq => hname (congrArg some heq.symm)
    rw [Store.get?_define, if_neg hne]
  · rfl

/-- Each step of a trace is the record of a statement that was executed. -/
theorem exists_record_of_mem {index : Nat} {statements : List Statement} {step : Step}
    (h : step ∈ (state.traceFrom index statements).1.steps) :
    ∃ (before : Interpreter) (k : Nat) (after : Interpreter),
      before.execute step.statement = .ok after ∧
        step = before.record k step.statement after := by
  induction statements generalizing state index with
  | nil => cases h
  | cons statement rest ih =>
      cases hexecute : state.execute statement with
      | error error =>
          rw [traceFrom_of_error hexecute] at h
          cases h
      | ok next =>
          rw [traceFrom_of_ok hexecute] at h
          cases List.mem_cons.mp h with
          | inl hfirst =>
              subst hfirst
              exact ⟨state, index, next, hexecute, rfl⟩
          | inr hrest => exact ih hrest

/-- A step of a trace names each variable at most once as changed. Of the variables that its
statement did not assign it names those that are not-a-number, and no others. If there are none of
these, a step that prints has no changes, and one that assigns a variable has at most one, of this
variable. -/
theorem changes_of_trace (state : Interpreter) (program : Program) :
    ∀ step ∈ (state.trace program).1.steps,
      (step.changes.map Change.name).Nodup ∧
      (∀ name, step.statement.target? ≠ some name →
        (name ∈ step.changes.map Change.name ↔ step.store.get? name = some (.float .nan))) ∧
      ((∀ name, step.statement.target? ≠ some name →
          step.store.get? name ≠ some (.float .nan)) →
        match step.statement with
        | .print _ => step.changes = []
        | .assign x _ => step.changes.length ≤ 1 ∧ ∀ change ∈ step.changes, change.name = x) := by
  intro step hstep
  obtain ⟨before, k, after, hexecute, hrecord⟩ := exists_record_of_mem hstep
  have hchanges : step.changes = before.store.changes after.store := congrArg Step.changes hrecord
  have hstore : step.store = after.store := congrArg Step.store hrecord
  have hnodup : (step.changes.map Change.name).Nodup := by
    rw [hchanges]
    exact Store.nodup_changes_names _ _
  have hnames : ∀ name, step.statement.target? ≠ some name →
      (name ∈ step.changes.map Change.name ↔ step.store.get? name = some (.float .nan)) := by
    intro name hname
    rw [hchanges, hstore]
    exact Store.mem_changes_names_of_eq (get?_of_execute hexecute hname)
  refine ⟨hnodup, hnames, fun hnan => ?_⟩
  have htarget : ∀ change ∈ step.changes, step.statement.target? = some change.name := by
    intro change hchange
    apply Decidable.byContradiction
    intro hne
    exact hnan change.name hne ((hnames change.name hne).mp (List.mem_map_of_mem hchange))
  cases hstatement : step.statement with
  | print e =>
      simp only [hstatement, Statement.target?, reduceCtorEq] at htarget
      exact List.eq_nil_iff_forall_not_mem.mpr htarget
  | assign x e =>
      simp only [hstatement, Statement.target?, Option.some.injEq] at htarget
      refine ⟨?_, fun change hchange => (htarget change hchange).symm⟩
      have hsame : step.changes.map Change.name = List.replicate step.changes.length x := by
        rw [List.eq_replicate_iff]
        refine ⟨List.length_map .., ?_⟩
        intro name hname
        obtain ⟨change, hchange, rfl⟩ := List.mem_map.mp hname
        exact (htarget change hchange).symm
      rw [hsame] at hnodup
      exact List.nodup_replicate.mp hnodup

/-- In `let x = 1; let y = x; let x = x + y;` the third step changes `x` alone. -/
theorem changes_of_trace_third_step :
    let sum : Expr := .operation .plus (.reference "x" .start) (.reference "y" .start) .start
    let program : Program := ⟨[.assign "x" (.literal (.int 1)),
      .assign "y" (.reference "x" .start), .assign "x" sum]⟩
    let store := ((Store.empty.define "x" (.int 1)).define "y" (.int 1)).define "x" (.int 2)
    let step : Step := ⟨2, .assign "x" sum, none, store, [.updated "x" (.int 1) (.int 2)]⟩
    step ∈ (fresh.trace program).1.steps ∧
      (∀ name, step.statement.target? ≠ some name →
        step.store.get? name ≠ some (.float .nan)) ∧
      step.changes.length ≤ 1 ∧ ∀ change ∈ step.changes, change.name = "x" := by
  intro sum program store step
  have hthird : (fresh.trace program).1.steps[2]? = some step := by rfl
  have hstep : step ∈ (fresh.trace program).1.steps := List.mem_of_getElem? hthird
  have hnan : ∀ name, step.statement.target? ≠ some name →
      step.store.get? name ≠ some (.float .nan) := by
    intro name hname
    have hne : name ≠ "x" := fun heq => hname (congrArg some heq.symm)
    rw [Store.get?_define, if_neg hne, Store.get?_define]
    split
    · simp
    · rw [Store.get?_define, if_neg hne]
      nofun
  exact ⟨hstep, hnan, (changes_of_trace fresh program step hstep).2.2 hnan⟩

/-- The text of a program in which `a` becomes infinite and `n` the difference of two infinities. -/
def infiniteSquares : String :=
  "let a = 10000000000.0; let a = a * a; let a = a * a; let a = a * a; let a = a * a; " ++
    "let a = a * a; let n = a - a; print(0);"

/-- A statement that only prints is reported to change a variable that is not-a-number. -/
theorem exists_print_with_changes :
    ∃ program, Program.parse infiniteSquares = .ok program ∧
      ¬ ∀ step ∈ (fresh.trace program).1.steps,
        (∃ e, step.statement = .print e) → step.changes = [] := by
  have hlast : (Program.parse infiniteSquares).toOption.any (fun program =>
      (fresh.trace program).1.steps.any fun step =>
        decide (step.statement = .print (.literal (.int 0))) && !step.changes.isEmpty) := by
    decide +kernel
  cases hparse : Program.parse infiniteSquares with
  | error error => simp [hparse, Except.toOption] at hlast
  | ok program =>
      simp only [hparse, Except.toOption, Option.any_some, List.any_eq_true, Bool.and_eq_true,
        decide_eq_true_eq, Bool.not_eq_true', List.isEmpty_eq_false_iff] at hlast
      obtain ⟨step, hstep, hprint, hchanges⟩ := hlast
      exact ⟨program, rfl, fun hall => hchanges (hall step hstep ⟨_, hprint⟩)⟩

end Interpreter

end Reckoner
