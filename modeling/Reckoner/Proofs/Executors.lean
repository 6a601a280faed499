import Reckoner.Trace

/-!
# Running, stepping and tracing

A run executes statements up to the first failure. Stepping through the statements and tracing them
do the same and report more. A trace moreover records the run faithfully: its steps are the
statements executed, each with the store behind it and the line that it printed.
-/

namespace Reckoner

namespace Interpreter

/-- Steps through statements up to the first failure. Yields the stores behind the steps, the
failure, and the state that is left. -/
def stepThrough (state : Interpreter) :
    List Statement → List Store × Option RuntimeError × Interpreter
  | [] => ([], none, state)
  | statement :: rest =>
    match state.step statement with
    | (.error error, next) => ([], some error, next)
    | (.ok store, next) =>
      let (stores, failure, final) := next.stepThrough rest
      (store :: stores, failure, final)

variable {state next final : Interpreter} {statement : Statement} {error : RuntimeError}

/-! ## The first statement -/

/-- What a statement does: it either defines a variable or prints a line, and nothing else. -/
theorem execute_cases (h : state.execute statement = .ok next) :
    (∃ name e value, statement = .assign name e ∧ state.evaluate e = .ok value ∧
      next = { state with store := state.store.define name value }) ∨
    ∃ e value, statement = .print e ∧ state.evaluate e = .ok value ∧
      next = { state with output := state.output ++ [value.text] } := by
  cases statement with
  | assign name e =>
      cases he : state.evaluate e with
      | error error =>
          rw [execute, he] at h
          cases h
      | ok value =>
          rw [execute, he] at h
          exact .inl ⟨name, e, value, rfl, he, (Except.ok.inj h).symm⟩
  | print e =>
      cases he : state.evaluate e with
      | error error =>
          rw [execute, he] at h
          cases h
      | ok value =>
          rw [execute, he] at h
          exact .inr ⟨e, value, rfl, he, (Except.ok.inj h).symm⟩

theorem step_of_ok (h : state.execute statement = .ok next) :
    state.step statement = (.ok next.store, next) := by
  rw [step, h]

theorem step_of_error (h : state.execute statement = .error error) :
    state.step statement = (.error error, state) := by
  rw [step, h]

theorem executeAll_of_ok (h : state.execute statement = .ok next) (rest : List Statement) :
    state.executeAll (statement :: rest) = next.executeAll rest := by
  rw [executeAll, h]

theorem executeAll_of_error (h : state.execute statement = .error error) (rest : List Statement) :
    state.executeAll (statement :: rest) = (some error, state) := by
  rw [executeAll, h]

theorem stepThrough_of_ok (h : state.execute statement = .ok next) (rest : List Statement) :
    state.stepThrough (statement :: rest) =
      (next.store :: (next.stepThrough rest).1, (next.stepThrough rest).2) := by
  rw [stepThrough, step_of_ok h]

theorem stepThrough_of_error (h : state.execute statement = .error error)
    (rest : List Statement) : state.stepThrough (statement :: rest) = ([], some error, state) := by
  rw [stepThrough, step_of_error h]

/-- The record of a statement that leads from one state to another. -/
def record (state : Interpreter) (index : Nat) (statement : Statement) (next : Interpreter) :
    Step :=
  ⟨index, statement, next.output[state.output.length]?, next.store,
    state.store.changes next.store⟩

theorem traceFrom_of_ok (h : state.execute statement = .ok next) (index : Nat)
    (rest : List Statement) :
    state.traceFrom index (statement :: rest) =
      (⟨state.record index statement next :: (next.traceFrom (index + 1) rest).1.steps,
        (next.traceFrom (index + 1) rest).1.failure⟩, (next.traceFrom (index + 1) rest).2) := by
  rw [traceFrom, step_of_ok h]
  rfl

theorem traceFrom_of_error (h : state.execute statement = .error error) (index : Nat)
    (rest : List Statement) :
    state.traceFrom index (statement :: rest) = (⟨[], some error⟩, state) := by
  rw [traceFrom, step_of_error h]

/-! ## Agreement -/

/-- Stepping through statements ends like executing them. -/
theorem stepThrough_snd (state : Interpreter) (statements : List Statement) :
    (state.stepThrough statements).2 = state.executeAll statements := by
  induction statements generalizing state with
  | nil => rfl
  | cons statement rest ih =>
      cases h : state.execute statement with
      | error error => rw [stepThrough_of_error h, executeAll_of_error h]
      | ok next => rw [stepThrough_of_ok h, executeAll_of_ok h, ih]

/-- Tracing statements ends like executing them. -/
theorem traceFrom_end (state : Interpreter) (index : Nat) (statements : List Statement) :
    ((state.traceFrom index statements).1.failure, (state.traceFrom index statements).2) =
      state.executeAll statements := by
  induction statements generalizing state index with
  | nil => rfl
  | cons statement rest ih =>
      cases h : state.execute statement with
      | error error => rw [traceFrom_of_error h, executeAll_of_error h]
      | ok next => rw [traceFrom_of_ok h, executeAll_of_ok h, ih]

/-- The steps of a trace record the stores that stepping yields. -/
theorem stepThrough_fst (state : Interpreter) (index : Nat) (statements : List Statement) :
    (state.stepThrough statements).1 =
      (state.traceFrom index statements).1.steps.map Step.store := by
  induction statements generalizing state index with
  | nil => rfl
  | cons statement rest ih =>
      cases h : state.execute statement with
      | error error => rw [stepThrough_of_error h, traceFrom_of_error h, List.map_nil]
      | ok next =>
          rw [stepThrough_of_ok h, traceFrom_of_ok h, ih next (index + 1), List.map_cons]
          rfl

/-! ## The record of a run -/

/-- The lines that a statement adds to the output: the one in its record, if any. -/
theorem output_of_execute (h : state.execute statement = .ok next) (index : Nat) :
    next.output = state.output ++ (state.record index statement next).printed.toList := by
  obtain ⟨name, e, value, rfl, -, rfl⟩ | ⟨e, value, rfl, -, rfl⟩ := execute_cases h
  · simp [record]
  · simp [record]

/-- A record has a printed line if the statement is one that prints. -/
theorem printed_isSome_iff (h : state.execute statement = .ok next) (index : Nat) :
    (state.record index statement next).printed.isSome ↔ ∃ e, statement = .print e := by
  obtain ⟨name, e, value, rfl, -, rfl⟩ | ⟨e, value, rfl, -, rfl⟩ := execute_cases h
  · simp [record]
  · simp [record]

/-- Whether executing statements may end before some of them: no statement is left, or the first one
left fails. -/
def EndsBefore (state : Interpreter) : Option RuntimeError → List Statement → Prop
  | none, [] => True
  | some error, statement :: _ => state.execute statement = .error error
  | _, _ => False

/-- Whether a trace records how statements lead from one state to another, when `index` statements
were executed before. -/
structure Records (trace : Trace) (index : Nat) (state : Interpreter)
    (statements : List Statement) (final : Interpreter) : Prop where
  /-- The steps are the statements up to the failure. -/
  executed : ∃ rest, statements = trace.steps.map Step.statement ++ rest ∧
    final.EndsBefore trace.failure rest
  numbered : trace.steps.map Step.index = List.range' index trace.steps.length
  /-- A step has the store that the statements up to it leave. -/
  store_eq : ∀ k step, trace.steps[k]? = some step →
    ∃ next, state.executeAll (statements.take (k + 1)) = (none, next) ∧ step.store = next.store
  printed_iff : ∀ step ∈ trace.steps, step.printed.isSome ↔ ∃ e, step.statement = .print e
  output_eq : final.output = state.output ++ trace.steps.filterMap Step.printed

namespace Records

theorem nil (index : Nat) (state : Interpreter) : Records ⟨[], none⟩ index state [] state where
  executed := ⟨[], rfl, trivial⟩
  numbered := rfl
  store_eq := by simp
  printed_iff := by simp
  output_eq := by simp

theorem fail (h : state.execute statement = .error error) (index : Nat) (rest : List Statement) :
    Records ⟨[], some error⟩ index state (statement :: rest) state where
  executed := ⟨statement :: rest, rfl, h⟩
  numbered := rfl
  store_eq := by simp
  printed_iff := by simp
  output_eq := by simp

theorem cons {trace : Trace} {index : Nat} {rest : List Statement}
    (h : state.execute statement = .ok next) (tail : Records trace (index + 1) next rest final) :
    Records ⟨state.record index statement next :: trace.steps, trace.failure⟩ index state
      (statement :: rest) final where
  executed := by
    obtain ⟨left, hrest, hends⟩ := tail.executed
    exact ⟨left, congrArg (statement :: ·) hrest, hends⟩
  numbered := congrArg (index :: ·) tail.numbered
  store_eq := by
    intro k step hk
    cases k with
    | zero =>
        cases hk
        exact ⟨next, executeAll_of_ok h [], rfl⟩
    | succ k =>
        obtain ⟨reached, hreached, hstore⟩ := tail.store_eq k step hk
        refine ⟨reached, ?_, hstore⟩
        rw [List.take_succ_cons, executeAll_of_ok h, hreached]
  printed_iff := by
    intro step hstep
    cases List.mem_cons.mp hstep with
    | inl hfirst =>
        subst hfirst
        exact printed_isSome_iff h index
    | inr hstep => exact tail.printed_iff step hstep
  output_eq := by
    calc final.output
        = next.output ++ trace.steps.filterMap Step.printed := tail.output_eq
      _ = state.output ++ (state.record index statement next).printed.toList ++
            trace.steps.filterMap Step.printed := by rw [← output_of_execute h index]
      _ = state.output ++ (state.record index statement next :: trace.steps).filterMap
            Step.printed := by
          rw [List.filterMap_cons, List.append_assoc]
          cases (state.record index statement next).printed <;> rfl

end Records

/-- A trace records the statements traced. -/
theorem records_traceFrom (state : Interpreter) (index : Nat) (statements : List Statement) :
    Records (state.traceFrom index statements).1 index state statements
      (state.executeAll statements).2 := by
  induction statements generalizing state index with
  | nil => exact .nil index state
  | cons statement rest ih =>
      cases h : state.execute statement with
      | error error =>
          rw [traceFrom_of_error h, executeAll_of_error h]
          exact .fail h index rest
      | ok next =>
          rw [traceFrom_of_ok h, executeAll_of_ok h]
          exact .cons h (ih next (index + 1))

/-- Running a program, stepping through its statements and tracing it leave the same state and
report the same failure or none. The trace records the run, and a run that succeeds yields the lines
that the steps printed. -/
theorem executors_agree (state : Interpreter) (program : Program) :
    let (result, final) := state.run program
    let (stores, failure, stepped) := state.stepThrough program.statements
    let (trace, traced) := state.trace program
    stepped = final ∧ traced = final ∧ stores = trace.steps.map Step.store ∧
      Records trace 0 state program.statements final ∧
      match result with
      | .ok outcome => failure = none ∧ trace.failure = none ∧
          outcome = ⟨trace.steps.filterMap Step.printed, final.store⟩
      | .error error => failure = some error ∧ trace.failure = some error := by
  have hstep := stepThrough_snd state program.statements
  have hstores := stepThrough_fst state 0 program.statements
  have htrace := traceFrom_end state 0 program.statements
  have hrecords := records_traceFrom state 0 program.statements
  rw [run, trace]
  rcases hrun : state.executeAll program.statements with ⟨failure, final⟩
  rcases hs : state.stepThrough program.statements with ⟨stores, stepped⟩
  rcases ht : state.traceFrom 0 program.statements with ⟨trace, traced⟩
  rw [hrun, hs] at hstep
  rw [hrun, ht] at htrace hrecords
  rw [hs, ht] at hstores
  obtain rfl : stepped = (failure, final) := hstep
  obtain ⟨hfailure, rfl⟩ := Prod.mk.inj htrace
  cases failure with
  | some error => exact ⟨rfl, rfl, hstores, hrecords, rfl, hfailure⟩
  | none =>
      have hdrop : traced.output.drop state.output.length =
          trace.steps.filterMap Step.printed := by
        rw [hrecords.output_eq, List.drop_left]
      exact ⟨rfl, rfl, hstores, hrecords, rfl, hfailure, by rw [hdrop]⟩

end Interpreter

end Reckoner
