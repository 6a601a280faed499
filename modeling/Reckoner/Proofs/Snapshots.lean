import Reckoner.Proofs.Differences

/-!
# Snapshots of a store

Whatever an interpreter is asked for, its store changes by the assignments that are executed and by
nothing else. So two snapshots without an assignment between them are the same store, and running a
text twice has the same outcome. But the same is not always equal: a store with a variable that is
not-a-number differs from itself, and so does an outcome with this store.
-/

namespace Reckoner

/-! ## What is equal to itself -/

/-- Only not-a-number differs from itself. -/
theorem Number.beq_self_iff (n : Number) : n == n ↔ n ≠ .float .nan := by
  rw [Ne, ← n.differs_self_iff, Bool.not_eq_true, differs_eq_false_iff, and_iff_left rfl]

theorem Store.beq_self_iff (store : Store) :
    store == store ↔ ∀ name, store.get? name ≠ some (.float .nan) := by
  rw [beq_iff_names]
  constructor
  · rintro ⟨-, hvalues⟩ name hnan
    exact (Number.beq_self_iff _).mp (hvalues name _ _ hnan hnan) rfl
  · intro h
    refine ⟨fun _ => Iff.rfl, fun name m n hm hn => ?_⟩
    obtain rfl := Option.some.inj (hm.symm.trans hn)
    apply (Number.beq_self_iff m).mpr
    rintro rfl
    exact h name hm

/-- Outcomes are equal if they have the same lines and equal stores. -/
theorem Outcome.beq_iff {a b : Outcome} : a == b ↔ a.output = b.output ∧ a.store == b.store := by
  change (a.output == b.output && a.store == b.store) = true ↔ _
  rw [Bool.and_eq_true, beq_iff_eq]

namespace Interpreter

/-! ## Requests -/

/-- What an interpreter can be asked for. -/
inductive Request where
  | run (source : String)
  | step (statement : Statement)
  | evaluate (e : Expr)
  | trace (program : Program)
  | takeOutput

/-- The statements that are to be executed for a request. -/
def Request.statements : Request → List Statement
  | run source =>
    match Program.parse source with
    | .ok program => program.statements
    | .error _ => []
  | step statement => [statement]
  | trace program => program.statements
  | evaluate _ | takeOutput => []

/-- The state that a request leaves. -/
def request (state : Interpreter) : Request → Interpreter
  | .run source => (state.runSource source).2
  | .step statement => (state.step statement).2
  | .evaluate _ => state
  | .trace program => (state.trace program).2
  | .takeOutput => state.takeOutput.2

/-- The state that requests leave, one after another. -/
def requestAll (state : Interpreter) (requests : List Request) : Interpreter :=
  requests.foldl request state

/-- The statements that are executed for requests, one after another. -/
def executedFor (state : Interpreter) : List Request → List Statement
  | [] => []
  | first :: rest => state.executed first.statements ++ (state.request first).executedFor rest

variable {state next : Interpreter}

/-- The store that a request leaves is the one that its statements leave. -/
theorem store_request (state : Interpreter) (request : Request) :
    (state.request request).store = (state.executeAll request.statements).2.store := by
  cases request with
  | run source =>
      simp only [Interpreter.request, Request.statements]
      cases hparse : Program.parse source with
      | error error => rw [runSource_of_error hparse, executeAll]
      | ok program => rw [runSource_snd_of_parse hparse]
  | step statement =>
      simp only [Interpreter.request, Request.statements]
      cases hexecute : state.execute statement with
      | error error => rw [step_of_error hexecute, executeAll_of_error hexecute]
      | ok next => rw [step_of_ok hexecute, executeAll_of_ok hexecute, executeAll]
  | trace program =>
      exact congrArg (fun result => result.2.store) (traceFrom_end state 0 program.statements)
  | evaluate e => rfl
  | takeOutput => rfl

/-- The store of an outcome is the one that the run leaves. -/
theorem store_of_runSource {source : String} {outcome : Outcome}
    (h : (state.runSource source).1 = .ok outcome) :
    (state.runSource source).2.store = outcome.store := by
  cases hparse : Program.parse source with
  | error error =>
      rw [runSource_of_error hparse] at h
      cases h
  | ok program =>
      rw [runSource_of_parse hparse] at h ⊢
      rcases hrun : state.executeAll program.statements with ⟨_ | error, final⟩
      · rw [run_of_none hrun] at h ⊢
        obtain rfl := Except.ok.inj h
        rfl
      · rw [run_of_some hrun] at h
        cases h

/-! ## Without assignments -/

theorem store_of_execute_print {statement : Statement} (h : state.execute statement = .ok next)
    (hprint : statement.isPrint) : next.store = state.store := by
  obtain ⟨name, e, value, rfl, -, rfl⟩ | ⟨e, value, rfl, -, rfl⟩ := execute_cases h
  · cases hprint
  · rfl

theorem store_executeAll_of_isPrint {statements : List Statement}
    (h : ∀ statement ∈ state.executed statements, statement.isPrint) :
    (state.executeAll statements).2.store = state.store := by
  induction statements generalizing state with
  | nil => rfl
  | cons statement rest ih =>
      cases hexecute : state.execute statement with
      | error error => rw [executeAll_of_error hexecute]
      | ok next =>
          rw [executed_of_ok hexecute] at h
          obtain ⟨hfirst, hrest⟩ := List.forall_mem_cons.mp h
          calc (state.executeAll (statement :: rest)).2.store
              = (next.executeAll rest).2.store := by rw [executeAll_of_ok hexecute]
            _ = next.store := ih hrest
            _ = state.store := store_of_execute_print hexecute hfirst

/-- The store stays the same as long as no assignment is executed. -/
theorem store_requestAll_of_isPrint {requests : List Request}
    (h : ∀ statement ∈ state.executedFor requests, statement.isPrint) :
    (state.requestAll requests).store = state.store := by
  induction requests generalizing state with
  | nil => rfl
  | cons first rest ih =>
      rw [executedFor, List.forall_mem_append] at h
      obtain ⟨hfirst, hrest⟩ := h
      calc (state.requestAll (first :: rest)).store
          = ((state.request first).requestAll rest).store := rfl
        _ = (state.request first).store := ih hrest
        _ = (state.executeAll first.statements).2.store := store_request state first
        _ = state.store := store_executeAll_of_isPrint hfirst

/-- Two snapshots of an interpreter are the same store if no assignment is executed between them,
and running a text twice from the beginning has the same outcome. But the snapshots are equal, and
so are the outcomes, if and only if no variable is not-a-number. -/
theorem snapshots_equal_iff (before between : List Request) (source : String) :
    ((∀ statement ∈ (fresh.requestAll before).executedFor between, statement.isPrint) →
      let first := (fresh.requestAll before).store
      let second := ((fresh.requestAll before).requestAll between).store
      second = first ∧ (first == second ↔ ∀ name, first.get? name ≠ some (.float .nan))) ∧
    ∀ first second : Outcome,
      (fresh.runSource source).1 = .ok first → (fresh.runSource source).1 = .ok second →
        second = first ∧
          (first == second ↔ ∀ name, first.store.get? name ≠ some (.float .nan)) := by
  constructor
  · intro h first second
    have hsame : second = first := store_requestAll_of_isPrint h
    refine ⟨hsame, ?_⟩
    rw [hsame]
    exact first.beq_self_iff
  · intro first second hfirst hsecond
    obtain rfl := Except.ok.inj (hfirst.symm.trans hsecond)
    refine ⟨rfl, ?_⟩
    rw [Outcome.beq_iff, and_iff_right rfl]
    exact first.store.beq_self_iff

/-- Printing a variable between two snapshots, taking the printed lines and running a text that
fails before its assignment leave the store, and the same text has equal outcomes. -/
theorem snapshots_equal_iff_print :
    let source := "let x = 5 / 2; print(x);"
    let before : List Request := [.run source]
    let between : List Request := [.takeOutput, .run "print(x + 1);", .run "print(y); let x = 1;"]
    let first := (fresh.requestAll before).store
    let second := ((fresh.requestAll before).requestAll between).store
    let outcome : Outcome := ⟨["2.5"], first⟩
    ((∀ statement ∈ (fresh.requestAll before).executedFor between, statement.isPrint) ∧
      (fresh.runSource source).1 = .ok outcome) ∧
    second = first ∧ (∀ name, first.get? name ≠ some (.float .nan)) ∧ outcome == outcome := by
  intro source before between first second outcome
  have hprints : ((fresh.requestAll before).executedFor between).all Statement.isPrint := by
    decide +kernel
  have hrun : (fresh.runSource source).1 = .ok outcome := by decide +kernel
  have hequal : first == second := by decide +kernel
  have hsnapshots := (snapshots_equal_iff before between source).1 (List.all_eq_true.mp hprints)
  have hnumbers := hsnapshots.2.mp hequal
  have houtcomes := (snapshots_equal_iff before between source).2 outcome outcome hrun hrun
  exact ⟨⟨List.all_eq_true.mp hprints, hrun⟩, hsnapshots.1, hnumbers, houtcomes.2.mpr hnumbers⟩

/-- A store in which a variable is the difference of two infinities differs from itself, and so does
the outcome with this store. -/
theorem exists_snapshots_unequal :
    (¬ ∀ before between : List Request,
      (∀ statement ∈ (fresh.requestAll before).executedFor between, statement.isPrint) →
        (fresh.requestAll before).store == ((fresh.requestAll before).requestAll between).store) ∧
    ∃ outcome, (fresh.runSource infiniteSquares).1 = .ok outcome ∧ ¬ (outcome == outcome) := by
  have hnan : (fresh.runSource infiniteSquares).1.toOption.bind (·.store.get? "n") =
      some (.float .nan) := by decide +kernel
  obtain ⟨outcome, houtcome, hget⟩ := Option.bind_eq_some_iff.mp hnan
  have hrun : (fresh.runSource infiniteSquares).1 = .ok outcome := by
    cases h : (fresh.runSource infiniteSquares).1 with
    | error failure =>
        rw [h] at houtcome
        cases houtcome
    | ok found =>
        rw [h] at houtcome
        exact congrArg Except.ok (Option.some.inj houtcome)
  have hdiffers : ¬ (outcome.store == outcome.store) := by
    rw [Store.beq_self_iff]
    exact fun hnumbers => hnumbers "n" hget
  constructor
  · intro hall
    have hstates (source : String) :
        (fresh.requestAll [.run source]).requestAll [] = (fresh.runSource source).2 ∧
          fresh.requestAll [.run source] = (fresh.runSource source).2 := ⟨rfl, rfl⟩
    have hequal := hall [.run infiniteSquares] [] (List.forall_mem_nil _)
    rw [(hstates _).1, (hstates _).2, store_of_runSource hrun] at hequal
    exact hdiffers hequal
  · exact ⟨outcome, hrun, fun hequal => hdiffers (Outcome.beq_iff.mp hequal).2⟩

end Interpreter

end Reckoner
