import Mathlib.Logic.ExistsUnique
import Reckoner.Proofs.Joining

/-!
# The effects of a run

A run executes the statements before the first failure and nothing else. What it leaves is what
these statements leave when they are run alone; the statement that fails adds nothing. Printed lines
are only added to, and names that are defined stay where they are.
-/

namespace Reckoner

/-- Whether a statement is one that prints. -/
def Statement.isPrint : Statement → Bool
  | assign _ _ => false
  | print _ => true

namespace Store

theorem map_fst_insertEntry (name : String) (value : Number) (entries : List (String × Number)) :
    (insertEntry name value entries).map Prod.fst =
      if name ∈ entries.map Prod.fst then entries.map Prod.fst
      else entries.map Prod.fst ++ [name] := by
  induction entries with
  | nil => rfl
  | cons entry rest ih =>
      obtain ⟨other, old⟩ := entry
      rw [insertEntry]
      by_cases hname : other = name
      · simp [hname]
      · simp only [if_neg hname, List.map_cons, ih, List.mem_cons, Ne.symm hname, false_or]
        split <;> simp

/-- A name that is defined keeps its place, and a new name comes last. -/
theorem names_define (store : Store) (name : String) (value : Number) :
    (store.define name value).names =
      if name ∈ store.names then store.names else store.names ++ [name] :=
  map_fst_insertEntry name value store.entries

theorem names_prefix_define (store : Store) (name : String) (value : Number) :
    store.names <+: (store.define name value).names := by
  rw [names_define]
  split
  · exact List.prefix_rfl
  · exact List.prefix_append _ _

end Store

namespace Interpreter

variable {state next final : Interpreter} {statement : Statement} {error : RuntimeError}

/-! ## The statements that are executed -/

/-- The statements of a run that are executed: those before the first failure. -/
def executed (state : Interpreter) : List Statement → List Statement
  | [] => []
  | statement :: rest =>
    match state.execute statement with
    | .ok next => statement :: next.executed rest
    | .error _ => []

theorem executed_of_ok (h : state.execute statement = .ok next) (rest : List Statement) :
    state.executed (statement :: rest) = statement :: next.executed rest := by
  rw [executed, h]

theorem executed_of_error (h : state.execute statement = .error error) (rest : List Statement) :
    state.executed (statement :: rest) = [] := by
  rw [executed, h]

/-- Running the executed statements alone leaves what the whole run leaves. -/
theorem executeAll_executed (state : Interpreter) (statements : List Statement) :
    state.executeAll (state.executed statements) = (none, (state.executeAll statements).2) := by
  induction statements generalizing state with
  | nil => rfl
  | cons statement rest ih =>
      cases h : state.execute statement with
      | error error => rw [executed_of_error h, executeAll_of_error h, executeAll]
      | ok next => rw [executed_of_ok h, executeAll_of_ok h, executeAll_of_ok h, ih]

/-- Behind the executed statements stands the one that fails, or none if none does. -/
theorem exists_executed_append (state : Interpreter) (statements : List Statement) :
    ∃ rest, statements = state.executed statements ++ rest ∧
      (state.executeAll statements).2.EndsBefore (state.executeAll statements).1 rest := by
  induction statements generalizing state with
  | nil => exact ⟨[], rfl, trivial⟩
  | cons statement rest ih =>
      cases h : state.execute statement with
      | error error =>
          rw [executed_of_error h, executeAll_of_error h]
          exact ⟨statement :: rest, rfl, h⟩
      | ok next =>
          obtain ⟨left, hrest, hends⟩ := ih next
          rw [executed_of_ok h, executeAll_of_ok h]
          exact ⟨left, congrArg (statement :: ·) hrest, hends⟩

/-- Statements that succeed are executed, and the run goes on behind them. -/
theorem executed_append {first : List Statement} (h : state.executeAll first = (none, next))
    (second : List Statement) :
    state.executed (first ++ second) = first ++ next.executed second := by
  induction first generalizing state with
  | nil =>
      cases h
      rfl
  | cons statement first ih =>
      cases hexecute : state.execute statement with
      | error error =>
          rw [executeAll_of_error hexecute] at h
          cases h
      | ok next =>
          rw [executeAll_of_ok hexecute] at h
          rw [List.cons_append, executed_of_ok hexecute, ih h, List.cons_append]

/-! ## The statement that fails -/

theorem run_of_none {statements : List Statement}
    (h : state.executeAll statements = (none, final)) :
    state.run ⟨statements⟩ =
      (.ok ⟨final.output.drop state.output.length, final.store⟩, final) := by
  simp only [run, h]

theorem run_of_some {statements : List Statement}
    (h : state.executeAll statements = (some error, final)) :
    state.run ⟨statements⟩ = (.error error, final) := by
  simp only [run, h]

theorem runSource_of_error {source : String} {error : ReadError}
    (h : Program.parse source = .error error) (state : Interpreter) :
    state.runSource source = (.error (.read error), state) := by
  simp only [runSource, h]

/-- Running a program leaves what executing its statements leaves. -/
theorem runSource_snd_of_parse {source : String} {program : Program}
    (h : Program.parse source = .ok program) (state : Interpreter) :
    (state.runSource source).2 = (state.executeAll program.statements).2 := by
  rw [runSource_of_parse h, run]
  rcases state.executeAll program.statements with ⟨_ | error, final⟩ <;> rfl

/-- Whether the statement behind the first `k` ones is the one that fails: these succeed and leave
the final state, and the statement fails there with the error and changes nothing. -/
structure FailsAt (state : Interpreter) (statements : List Statement) (k : Nat)
    (error : RuntimeError) (final : Interpreter) : Prop where
  succeeds : ∃ outcome, state.run ⟨statements.take k⟩ = (.ok outcome, final)
  fails : ∃ statement, statements[k]? = some statement ∧
    final.step statement = (.error error, final)

theorem FailsAt.executeAll_take {statements : List Statement} {k : Nat}
    (h : state.FailsAt statements k error final) :
    state.executeAll (statements.take k) = (none, final) := by
  obtain ⟨outcome, hrun⟩ := h.succeeds
  rcases hexecute : state.executeAll (statements.take k) with ⟨failure | failure, reached⟩
  · rw [run_of_none hexecute] at hrun
    rw [(Prod.mk.inj hrun).2]
  · rw [run_of_some hexecute] at hrun
    cases (Prod.mk.inj hrun).1

/-- No two statements of a run are the one that fails. -/
theorem FailsAt.eq_length_executed {statements : List Statement} {k : Nat}
    (h : state.FailsAt statements k error final) : k = (state.executed statements).length := by
  obtain ⟨statement, hstatement, hstep⟩ := h.fails
  obtain ⟨hlt, hget⟩ := List.getElem?_eq_some_iff.mp hstatement
  have hexecute : final.execute statement = .error error := by
    cases hexecute : final.execute statement with
    | ok next =>
        rw [step_of_ok hexecute] at hstep
        cases (Prod.mk.inj hstep).1
    | error found =>
        rw [step_of_error hexecute] at hstep
        cases hstep
        rfl
  have hsplit : statements = statements.take k ++ statement :: statements.drop (k + 1) := by
    rw [← hget, ← List.drop_eq_getElem_cons hlt, List.take_append_drop]
  have hexecuted : state.executed statements = statements.take k := by
    rw [hsplit, executed_append h.executeAll_take, executed_of_error hexecute, ← hsplit,
      List.append_nil]
  rw [hexecuted, List.length_take, Nat.min_eq_left (Nat.le_of_lt hlt)]

/-- A run that fails does so at the statement behind the executed ones. -/
theorem failsAt_length_executed {statements : List Statement}
    (h : state.executeAll statements = (some error, final)) :
    state.FailsAt statements (state.executed statements).length error final := by
  obtain ⟨rest, hrest, hends⟩ := exists_executed_append state statements
  have hexecuted := executeAll_executed state statements
  rw [h] at hends hexecuted
  generalize state.executed statements = before at hrest hexecuted
  subst hrest
  cases rest with
  | nil => exact hends.elim
  | cons statement rest =>
      constructor
      · rw [List.take_left]
        exact ⟨_, run_of_none hexecuted⟩
      · exact ⟨statement, by simp, step_of_error hends⟩

/-! ## What is kept -/

/-- Names that are defined stay in their places. -/
theorem names_prefix_execute (h : state.execute statement = .ok next) :
    state.store.names <+: next.store.names := by
  obtain ⟨name, e, value, rfl, -, rfl⟩ | ⟨e, value, rfl, -, rfl⟩ := execute_cases h
  · exact state.store.names_prefix_define name value
  · exact List.prefix_rfl

theorem names_prefix_executeAll (state : Interpreter) (statements : List Statement) :
    state.store.names <+: (state.executeAll statements).2.store.names := by
  induction statements generalizing state with
  | nil => exact List.prefix_rfl
  | cons statement rest ih =>
      cases h : state.execute statement with
      | error error =>
          simp only [executeAll_of_error h, List.prefix_rfl]
      | ok next =>
          rw [executeAll_of_ok h]
          exact (names_prefix_execute h).trans (ih next)

/-- Each statement that prints adds one line, and no other statement adds any. -/
theorem exists_lines_of_executeAll {statements : List Statement}
    (h : state.executeAll statements = (none, final)) :
    ∃ lines, final.output = state.output ++ lines ∧
      lines.length = statements.countP Statement.isPrint := by
  induction statements generalizing state with
  | nil =>
      cases h
      exact ⟨[], by simp, rfl⟩
  | cons statement rest ih =>
      cases hexecute : state.execute statement with
      | error error =>
          rw [executeAll_of_error hexecute] at h
          cases h
      | ok next =>
          rw [executeAll_of_ok hexecute] at h
          obtain ⟨lines, hlines, hcount⟩ := ih h
          obtain ⟨name, e, value, rfl, -, rfl⟩ | ⟨e, value, rfl, -, rfl⟩ := execute_cases hexecute
          · exact ⟨lines, hlines, by simpa [Statement.isPrint] using hcount⟩
          · refine ⟨value.text :: lines, ?_, ?_⟩
            · rw [hlines, List.append_assoc]
              rfl
            · rw [List.length_cons, hcount, List.countP_cons_of_pos rfl]

/-- A text that is no program has no effect. A program that fails has the effects of the statements
before one, and only one, that fails. A program that succeeds adds the lines of its outcome to those
printed before, one for each statement that prints, and leaves the store of its outcome. In any case
the lines printed before stay, and so do the names defined before, in their places. -/
theorem effects_of_runSource (state : Interpreter) (source : String) :
    let (result, final) := state.runSource source
    state.output <+: final.output ∧ state.store.names <+: final.store.names ∧
      match Program.parse source with
      | .error error => result = .error (.read error) ∧ final = state
      | .ok program =>
        match result with
        | .error failure => ∃ error, failure = .run error ∧
            ∃! k, state.FailsAt program.statements k error final
        | .ok outcome => final.output = state.output ++ outcome.output ∧
            outcome.output.length = program.statements.countP Statement.isPrint ∧
            outcome.store = final.store := by
  cases hparse : Program.parse source with
  | error error =>
      rw [runSource_of_error hparse]
      exact ⟨List.prefix_rfl, List.prefix_rfl, rfl, rfl⟩
  | ok program =>
      have houtput := prefix_output_executeAll state program.statements
      have hnames := names_prefix_executeAll state program.statements
      rw [runSource_of_parse hparse]
      rcases hexecute : state.executeAll program.statements with ⟨failure | error, final⟩
      · rw [hexecute] at houtput hnames
        rw [run_of_none hexecute]
        obtain ⟨lines, hlines, hcount⟩ := exists_lines_of_executeAll hexecute
        have hdrop : final.output.drop state.output.length = lines := by
          rw [hlines, List.drop_left]
        refine ⟨houtput, hnames, ?_, ?_, rfl⟩
        · rw [hdrop]
          exact hlines
        · rw [hdrop]
          exact hcount
      · rw [hexecute] at houtput hnames
        rw [run_of_some hexecute]
        refine ⟨houtput, hnames, error, rfl, _, failsAt_length_executed hexecute, ?_⟩
        intro k hk
        exact hk.eq_length_executed

end Interpreter

end Reckoner
