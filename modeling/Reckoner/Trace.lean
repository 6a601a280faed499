import Reckoner.Interpreter

/-!
# Traces

A trace records a run statement by statement: what was executed and printed, the store behind each
statement, and how it differs from the store before. It ends with the first failure.
-/

namespace Reckoner

/-- A variable whose value differs between two stores. -/
inductive Change where
  | added (name : String) (value : Number)
  | updated (name : String) (old new : Number)
deriving BEq, DecidableEq, Repr

namespace Change

/-- The text of a change. -/
def text : Change → String
  | added name value => s!"{name} = {value.text} (new)"
  | updated name old new => s!"{name}: {old.text} → {new.text}"

end Change

/-- Whether a value counts as changed: it is numerically different, or an integer in place of a
floating-point number or the other way round. -/
def Number.differs (old new : Number) : Bool :=
  old != new || old.isFloat != new.isFloat

/-- The changes from one store to another, in the order of the names of the latter. -/
def Store.changes (before after : Store) : List Change :=
  after.entries.filterMap fun (name, value) =>
    match before.get? name with
    | none => some (.added name value)
    | some old => if old.differs value then some (.updated name old value) else none

/-- The record of one executed statement. -/
structure Step where
  /-- The number of statements executed before. -/
  index : Nat
  statement : Statement
  /-- The line that the statement printed. -/
  printed : Option String
  /-- The values of the variables behind the statement. -/
  store : Store
  changes : List Change
deriving BEq, DecidableEq, Repr

namespace Step

/-- The form of the statement, as steps are announced. -/
def action (step : Step) : String :=
  s!"Execute {step.statement.form}"

/-- The statement in words. -/
def description (step : Step) : String :=
  step.statement.description

end Step

/-- The record of a run. -/
structure Trace where
  steps : List Step
  /-- The failure that ended the run. -/
  failure : Option RuntimeError
deriving BEq, DecidableEq, Repr

namespace Trace

/-- Whether every statement was executed. -/
def isComplete (trace : Trace) : Bool :=
  trace.failure.isNone

end Trace

namespace Interpreter

/-- Executes statements up to the first failure and records them, counting from `index`. -/
def traceFrom (index : Nat) (state : Interpreter) : List Statement → Trace × Interpreter
  | [] => (⟨[], none⟩, state)
  | statement :: rest =>
    match state.step statement with
    | (.error error, next) => (⟨[], some error⟩, next)
    | (.ok store, next) =>
      let step : Step :=
        ⟨index, statement, next.output[state.output.length]?, store,
          state.store.changes store⟩
      let (further, final) := next.traceFrom (index + 1) rest
      (⟨step :: further.steps, further.failure⟩, final)

/-- Runs a program and records it. -/
def trace (state : Interpreter) (program : Program) : Trace × Interpreter :=
  state.traceFrom 0 program.statements

end Interpreter

end Reckoner
