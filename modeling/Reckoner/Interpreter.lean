import Reckoner.Parser
import Reckoner.Store

/-!
# Running programs

An interpreter keeps the values of the variables and the lines printed so far. A statement that
fails has no effect, and the effects of the statements before it stay.
-/

namespace Reckoner

/-- The result of an operation on two numbers. Zero is refused as a divisor. -/
def Operator.apply (operator : Operator) (left right : Number) (position : Position) :
    Except RuntimeError Number :=
  match operator with
  | plus => .ok (left + right)
  | minus => .ok (left - right)
  | times => .ok (left * right)
  | divide => if right.isZero then .error (.divisionByZero position) else .ok (left / right)

/-- The value of an expression. The left operand is evaluated before the right one, and the first
failure is the failure of the whole. -/
def Expr.evaluate (store : Store) : Expr → Except RuntimeError Number
  | literal value => .ok value
  | reference name position =>
    match store.get? name with
    | some value => .ok value
    | none => .error (.undefinedVariable name position)
  | operation operator left right position => do
    let l ← left.evaluate store
    let r ← right.evaluate store
    operator.apply l r position

/-- What a successful run leaves. -/
structure Outcome where
  /-- The lines that the run printed. -/
  output : List String
  /-- The values of the variables behind it. -/
  store : Store
deriving BEq, DecidableEq, Repr

/-- The state between two statements. -/
structure Interpreter where
  store : Store
  /-- The lines printed so far. -/
  output : List String
deriving DecidableEq, Repr

namespace Interpreter

/-- The state before the first statement. -/
def fresh : Interpreter := ⟨.empty, []⟩

/-- The value of an expression in a state. -/
def evaluate (state : Interpreter) (e : Expr) : Except RuntimeError Number :=
  e.evaluate state.store

/-- The state after a statement. -/
def execute (state : Interpreter) : Statement → Except RuntimeError Interpreter
  | .assign name e => do
    let value ← state.evaluate e
    return { state with store := state.store.define name value }
  | .print e => do
    let value ← state.evaluate e
    return { state with output := state.output ++ [value.text] }

/-- Executes statements in order up to the first failure. The state is the one that the statements
before the failure leave. -/
def executeAll (state : Interpreter) : List Statement → Option RuntimeError × Interpreter
  | [] => (none, state)
  | statement :: rest =>
    match state.execute statement with
    | .ok next => next.executeAll rest
    | .error error => (some error, state)

/-- Runs a program. The outcome holds only the lines that this run printed. -/
def run (state : Interpreter) (program : Program) :
    Except RuntimeError Outcome × Interpreter :=
  match state.executeAll program.statements with
  | (none, final) => (.ok ⟨final.output.drop state.output.length, final.store⟩, final)
  | (some error, final) => (.error error, final)

/-- Runs a source text. A text that is no program has no effect. -/
def runSource (state : Interpreter) (source : String) : Except Failure Outcome × Interpreter :=
  match Program.parse source with
  | .error error => (.error (.read error), state)
  | .ok program =>
    let (result, final) := state.run program
    (result.mapError .run, final)

/-- Executes one statement. Yields the store behind it or its failure, and the state it leaves. -/
def step (state : Interpreter) (statement : Statement) :
    Except RuntimeError Store × Interpreter :=
  match state.execute statement with
  | .ok next => (.ok next.store, next)
  | .error error => (.error error, state)

/-- Executes statements one by one, going on behind those that fail. -/
def stepAll (state : Interpreter) :
    List Statement → List (Except RuntimeError Store) × Interpreter
  | [] => ([], state)
  | statement :: rest =>
    let (result, next) := state.step statement
    let (results, final) := next.stepAll rest
    (result :: results, final)

/-- Executes the statements of a source text one by one. A text that is no program is executed up
to the failure, which is the last result. -/
def stepSource (state : Interpreter) (source : String) :
    List (Except Failure Store) × Interpreter :=
  let (statements, failure) := Reading.statements (.ofString source)
  let (results, final) := state.stepAll statements
  (results.map (·.mapError .run) ++ (failure.toList.map fun error => .error (.read error)), final)

/-- The value of the expression at the beginning of a source text. -/
def evaluateSource (state : Interpreter) (source : String) : Except Failure Number := do
  let e ← ((Parser.ofString source).expression.1).mapError .read
  (state.evaluate e).mapError .run

/-- The lines printed so far, and the state without them. -/
def takeOutput (state : Interpreter) : List String × Interpreter :=
  (state.output, { state with output := [] })

end Interpreter

end Reckoner
