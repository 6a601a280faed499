import Reckoner.Diagnostic
import Reckoner.Trace

/-!
# Commands on files

Four commands take a file that holds a source text: they list its tokens, list its statements, run
it, or trace it. A command reports what it prints, the summary of the failure that ended it, and
its exit code.
-/

namespace Reckoner

/-- What is done with a source text. -/
inductive Command where
  | tokenize
  | parse
  | run
  | trace
deriving DecidableEq, Repr

/-- What a finished command leaves. -/
structure Report where
  /-- The text on the standard output. -/
  output : String
  /-- The line on the standard error output that sums up the failure of the source text. -/
  summary : Option String
  exitCode : Nat
deriving DecidableEq, Repr

/-- The exit code for a failure that arises at a stage. -/
def Stage.exitCode : Stage → Nat
  | lexical | parsing => 65
  | running => 70

/-- A text of lines, each of them ended. -/
def unlines (lines : List String) : String :=
  String.join (lines.map (· ++ "\n"))

/-- Some lines, and maybe the failure that ended them. -/
def Report.ofLines (lines : List String) (failure : Option Failure) : Report :=
  match failure with
  | none => ⟨unlines lines, none, 0⟩
  | some failure =>
    ⟨unlines lines, some failure.diagnostic.summary, failure.diagnostic.stage.exitCode⟩

/-- The report on a file that does not exist or does not hold a text. -/
def Report.unreadable : Report :=
  ⟨"", none, 1⟩

/-- The lines that show a step: a header, the printed line, and the changes. -/
def Step.lines (step : Step) : List String :=
  s!"[{step.index + 1}] {step.action}: {step.description}" ::
    (step.printed.toList.map fun line => s!"    output: {line}") ++
    step.changes.map fun change => s!"    {change.text}"

namespace Command

/-- Lists the tokens before the first illegal character. -/
def tokenizeReport (source : String) : Report :=
  let (tokens, failure) := (TokenStream.ofString source).listing
  .ofLines (tokens.map Token.text) (failure.map fun error => .read (.illegal error))

/-- Lists the statements before the first failure. -/
def parseReport (source : String) : Report :=
  let (statements, failure) := Reading.statements (.ofString source)
  .ofLines (statements.map Statement.text) (failure.map .read)

/-- Runs a program and shows what it printed, also if it failed. -/
def runReport (source : String) : Report :=
  match Program.parse source with
  | .error error => .ofLines [] (some (.read error))
  | .ok program =>
    let (failure, final) := Interpreter.fresh.executeAll program.statements
    .ofLines final.output (failure.map .run)

/-- Runs a program and shows its steps, also if it failed. -/
def traceReport (source : String) : Report :=
  match Program.parse source with
  | .error error => .ofLines [] (some (.read error))
  | .ok program =>
    let trace := (Interpreter.fresh.trace program).1
    .ofLines (trace.steps.flatMap Step.lines) (trace.failure.map .run)

/-- Carries out a command on a source text. -/
def report : Command → String → Report
  | tokenize => tokenizeReport
  | parse => parseReport
  | run => runReport
  | trace => traceReport

/-- Carries out a command on the content of a file, if the file exists. -/
def reportOn (command : Command) (content : Option ByteArray) : Report :=
  match content.bind String.fromUTF8? with
  | some source => command.report source
  | none => .unreadable

end Command

end Reckoner
