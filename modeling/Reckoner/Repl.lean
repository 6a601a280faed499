import Reckoner.CommandLine
import Reckoner.WhiteSpace

/-!
# Interactive sessions

A session reads lines and runs each of them on one interpreter. A line that is no program has no
effect, and a line that fails keeps the effects before the failure. Some lines are commands of the
session: `vars` lists the variables, and `exit` and `quit` leave.
-/

namespace Reckoner.Repl

/-- The line that opens a session. -/
def banner : String :=
  "Calculator REPL. Type `vars` to list variables, `exit` or `quit` to leave.\n"

/-- What is shown before a line is read. -/
def prompt : String := ">>> "

/-- The line that closes a session. -/
def farewell : String := "Goodbye!\n"

/-- What a session answers to a line. -/
inductive Response where
  /-- The line is blank. -/
  | nothing
  /-- The variables are listed. -/
  | listing (store : Store)
  /-- The line is run: the lines it printed, and its failure. -/
  | ran (output : List String) (failure : Option Failure)
deriving DecidableEq, Repr

/-- The lines that a response shows on the standard output. -/
def Response.lines : Response → List String
  | nothing => []
  | listing store => store.entries.map fun (name, value) => s!"  {name} = {value.text}"
  | ran output _ => output

/-- Runs a line and takes what it printed. -/
def runLine (state : Interpreter) (line : String) : Response × Interpreter :=
  let (result, final) := state.runSource line
  let (output, rest) := final.takeOutput
  match result with
  | .ok _ => (.ran output none, rest)
  | .error failure => (.ran output (some failure), rest)

/-- The response to a line and the state behind it, or nothing if the line leaves the session.
Commands may have white space around them. -/
def respond (state : Interpreter) (line : String) : Option (Response × Interpreter) :=
  match trimmed line with
  | "" => some (.nothing, state)
  | "exit" | "quit" => none
  | "vars" => some (.listing state.store, state)
  | _ => some (runLine state line)

/-- How a session ends. -/
inductive Ending where
  /-- The input ends. -/
  | endOfInput
  /-- A line leaves the session. -/
  | left
  /-- A line of the input is not a text. -/
  | undecodable
deriving DecidableEq, Repr

/-- What is shown behind the last prompt. -/
def Ending.text : Ending → String
  | endOfInput => "\n" ++ farewell
  | left => farewell
  | undecodable => ""

/-- The exit code of a session. -/
def Ending.exitCode : Ending → Nat
  | endOfInput | left => 0
  | undecodable => 1

/-- The responses to the lines of a session and its ending. A line that is not a text is given as
nothing. -/
def converse (state : Interpreter) : List (Option String) → List Response × Ending
  | [] => ([], .endOfInput)
  | none :: _ => ([], .undecodable)
  | some line :: rest =>
    match respond state line with
    | none => ([], .left)
    | some (response, next) =>
      let (responses, ending) := converse next rest
      (response :: responses, ending)

/-- What a session shows. Every line is read behind a prompt. -/
def transcript (responses : List Response) (ending : Ending) : String :=
  banner ++ String.join (responses.map fun response => prompt ++ unlines response.lines) ++
    prompt ++ ending.text

/-- Splits input behind each line feed. -/
def splitLines : List UInt8 → List (List UInt8)
  | [] => []
  | byte :: rest =>
    if byte = 10 then [byte] :: splitLines rest
    else match splitLines rest with
      | [] => [[byte]]
      | line :: lines => (byte :: line) :: lines

/-- The text of a line of input, without the line feed at its end and a carriage return before
it. There is none if the bytes are not UTF-8. -/
def decodeLine (bytes : List UInt8) : Option String :=
  let content := match bytes.reverse with
    | 10 :: 13 :: rest => rest.reverse
    | 10 :: rest => rest.reverse
    | _ => bytes
  String.fromUTF8? ⟨content.toArray⟩

/-- A whole session on the given input. -/
def session (input : ByteArray) : Report :=
  let (responses, ending) := converse .fresh ((splitLines input.toList).map decodeLine)
  ⟨transcript responses ending, none, ending.exitCode⟩

end Reckoner.Repl
