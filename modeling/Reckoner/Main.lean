import Reckoner.Repl

/-!
# The program

`tokenize FILE`, `parse FILE`, `run FILE` and `trace FILE` carry out a command on a file, and `repl`
opens an interactive session.
-/

namespace Reckoner

/-- The command with a name. -/
def Command.ofName? : String → Option Command
  | "tokenize" => some .tokenize
  | "parse" => some .parse
  | "run" => some .run
  | "trace" => some .trace
  | _ => none

/-- The bytes of a file, if it can be read. -/
def readFile? (file : String) : IO (Option ByteArray) := do
  try
    return some (← IO.FS.readBinFile file)
  catch _ =>
    return none

/-- Carries out a command on a file. -/
def runCommand (command : Command) (file : String) : IO UInt32 := do
  let report := command.reportOn (← readFile? file)
  IO.print report.output
  match report.summary with
  | some summary => IO.eprintln summary
  | none => if report.exitCode ≠ 0 then IO.eprintln s!"reading `{file}` failed"
  return report.exitCode.toUInt32

/-- Reads the bytes of a line, up to a line feed or the end of the input. -/
partial def readLineBytes (input : IO.FS.Stream) (bytes : Array UInt8) : IO (Array UInt8) := do
  match (← input.read 1).toList with
  | [] => return bytes
  | byte :: _ =>
    let bytes := bytes.push byte
    if byte = 10 then return bytes else readLineBytes input bytes

/-- Carries on an interactive session behind the given state. -/
partial def converse (state : Interpreter) : IO UInt32 := do
  let output ← IO.getStdout
  let finish (ending : Repl.Ending) : IO UInt32 := do
    output.putStr ending.text
    return ending.exitCode.toUInt32
  output.putStr Repl.prompt
  output.flush
  let bytes ← readLineBytes (← IO.getStdin) #[]
  if bytes.isEmpty then finish .endOfInput
  else match Repl.decodeLine bytes.toList with
    | none => finish .undecodable
    | some line =>
      match Repl.respond state line with
      | none => finish .left
      | some (response, next) =>
        output.putStr (unlines response.lines)
        if let .ran _ (some failure) := response then IO.eprintln failure.diagnostic.message
        converse next

/-- Whether an argument only asks for more messages. -/
def isVerbosity (argument : String) : Bool :=
  argument == "--verbose" ||
    match argument.toList with
    | '-' :: letters => !letters.isEmpty && letters.all (· == 'v')
    | _ => false

end Reckoner

open Reckoner in
def main (arguments : List String) : IO UInt32 := do
  match arguments.filter (!isVerbosity ·) with
  | ["repl"] =>
    IO.print Repl.banner
    converse .fresh
  | [name, file] =>
    match Command.ofName? name with
    | some command => runCommand command file
    | none =>
      IO.eprintln s!"unknown command `{name}`"
      return 2
  | _ =>
    IO.eprintln "usage: tokenize FILE | parse FILE | run FILE | trace FILE | repl"
    return 2
