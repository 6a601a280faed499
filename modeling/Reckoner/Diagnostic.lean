import Reckoner.Failure

/-!
# Diagnostics

A diagnostic is the report of a failure: the stage it belongs to, a stable code, a message that
names the place, a help text, and a label on a stretch of the source text.
-/

namespace Reckoner

/-- The stage at which a failure arises. -/
inductive Stage where
  | lexical
  | parsing
  | running
deriving DecidableEq, Repr

/-- The name of a stage in reports. -/
def Stage.name : Stage → String
  | lexical => "Lexical"
  | parsing => "Syntax"
  | running => "Runtime"

/-- A remark on a stretch of the source text, counted in bytes. -/
structure Label where
  offset : Nat
  length : Nat
  text : String
deriving DecidableEq, Repr

/-- The report of a failure. -/
structure Diagnostic where
  stage : Stage
  code : String
  message : String
  help : Option String
  label : Label
  /-- The place whose line and column are reported. -/
  position : Position
deriving DecidableEq, Repr

/-- The line and column of a place, as messages give them. -/
def Position.text (p : Position) : String :=
  s!"line {p.line}, column {p.column}"

/-- The stretch that a token covers. -/
def Label.ofToken (token : Token) (text : String) : Label :=
  ⟨token.position.offset, token.literal.utf8ByteSize, text⟩

/-- The last byte before a place, or nothing at the beginning of the text. -/
def Label.before (p : Position) (text : String) : Label :=
  ⟨p.offset - 1, p.offset - (p.offset - 1), text⟩

/-- The wording of what the grammar asks for. -/
def Expectation.text : Expectation → String
  | .kind required => required.name
  | .statement => "`let` or `print`"
  | .factor => "a number, an identifier or `(`"

/-- The report of an illegal character. -/
def IllegalCharacter.diagnostic (e : IllegalCharacter) : Diagnostic where
  stage := .lexical
  code := "lex::unexpected_character"
  message := s!"Unexpected character '{e.char}' at {e.position.text}"
  help := s!"remove or correct the character: `{e.char}`"
  label := ⟨e.position.offset, e.char.utf8Size, "this character"⟩
  position := e.position

/-- The report of a syntax error. -/
def SyntaxError.diagnostic : SyntaxError → Diagnostic
  | mismatch expected found => {
      stage := .parsing
      code := "parse::mismatch"
      message := s!"Expected {expected.name}, found {found.kind.name} at {found.position.text}"
      help := s!"use `{expected.name}` here instead"
      label := .ofToken found "here"
      position := found.position }
  | unexpectedToken expected found => {
      stage := .parsing
      code := "parse::unexpected_token"
      message := s!"Unexpected token {found.kind.name} at {found.position.text}"
      help := s!"expected {expected.text}"
      label := .ofToken found "this token"
      position := found.position }
  | unexpectedEnd expected position => {
      stage := .parsing
      code := "parse::unexpected_eof"
      message := s!"Unexpected end of input at {position.text}: expected {expected.text}"
      help := "The input ended unexpectedly, possibly due to a missing `;` or `)`."
      label := .before position "input ends here"
      position := position }
  | tooDeep token => {
      stage := .parsing
      code := "parse::too_deep"
      message := s!"Expression nested too deeply at {token.position.text}: " ++
        s!"the limit is {maxDepth} levels"
      help := "split the expression across several `let` statements"
      label := .ofToken token "the limit is exceeded here"
      position := token.position }

/-- The report of a failure to read a source text. -/
def ReadError.diagnostic : ReadError → Diagnostic
  | illegal error => error.diagnostic
  | unparsable error => error.diagnostic

/-- The report of a failure of a statement. -/
def RuntimeError.diagnostic : RuntimeError → Diagnostic
  | undefinedVariable name position => {
      stage := .running
      code := "eval::undefined_variable"
      message := s!"Undefined variable '{name}' at {position.text}"
      help := s!"assign `{name}` with `let {name} = ...;` before using it"
      label := ⟨position.offset, name.utf8ByteSize, "not defined"⟩
      position := position }
  | divisionByZero position => {
      stage := .running
      code := "eval::division_by_zero"
      message := s!"Division by zero at {position.text}"
      help := none
      label := ⟨position.offset, 1, "the right-hand side is zero"⟩
      position := position }

/-- The report of a failure. -/
def Failure.diagnostic : Failure → Diagnostic
  | read error => error.diagnostic
  | run error => error.diagnostic

namespace Diagnostic

/-- The name of the source text a report is attached to: the file name, or a name for texts that
come from no file. Failures of running programs are attached to none. -/
def sourceName? (d : Diagnostic) (file : Option String) : Option String :=
  if d.stage = .running then none else some (file.getD "<input>")

/-- The report in one line. -/
def summary (d : Diagnostic) : String :=
  s!"[line {d.position.line}] {d.stage.name} error: {d.message}"

end Diagnostic

end Reckoner
