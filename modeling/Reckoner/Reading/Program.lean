import Reckoner.Program
import Reckoner.Reading.Expression

/-!
# Reading programs

A statement is `let name = expression;` or `print(expression);`, and a program is a sequence of
statements up to the end of the text. The first failure ends the reading of a program.
-/

namespace Reckoner

namespace Reading

section

variable {σ : Type} [TokenSource σ] [ExprSource σ]

/-- A statement that gives a variable a value. -/
def assignment : Reading σ Statement := do
  let _ ← expect .letKeyword
  let name ← expect .identifier
  let _ ← expect .assign
  let value ← expression
  let _ ← expect .semicolon
  return .assign name.literal value

/-- A statement that prints a value. -/
def printing : Reading σ Statement := do
  let _ ← expect .printKeyword
  let _ ← expect .leftParen
  let value ← expression
  let _ ← expect .rightParen
  let _ ← expect .semicolon
  return .print value

/-- A statement. Its form is chosen by the first token, which is left if it begins neither form. -/
def statement : Reading σ Statement := do
  let token ← peek
  match token.kind with
  | .letKeyword => assignment
  | .printKeyword => printing
  | _ => refuse (.ofUnexpected .statement token)

/-- The next statement, unless the source is at its end. -/
def element? : Reading σ (Option Statement) := do
  if ← atEnd then return none
  else return some (← statement)

end

/-! ## Progress -/

theorem progresses_assignment : Progresses assignment :=
  (progresses_expect rfl).bind fun _ => (consumes_expect _).bind fun _ =>
    (consumes_expect _).bind fun _ => consumes_expression.bind fun _ =>
      (consumes_expect _).bind fun _ => consumes_pure _

theorem progresses_printing : Progresses printing :=
  (progresses_expect rfl).bind fun _ => (consumes_expect _).bind fun _ =>
    consumes_expression.bind fun _ => (consumes_expect _).bind fun _ =>
      (consumes_expect _).bind fun _ => consumes_pure _

/-- A statement that is read takes something, so reading statements comes to an end. -/
theorem progresses_statement : Progresses statement :=
  consumes_peek.bind_progresses fun token => by
    split
    · exact progresses_assignment
    · exact progresses_printing
    · exact progresses_refuse _

/-- The statements of a stream up to its end or to the first failure, and that failure. -/
def statements (stream : TokenStream) : List Statement × Option ReadError :=
  if stream.atEnd then ([], none)
  else match _ : statement.on stream with
    | (.error error, _) => ([], some error)
    | (.ok first, rest) =>
      let further := statements rest
      (first :: further.1, further.2)
termination_by stream.items.length
decreasing_by exact progresses_statement ‹_›

/-- The program that a stream holds, if nothing in it fails. -/
def program (stream : TokenStream) : Except ReadError Program :=
  match statements stream with
  | (statements, none) => .ok ⟨statements⟩
  | (_, some error) => .error error

end Reading

/-- The program that a source text holds. -/
def Program.parse (source : String) : Except ReadError Program :=
  Reading.program (.ofString source)

end Reckoner
