import Reckoner.Expr

/-!
# Programs

A program is a sequence of statements. A statement gives a variable a value or prints a value.
-/

namespace Reckoner

/-- A statement. -/
inductive Statement where
  | assign (name : String) (value : Expr)
  | print (value : Expr)
deriving BEq, DecidableEq, Repr

namespace Statement

/-- The name of a statement's form. -/
def form : Statement → String
  | assign _ _ => "Assign"
  | print _ => "Print"

/-- The variable that a statement assigns. -/
def target? : Statement → Option String
  | assign name _ => some name
  | print _ => none

/-- The expression that a statement evaluates. -/
def value : Statement → Expr
  | assign _ value | print value => value

/-- The text of a statement. -/
def text : Statement → String
  | assign name value => s!"let {name} = {value.text};"
  | print value => s!"print({value.text});"

/-- A statement in words. -/
def description : Statement → String
  | assign name value => s!"Assign '{name}' = {value.text}"
  | print value => s!"Print {value.text}"

end Statement

/-- A program. -/
structure Program where
  statements : List Statement
deriving BEq, DecidableEq, Repr

/-- The text of a program, one statement a line. -/
def Program.text (program : Program) : String :=
  String.join (program.statements.map fun statement => statement.text ++ "\n")

end Reckoner
