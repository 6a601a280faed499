import Reckoner.Token

/-!
# Failures

The causes for which a source text is refused or a program stops. A cause carries the token,
character or place it is about; its wording is chosen when it is reported.
-/

namespace Reckoner

/-- The greatest number of levels of an expression, and of parentheses open at one time. -/
def maxDepth : Nat := 256

/-- A character that no token begins with. -/
structure IllegalCharacter where
  char : Char
  position : Position
deriving DecidableEq, Repr

/-- What the grammar asks for at a place. -/
inductive Expectation where
  /-- One certain kind of token. -/
  | kind (kind : Kind)
  /-- The beginning of a statement. -/
  | statement
  /-- The beginning of a factor. -/
  | factor
deriving DecidableEq, Repr

/-- A token sequence that is no program. -/
inductive SyntaxError where
  /-- One kind of token is required and another token found. -/
  | mismatch (expected : Kind) (found : Token)
  /-- One of several kinds is required and another token found. -/
  | unexpectedToken (expected : Expectation) (found : Token)
  /-- A token is required and the source text ends. -/
  | unexpectedEnd (expected : Expectation) (position : Position)
  /-- The token would exceed one of the two depth limits. -/
  | tooDeep (token : Token)
deriving DecidableEq, Repr

/-- A failure to read a source text. -/
inductive ReadError where
  | illegal (error : IllegalCharacter)
  | unparsable (error : SyntaxError)
deriving DecidableEq, Repr

/-- A failure of a statement. -/
inductive RuntimeError where
  /-- A variable is read that has no value. -/
  | undefinedVariable (name : String) (position : Position)
  /-- The right operand of the division sign at the place is zero. -/
  | divisionByZero (position : Position)
deriving DecidableEq, Repr

/-- Any failure of a program, from its text to its last statement. -/
inductive Failure where
  | read (error : ReadError)
  | run (error : RuntimeError)
deriving DecidableEq, Repr

namespace SyntaxError

/-- A token other than the required kind. At the end of the text the error is that it ends. -/
def ofMismatch (expected : Kind) (found : Token) : SyntaxError :=
  if found.kind = .endOfInput then unexpectedEnd (.kind expected) found.position
  else mismatch expected found

/-- A token that begins nothing the grammar allows at its place. At the end of the text the error
is that it ends. -/
def ofUnexpected (expected : Expectation) (found : Token) : SyntaxError :=
  if found.kind = .endOfInput then unexpectedEnd expected found.position
  else unexpectedToken expected found

end SyntaxError

end Reckoner
