import Reckoner.Reading.Program

/-!
# Parsers

A parser reads a source text statement by statement. It can also be asked for a single expression.
Its iteration ends at the end of the text and after its first failure. Unless something else is
said, a parser reads from the items of its text.
-/

namespace Reckoner

/-- A source text in the course of being parsed. -/
structure Parser (σ : Type := TokenStream) where
  /-- What has not been read. -/
  stream : σ
  /-- Whether the iteration has failed. -/
  failed : Bool
deriving DecidableEq, Repr

namespace Parser

/-- A parser at the beginning of a text. -/
def ofString (source : String) : Parser :=
  ⟨.ofString source, false⟩

section

variable {σ : Type} [TokenSource σ] [ExprSource σ]

/-- Lets an action read from the parser. -/
def perform (action : Reading σ α) (parser : Parser σ) : Except ReadError α × Parser σ :=
  let (result, stream) := action.on parser.stream
  (result, { parser with stream := stream })

/-- Reads a statement. -/
def statement : Parser σ → Except ReadError Statement × Parser σ :=
  perform Reading.statement

/-- Reads an expression. -/
def expression : Parser σ → Except ReadError Expr × Parser σ :=
  perform Reading.expression

/-- The next element of the iteration: a statement or a failure, and nothing at the end of the text
or after a failure. -/
def advance (parser : Parser σ) : Option (Except ReadError Statement) × Parser σ :=
  if parser.failed then (none, parser)
  else match parser.perform Reading.element? with
    | (.ok none, parser) => (none, parser)
    | (.ok (some statement), parser) => (some (.ok statement), parser)
    | (.error error, parser) => (some (.error error), { parser with failed := true })

end

/-- Reads all that is left as a program. -/
def program (parser : Parser) : Except ReadError Program :=
  Reading.program parser.stream

end Parser

end Reckoner
