import Reckoner.Number
import Reckoner.Position

/-!
# Tokens

A token is a piece of a source text together with its kind and its place. The kind of a number
carries the value that the piece denotes.
-/

namespace Reckoner

/-- What a token is. -/
inductive Kind where
  | number (value : Number)
  | identifier
  | letKeyword
  | printKeyword
  | plus
  | minus
  | star
  | slash
  | assign
  | leftParen
  | rightParen
  | semicolon
  | endOfInput
deriving BEq, DecidableEq, Repr

namespace Kind

/-- The name of a kind, as it is shown in listings and messages. All numbers share one name. -/
def name : Kind → String
  | number _ => "NUMBER"
  | identifier => "IDENTIFIER"
  | letKeyword => "LET"
  | printKeyword => "PRINT"
  | plus => "PLUS"
  | minus => "MINUS"
  | star => "STAR"
  | slash => "SLASH"
  | assign => "ASSIGN"
  | leftParen => "LPAREN"
  | rightParen => "RPAREN"
  | semicolon => "SEMICOLON"
  | endOfInput => "END_OF_INPUT"

end Kind

/-- A piece of a source text. -/
structure Token where
  kind : Kind
  /-- The piece as it is written. -/
  literal : String
  /-- The place where the piece begins. -/
  position : Position
deriving BEq, DecidableEq, Repr

namespace Token

/-- What a token carries besides its kind. -/
inductive Value where
  | number (value : Number)
  | word (text : String)
deriving BEq, DecidableEq, Repr

/-- The written form of what a token carries. -/
def Value.text : Value → String
  | number value => value.text
  | word text => text

/-- A number carries its value, and a word carries its text. -/
def value? (token : Token) : Option Value :=
  match token.kind with
  | .number value => some (.number value)
  | .identifier | .letKeyword | .printKeyword => some (.word token.literal)
  | _ => none

/-- The line that lists a token: its kind, its literal and its value. -/
def text (token : Token) : String :=
  let value := match token.value? with
    | some value => value.text
    | none => "null"
  s!"{token.kind.name} {token.literal} {value}"

end Token

end Reckoner
