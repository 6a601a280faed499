import Reckoner.TokenStream

/-!
# Lexers

A lexer reads a source text token by token, and scans no more of it than it is asked for. It can be
asked for the next token, be asked to look ahead or to require a kind, be iterated up to the end of
input, and be set back to the beginning. A token that was looked at is kept until it is taken.
-/

namespace Reckoner

/-- Reads on to the next item of a text that begins at `p`. Yields the item, and the place and the
text behind it. At the end of the text the item is the end of input.

Places are counted character by character up to the first character of the item. A comment and the
rest of the item are skipped at once: neither has a line feed. -/
def scan (p : Position) (text : List Char) : Item × Position × List Char :=
  match text with
  | [] => (.token ⟨.endOfInput, "", p⟩, p, [])
  | c :: rest =>
    if isBlank c then scan (p.advance c) rest
    else if c == '/' && rest.head? == some '/' then
      let comment := rest.takeWhile (· != '\n')
      scan ((p.advance c).skip comment) (rest.dropWhile (· != '\n'))
    else
      let (lexeme, rest) := Lexeme.read c rest
      (lexeme.item p, (p.advance c).skip lexeme.chars.tail, rest)
termination_by text.length
decreasing_by
  · simp
  · have := (List.dropWhile_suffix (l := rest) (· != '\n')).length_le
    simp only [List.length_cons]
    omega

/-- What a reader gets of an item. -/
def Item.result : Item → Except ReadError Token
  | token found => .ok found
  | illegal error => .error (.illegal error)

/-- A token that is required to be of a kind. Kinds are compared by `==`, so that numbers are
compared by value. -/
def Token.require (kind : Kind) (token : Token) : Except ReadError Token :=
  if token.kind == kind then .ok token else .error (.unparsable (.ofMismatch kind token))

/-- A source text in the course of being read. -/
structure Lexer where
  source : String
  /-- The text that has not been scanned. -/
  rest : List Char
  /-- The place where that text begins. -/
  place : Position
  /-- The token that was looked at and not taken. -/
  peeked : Option Token
  /-- Whether the iteration has delivered the end of input. -/
  ended : Bool
deriving DecidableEq, Repr

namespace Lexer

/-- A lexer at the beginning of a text. -/
def ofString (source : String) : Lexer :=
  ⟨source, source.toList, .start, none, false⟩

/-- The same text, from its beginning. -/
def restart (lexer : Lexer) : Lexer :=
  ofString lexer.source

/-- Takes the next token. An illegal character is taken too, and reported. At the end of the text
this is the end of input, however often. -/
def next (lexer : Lexer) : Except ReadError Token × Lexer :=
  match lexer.peeked with
  | some token => (.ok token, { lexer with peeked := none })
  | none =>
    let (item, place, rest) := scan lexer.place lexer.rest
    (item.result, { lexer with place := place, rest := rest })

/-- Looks at the next token without taking it. An illegal character is taken, and reported. -/
def peek (lexer : Lexer) : Except ReadError Token × Lexer :=
  match lexer.peeked with
  | some token => (.ok token, lexer)
  | none =>
    match lexer.next with
    | (.ok token, lexer) => (.ok token, { lexer with peeked := some token })
    | (.error error, lexer) => (.error error, lexer)

/-- Takes the next token and requires its kind. A token of another kind is taken as well. -/
def expect (kind : Kind) (lexer : Lexer) : Except ReadError Token × Lexer :=
  let (result, lexer) := lexer.next
  (result.bind (Token.require kind), lexer)

/-- The next element of the iteration: a token or a failure, and nothing once the iteration has
delivered the end of input. -/
def advance (lexer : Lexer) : Option (Except ReadError Token) × Lexer :=
  if lexer.ended then (none, lexer)
  else match lexer.next with
    | (.ok token, lexer) => (some (.ok token), { lexer with ended := token.kind = .endOfInput })
    | (.error error, lexer) => (some (.error error), lexer)

end Lexer

end Reckoner
