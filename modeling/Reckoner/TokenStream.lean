import Reckoner.Failure
import Reckoner.Lexeme

/-!
# The items of a source text

A source text has a sequence of items, its tokens and its illegal characters, each at its place. A
token stream is what is left of this sequence, together with the place where the text ends. Behind
the last item a stream yields the end of input again and again.
-/

namespace Reckoner

/-- What stands at a place of a source text besides gaps. -/
inductive Item where
  | token (token : Token)
  | illegal (error : IllegalCharacter)
deriving DecidableEq, Repr

/-- The item that a lexeme is at its place. -/
def Lexeme.item (position : Position) : Lexeme → Item
  | token kind literal => .token ⟨kind, String.ofList literal, position⟩
  | illegal c => .illegal ⟨c, position⟩

/-- What is left of the items of a source text. -/
structure TokenStream where
  items : List Item
  /-- The place where the source text ends. -/
  finish : Position
deriving DecidableEq, Repr

namespace TokenStream

/-- The items of a text that begins at `p`. -/
def ofChars (p : Position) (text : List Char) : TokenStream :=
  match _ : spanGap text with
  | (gap, []) => ⟨[], p.after gap⟩
  | (gap, c :: rest) =>
    let place := p.after gap
    let lexeme := (Lexeme.read c rest).1
    let tail := ofChars (place.after lexeme.chars) (Lexeme.read c rest).2
    ⟨lexeme.item place :: tail.items, tail.finish⟩
termination_by text.length
decreasing_by exact Lexeme.length_read_snd_lt ‹_›

/-- The items of a source text. -/
def ofString (source : String) : TokenStream :=
  ofChars .start source.toList

/-- Whether no items are left. -/
def atEnd (stream : TokenStream) : Bool :=
  stream.items.isEmpty

/-- The token that ends every stream. -/
def endToken (stream : TokenStream) : Token :=
  ⟨.endOfInput, "", stream.finish⟩

/-- The tokens before the first illegal character, and that character. Without one these are all
tokens, the last of them the end of input. -/
def listing (stream : TokenStream) : List Token × Option IllegalCharacter :=
  go stream.items
where
  /-- The listing of the remaining items. -/
  go : List Item → List Token × Option IllegalCharacter
    | [] => ([stream.endToken], none)
    | .token token :: rest => (token :: (go rest).1, (go rest).2)
    | .illegal error :: _ => ([], some error)

/-- All tokens, the last of them the end of input, of a stream without illegal characters. -/
def tokens (stream : TokenStream) : Except IllegalCharacter (List Token) :=
  match stream.listing with
  | (tokens, none) => .ok tokens
  | (_, some error) => .error error

end TokenStream

end Reckoner
