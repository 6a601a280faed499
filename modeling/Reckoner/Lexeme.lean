import Reckoner.Token

/-!
# Gaps and lexemes

A source text is a sequence of lexemes with gaps between them. A gap consists of blanks and
comments, and a comment runs from `//` to the end of its line. `spanGap` splits off the longest gap
at the beginning of a text, and `Lexeme.read` the lexeme that stands at the beginning of the rest.
-/

namespace Reckoner

/-- The characters that separate lexemes. -/
def isBlank (c : Char) : Bool :=
  c == ' ' || c == '\t' || c == '\r' || c == '\n'

/-- The characters that begin a name. -/
def isNameStart (c : Char) : Bool :=
  c.isAlpha || c == '_'

/-- The characters that continue a name. -/
def isNameChar (c : Char) : Bool :=
  c.isAlphanum || c == '_'

/-- Splits a text behind the longest gap at its beginning. The flag says whether the text begins
inside a comment. The line feed behind a comment belongs to the gap like any other blank. -/
def spanGapFrom (comment : Bool) : List Char → List Char × List Char
  | [] => ([], [])
  | c :: rest =>
    if comment then
      let (gap, rest) := spanGapFrom (c != '\n') rest
      (c :: gap, rest)
    else if isBlank c then
      let (gap, rest) := spanGapFrom false rest
      (c :: gap, rest)
    else if c == '/' && rest.head? == some '/' then
      let (gap, rest) := spanGapFrom true rest
      (c :: gap, rest)
    else ([], c :: rest)

/-- Splits a text behind the longest gap at its beginning. -/
def spanGap (text : List Char) : List Char × List Char :=
  spanGapFrom false text

/-- A text is its gap and what stands behind the gap. -/
theorem spanGapFrom_append (comment : Bool) (text : List Char) :
    (spanGapFrom comment text).1 ++ (spanGapFrom comment text).2 = text := by
  fun_induction spanGapFrom comment text <;> simp_all

/-- A gap and what follows it make up the text. -/
theorem spanGap_append (text : List Char) : (spanGap text).1 ++ (spanGap text).2 = text :=
  spanGapFrom_append false text

theorem length_spanGap_snd_le (text : List Char) : (spanGap text).2.length ≤ text.length := by
  have h := congrArg List.length (spanGap_append text)
  simp only [List.length_append] at h
  omega

/-- The text of an item of a source: a token with its kind, or a character that no token and no gap
begins with. -/
inductive Lexeme where
  | token (kind : Kind) (literal : List Char)
  | illegal (char : Char)
deriving DecidableEq, Repr

namespace Lexeme

/-- The text of a lexeme. -/
def chars : Lexeme → List Char
  | token _ literal => literal
  | illegal c => [c]

/-- The kind of the lexemes that consist of one fixed character. -/
def delimiter? (c : Char) : Option Kind :=
  match c with
  | '(' => some .leftParen
  | ')' => some .rightParen
  | '+' => some .plus
  | '-' => some .minus
  | '*' => some .star
  | '/' => some .slash
  | '=' => some .assign
  | ';' => some .semicolon
  | _ => none

/-- The kind of a name. Two names are keywords. -/
def wordKind (name : List Char) : Kind :=
  if name = ['l', 'e', 't'] then .letKeyword
  else if name = ['p', 'r', 'i', 'n', 't'] then .printKeyword
  else .identifier

/-- The number that a sequence of digits denotes. -/
def decimalValue (digits : List Char) : Nat :=
  Nat.ofDigitChars 10 digits 0

/-- The longest number at the beginning of a text. Digits alone are an exact integer. Digits, a
point and perhaps more digits are a floating-point number; a second point is left in the text. -/
def readNumber (text : List Char) : Lexeme × List Char :=
  let whole := text.takeWhile Char.isDigit
  match text.dropWhile Char.isDigit with
  | '.' :: rest =>
    let fraction := rest.takeWhile Char.isDigit
    let value := Binary64.ofDecimal (decimalValue (whole ++ fraction)) fraction.length
    (token (.number (.float value)) (whole ++ '.' :: fraction), rest.dropWhile Char.isDigit)
  | rest => (token (.number (.int (decimalValue whole))) whole, rest)

/-- The longest name at the beginning of a text. -/
def readName (text : List Char) : Lexeme × List Char :=
  let name := text.takeWhile isNameChar
  (token (wordKind name) name, text.dropWhile isNameChar)

/-- Reads the lexeme that begins with `c`, when `rest` follows `c`. -/
def read (c : Char) (rest : List Char) : Lexeme × List Char :=
  if isNameStart c then readName (c :: rest)
  else if c.isDigit then readNumber (c :: rest)
  else match delimiter? c with
    | some kind => (token kind [c], rest)
    | none => (illegal c, rest)

/-- A text is the numeral that is read from it and what stands behind the numeral. -/
theorem readNumber_append (text : List Char) :
    (readNumber text).1.chars ++ (readNumber text).2 = text := by
  simp only [readNumber]
  split
  · rename_i rest h
    simp only [chars, List.append_assoc, List.cons_append, List.takeWhile_append_dropWhile]
    rw [← h, List.takeWhile_append_dropWhile]
  · simp [chars, List.takeWhile_append_dropWhile]

theorem readName_append (text : List Char) :
    (readName text).1.chars ++ (readName text).2 = text := by
  simp [readName, chars, List.takeWhile_append_dropWhile]

/-- A lexeme and what follows it make up the text. -/
theorem read_append (c : Char) (rest : List Char) :
    (read c rest).1.chars ++ (read c rest).2 = c :: rest := by
  simp only [read]
  split
  · exact readName_append _
  · split
    · exact readNumber_append _
    · split <;> simp [chars]

theorem length_readNumber_snd_le {c : Char} (rest : List Char) (h : c.isDigit) :
    (readNumber (c :: rest)).2.length ≤ rest.length := by
  have happ := congrArg List.length (readNumber_append (c :: rest))
  have hpos : 0 < (readNumber (c :: rest)).1.chars.length := by
    simp only [readNumber, List.takeWhile_cons, h, if_true]
    split <;> simp [chars]
  simp only [List.length_append, List.length_cons] at happ
  omega

theorem isNameChar_of_isNameStart {c : Char} (h : isNameStart c) : isNameChar c := by
  simp only [isNameStart, isNameChar, Char.isAlphanum, Bool.or_eq_true] at h ⊢
  exact h.elim (fun ha => .inl (.inl ha)) .inr

theorem length_readName_snd_le {c : Char} (rest : List Char) (h : isNameStart c) :
    (readName (c :: rest)).2.length ≤ rest.length := by
  simp only [readName, List.dropWhile_cons, isNameChar_of_isNameStart h, if_true]
  exact (List.dropWhile_suffix _).length_le

/-- Reading a lexeme uses up its first character at least. -/
theorem length_read_snd_le (c : Char) (rest : List Char) :
    (read c rest).2.length ≤ rest.length := by
  simp only [read]
  split
  · exact length_readName_snd_le rest ‹_›
  · split
    · exact length_readNumber_snd_le rest ‹_›
    · split <;> simp

/-- Skipping a gap and reading a lexeme leaves a shorter text. -/
theorem length_read_snd_lt {text gap rest : List Char} {c : Char}
    (h : spanGap text = (gap, c :: rest)) : (read c rest).2.length < text.length := by
  have hgap := length_spanGap_snd_le text
  have hread := length_read_snd_le c rest
  simp only [h, List.length_cons] at hgap
  omega

end Lexeme

end Reckoner
