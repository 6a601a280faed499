import Reckoner.Proofs.Lexing
import Reckoner.Proofs.Recognition

/-!
# Reading back the text of a program

The text of a program is read as this program again, up to the places of its variables and
operations. The text of an operation stands in parentheses, so it is a factor wherever it occurs,
and it opens no more parentheses at a time than the operation has levels.
-/

namespace Reckoner

/-! ## Trees up to places -/

/-- The expression with its places mapped. -/
def Expr.relocate (f : Position → Position) : Expr → Expr
  | literal value => literal value
  | reference name position => reference name (f position)
  | operation operator left right position =>
    operation operator (left.relocate f) (right.relocate f) (f position)

/-- The statement with its places mapped. -/
def Statement.relocate (f : Position → Position) : Statement → Statement
  | assign name value => assign name (value.relocate f)
  | print value => print (value.relocate f)

/-- The program with its places mapped. -/
def Program.relocate (f : Position → Position) (program : Program) : Program :=
  ⟨program.statements.map (Statement.relocate f)⟩

/-- The program with one and the same place everywhere. Programs that agree here differ in places
only. -/
def Program.withoutPlaces (program : Program) : Program :=
  program.relocate fun _ => .start

@[simp] theorem Expr.text_relocate (f : Position → Position) (e : Expr) :
    (e.relocate f).text = e.text := by
  induction e with
  | literal value => rfl
  | reference name position => rfl
  | operation operator left right position ihl ihr => simp only [relocate, text, ihl, ihr]

@[simp] theorem Expr.depth_relocate (f : Position → Position) (e : Expr) :
    (e.relocate f).depth = e.depth := by
  induction e with
  | literal value => rfl
  | reference name position => rfl
  | operation operator left right position ihl ihr => simp only [relocate, depth, ihl, ihr]

@[simp] theorem Statement.text_relocate (f : Position → Position) (statement : Statement) :
    (statement.relocate f).text = statement.text := by
  cases statement <;> simp [relocate, text]

@[simp] theorem Program.text_relocate (f : Position → Position) (program : Program) :
    (program.relocate f).text = program.text := by
  simp [relocate, text, Function.comp_def]

/-! ## Trees with a readable text -/

/-- Whether a name is one that a source text can give to a variable. -/
def IsIdentifier (name : String) : Prop :=
  isName name.toList ∧ name ≠ "let" ∧ name ≠ "print"
deriving Decidable

theorem IsIdentifier.wordKind_eq {name : String} (h : IsIdentifier name) :
    Lexeme.wordKind name.toList = .identifier := by
  have hlet : name.toList ≠ ['l', 'e', 't'] := fun heq => h.2.1 (String.toList_inj.mp heq)
  have hprint : name.toList ≠ ['p', 'r', 'i', 'n', 't'] := fun heq =>
    h.2.2 (String.toList_inj.mp heq)
  rw [Lexeme.wordKind, if_neg hlet, if_neg hprint]

/-- Whether the variables of an expression are identifiers and its numbers natural integers. -/
def Expr.IsReadable : Expr → Prop
  | literal (.int n) => 0 ≤ n
  | literal (.float _) => False
  | reference name _ => IsIdentifier name
  | operation _ left right _ => left.IsReadable ∧ right.IsReadable

/-- Whether the variables of a statement, its target among them, are identifiers and its numbers
natural integers. -/
def Statement.IsReadable (statement : Statement) : Prop :=
  (∀ name ∈ statement.target?, IsIdentifier name) ∧ statement.value.IsReadable

instance Expr.decidableIsReadable : DecidablePred Expr.IsReadable
  | literal (.int n) => inferInstanceAs (Decidable (0 ≤ n))
  | literal (.float _) => .isFalse id
  | reference name _ => inferInstanceAs (Decidable (IsIdentifier name))
  | operation _ left right _ =>
    have := decidableIsReadable left
    have := decidableIsReadable right
    inferInstanceAs (Decidable (left.IsReadable ∧ right.IsReadable))

instance : DecidablePred Statement.IsReadable := fun statement =>
  inferInstanceAs (Decidable ((∀ name ∈ statement.target?, IsIdentifier name) ∧
    statement.value.IsReadable))

/-- Whether the text of a number is read as this number wherever it stands apart from what
follows. -/
def Number.IsLegible (n : Number) : Prop :=
  ∀ (p : Position) (rest : List Char), Separated rest →
    TokenStream.ofChars p (n.text.toList ++ rest) =
      (TokenStream.ofChars (p.after n.text.toList) rest).prepend [⟨.number n, n.text, p⟩]

/-- Whether the variables of an expression are identifiers and its numbers can be read back. -/
def Expr.IsLegible : Expr → Prop
  | literal n => n.IsLegible
  | reference name _ => IsIdentifier name
  | operation _ left right _ => left.IsLegible ∧ right.IsLegible

/-- Whether the variables of a statement, its target among them, are identifiers and its numbers can
be read back. -/
def Statement.IsLegible (statement : Statement) : Prop :=
  (∀ name ∈ statement.target?, IsIdentifier name) ∧ statement.value.IsLegible

theorem Number.isLegible_int {n : Int} (h : 0 ≤ n) : (int n).IsLegible := by
  intro p rest hrest
  obtain ⟨k, rfl⟩ := Int.eq_ofNat_of_zero_le h
  have htext : (int k).text.toList = Nat.toDigits 10 k := Nat.toList_repr
  have hdigits : ∀ c ∈ Nat.toDigits 10 k, c.isDigit := fun c hc =>
    Nat.isDigit_of_mem_toDigits (by decide) (by decide) hc
  have hvalue : Lexeme.decimalValue (Nat.toDigits 10 k) = k := Nat.ofDigitChars_ten_toDigits
  have hliteral : String.ofList (Nat.toDigits 10 k) = (int k).text := by
    rw [← htext, String.ofList_toList]
  rw [htext, TokenStream.ofChars_digits Nat.toDigits_ne_nil hdigits hrest, hvalue, hliteral]

/-- An expression of identifiers and natural integers is legible. -/
theorem Expr.IsReadable.isLegible {e : Expr} (h : e.IsReadable) : e.IsLegible := by
  induction e with
  | literal n =>
      cases n with
      | int n => exact Number.isLegible_int h
      | float x => exact h.elim
  | reference name position => exact h
  | operation op a b position iha ihb => exact ⟨iha h.1, ihb h.2⟩

/-! ## Reading the text of an expression -/

/-- An operation of two factors in parentheses is a factor. -/
theorem DerivesWithin.enclosed {levels : Nat} {l t r : Token} {u v : List Token} {op : Operator}
    {a b : Expr} (hl : l.kind = .leftParen) (hu : DerivesWithin levels .factor u a)
    (ht : t.kind = op.sign) (hv : DerivesWithin levels .factor v b) (hr : r.kind = .rightParen)
    (hd : 1 + max a.depth b.depth ≤ maxDepth) :
    DerivesWithin (levels + 1) .factor (l :: (u ++ t :: v) ++ [r])
      (.operation op a b t.position) := by
  have hoperation := operation rfl (hu.ofFactor_any op.category) ht
    (hv.ofFactor_any op.category.tighter) hd
  exact parentheses hl hoperation.toSum hr

namespace Expr

/-- Whether an expression that is written at `p` has the given tokens, and these derive it within
the limits, at most with other places. -/
structure ReadsAs (e : Expr) (p : Position) (tokens : List Token) (found : Expr) : Prop where
  lexes : ∀ {rest}, Separated rest → TokenStream.ofChars p (e.text.toList ++ rest) =
    (TokenStream.ofChars (p.after e.text.toList) rest).prepend tokens
  derives : ∀ levels, e.depth ≤ levels + 1 → DerivesWithin levels .factor tokens found
  same : (found.relocate fun _ => .start) = e.relocate fun _ => .start

theorem ReadsAs.depth_eq {e found : Expr} {p : Position} {tokens : List Token}
    (h : e.ReadsAs p tokens found) : found.depth = e.depth := by
  rw [← depth_relocate _ found, h.same, depth_relocate]

theorem ReadsAs.toSum {e found : Expr} {p : Position} {tokens : List Token}
    (h : e.ReadsAs p tokens found) (hd : e.depth ≤ maxDepth) :
    DerivesWithin maxDepth .sum tokens found :=
  (h.derives maxDepth (Nat.le_succ_of_le hd)).toSum

/-- A legible number is read as itself. -/
theorem readsAs_literal {n : Number} (h : n.IsLegible) (p : Position) :
    (literal n).ReadsAs p [⟨.number n, n.text, p⟩] (literal n) where
  lexes := h p _
  derives _ _ := .leaf (.number rfl) rfl
  same := rfl

/-- A name is read as a reference. -/
theorem readsAs_reference {name : String} (h : IsIdentifier name) (position p : Position) :
    (reference name position).ReadsAs p [⟨.identifier, name, p⟩] (reference name p) where
  lexes {rest} hrest := by
    rw [text, TokenStream.ofChars_name h.1 hrest, h.wordKind_eq, String.ofList_toList]
  derives levels _ := .leaf (@Derives.identifier ⟨.identifier, name, p⟩ rfl) rfl
  same := rfl

/-- The text of an operation puts a parenthesis around both operands and the sign between them. -/
theorem toList_text_operation (op : Operator) (a b : Expr) (position : Position) :
    (operation op a b position).text.toList =
      '(' :: (a.text.toList ++ ' ' :: (op.symbol.toList ++ ' ' :: (b.text.toList ++ [')']))) := by
  change ("(" ++ a.text ++ " " ++ op.symbol ++ " " ++ b.text ++ ")").toList = _
  simp [String.toList_append]

/-- An operation has the tokens of its operands, its sign between them, in parentheses. It has two
levels at least, so that one parenthesis may be opened. -/
theorem exists_readsAs_operation {a b : Expr} (op : Operator) (position p : Position)
    (ha : ∀ q, ∃ u found, a.ReadsAs q u found) (hb : ∀ q, ∃ v found, b.ReadsAs q v found)
    (hd : 1 + max a.depth b.depth ≤ maxDepth) :
    ∃ tokens found, (operation op a b position).ReadsAs p tokens found := by
  obtain ⟨c, hsymbol, hc⟩ := op.exists_toList_symbol
  let signPlace := ((p.advance '(').after a.text.toList).advance ' '
  let rightPlace := (signPlace.advance c).advance ' '
  obtain ⟨u, left, hu⟩ := ha (p.advance '(')
  obtain ⟨v, right, hv⟩ := hb rightPlace
  let l : Token := ⟨.leftParen, "(", p⟩
  let t : Token := ⟨op.sign, String.ofList [c], signPlace⟩
  let r : Token := ⟨.rightParen, ")", rightPlace.after b.text.toList⟩
  refine ⟨l :: (u ++ t :: v) ++ [r], operation op left right signPlace, ?_, ?_, ?_⟩
  · intro rest hrest
    have hblank (text : List Char) : Separated (' ' :: text) := separated_cons (by decide) text
    have hright : Separated (')' :: rest) := separated_cons (by decide) rest
    simp only [toList_text_operation, hsymbol, List.cons_append, List.append_assoc,
      List.nil_append]
    rw [TokenStream.ofChars_delimiter rfl (by simp), hu.lexes (hblank _),
      TokenStream.ofChars_blank rfl, TokenStream.ofChars_delimiter hc (by simp),
      TokenStream.ofChars_blank rfl, hv.lexes hright, TokenStream.ofChars_delimiter rfl (by simp)]
    simp only [← TokenStream.prepend_append, Position.after_cons, Position.after_append,
      Position.after_nil]
    rfl
  · intro levels hlevels
    obtain ⟨k, rfl⟩ : ∃ k, levels = k + 1 := by
      have hpos := a.depth_pos
      simp only [depth] at hlevels
      exact ⟨levels - 1, by omega⟩
    simp only [depth] at hlevels
    have hleft := hu.derives k (by omega)
    have hright := hv.derives k (by omega)
    have hdepth : 1 + max left.depth right.depth ≤ maxDepth := by rwa [hu.depth_eq, hv.depth_eq]
    exact .enclosed rfl hleft rfl hright rfl hdepth
  · simp only [relocate, hu.same, hv.same]

/-- A legible expression can be read back at any place. -/
theorem exists_readsAs {e : Expr} (h : e.IsLegible) (hd : e.depth ≤ maxDepth) (p : Position) :
    ∃ tokens found, e.ReadsAs p tokens found := by
  induction e generalizing p with
  | literal n => exact ⟨_, _, readsAs_literal h p⟩
  | reference name position => exact ⟨_, _, readsAs_reference h position p⟩
  | operation op a b position iha ihb =>
      have hdepth := hd
      simp only [depth] at hdepth
      exact exists_readsAs_operation op position p (iha h.1 (by omega)) (ihb h.2 (by omega)) hd

end Expr

/-! ## Reading the text of a program -/

namespace Statement

/-- Whether a statement that is written at `p` has the given tokens, and these derive it within the
limits, at most with other places. -/
structure ReadsAs (statement : Statement) (p : Position) (tokens : List Token)
    (found : Statement) : Prop where
  lexes : ∀ rest, TokenStream.ofChars p (statement.text.toList ++ rest) =
    (TokenStream.ofChars (p.after statement.text.toList) rest).prepend tokens
  derives : DerivesStatementWithin tokens found
  same : (found.relocate fun _ => .start) = statement.relocate fun _ => .start

theorem toList_text_assign (name : String) (e : Expr) :
    (assign name e).text.toList =
      "let".toList ++ ' ' :: (name.toList ++ ' ' :: '=' :: ' ' :: (e.text.toList ++ [';'])) := by
  change ("let " ++ name ++ " = " ++ e.text ++ ";").toList = _
  simp [String.toList_append]

theorem toList_text_print (e : Expr) :
    (print e).text.toList =
      "print".toList ++ '(' :: (e.text.toList ++ [')', ';']) := by
  change ("print(" ++ e.text ++ ");").toList = _
  simp [String.toList_append]

/-- An assignment is read back if its expression is. -/
theorem exists_readsAs_assign {name : String} {e : Expr} (hname : IsIdentifier name)
    (he : ∀ q, ∃ u found, e.ReadsAs q u found) (hd : e.depth ≤ maxDepth) (p : Position) :
    ∃ tokens found, (assign name e).ReadsAs p tokens found := by
  have hlet : isName "let".toList := by decide
  let namePlace := (p.after "let".toList).advance ' '
  let signPlace := (namePlace.after name.toList).advance ' '
  let valuePlace := (signPlace.advance '=').advance ' '
  obtain ⟨u, found, hu⟩ := he valuePlace
  let l : Token := ⟨.letKeyword, "let", p⟩
  let n : Token := ⟨.identifier, name, namePlace⟩
  let a : Token := ⟨.assign, "=", signPlace⟩
  let s : Token := ⟨.semicolon, ";", valuePlace.after e.text.toList⟩
  refine ⟨l :: n :: a :: u ++ [s], assign name found, ?_, ?_, ?_⟩
  · intro rest
    have hblank (text : List Char) : Separated (' ' :: text) := separated_cons (by decide) text
    have hend : Separated (';' :: rest) := separated_cons (by decide) rest
    rw [toList_text_assign, List.append_assoc, List.cons_append,
      TokenStream.ofChars_name hlet (hblank _), TokenStream.ofChars_blank rfl]
    simp only [List.cons_append, List.append_assoc, List.nil_append]
    rw [TokenStream.ofChars_name hname.1 (hblank _), TokenStream.ofChars_blank rfl,
      TokenStream.ofChars_delimiter rfl (by simp), TokenStream.ofChars_blank rfl,
      hu.lexes hend, TokenStream.ofChars_delimiter rfl (by simp), hname.wordKind_eq,
      String.ofList_toList, String.ofList_toList]
    simp only [← TokenStream.prepend_append, Position.after_cons, Position.after_append,
      Position.after_nil]
    rfl
  · exact .assignment rfl rfl rfl (hu.toSum hd) rfl
  · exact congrArg (assign name) hu.same

/-- A printing statement is read back if its expression is. -/
theorem exists_readsAs_print {e : Expr} (he : ∀ q, ∃ u found, e.ReadsAs q u found)
    (hd : e.depth ≤ maxDepth) (p : Position) :
    ∃ tokens found, (print e).ReadsAs p tokens found := by
  have hprint : isName "print".toList := by decide
  let leftPlace := p.after "print".toList
  let rightPlace := (leftPlace.advance '(').after e.text.toList
  obtain ⟨u, found, hu⟩ := he (leftPlace.advance '(')
  let k : Token := ⟨.printKeyword, "print", p⟩
  let l : Token := ⟨.leftParen, "(", leftPlace⟩
  let r : Token := ⟨.rightParen, ")", rightPlace⟩
  let s : Token := ⟨.semicolon, ";", rightPlace.advance ')'⟩
  refine ⟨k :: l :: u ++ [r, s], print found, ?_, ?_, ?_⟩
  · intro rest
    have hleft (text : List Char) : Separated ('(' :: text) := separated_cons (by decide) text
    have hright : Separated (')' :: ';' :: rest) := separated_cons (by decide) _
    rw [toList_text_print, List.append_assoc, List.cons_append,
      TokenStream.ofChars_name hprint (hleft _), TokenStream.ofChars_delimiter rfl (by simp)]
    simp only [List.cons_append, List.append_assoc, List.nil_append]
    rw [hu.lexes hright, TokenStream.ofChars_delimiter rfl (by simp),
      TokenStream.ofChars_delimiter rfl (by simp)]
    simp only [← TokenStream.prepend_append, Position.after_cons, Position.after_append,
      Position.after_nil]
    rfl
  · exact .printing rfl rfl (hu.toSum hd) rfl rfl
  · exact congrArg print hu.same

/-- A legible statement can be read back at any place. -/
theorem exists_readsAs {statement : Statement} (h : statement.IsLegible)
    (hd : statement.value.depth ≤ maxDepth) (p : Position) :
    ∃ tokens found, statement.ReadsAs p tokens found := by
  cases statement with
  | assign name e =>
      exact exists_readsAs_assign (h.1 name rfl) (Expr.exists_readsAs h.2 hd) hd p
  | print e => exact exists_readsAs_print (Expr.exists_readsAs h.2 hd) hd p

end Statement

/-- The lines of legible statements are read as these statements, up to places. -/
theorem statements_ofChars_text_of_isLegible {statements : List Statement}
    (h : ∀ statement ∈ statements, statement.IsLegible)
    (hd : ∀ statement ∈ statements, statement.value.depth ≤ maxDepth) (p : Position) :
    ∃ found, Reading.statements (.ofChars p (Program.text ⟨statements⟩).toList) = (found, none) ∧
      found.map (Statement.relocate fun _ => .start) =
        statements.map (Statement.relocate fun _ => .start) := by
  induction statements generalizing p with
  | nil =>
      have hitems : TokenStream.ofChars p [] = ⟨[], p⟩ := @TokenStream.ofChars_of_nil p [] [] rfl
      refine ⟨[], ?_, rfl⟩
      exact (congrArg Reading.statements hitems).trans (Reading.statements_of_atEnd rfl)
  | cons statement rest ih =>
      obtain ⟨hfirst, hrest⟩ := List.forall_mem_cons.mp h
      obtain ⟨hdfirst, hdrest⟩ := List.forall_mem_cons.mp hd
      obtain ⟨u, first, hu⟩ := Statement.exists_readsAs hfirst hdfirst p
      let next := (p.after statement.text.toList).advance '\n'
      obtain ⟨found, hfound, hsame⟩ := ih hrest hdrest next
      have htext : (Program.text ⟨statement :: rest⟩).toList =
          statement.text.toList ++ '\n' :: (Program.text ⟨rest⟩).toList := by
        simp [Program.text, String.toList_join]
      have hread := Reading.statement_on_prepend hu.derives.derives hu.derives.depth_le
        hu.derives.nests (.ofChars next (Program.text ⟨rest⟩).toList)
      refine ⟨first :: found, ?_, ?_⟩
      · rw [htext, hu.lexes, TokenStream.ofChars_blank rfl, Reading.statements_of_ok hread, hfound]
      · rw [List.map_cons, List.map_cons, hu.same, hsame]

theorem statements_ofChars_text {statements : List Statement}
    (h : ∀ statement ∈ statements, statement.IsReadable)
    (hd : ∀ statement ∈ statements, statement.value.depth ≤ maxDepth) (p : Position) :
    ∃ found, Reading.statements (.ofChars p (Program.text ⟨statements⟩).toList) = (found, none) ∧
      found.map (Statement.relocate fun _ => .start) =
        statements.map (Statement.relocate fun _ => .start) :=
  statements_ofChars_text_of_isLegible
    (fun statement hs => ⟨(h statement hs).1, (h statement hs).2.isLegible⟩) hd p

/-- The text of a program with readable statements is read as this program again, up to places, and
what is read has the same text. -/
theorem parse_text (program : Program)
    (h : ∀ statement ∈ program.statements, statement.IsReadable)
    (hd : ∀ statement ∈ program.statements, statement.value.depth ≤ maxDepth) :
    ∃ found, Program.parse program.text = .ok found ∧
      found.withoutPlaces = program.withoutPlaces ∧ found.text = program.text := by
  obtain ⟨found, hfound, hsame⟩ := statements_ofChars_text h hd .start
  have hprogram : (⟨found⟩ : Program).withoutPlaces = program.withoutPlaces :=
    congrArg Program.mk hsame
  refine ⟨⟨found⟩, ?_, hprogram, ?_⟩
  · rw [Program.parse, Reading.program, TokenStream.ofString, hfound]
  · calc (⟨found⟩ : Program).text
        = (⟨found⟩ : Program).withoutPlaces.text := (Program.text_relocate _ _).symm
      _ = program.withoutPlaces.text := congrArg Program.text hprogram
      _ = program.text := Program.text_relocate _ program

/-- The program `let x = (7 - (2 * 3)); print((x / 10));` is read back from its text. -/
theorem parse_text_two_statements :
    let program : Program :=
      ⟨[.assign "x" (.operation .minus (.literal (.int 7))
          (.operation .times (.literal (.int 2)) (.literal (.int 3)) .start) .start),
        .print (.operation .divide (.reference "x" .start) (.literal (.int 10)) .start)]⟩
    ∃ found, Program.parse program.text = .ok found ∧
      found.withoutPlaces = program.withoutPlaces ∧ found.text = program.text :=
  parse_text _ (by decide) (by decide)

end Reckoner
