import Reckoner.CommandLine
import Reckoner.Proofs.Changes
import Reckoner.Proofs.Effects
import Reckoner.Proofs.Literals
import Reckoner.Proofs.Streaming

/-!
# Lines that are displayed

What a program displays, it displays in lines. No number is written with a line feed, and no name of
a source text has one, so the texts of values, statements, steps and variables are single lines, and
the lines of an output can be told from its text.
-/

namespace Reckoner

/-- Whether a text has no line feed. -/
def IsLine (text : String) : Prop :=
  '\n' ∉ text.toList
deriving Decidable

/-- Two texts make a line if each of them does. -/
theorem isLine_append {s t : String} : IsLine (s ++ t) ↔ IsLine s ∧ IsLine t := by
  simp [IsLine, String.toList_append]

/-! ## Lines and their text -/

theorem unlines_cons (line : String) (lines : List String) :
    unlines (line :: lines) = line ++ "\n" ++ unlines lines := by
  simp [unlines]

theorem toList_unlines_cons (line : String) (lines : List String) :
    (unlines (line :: lines)).toList = line.toList ++ '\n' :: (unlines lines).toList := by
  simp [unlines_cons, String.toList_append]

/-- Whether a text displays some lines. -/
def Displays (text : String) (lines : List String) : Prop :=
  text = unlines lines ∧ ∀ line ∈ lines, IsLine line

/-- Two texts are told apart by the first occurrence of a character that neither part before it
has. -/
theorem eq_of_append_cons_eq {c : Char} {s t u v : List Char} (hs : c ∉ s) (ht : c ∉ t)
    (h : s ++ c :: u = t ++ c :: v) : s = t ∧ u = v := by
  induction s generalizing t with
  | nil =>
      cases t with
      | nil => exact ⟨rfl, (List.cons.inj h).2⟩
      | cons d t => exact absurd ((List.cons.inj h).1 ▸ List.mem_cons_self) ht
  | cons d s ih =>
      cases t with
      | nil => exact absurd ((List.cons.inj h).1 ▸ List.mem_cons_self) hs
      | cons e t =>
          obtain ⟨hd, hrest⟩ := List.cons.inj h
          obtain ⟨rfl, rfl⟩ := ih (List.not_mem_of_not_mem_cons hs)
            (List.not_mem_of_not_mem_cons ht) hrest
          exact ⟨congrArg (· :: s) hd, rfl⟩

theorem unlines_cons_ne_nil (line : String) (lines : List String) :
    unlines (line :: lines) ≠ unlines [] := by
  intro h
  have hlist := congrArg String.toList h
  rw [toList_unlines_cons] at hlist
  exact List.append_ne_nil_of_right_ne_nil _ (List.cons_ne_nil _ _) hlist

/-- Lines can be told from their text. -/
theorem unlines_inj {first second : List String} (hfirst : ∀ line ∈ first, IsLine line)
    (hsecond : ∀ line ∈ second, IsLine line) (h : unlines first = unlines second) :
    first = second := by
  induction first generalizing second with
  | nil =>
      cases second with
      | nil => rfl
      | cons line second => exact absurd h.symm (unlines_cons_ne_nil line second)
  | cons line first ih =>
      cases second with
      | nil => exact absurd h (unlines_cons_ne_nil line first)
      | cons other second =>
          obtain ⟨hline, hfirst⟩ := List.forall_mem_cons.mp hfirst
          obtain ⟨hother, hsecond⟩ := List.forall_mem_cons.mp hsecond
          have hlist := congrArg String.toList h
          rw [toList_unlines_cons, toList_unlines_cons] at hlist
          obtain ⟨hsame, hrest⟩ := eq_of_append_cons_eq hline hother hlist
          rw [String.toList_inj.mp hsame, ih hfirst hsecond (String.toList_inj.mp hrest)]

/-- A text that is made of lines displays these and no other ones. -/
theorem displays_unlines_iff {lines : List String} (h : ∀ line ∈ lines, IsLine line)
    (others : List String) : Displays (unlines lines) others ↔ others = lines := by
  constructor
  · rintro ⟨htext, hothers⟩
    exact (unlines_inj h hothers htext).symm
  · rintro rfl
    exact ⟨rfl, h⟩

/-! ## Numbers -/

theorem notMem_of_isDigit {digits : List Char} (h : ∀ c ∈ digits, c.isDigit) : '\n' ∉ digits :=
  fun hmem => absurd (h _ hmem) (by decide)

theorem isLine_repr (n : Nat) : IsLine n.repr := by
  rw [IsLine, Nat.toList_repr]
  exact notMem_of_isDigit (Decimal.isDigit_digitChars n)

/-- The digits of a decimal make no second line. -/
theorem Decimal.isLine_chars (d : Decimal) : '\n' ∉ d.chars := by
  rw [chars]
  split
  · obtain ⟨whole, fraction, hwritten⟩ := d.exists_writtenAs
    rw [hwritten.positional_eq]
    simp [notMem_of_isDigit hwritten.isDigit_whole, notMem_of_isDigit hwritten.isDigit_fraction]
  · intro hmem
    have hgap := beginsNoGap_of_mem_scientific (isDigit_digitChars d.digits) _ _ hmem
    exact absurd hgap (by decide)

/-- The text of a number is a line. -/
theorem Number.isLine_text (n : Number) : IsLine n.text := by
  cases n with
  | int n =>
      cases n with
      | ofNat n => exact isLine_repr n
      | negSucc n => exact isLine_append.mpr ⟨by decide, isLine_repr (n + 1)⟩
  | float x =>
      rw [IsLine, text, Binary64.text, String.toList_ofList]
      cases x with
      | nan => decide
      | infinity negative => cases negative <;> decide
      | finite negative units hunits =>
          have hchars := (Binary64.shortest units).isLine_chars
          cases negative with
          | false => exact hchars
          | true => exact List.not_mem_cons_of_ne_of_not_mem (by decide) hchars

/-! ## Statements and steps -/

/-- Whether the variables of an expression are named by lines. -/
def Expr.HasLineNames (e : Expr) : Prop :=
  ∀ name position, .reference name position ∈ e.postorder → IsLine name

/-- Whether the variables of a statement, its target among them, are named by lines. -/
def Statement.HasLineNames (statement : Statement) : Prop :=
  (∀ name ∈ statement.target?, IsLine name) ∧ statement.value.HasLineNames

theorem Operator.isLine_symbol (op : Operator) : IsLine op.symbol := by
  cases op <;> decide

theorem Expr.isLine_text {e : Expr} (h : e.HasLineNames) : IsLine e.text := by
  induction e with
  | literal n => exact n.isLine_text
  | reference name position => exact h name position List.mem_cons_self
  | operation op a b position iha ihb =>
      have ha : IsLine a.text := iha fun name place hmem =>
        h name place (by simp [postorder, hmem])
      have hb : IsLine b.text := ihb fun name place hmem =>
        h name place (by simp [postorder, hmem])
      have hop := op.isLine_symbol
      rw [IsLine] at ha hb hop ⊢
      simp [toList_text_operation, ha, hb, hop]

theorem Statement.isLine_form (statement : Statement) : IsLine statement.form := by
  cases statement with
  | assign => exact (by decide : IsLine "Assign")
  | print => exact (by decide : IsLine "Print")

/-- The text of a statement whose names are lines is a line. -/
theorem Statement.isLine_text {statement : Statement} (h : statement.HasLineNames) :
    IsLine statement.text := by
  cases statement with
  | assign name e =>
      have hname : IsLine name := h.1 name rfl
      have he : IsLine e.text := Expr.isLine_text h.2
      change IsLine ("let " ++ name ++ " = " ++ e.text ++ ";")
      simp +decide [isLine_append, hname, he]
  | print e =>
      have he : IsLine e.text := Expr.isLine_text h.2
      change IsLine ("print(" ++ e.text ++ ");")
      simp +decide [isLine_append, he]

theorem Statement.isLine_description {statement : Statement} (h : statement.HasLineNames) :
    IsLine statement.description := by
  cases statement with
  | assign name e =>
      have hname : IsLine name := h.1 name rfl
      have he : IsLine e.text := Expr.isLine_text h.2
      change IsLine ("Assign '" ++ name ++ "' = " ++ e.text)
      simp +decide [isLine_append, hname, he]
  | print e =>
      have he : IsLine e.text := Expr.isLine_text h.2
      change IsLine ("Print " ++ e.text)
      simp +decide [isLine_append, he]

theorem Change.isLine_text {change : Change} (h : IsLine change.name) : IsLine change.text := by
  cases change with
  | added x value =>
      have hx : IsLine x := h
      change IsLine (x ++ " = " ++ value.text ++ " (new)")
      simp +decide [isLine_append, hx, value.isLine_text]
  | updated x old new =>
      have hx : IsLine x := h
      change IsLine (x ++ ": " ++ old.text ++ " → " ++ new.text)
      simp +decide [isLine_append, hx, old.isLine_text, new.isLine_text]

namespace Step

/-- The line that announces a step. -/
def header (step : Step) : String :=
  s!"[{step.index + 1}] {step.action}: {step.description}"

/-- The lines that show the changes of a step. -/
def changeLines (step : Step) : List String :=
  step.changes.map fun change => s!"    {change.text}"

theorem lines_eq (step : Step) : step.lines =
    step.header :: (step.printed.toList.map fun line => s!"    output: {line}") ++
      step.changeLines := rfl

theorem isLine_header {step : Step} (h : step.statement.HasLineNames) : IsLine step.header := by
  have hdescription := Statement.isLine_description h
  change IsLine ("[" ++ (step.index + 1).repr ++ "] " ++ ("Execute " ++ step.statement.form) ++
    ": " ++ step.statement.description)
  simp +decide [isLine_append, isLine_repr, step.statement.isLine_form, hdescription]

/-- A step is shown in lines if its variables are named by lines. -/
theorem isLine_of_mem_lines {step : Step} (hstatement : step.statement.HasLineNames)
    (hprinted : ∀ line ∈ step.printed, IsLine line)
    (hchanges : ∀ change ∈ step.changes, IsLine change.name) :
    ∀ line ∈ step.lines, IsLine line := by
  have hindent {text : String} (h : IsLine text) : IsLine ("    " ++ text) :=
    isLine_append.mpr ⟨by decide, h⟩
  have houtput {text : String} (h : IsLine text) : IsLine ("    output: " ++ text) :=
    isLine_append.mpr ⟨by decide, h⟩
  rw [lines_eq]
  intro line hline
  rcases List.mem_append.mp hline with hline | hline
  · rcases List.mem_cons.mp hline with rfl | hline
    · exact isLine_header hstatement
    · obtain ⟨text, htext, rfl⟩ := List.mem_map.mp hline
      exact houtput (hprinted text (Option.mem_toList.mp htext))
  · obtain ⟨change, hchange, rfl⟩ := List.mem_map.mp hline
    exact hindent (Change.isLine_text (hchanges change hchange))

end Step

/-! ## States -/

/-- Whether the variables of a state are named by lines and what it printed are lines. -/
structure Interpreter.HasLines (state : Interpreter) : Prop where
  names : ∀ name ∈ state.store.names, IsLine name
  output : ∀ line ∈ state.output, IsLine line

namespace Interpreter

variable {state next : Interpreter} {statement : Statement}

theorem hasLines_fresh : fresh.HasLines :=
  ⟨by simp [fresh, Store.empty, Store.names], by simp [fresh]⟩

/-- Executing a statement whose names are lines prints a line and keeps names that are lines. -/
theorem HasLines.execute (h : state.HasLines) (hs : statement.HasLineNames)
    (hexecute : state.execute statement = .ok next) : next.HasLines := by
  obtain ⟨name, e, value, rfl, -, rfl⟩ | ⟨e, value, rfl, -, rfl⟩ := execute_cases hexecute
  · refine ⟨?_, h.output⟩
    intro other hother
    rw [Store.names_define] at hother
    split at hother
    · exact h.names other hother
    · rcases List.mem_append.mp hother with hother | hother
      · exact h.names other hother
      · rw [List.mem_singleton.mp hother]
        exact hs.1 name rfl
  · refine ⟨h.names, ?_⟩
    intro line hline
    rcases List.mem_append.mp hline with hline | hline
    · exact h.output line hline
    · rw [List.mem_singleton.mp hline]
      exact value.isLine_text

/-- The record of a statement is shown in lines. -/
theorem isLine_of_mem_record (h : next.HasLines) (hs : statement.HasLineNames) (index : Nat) :
    ∀ line ∈ (state.record index statement next).lines, IsLine line := by
  apply Step.isLine_of_mem_lines hs
  · intro line hline
    exact h.output line (List.mem_of_getElem? hline)
  · intro change hchange
    have hname := List.mem_map_of_mem (f := Change.name) hchange
    exact h.names _ ((Store.changes_names_sublist _ _).subset hname)

/-- A trace is shown in lines, and so is what is printed. -/
theorem HasLines.trace (h : state.HasLines) {statements : List Statement}
    (hs : ∀ statement ∈ statements, statement.HasLineNames) (index : Nat) :
    (∀ line ∈ (state.traceFrom index statements).1.steps.flatMap Step.lines, IsLine line) ∧
      (state.executeAll statements).2.HasLines := by
  induction statements generalizing state index with
  | nil => exact ⟨by simp [traceFrom], h⟩
  | cons statement rest ih =>
      obtain ⟨hfirst, hrest⟩ := List.forall_mem_cons.mp hs
      cases hexecute : state.execute statement with
      | error error =>
          rw [traceFrom_of_error hexecute, executeAll_of_error hexecute]
          exact ⟨by simp, h⟩
      | ok next =>
          have hnext := h.execute hfirst hexecute
          obtain ⟨hlines, hfinal⟩ := ih hnext hrest (index + 1)
          rw [traceFrom_of_ok hexecute, executeAll_of_ok hexecute, List.flatMap_cons]
          exact ⟨List.forall_mem_append.mpr ⟨isLine_of_mem_record hnext hfirst index, hlines⟩,
            hfinal⟩

end Interpreter

/-! ## Names of a source text -/

/-- A name of the language is a line. -/
theorem isLine_of_isIdentifier {name : String} (h : IsIdentifier name) : IsLine name := by
  intro hmem
  exact absurd (isNameChar_of_isName h.1 _ hmem) (by decide)

section

variable {source : String}

/-- The names of an expression that tokens of a text derive are lines. -/
theorem Derives.hasLineNames {c : Category} {u : List Token} {e : Expr} (h : Derives c u e)
    (hu : ∀ t ∈ u, .token t ∈ (TokenStream.ofString source).sequence) : e.HasLineNames := by
  induction h with
  | number => intro name position hmem; simp [Expr.postorder] at hmem
  | @identifier t ht =>
      intro name position hmem
      simp only [Expr.postorder, List.mem_singleton, Expr.Node.reference.injEq] at hmem
      have hitem := TokenStream.mem_items_of_kind_ne (hu _ List.mem_cons_self) (by simp [ht])
      rw [hmem.1]
      exact isLine_of_isIdentifier (TokenStream.isIdentifier_of_mem hitem ht)
  | parentheses _ _ _ ih => exact ih fun t ht => hu t (by simp [ht])
  | ofFactor _ ih => exact ih hu
  | ofProduct _ ih => exact ih hu
  | operation _ _ _ _ iha ihb =>
      intro name position hmem
      simp only [Expr.postorder, List.mem_append, List.mem_singleton, reduceCtorEq, or_false]
        at hmem
      rcases hmem with hmem | hmem
      · exact iha (fun t ht => hu t (by simp [ht])) name position hmem
      · exact ihb (fun t ht => hu t (by simp [ht])) name position hmem

theorem DerivesStatement.hasLineNames {u : List Token} {statement : Statement}
    (h : DerivesStatement u statement)
    (hu : ∀ t ∈ u, .token t ∈ (TokenStream.ofString source).sequence) :
    statement.HasLineNames := by
  cases h with
  | @assignment l name a s v e _ hname _ he _ =>
      refine ⟨?_, he.hasLineNames fun t ht => hu t (by simp [ht])⟩
      rintro _ ⟨⟩
      have hitem := TokenStream.mem_items_of_kind_ne (hu name (by simp)) (by simp [hname])
      exact isLine_of_isIdentifier (TokenStream.isIdentifier_of_mem hitem hname)
  | printing _ _ he _ _ =>
      refine ⟨?_, he.hasLineNames fun t ht => hu t (by simp [ht])⟩
      rintro _ ⟨⟩

/-- The names of the statements of a text are lines. -/
theorem Reading.Passes.hasLineNames {found : List Statement} {rest : TokenStream}
    (h : Passes (.ofString source) found rest) :
    ∀ statement ∈ found, statement.HasLineNames := by
  obtain ⟨pieces, hpieces, hstream⟩ := h
  have hmem : ∀ u ∈ pieces, ∀ t ∈ u, .token t ∈ (TokenStream.ofString source).sequence := by
    intro u hu t ht
    rw [hstream, TokenStream.sequence_prepend]
    exact List.mem_append_left _ (List.mem_map_of_mem (List.mem_flatten_of_mem hu ht))
  clear hstream
  induction hpieces with
  | nil => simp
  | cons hfirst _ ih =>
      obtain ⟨hu, hrest⟩ := List.forall_mem_cons.mp hmem
      exact List.forall_mem_cons.mpr ⟨hfirst.derives.hasLineNames hu, ih hrest⟩

/-- The variables of a program are named by lines. -/
theorem Program.hasLineNames_of_parse {program : Program}
    (h : parse source = .ok program) :
    ∀ statement ∈ program.statements, statement.HasLineNames := by
  obtain ⟨rest, hpasses, -⟩ := Reading.passes_statements (.ofString source)
  rw [parse_eq_ok_iff_statements.mp h] at hpasses
  exact hpasses.hasLineNames

end

/-- Running any text keeps the names and the output lines. -/
theorem Interpreter.HasLines.runSource {state : Interpreter} (h : state.HasLines)
    (source : String) : (state.runSource source).2.HasLines := by
  cases hparse : Program.parse source with
  | error error =>
      rw [runSource_of_error hparse]
      exact h
  | ok program =>
      rw [runSource_snd_of_parse hparse]
      exact (h.trace (Program.hasLineNames_of_parse hparse) 0).2

end Reckoner
