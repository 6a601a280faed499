import Reckoner.Proofs.Lines
import Reckoner.Proofs.OnDemand

/-!
# The commands agree

The four commands on a file read the same text. They refuse the same texts with the same summary,
and what one of them shows of a run is what the others show of it: tracing shows, step by step, the
lines that running prints, and parsing lists the statements that stand before the failure. What is
listed is what a loop over the iteration of a lexer, or of a parser on a lexer, goes through.
-/

namespace Reckoner

/-! ## Listing what an iteration yields -/

/-- Whether a loop that asks for the next element, until there is none or it is a failure, goes
through the given elements and ends with the given failure, if with any. -/
inductive Lists {σ ε α : Type} (next : σ → Option (Except ε α) × σ) : σ → List α → Option ε → Prop
  | finished {state : σ} (h : (next state).1 = none) : Lists next state [] none
  | failed {state : σ} {error : ε} (h : (next state).1 = some (.error error)) :
      Lists next state [] (some error)
  | passed {state : σ} {first : α} {found : List α} {failure : Option ε}
      (h : (next state).1 = some (.ok first)) (hrest : Lists next (next state).2 found failure) :
      Lists next state (first :: found) failure

/-- A lexer whose iteration has not ended yields the tokens that are left, the end of input behind
them, up to the first illegal character. -/
theorem Lexer.Stands.lists {lexer : Lexer} {source : String} {n : Nat}
    (h : lexer.Stands source n false) {items : List Item}
    (hitems : (TokenStream.ofString source).items.drop n = items) :
    Lists Lexer.advance lexer (TokenStream.listing.go (.ofString source) items).1
      ((TokenStream.listing.go (.ofString source) items).2.map .illegal) := by
  induction items generalizing lexer n with
  | nil =>
      have hitem : (TokenStream.ofString source).item n =
          .token (TokenStream.ofString source).endToken := by
        simp [TokenStream.item, List.drop_eq_nil_iff.mp hitems]
      obtain ⟨hresult, hnext⟩ := h.advance
      rw [hitem] at hresult hnext
      exact .passed hresult (.finished (congrArg Prod.fst hnext.advance_of_ended))
  | cons item rest ih =>
      have hitem : (TokenStream.ofString source).item n = item := by
        rw [← Nat.add_zero n, ← TokenStream.item_drop, TokenStream.item, TokenStream.drop, hitems]
        rfl
      have hrest : (TokenStream.ofString source).items.drop (n + 1) = rest := by
        rw [← List.drop_drop, hitems, List.drop_one, List.tail_cons]
      obtain ⟨hresult, hnext⟩ := h.advance
      rw [hitem] at hresult hnext
      cases item with
      | illegal error => exact .failed hresult
      | token t =>
          have hmem : Item.token t ∈ (TokenStream.ofString source).items :=
            List.mem_of_mem_drop (hitems ▸ List.mem_cons_self)
          have hgoes : Log.endsIteration (.advance, .result (Item.token t).result) = false :=
            decide_eq_false (TokenStream.kind_ne_of_mem_ofChars hmem)
          rw [hgoes] at hnext
          exact .passed hresult (ih hnext hrest)

namespace Parser

/-- A parser that has all items left yields the statements that can be read, up to the failure. -/
theorem lists_statements (stream : TokenStream) :
    Lists advance ⟨stream, false⟩ (Reading.statements stream).1 (Reading.statements stream).2 := by
  induction stream using Reading.statements.induct with
  | case1 stream hend =>
      rw [Reading.statements_of_atEnd hend]
      exact .finished (congrArg Prod.fst (HasEnded.advance_eq (.inr hend)))
  | case2 stream hend error rest hon =>
      rw [Reading.statements_of_error hend hon]
      exact .failed (congrArg Prod.fst (advance_of_statement hend hon))
  | case3 stream hend first rest hon ih =>
      have hadvance := advance_of_statement hend hon
      rw [Reading.statements_of_ok hon]
      exact .passed (congrArg Prod.fst hadvance) (by rwa [hadvance])

/-- Parsers that follow each other yield the same elements. -/
theorem Follows.lists {σ : Type} [TokenSource σ] [ExprSource σ] {R : σ → TokenStream → Prop}
    (hR : Reading.ExprsAlike R) {parser : Parser σ} {other : Parser} (h : Follows R parser other)
    {found : List Statement} {failure : Option ReadError}
    (hother : Lists Parser.advance other found failure) :
    Lists Parser.advance parser found failure := by
  induction hother generalizing parser with
  | finished hnone => exact .finished ((h.advance hR).1.trans hnone)
  | failed herror => exact .failed ((h.advance hR).1.trans herror)
  | passed hfirst _ ih =>
      exact .passed ((h.advance hR).1.trans hfirst) (ih (h.advance hR).2)

end Parser

/-! ## What is shown -/

/-- The steps of a trace are the statements that are executed. -/
theorem Interpreter.statements_traceFrom (state : Interpreter) (index : Nat)
    (statements : List Statement) :
    (state.traceFrom index statements).1.steps.map Step.statement = state.executed statements := by
  induction statements generalizing state index with
  | nil => rfl
  | cons statement rest ih =>
      cases h : state.execute statement with
      | error error => rw [traceFrom_of_error h, executed_of_error h, List.map_nil]
      | ok next =>
          rw [traceFrom_of_ok h, executed_of_ok h, List.map_cons, ih next (index + 1)]
          rfl

/-- Whether a step is shown by its header, one line with what it printed if it is one that prints,
and its changes. -/
def Step.IsShown (step : Step) : Prop :=
  match step.statement with
  | .print _ => ∃ line, step.printed = some line ∧
      step.lines = step.header :: s!"    output: {line}" :: step.changeLines
  | .assign _ _ => step.printed = none ∧ step.lines = step.header :: step.changeLines

theorem Step.isShown_of_iff {step : Step}
    (h : step.printed.isSome ↔ ∃ e, step.statement = .print e) : step.IsShown := by
  rw [IsShown]
  split
  · rename_i e hstatement
    obtain ⟨line, hline⟩ := Option.isSome_iff_exists.mp (h.mpr ⟨e, hstatement⟩)
    exact ⟨line, hline, by rw [lines_eq, hline]; rfl⟩
  · rename_i name e hstatement
    have hnone : step.printed = none := by
      rw [← Option.not_isSome_iff_eq_none, h]
      simp [hstatement]
    exact ⟨hnone, by rw [lines_eq, hnone]; rfl⟩

namespace Report

variable (lines : List String) (failure : Option Failure)

theorem output_ofLines : (ofLines lines failure).output = unlines lines := by
  cases failure <;> rfl

theorem summary_ofLines : (ofLines lines failure).summary =
    failure.map fun failure => failure.diagnostic.summary := by
  cases failure <;> rfl

/-- The exit code tells at which stage a text failed, if it did. -/
theorem exitCode_ofLines : (ofLines lines failure).exitCode =
    match failure with
    | none => 0
    | some (.read _) => 65
    | some (.run _) => 70 := by
  rcases failure with _ | (_ | error) | error
  · rfl
  · rfl
  · cases error <;> rfl
  · cases error <;> rfl

end Report

namespace Command

/-- The statements of a text that are executed in the fresh state. There are none if the text is no
program. -/
def executed (source : String) : List Statement :=
  match Program.parse source with
  | .ok program => Interpreter.fresh.executed program.statements
  | .error _ => []

/-- How what the four commands report on a text fits together. -/
structure Agree (source : String) (tokenized parsed ran traced : Report) : Prop where
  /-- Listing tokens is a loop over the iteration of a lexer. -/
  tokens_iterated : ∃ tokens failure, Lists Lexer.advance (.ofString source) tokens failure ∧
    tokenized = .ofLines (tokens.map Token.text) (failure.map .read)
  /-- Listing statements is a loop over the iteration of a parser that reads from a lexer. -/
  statements_iterated : ∃ found failure, Lists Parser.advance (.onDemand source) found failure ∧
    parsed = .ofLines (found.map Statement.text) (failure.map .read)
  /-- Running and tracing end alike. -/
  exitCode_traced : traced.exitCode = ran.exitCode
  summary_traced : traced.summary = ran.summary
  /-- The lines that running prints are those shown by the steps that print. -/
  shown : ∃ steps : List Step, steps.map Step.statement = executed source ∧
    (∀ lines, Displays ran.output lines ↔ lines = steps.filterMap Step.printed) ∧
    (∀ lines, Displays traced.output lines ↔ lines = steps.flatMap Step.lines) ∧
    ∀ step ∈ steps, step.IsShown
  /-- Parsing refuses the texts that running refuses, with the same summary, and no others. -/
  refuses_iff : parsed.exitCode = 65 ↔ ran.exitCode = 65
  summary_parsed : parsed.exitCode = 65 → parsed.summary = ran.summary
  exitCode_parsed : parsed.exitCode ≠ 65 → parsed.exitCode = 0
  /-- Parsing lists the statements before the failure. -/
  listed : ∃ found rest, Reading.Passes (.ofString source) found rest ∧
    (∀ lines, Displays parsed.output lines ↔ lines = found.map Statement.text) ∧
    match Program.parse source with
    | .ok program => program.statements = found
    | .error error => (Reading.statement.on rest).1 = .error error ∧
        parsed.summary = some (Failure.read error).diagnostic.summary
  /-- Nothing is run of a text that is refused. -/
  silent : parsed.exitCode = 65 → ran.output = "" ∧ traced.output = ""
  /-- A text with an illegal character is refused by every command. -/
  illegal : tokenized.exitCode = 65 →
    parsed.exitCode = 65 ∧ ran.exitCode = 65 ∧ traced.exitCode = 65

variable {source : String}

theorem reportOn_toUTF8 (command : Command) (source : String) :
    command.reportOn (some source.toUTF8) = command.report source := by
  have hdecode : String.fromUTF8? source.toUTF8 = some source := by
    simp only [String.fromUTF8?, String.toUTF8_eq_toByteArray, dif_pos source.isValidUTF8]
    rfl
  rw [reportOn, Option.bind_some, hdecode]

/-- The tokens that are listed are what a loop over the iteration of a lexer goes through. -/
theorem lists_tokenizeReport (source : String) :
    ∃ tokens failure, Lists Lexer.advance (.ofString source) tokens failure ∧
      tokenizeReport source = .ofLines (tokens.map Token.text) (failure.map .read) := by
  refine ⟨_, _, (Lexer.stands_ofString source).lists rfl, ?_⟩
  rw [tokenizeReport, Option.map_map]
  rfl

/-- The statements that are listed are what a loop over the iteration of a parser goes through, when
the parser reads from a lexer. -/
theorem lists_parseReport (source : String) :
    ∃ found failure, Lists Parser.advance (.onDemand source) found failure ∧
      parseReport source = .ofLines (found.map Statement.text) (failure.map .read) :=
  ⟨_, _, (Parser.follows_onDemand source).lists (Lexer.exprsAlike_hasLeft source)
    (Parser.lists_statements (.ofString source)), rfl⟩

/-- What is listed displays the statements that are found. -/
theorem displays_parseReport_iff {found : List Statement} {refusal : Option ReadError}
    (h : Reading.statements (.ofString source) = (found, refusal)) (lines : List String) :
    Displays (parseReport source).output lines ↔ lines = found.map Statement.text := by
  obtain ⟨rest, hpasses, -⟩ := Reading.passes_statements (.ofString source)
  have hnames := hpasses.hasLineNames
  rw [h] at hnames
  have hlines : ∀ line ∈ found.map Statement.text, IsLine line := by
    intro line hline
    obtain ⟨statement, hstatement, rfl⟩ := List.mem_map.mp hline
    exact Statement.isLine_text (hnames statement hstatement)
  simp only [parseReport, h, Report.output_ofLines]
  exact displays_unlines_iff hlines lines

/-- Listing the tokens of a text without illegal characters succeeds. -/
theorem exitCode_tokenizeReport {tokens : List Token}
    (h : (TokenStream.ofString source).tokens = .ok tokens) :
    (tokenizeReport source).exitCode = 0 := by
  rw [TokenStream.tokens] at h
  split at h
  · rename_i found hlisting
    simp only [tokenizeReport, hlisting, Report.exitCode_ofLines, Option.map_none]
  · cases h

/-- A text that is no program is refused by the commands that read programs. -/
theorem agree_of_error {error : ReadError} (h : Program.parse source = .error error) :
    Agree source (tokenizeReport source) (parseReport source) (runReport source)
      (traceReport source) := by
  obtain ⟨found, hfound⟩ : ∃ found,
      Reading.statements (.ofString source) = (found, some error) := by
    rw [Program.parse, Reading.program] at h
    rcases hstatements : Reading.statements (.ofString source) with ⟨found, _ | refusal⟩
    · rw [hstatements] at h
      cases h
    · rw [hstatements] at h
      cases h
      exact ⟨found, rfl⟩
  obtain ⟨rest, hpasses, hrest⟩ := Reading.passes_statements (.ofString source)
  have hlisted := displays_parseReport_iff hfound
  have hparsed : parseReport source =
      .ofLines (found.map Statement.text) (some (.read error)) := by
    simp only [parseReport, hfound, Option.map_some]
  have hran : runReport source = .ofLines [] (some (.read error)) := by
    simp only [runReport, h]
  have htraced : traceReport source = .ofLines [] (some (.read error)) := by
    simp only [traceReport, h]
  rw [hfound] at hpasses hrest
  have hcode (lines : List String) : (Report.ofLines lines (some (.read error))).exitCode = 65 :=
    Report.exitCode_ofLines lines _
  have hnone := @displays_unlines_iff [] (by simp)
  exact {
    tokens_iterated := lists_tokenizeReport source
    statements_iterated := lists_parseReport source
    exitCode_traced := by rw [hran, htraced]
    summary_traced := by rw [hran, htraced]
    shown := by
      refine ⟨[], by simp [executed, h], ?_, ?_, by simp⟩
      · rwa [hran, Report.output_ofLines]
      · rwa [htraced, Report.output_ofLines]
    refuses_iff := by rw [hparsed, hran, hcode, hcode]
    summary_parsed := fun _ => by
      rw [hparsed, hran, Report.summary_ofLines, Report.summary_ofLines]
    exitCode_parsed := fun hne => absurd (hparsed ▸ hcode _) hne
    listed := by
      refine ⟨found, rest, hpasses, hlisted, ?_⟩
      rw [h]
      exact ⟨hrest, by rw [hparsed, Report.summary_ofLines, Option.map_some]⟩
    silent := fun _ => ⟨by rw [hran, Report.output_ofLines]; rfl,
      by rw [htraced, Report.output_ofLines]; rfl⟩
    illegal := fun _ => by
      rw [hparsed, hran, htraced]
      exact ⟨hcode _, hcode _, hcode _⟩ }

/-- A text that is a program is refused by no command. -/
theorem agree_of_ok {program : Program} (h : Program.parse source = .ok program) :
    Agree source (tokenizeReport source) (parseReport source) (runReport source)
      (traceReport source) := by
  have hfound := Program.parse_eq_ok_iff_statements.mp h
  obtain ⟨rest, hpasses, hrest⟩ := Reading.passes_statements (.ofString source)
  have hlisted := displays_parseReport_iff hfound
  rw [hfound] at hpasses hrest
  have hparsed : parseReport source = .ofLines (program.statements.map Statement.text) none := by
    simp only [parseReport, hfound, Option.map_none]
  let final := (Interpreter.fresh.executeAll program.statements).2
  let failure := (Interpreter.fresh.executeAll program.statements).1.map Failure.run
  let steps := (Interpreter.fresh.traceFrom 0 program.statements).1.steps
  have hran : runReport source = .ofLines final.output failure := by
    simp only [runReport, h, final, failure]
  have htraced : traceReport source = .ofLines (steps.flatMap Step.lines) failure := by
    simp only [traceReport, h, Interpreter.trace, steps, failure,
      ← Interpreter.traceFrom_end Interpreter.fresh 0]
  have hrecords := Interpreter.records_traceFrom .fresh 0 program.statements
  have houtput : final.output = steps.filterMap Step.printed := hrecords.output_eq
  obtain ⟨hshown, hfinal⟩ := Interpreter.hasLines_fresh.trace hpasses.hasLineNames 0
  have hcode (lines : List String) : (Report.ofLines lines failure).exitCode ≠ 65 := by
    simp only [Report.exitCode_ofLines, failure]
    cases (Interpreter.fresh.executeAll program.statements).1 <;> simp
  have hzero (lines : List String) : (Report.ofLines lines none).exitCode = 0 :=
    Report.exitCode_ofLines lines none
  have hnot : (parseReport source).exitCode ≠ 65 := by
    rw [hparsed, hzero]
    decide
  exact {
    tokens_iterated := lists_tokenizeReport source
    statements_iterated := lists_parseReport source
    exitCode_traced := by rw [hran, htraced, Report.exitCode_ofLines, Report.exitCode_ofLines]
    summary_traced := by rw [hran, htraced, Report.summary_ofLines, Report.summary_ofLines]
    shown := by
      refine ⟨steps, ?_, ?_, ?_, ?_⟩
      · simp only [executed, h]
        exact Interpreter.statements_traceFrom .fresh 0 program.statements
      · rw [hran, Report.output_ofLines, ← houtput]
        exact displays_unlines_iff hfinal.output
      · rw [htraced, Report.output_ofLines]
        exact displays_unlines_iff hshown
      · intro step hstep
        exact Step.isShown_of_iff (hrecords.printed_iff step hstep)
    refuses_iff := iff_of_false hnot (hran ▸ hcode _)
    summary_parsed := fun heq => absurd heq hnot
    exitCode_parsed := fun _ => by rw [hparsed, hzero]
    listed := by
      refine ⟨program.statements, rest, hpasses, hlisted, ?_⟩
      rw [h]
    silent := fun heq => absurd heq hnot
    illegal := by
      obtain ⟨tokens, htokens, -⟩ := (parse_eq_ok_iff source program).mp h
      intro heq
      rw [exitCode_tokenizeReport htokens] at heq
      cases heq }

/-- The commands on a file that holds a text agree. -/
theorem commands_agree (source : String) :
    Agree source (tokenize.reportOn (some source.toUTF8)) (parse.reportOn (some source.toUTF8))
      (run.reportOn (some source.toUTF8)) (trace.reportOn (some source.toUTF8)) := by
  simp only [reportOn_toUTF8, report]
  cases h : Program.parse source with
  | error error => exact agree_of_error h
  | ok program => exact agree_of_ok h

end Command

end Reckoner
