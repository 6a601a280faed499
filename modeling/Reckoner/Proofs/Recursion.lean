import Reckoner.Proofs.Nesting
import Reckoner.Proofs.Progress

/-!
# Reading recurses no deeper than parentheses may nest

A parser that scans its text on demand and counts has no more calls for an expression active at one
time than one for each pair of parentheses that may be open, and one more. Reading gets on with each
of its loops, so it comes to an end.
-/

namespace Reckoner

/-- Reading gets on, and recurses no deeper than parentheses may nest.

Whatever calls were made on a lexer, it has scanned some bytes of its text and not those that
remain; unless it keeps a token, asking it for the next one delivers the end of input or scans more
bytes; and iterating over it ends after at most one item more than the text has bytes. A statement
takes at least five tokens. A sum and a product are made of turns, each of which takes at least two
tokens if it joins an operand. Whatever a parser was asked for, also if it then reads all that is
left as a program, no more than `maxDepth + 1` calls for an expression were active at one time. That
program is read to its end, or to its failure, in one turn for every five bytes and one more. -/
theorem reading_progresses_within_bounds (source : String) :
    (∀ calls,
      let lexer := ((Lexer.ofString source).callAll calls).2
      lexer.place.offset + lexer.remaining = source.utf8ByteSize ∧
        (lexer.peeked = none →
          (∃ t, lexer.next.1 = .ok t ∧ t.kind = .endOfInput) ∨
            lexer.place.offset < lexer.next.2.place.offset) ∧
        ∃ results, lexer.Iterates results ∧ results.length ≤ source.utf8ByteSize + 1) ∧
    Reading.Yields Reading.statement (fun u _ => 5 ≤ u.length) ∧
    (∀ levels, Reading.TurnsTake 2 Reading.additive? (Reading.product (Reading.factor levels)) ∧
      Reading.TurnsTake 2 Reading.multiplicative? (Reading.factor levels)) ∧
    ∀ levels, maxDepth ≤ levels → ∀ requests turns,
      let asked := ((Parser.onDemand source).tallying levels).requestAll requests
      let whole := asked.2.perform (Reading.programWithin turns)
      let parser := (Parser.ofString source).requestAll requests
      asked.1 = parser.1 ∧ asked.2.stream.peak ≤ maxDepth + 1 ∧
        whole.2.stream.peak ≤ maxDepth + 1 ∧
        (source.utf8ByteSize < 5 * turns →
          whole.1 = parser.2.program.map (some ·.statements)) := by
  refine ⟨?_, Reading.statement_takes_five, ?_, ?_⟩
  · intro calls lexer
    have hstands : lexer.Stands source _ _ :=
      @Lexer.Stands.callAll _ _ [] (Lexer.stands_ofString source) calls
    obtain ⟨front, hscanned⟩ := (Lexer.hasScanned_ofString source).callAll calls
    have hbytes := hscanned.offset_add_remaining
    rw [hstands.source_eq] at hbytes
    exact ⟨hbytes, Lexer.next_ends_or_passes, hstands.exists_iterates_of_utf8ByteSize⟩
  · intro levels
    have hfactor := Reading.yields_factor levels
    exact ⟨Reading.turnsTake_two rfl (Reading.yields_product hfactor),
      Reading.turnsTake_two rfl hfactor⟩
  · intro levels hlevels requests turns asked whole parser
    obtain ⟨hreplies, hfollows⟩ := Parser.requestAll_onDemand source requests
    obtain ⟨hasked, hcounts⟩ :=
      Parser.requestAll_tallying rfl hlevels (Parser.onDemand source) requests
    have halike := @Tally.exprsAlike_counts levels Lexer _ _ rfl hlevels
    obtain ⟨hwhole, hlast⟩ := hcounts.perform (halike.programWithin turns)
    refine ⟨hasked.trans hreplies, hcounts.stream.peak_le, hlast.stream.peak_le, fun hbytes => ?_⟩
    exact hwhole.trans (hfollows.program hbytes)

/-- Behind `print` the lexer keeps no token. Behind the statement an illegal character is left, and
reading all that is left comes to it. -/
theorem reading_progresses_within_bounds_print :
    let source := "print((1)); é"
    let lexer := ((Lexer.ofString source).callAll [.next]).2
    let asked := ((Parser.onDemand source).tallying maxDepth).requestAll [.advance]
    lexer.peeked = none ∧ maxDepth ≤ maxDepth ∧ source.utf8ByteSize < 5 * 3 ∧
      ((∃ t, lexer.next.1 = .ok t ∧ t.kind = .endOfInput) ∨
        lexer.place.offset < lexer.next.2.place.offset) ∧
      asked.2.stream.peak ≤ maxDepth + 1 ∧
      (asked.2.perform (Reading.programWithin 3)).1 =
        ((Parser.ofString source).requestAll [.advance]).2.program.map (some ·.statements) := by
  intro source lexer asked
  have hpeeked : lexer.peeked = none := by decide +kernel
  have hbytes : source.utf8ByteSize < 5 * 3 := by decide +kernel
  obtain ⟨hlexer, -, -, hparser⟩ := reading_progresses_within_bounds source
  obtain ⟨-, hpeak, -, hprogram⟩ := hparser maxDepth (Nat.le_refl _) [.advance] 3
  exact ⟨hpeeked, Nat.le_refl _, hbytes, (hlexer [.next]).2.1 hpeeked, hpeak, hprogram hbytes⟩

/-- In two pairs of parentheses three calls are active. -/
example : (((Parser.onDemand "((1)) * 2").tallying maxDepth).requestAll
    [.expression]).2.stream.peak = 3 := by
  decide +kernel

end Reckoner
