import Reckoner.Diagnostic
import Reckoner.Proofs.Delivery

/-!
# Places are true

The offset, the line and the column of a place are counted as a text is read, by characters and by
whole words. They always are what they would be if all of the text before the place was counted
again. So each token, and each illegal character, stands in the source text where its position says.
-/

namespace Reckoner

namespace Position

/-- The place behind a text at the beginning of a source, counted at once: the bytes of the text,
its line feeds, and its characters behind the last of them. -/
def behind (text : String) : Position where
  offset := text.utf8ByteSize
  line := 1 + text.toList.count '\n'
  column := 1 + (text.toList.rtakeWhile (· ≠ '\n')).length

/-- Whether a piece of a source stands at a place. -/
def Marks (p : Position) (piece source : String) : Prop :=
  ∃ before rest, source = before ++ piece ++ rest ∧ p = behind before

theorem behind_push (text : String) (c : Char) :
    behind (text.push c) = (behind text).advance c := by
  by_cases hc : c = '\n'
  · simp [behind, advance, hc, String.utf8ByteSize_push, Nat.add_assoc]
  · simp [behind, advance, hc, String.utf8ByteSize_push, List.count_append, Nat.add_assoc]

/-- Counting character by character comes to the same. -/
theorem after_start (text : List Char) : start.after text = behind (String.ofList text) := by
  induction text using List.reverseRecOn with
  | nil => rfl
  | append_singleton text c ih =>
      have hpush : String.ofList (text ++ [c]) = (String.ofList text).push c := by simp
      rw [after_append, ih, hpush, behind_push]
      rfl

/-- The place behind a piece of a text marks what follows it. -/
theorem marks_after_start (before piece rest : List Char) :
    (start.after before).Marks (String.ofList piece) (String.ofList (before ++ piece ++ rest)) :=
  ⟨String.ofList before, String.ofList rest, by simp [String.append_assoc], after_start before⟩

theorem marks_behind (source : String) : (behind source).Marks "" source :=
  ⟨source, "", by simp, rfl⟩

end Position

/-- Whether the text of an item stands in a source where the item says. -/
def Item.Stands (source : String) : Item → Prop
  | token t => t.position.Marks t.literal source
  | illegal error => error.position.Marks (String.singleton error.char) source

theorem Lexeme.item_stands (lexeme : Lexeme) (before rest : List Char) :
    (lexeme.item (Position.start.after before)).Stands
      (String.ofList (before ++ lexeme.chars ++ rest)) := by
  cases lexeme with
  | token kind literal => exact Position.marks_after_start before literal rest
  | illegal c => exact Position.marks_after_start before [c] rest

namespace TokenStream

/-- A stream ends behind its text. -/
theorem finish_ofChars (p : Position) (text : List Char) :
    (ofChars p text).finish = p.after text := by
  induction p, text using ofChars.induct with
  | case1 p text gap hgap =>
      rw [ofChars_of_nil hgap, eq_of_spanGap_nil hgap]
  | case2 p text gap c rest hgap place lexeme ih =>
      rw [ofChars_of_cons hgap, ← append_eq_of_spanGap hgap, Position.after_append,
        Position.after_append]
      exact ih

/-- Each item stands where it says. -/
theorem stands_of_mem_ofChars {text : List Char} {p : Position} {item : Item} (before : List Char)
    (hp : p = Position.start.after before) (h : item ∈ (ofChars p text).items) :
    item.Stands (String.ofList (before ++ text)) := by
  induction p, text using ofChars.induct generalizing before with
  | case1 p text gap hgap =>
      rw [ofChars_of_nil hgap] at h
      cases h
  | case2 p text gap c rest hgap place lexeme ih =>
      subst hp
      have hplace : place = Position.start.after (before ++ gap) :=
        (Position.after_append _ before gap).symm
      have htext : before ++ text = before ++ gap ++ lexeme.chars ++ (Lexeme.read c rest).2 := by
        rw [← append_eq_of_spanGap hgap]
        simp [lexeme]
      rw [ofChars_of_cons hgap] at h
      rw [htext]
      cases List.mem_cons.mp h with
      | inl hfirst =>
          rw [hfirst]
          change (lexeme.item place).Stands _
          rw [hplace]
          exact lexeme.item_stands (before ++ gap) _
      | inr hrest =>
          apply ih (before ++ gap ++ lexeme.chars) _ hrest
          rw [hplace, ← Position.after_append]

/-- The items of a source stand in it where they say. -/
theorem stands_of_mem {source : String} {item : Item} (h : item ∈ (ofString source).items) :
    item.Stands source := by
  simpa using stands_of_mem_ofChars [] rfl h

theorem finish_ofString (source : String) : (ofString source).finish = .behind source := by
  rw [ofString, finish_ofChars, Position.after_start, String.ofList_toList]

end TokenStream

/-! ## Answers to calls -/

/-- Whether what a call answers is true of the places in a source. -/
def Answer.IsTrue (source : String) : Answer → Prop
  | result (.ok t) => t.position.Marks t.literal source ∧
      (t.kind = .endOfInput → t.literal = "" ∧ t.position = .behind source)
  | result (.error (.illegal error)) =>
      error.position.Marks (String.singleton error.char) source ∧
        error.diagnostic.label.offset = error.position.offset
  | result (.error (.unparsable (.mismatch _ found))) => found.position.Marks found.literal source
  | result (.error (.unparsable (.unexpectedEnd _ position))) => position = .behind source
  | result (.error (.unparsable _)) => False
  | nothing | restarted => True

theorem TokenStream.isTrue_item (source : String) (n : Nat) :
    (Answer.result ((ofString source).item n).result).IsTrue source := by
  cases (ofString source).item_cases n with
  | inl hmem =>
      have hstands := stands_of_mem hmem
      cases hitem : (ofString source).item n with
      | token t =>
          rw [hitem] at hmem hstands
          exact ⟨hstands, fun hend => absurd hend (kind_ne_of_mem_ofChars hmem)⟩
      | illegal error =>
          rw [hitem] at hstands
          exact ⟨hstands, rfl⟩
  | inr hend =>
      rw [hend]
      have hfinish : (ofString source).endToken.position = .behind source := finish_ofString source
      refine ⟨?_, fun _ => ⟨rfl, hfinish⟩⟩
      rw [hfinish]
      exact Position.marks_behind source

theorem Token.isTrue_require {source : String} {t : Token} (kind : Kind)
    (h : (Answer.result (.ok t)).IsTrue source) :
    (Answer.result (t.require kind)).IsTrue source := by
  rw [require]
  split
  · exact h
  · rw [SyntaxError.ofMismatch]
    split
    · exact (h.2 ‹_›).2
    · exact h.1

/-- What a call delivers is true of the text. -/
theorem Call.isTrue_deliver (call : Call) (source : String) (n : Nat) :
    (call.deliver ((TokenStream.ofString source).item n)).IsTrue source := by
  have htrue := TokenStream.isTrue_item source n
  cases call with
  | next | peek | advance => exact htrue
  | restart => trivial
  | expect kind =>
      rw [deliver]
      cases hitem : (TokenStream.ofString source).item n with
      | token t =>
          rw [hitem] at htrue
          exact t.isTrue_require kind htrue
      | illegal error =>
          rw [hitem] at htrue
          exact htrue

/-- Whatever calls are made on a lexer, the places that they answer are true. -/
theorem Lexer.places_true (source : String) (calls : List Call) :
    ∀ entry ∈ ((ofString source).callAll calls).1, entry.2.IsTrue source := by
  intro entry hentry
  obtain hnothing | ⟨n, hanswer⟩ := (@Stands.mem_callAll _ _ [] (stands_ofString source)) hentry
  · rw [hnothing]
    trivial
  · rw [hanswer]
    exact entry.1.isTrue_deliver source n

/-- In `// é` and an indented `x` below, the name is the ninth byte and the third column of the
second line. -/
theorem Lexer.places_true_second_line :
    let entry : Call × Answer := (.advance, .result (.ok ⟨.identifier, "x", ⟨8, 2, 3⟩⟩))
    entry ∈ ((ofString "// é\n  x").callAll [.peek, .advance]).1 ∧
      entry.2.IsTrue "// é\n  x" := by
  have hentry : (Call.advance, Answer.result (.ok ⟨.identifier, "x", ⟨8, 2, 3⟩⟩)) ∈
      ((ofString "// é\n  x").callAll [.peek, .advance]).1 := by decide +kernel
  exact ⟨hentry, places_true _ _ _ hentry⟩

end Reckoner
