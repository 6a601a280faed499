import Reckoner.Proofs.Effects
import Reckoner.Proofs.Reports

/-!
# Layout does not matter

The items of a text stand one behind another, so a place is that of at most one token. If two texts
have the same tokens up to their places, there is a map that takes the places of the one to those of
the other. Reading and running commute with this map, so they do the same with both texts, and a
failure blames the same token.
-/

namespace Reckoner

/-! ## The order of the items -/

/-- The place of an item. -/
def Item.position : Item → Position
  | token t => t.position
  | illegal error => error.position

theorem Lexeme.position_item (lexeme : Lexeme) (p : Position) : (lexeme.item p).position = p := by
  cases lexeme <;> rfl

namespace Position

theorem offset_advance (p : Position) (c : Char) :
    (p.advance c).offset = p.offset + c.utf8Size := by
  rw [advance]
  split <;> rfl

/-- No text moves an offset back. -/
theorem offset_le_after (p : Position) (text : List Char) : p.offset ≤ (p.after text).offset := by
  induction text generalizing p with
  | nil => exact Nat.le_refl _
  | cons c text ih =>
      have hrest := ih (p.advance c)
      rw [offset_advance] at hrest
      rw [after_cons]
      omega

theorem offset_lt_after_cons (p : Position) (c : Char) (text : List Char) :
    p.offset < (p.after (c :: text)).offset := by
  have hpos := c.utf8Size_pos
  have hrest := offset_le_after (p.advance c) text
  rw [offset_advance] at hrest
  rw [after_cons]
  omega

end Position

namespace TokenStream

theorem sequence_ofChars_cons {p : Position} {text gap rest : List Char} {c : Char}
    (h : spanGap text = (gap, c :: rest)) :
    (ofChars p text).sequence = (Lexeme.read c rest).1.item (p.after gap) ::
      (ofChars ((p.after gap).after (Lexeme.read c rest).1.chars)
        (Lexeme.read c rest).2).sequence := by
  rw [ofChars_of_cons h]
  rfl

/-- No item stands before the place where its text begins. -/
theorem offset_le_of_mem {p : Position} {text : List Char} {item : Item}
    (h : item ∈ (ofChars p text).sequence) : p.offset ≤ item.position.offset := by
  induction p, text using ofChars.induct with
  | case1 p text gap hgap =>
      rw [ofChars_of_nil hgap] at h
      obtain rfl := List.mem_singleton.mp h
      exact p.offset_le_after gap
  | case2 p text gap c rest hgap place lexeme ih =>
      rw [sequence_ofChars_cons hgap] at h
      have hplace : p.offset ≤ place.offset := p.offset_le_after gap
      cases List.mem_cons.mp h with
      | inl hfirst => rwa [hfirst, Lexeme.position_item]
      | inr hrest => exact (hplace.trans (place.offset_le_after lexeme.chars)).trans (ih hrest)

/-- Each item of a text stands behind the ones before it, and the end of input behind them all. -/
theorem pairwise_offset_lt (p : Position) (text : List Char) :
    (ofChars p text).sequence.Pairwise fun first later =>
      first.position.offset < later.position.offset := by
  induction p, text using ofChars.induct with
  | case1 p text gap hgap =>
      rw [ofChars_of_nil hgap]
      exact List.pairwise_singleton _ _
  | case2 p text gap c rest hgap place lexeme ih =>
      rw [sequence_ofChars_cons hgap]
      refine List.pairwise_cons.mpr ⟨?_, ih⟩
      intro later hlater
      obtain ⟨tail, htail, -⟩ := Lexeme.exists_chars_read c rest
      have hend := place.offset_lt_after_cons c tail
      rw [← htail] at hend
      rw [Lexeme.position_item]
      exact hend.trans_le (offset_le_of_mem hlater)

/-- An item stands before the end of its text. -/
theorem offset_lt_of_mem {p : Position} {text : List Char} {item : Item}
    (h : item ∈ (ofChars p text).items) : item.position.offset < (p.after text).offset := by
  have hpairwise := pairwise_offset_lt p text
  rw [sequence, List.pairwise_append] at hpairwise
  have hlt := hpairwise.2.2 item h _ (List.mem_singleton_self _)
  rwa [← finish_ofChars]

/-- No two tokens of a text stand at the same place. -/
theorem nodup_positions {source : String} {tokens : List Token}
    (h : (ofString source).tokens = .ok tokens) : (tokens.map Token.position).Nodup := by
  have hpairwise := pairwise_offset_lt .start source.toList
  change (ofString source).sequence.Pairwise _ at hpairwise
  rw [tokens_eq_ok_iff.mp h, List.pairwise_map] at hpairwise
  refine List.pairwise_map.mpr (hpairwise.imp ?_)
  intro first later hlt heq
  exact Nat.ne_of_lt hlt (congrArg Position.offset heq)

/-! ## From one layout to another -/

theorem sequence_relocate (f : Position → Position) (stream : TokenStream) :
    (stream.relocate f).sequence = stream.sequence.map (Item.relocate f) := by
  simp [sequence, relocate, Item.relocate, Token.relocate, endToken]

/-- A stream is determined by its items up to the end of input. -/
theorem eq_of_sequence_eq {a b : TokenStream} (h : a.sequence = b.sequence) : a = b := by
  rcases a with ⟨itemsA, finishA⟩
  rcases b with ⟨itemsB, finishB⟩
  obtain ⟨rfl, hend⟩ := List.append_inj' h rfl
  simp only [endToken, List.cons.injEq, Item.token.injEq, Token.mk.injEq, true_and,
    and_true] at hend
  rw [hend]

end TokenStream

/-- Different places can be mapped to any other places, by one change of the map for each of
them. -/
theorem Position.exists_map_eq {before after : List Position} (h : before.Nodup)
    (hlength : before.length = after.length) : ∃ f : Position → Position, before.map f = after := by
  induction before generalizing after with
  | nil => exact ⟨id, (List.length_eq_zero_iff.mp hlength.symm).symm⟩
  | cons p before ih =>
      cases after with
      | nil => cases hlength
      | cons q after =>
          obtain ⟨hp, hbefore⟩ := List.nodup_cons.mp h
          obtain ⟨f, hf⟩ := ih hbefore (Nat.succ.inj hlength)
          refine ⟨Function.update f p q, ?_⟩
          have hrest : before.map (Function.update f p q) = before.map f :=
            List.map_congr_left fun r hr => Function.update_of_ne (ne_of_mem_of_not_mem hr hp) q f
          rw [List.map_cons, Function.update_self, hrest, hf]

/-- Tokens that are the same but for their places, which are mapped. -/
theorem Token.eq_map_relocate {f : Position → Position} {tokensA tokensB : List Token}
    (h : tokensA.map (fun t => (t.kind, t.literal)) = tokensB.map fun t => (t.kind, t.literal))
    (hplaces : (tokensA.map position).map f = tokensB.map position) :
    tokensB = tokensA.map (relocate f) := by
  induction tokensA generalizing tokensB with
  | nil => exact List.map_eq_nil_iff.mp h.symm
  | cons t tokensA ih =>
      cases tokensB with
      | nil => cases h
      | cons s tokensB =>
          obtain ⟨hsame, hrest⟩ := List.cons.inj h
          obtain ⟨hplace, htail⟩ := List.cons.inj hplaces
          rcases s with ⟨kind, literal, position⟩
          obtain ⟨rfl, rfl⟩ := Prod.mk.inj hsame
          rw [List.map_cons, ← ih hrest htail, relocate, hplace]

/-- Two texts with the same tokens up to places have the same items up to a map of the places. -/
theorem exists_relocate_eq {first second : String} {tokensA tokensB : List Token}
    (hA : (TokenStream.ofString first).tokens = .ok tokensA)
    (hB : (TokenStream.ofString second).tokens = .ok tokensB)
    (h : tokensA.map (fun t => (t.kind, t.literal)) = tokensB.map fun t => (t.kind, t.literal)) :
    ∃ f, tokensB = tokensA.map (Token.relocate f) ∧
      TokenStream.ofString second = (TokenStream.ofString first).relocate f := by
  have hlength : tokensA.length = tokensB.length := by
    simpa using congrArg List.length h
  obtain ⟨f, hf⟩ := Position.exists_map_eq (TokenStream.nodup_positions hA)
    (show _ = (tokensB.map Token.position).length by rwa [List.length_map, List.length_map])
  have htokens := Token.eq_map_relocate h hf
  refine ⟨f, htokens, TokenStream.eq_of_sequence_eq ?_⟩
  rw [TokenStream.sequence_relocate, TokenStream.tokens_eq_ok_iff.mp hA,
    TokenStream.tokens_eq_ok_iff.mp hB, htokens, List.map_map, List.map_map]
  rfl

/-! ## Reading and running both texts -/

section

variable {f : Position → Position} {first second : String}

/-- A text with mapped places is the mapped program, or fails with the mapped failure. -/
theorem Program.parse_relocate
    (h : TokenStream.ofString second = (TokenStream.ofString first).relocate f) :
    parse second = ((parse first).map (relocate f)).mapError (ReadError.relocate f) := by
  rw [parse, parse, h, Reading.program, Reading.program, Reading.statements_relocate]
  rcases Reading.statements (TokenStream.ofString first) with ⟨found, _ | error⟩ <;> rfl

namespace Interpreter

theorem run_relocate (f : Position → Position) (state : Interpreter) (program : Program) :
    state.run (program.relocate f) =
      ((state.run program).1.mapError (RuntimeError.relocate f), (state.run program).2) := by
  rw [run, run, Program.relocate, executeAll_relocate]
  rcases state.executeAll program.statements with ⟨_ | error, final⟩ <;> rfl

theorem runSource_relocate
    (h : TokenStream.ofString second = (TokenStream.ofString first).relocate f)
    (state : Interpreter) :
    state.runSource second =
      ((state.runSource first).1.mapError (Failure.relocate f), (state.runSource first).2) := by
  have hparse := Program.parse_relocate h
  cases hfirst : Program.parse first with
  | error error =>
      rw [hfirst] at hparse
      rw [runSource_of_error hfirst, runSource_of_error hparse]
      rfl
  | ok program =>
      rw [hfirst] at hparse
      rw [runSource_of_parse hfirst, runSource_of_parse hparse, run_relocate]
      rcases state.run program with ⟨_ | _, final⟩ <;> rfl

end Interpreter

end

/-! ## What the failures blame -/

theorem Expr.relocate_relocate (f g : Position → Position) (e : Expr) :
    (e.relocate f).relocate g = e.relocate (g ∘ f) := by
  induction e with
  | literal value => rfl
  | reference name position => rfl
  | operation op left right position ihl ihr => simp only [relocate, ihl, ihr, Function.comp_apply]

theorem Program.withoutPlaces_relocate (f : Position → Position) (program : Program) :
    (program.relocate f).withoutPlaces = program.withoutPlaces := by
  have hstatement (statement : Statement) :
      (statement.relocate f).relocate (fun _ => .start) = statement.relocate fun _ => .start := by
    cases statement <;> simp only [Statement.relocate, Expr.relocate_relocate] <;> rfl
  simp only [withoutPlaces, relocate, List.map_map, Function.comp_def, hstatement]

namespace Failure

/-- The failure with one and the same place everywhere. -/
def withoutPlaces (failure : Failure) : Failure :=
  failure.relocate fun _ => .start

theorem withoutPlaces_relocate (f : Position → Position) (failure : Failure) :
    (failure.relocate f).withoutPlaces = failure.withoutPlaces := by
  rcases failure with (_ | ⟨_ | _ | _ | _⟩) | (_ | _) <;> rfl

theorem position_relocate (f : Position → Position) (failure : Failure) :
    (failure.relocate f).diagnostic.position = f failure.diagnostic.position := by
  rcases failure with (_ | ⟨_ | _ | _ | _⟩) | (_ | _) <;> rfl

/-- Whether the report of a failure is about the token at an index. -/
def Blames (failure : Failure) (tokens : List Token) (n : Nat) : Prop :=
  ∃ t, tokens[n]? = some t ∧ t.position = failure.diagnostic.position

variable {failure : Failure} {source : String} {tokens : List Token} {m n : Nat}

/-- A mapped failure blames the token with the same index. -/
theorem Blames.relocate (h : failure.Blames tokens n) (f : Position → Position) :
    (failure.relocate f).Blames (tokens.map (Token.relocate f)) n := by
  obtain ⟨t, ht, hposition⟩ := h
  refine ⟨t.relocate f, by rw [List.getElem?_map, ht, Option.map_some], ?_⟩
  rw [position_relocate, ← hposition]
  rfl

/-- A failure blames one token only, as different tokens stand at different places. -/
theorem Blames.eq (hm : failure.Blames tokens m) (hn : failure.Blames tokens n)
    (h : (TokenStream.ofString source).tokens = .ok tokens) : m = n := by
  obtain ⟨s, hs, hplace⟩ := hm
  obtain ⟨t, ht, hplace'⟩ := hn
  obtain ⟨hlt, -⟩ := List.getElem?_eq_some_iff.mp hs
  refine (List.getElem?_inj (by rwa [List.length_map]) (TokenStream.nodup_positions h)).mp ?_
  rw [List.getElem?_map, List.getElem?_map, hs, ht, Option.map_some, Option.map_some, hplace,
    hplace']

/-- A failure of a text without illegal characters blames one of its tokens. -/
theorem exists_blames (h : (TokenStream.ofString source).tokens = .ok tokens)
    (habout : failure.IsAbout (.ofString source)) : ∃ n, failure.Blames tokens n := by
  have hsequence := TokenStream.tokens_eq_ok_iff.mp h
  have hblamed : ∃ t, .token t ∈ (TokenStream.ofString source).sequence ∧
      t.position = failure.diagnostic.position := by
    rcases failure with (error | ⟨_ | _ | _ | _⟩) | (_ | _)
    · have hmem : Item.illegal error ∈ (TokenStream.ofString source).sequence :=
        List.mem_append_left _ habout
      rw [hsequence] at hmem
      simp at hmem
    · exact ⟨_, habout.1, rfl⟩
    · exact ⟨_, habout.1, rfl⟩
    · obtain ⟨t, ht, -, hposition⟩ := habout
      exact ⟨t, ht, hposition⟩
    · exact ⟨_, habout.1, rfl⟩
    · exact ⟨_, habout, rfl⟩
    · obtain ⟨literal, hmem⟩ := habout
      exact ⟨_, hmem, rfl⟩
  obtain ⟨t, ht, hposition⟩ := hblamed
  rw [hsequence, List.mem_map_of_injective (fun _ _ => Item.token.inj)] at ht
  obtain ⟨n, hn⟩ := List.mem_iff_getElem?.mp ht
  exact ⟨n, t, hn, hposition⟩

/-- Whether failures of two texts are the same up to layout: they differ in places only, and both
blame the token at one index, and no other one. -/
structure SameUpToLayout (tokensA tokensB : List Token) (a b : Failure) : Prop where
  withoutPlaces_eq : a.withoutPlaces = b.withoutPlaces
  blames : ∃! n, a.Blames tokensA n
  blames_iff : ∀ n, a.Blames tokensA n ↔ b.Blames tokensB n

/-- Texts with the same tokens up to their places fail in the same way. The map of the places need
not be injective, since the places of the second text differ from one another. -/
theorem sameUpToLayout_relocate {first second : String} {f : Position → Position}
    (hfirst : (TokenStream.ofString first).tokens = .ok tokens)
    (hsecond : (TokenStream.ofString second).tokens = .ok (tokens.map (Token.relocate f)))
    (habout : failure.IsAbout (.ofString first)) :
    SameUpToLayout tokens (tokens.map (Token.relocate f)) failure (failure.relocate f) := by
  obtain ⟨n, hn⟩ := exists_blames hfirst habout
  have hmapped := hn.relocate f
  refine ⟨(failure.withoutPlaces_relocate f).symm, ⟨n, hn, fun m hm => hm.eq hn hfirst⟩, ?_⟩
  intro m
  constructor
  · exact fun hm => hm.relocate f
  · intro hm
    rwa [hm.eq hmapped hsecond]

end Failure

/-- Texts whose tokens differ in places only are both programs, which differ in places only, or both
fail to be read in the same way. Running them in one state leaves one state, with the same outcome
or with failures that are the same up to layout. -/
theorem layout_irrelevant {first second : String} {tokensA tokensB : List Token}
    (hA : (TokenStream.ofString first).tokens = .ok tokensA)
    (hB : (TokenStream.ofString second).tokens = .ok tokensB)
    (h : tokensA.map (fun t => (t.kind, t.literal)) = tokensB.map fun t => (t.kind, t.literal)) :
    (match Program.parse first, Program.parse second with
      | .ok programA, .ok programB => programA.withoutPlaces = programB.withoutPlaces
      | .error errorA, .error errorB =>
        Failure.SameUpToLayout tokensA tokensB (.read errorA) (.read errorB)
      | _, _ => False) ∧
    ∀ state : Interpreter,
      (state.runSource first).2 = (state.runSource second).2 ∧
      match (state.runSource first).1, (state.runSource second).1 with
      | .ok outcomeA, .ok outcomeB => outcomeA = outcomeB
      | .error failureA, .error failureB =>
        Failure.SameUpToLayout tokensA tokensB failureA failureB
      | _, _ => False := by
  obtain ⟨f, rfl, hstream⟩ := exists_relocate_eq hA hB h
  constructor
  · rw [Program.parse_relocate hstream]
    cases hparse : Program.parse first with
    | error error => exact Failure.sameUpToLayout_relocate hA hB (isAbout_of_parse hparse)
    | ok program => exact (program.withoutPlaces_relocate f).symm
  · intro state
    rw [Interpreter.runSource_relocate hstream]
    refine ⟨rfl, ?_⟩
    cases hresult : (state.runSource first).1 with
    | error failure => exact Failure.sameUpToLayout_relocate hA hB (isAbout_of_runSource hresult)
    | ok outcome => rfl

/-- In `print(x);`, and in a text with the same tokens behind a comment and on other lines, the
variable has no value, the third token of both. -/
theorem layout_irrelevant_comment :
    let first := "print(x);"
    let second := "// x\nprint (\n  x );"
    let tokensA := (TokenStream.ofString first).listing.1
    let tokensB := (TokenStream.ofString second).listing.1
    ((TokenStream.ofString first).tokens = .ok tokensA ∧
      (TokenStream.ofString second).tokens = .ok tokensB ∧
      tokensA.map (fun t => (t.kind, t.literal)) = tokensB.map fun t => (t.kind, t.literal)) ∧
    Failure.SameUpToLayout tokensA tokensB (.run (.undefinedVariable "x" ⟨6, 1, 7⟩))
      (.run (.undefinedVariable "x" ⟨15, 3, 3⟩)) := by
  intro first second tokensA tokensB
  have hA : (TokenStream.ofString first).tokens = .ok tokensA := by decide +kernel
  have hB : (TokenStream.ofString second).tokens = .ok tokensB := by decide +kernel
  have hsame : tokensA.map (fun t => (t.kind, t.literal)) =
      tokensB.map fun t => (t.kind, t.literal) := by decide +kernel
  have hfirst : (Interpreter.fresh.runSource first).1 =
      .error (.run (.undefinedVariable "x" ⟨6, 1, 7⟩)) := by decide +kernel
  have hsecond : (Interpreter.fresh.runSource second).1 =
      .error (.run (.undefinedVariable "x" ⟨15, 3, 3⟩)) := by decide +kernel
  have hrun := ((layout_irrelevant hA hB hsame).2 .fresh).2
  rw [hfirst, hsecond] at hrun
  exact ⟨⟨hA, hB, hsame⟩, hrun⟩

end Reckoner
