import Mathlib.Data.Nat.Digits.Defs
import Reckoner.Proofs.Partition
import Reckoner.Proofs.RoundTrip

/-!
# Words with spaces between them

Each token has a text that it is written with. A space ends every name and every number, and it
keeps two slashes from beginning a comment. So texts of tokens that are joined by single spaces are
read as these tokens, whatever stands next to what, and a lexer delivers them one by one.
-/

namespace Reckoner

/-! ## The texts of tokens -/

/-- The number that digits stand for, each worth ten times as much as the one behind it. -/
def positionalValue (digits : List Char) : Nat :=
  Nat.ofDigits 10 (digits.reverse.map fun c => c.toNat - '0'.toNat)

/-- The characters that are operators and delimiters, with their kinds. -/
def delimiters : List (Char × Kind) :=
  [('+', .plus), ('-', .minus), ('*', .star), ('/', .slash), ('=', .assign), ('(', .leftParen),
    (')', .rightParen), (';', .semicolon)]

/-- Whether a text is one that a token of a kind is written with. -/
inductive Kind.IsWritten : Kind → String → Prop
  | sign {c : Char} {kind : Kind} (h : (c, kind) ∈ delimiters) : IsWritten kind (String.singleton c)
  | letKeyword : IsWritten .letKeyword "let"
  | printKeyword : IsWritten .printKeyword "print"
  | identifier {name : String} (h : IsIdentifier name) : IsWritten .identifier name
  | integer {digits : List Char} (hne : digits ≠ []) (h : ∀ c ∈ digits, c.isDigit) :
      IsWritten (.number (.int (positionalValue digits))) (String.ofList digits)
  | decimal {whole fraction : List Char} (hne : whole ≠ []) (hwhole : ∀ c ∈ whole, c.isDigit)
      (hfraction : ∀ c ∈ fraction, c.isDigit) :
      IsWritten
        (.number (.float (.ofDecimal (positionalValue (whole ++ fraction)) fraction.length)))
        (String.ofList (whole ++ '.' :: fraction))

/-- Digits are read from left to right, and each one multiplies what was read before by ten. -/
theorem decimalValue_eq_positionalValue (digits : List Char) :
    Lexeme.decimalValue digits = positionalValue digits := by
  induction digits using List.reverseRecOn with
  | nil => rfl
  | append_singleton digits c ih =>
      calc Lexeme.decimalValue (digits ++ [c])
          = 10 * Lexeme.decimalValue digits + (c.toNat - '0'.toNat) := by
            rw [Lexeme.decimalValue, Nat.ofDigitChars_append]
            rfl
        _ = 10 * positionalValue digits + (c.toNat - '0'.toNat) := by rw [ih]
        _ = positionalValue (digits ++ [c]) := by
            simp [positionalValue, Nat.ofDigits_cons, Nat.add_comm]

theorem delimiter?_of_mem_delimiters {c : Char} {kind : Kind} (h : (c, kind) ∈ delimiters) :
    Lexeme.delimiter? c = some kind := by
  have hall : ∀ sign ∈ delimiters, Lexeme.delimiter? sign.1 = some sign.2 := by decide
  exact hall _ h

/-! ## Reading words -/

namespace TokenStream

variable {p : Position} {kind : Kind} {text : String} {rest : List Char}

/-- Before a space or the end of the text, the text of a token is read as this token. -/
theorem ofChars_isWritten (h : kind.IsWritten text) (hrest : ∀ c ∈ rest.head?, c = ' ') :
    ofChars p (text.toList ++ rest) =
      (ofChars (p.after text.toList) rest).prepend [⟨kind, text, p⟩] := by
  have hseparated : Separated rest := by
    intro c hc
    obtain rfl := hrest c hc
    decide
  cases h with
  | @sign c kind h =>
      have hslash : c = '/' → rest.head? ≠ some '/' := by
        intro _ hhead
        exact absurd (hrest '/' hhead) (by decide)
      rw [String.toList_singleton]
      exact ofChars_delimiter (delimiter?_of_mem_delimiters h) hslash
  | letKeyword => exact @ofChars_name p rest ['l', 'e', 't'] rfl hseparated
  | printKeyword => exact @ofChars_name p rest ['p', 'r', 'i', 'n', 't'] rfl hseparated
  | identifier h =>
      have hname := ofChars_name (p := p) h.1 hseparated
      rwa [h.wordKind_eq, String.ofList_toList] at hname
  | integer hne h =>
      rw [String.toList_ofList, ← decimalValue_eq_positionalValue]
      exact ofChars_digits hne h hseparated
  | decimal hne hwhole hfraction =>
      rw [String.toList_ofList, ← decimalValue_eq_positionalValue]
      exact ofChars_point hne hwhole hfraction hseparated

/-- Words with single spaces between them are read as tokens one after the other. -/
theorem exists_ofChars_words {words : List (Kind × String)}
    (h : ∀ word ∈ words, word.1.IsWritten word.2) (p : Position) :
    ∃ (tokens : List Token) (finish : Position),
      ofChars p (" ".intercalate (words.map Prod.snd)).toList = ⟨tokens.map .token, finish⟩ ∧
        tokens.map (fun t => (t.kind, t.literal)) = words := by
  induction words generalizing p with
  | nil => exact ⟨[], p, @ofChars_of_nil p [] [] rfl, rfl⟩
  | cons word words ih =>
      obtain ⟨hfirst, hrest⟩ := List.forall_mem_cons.mp h
      rcases word with ⟨kind, text⟩
      cases words with
      | nil =>
          refine ⟨[⟨kind, text, p⟩], p.after text.toList, ?_, rfl⟩
          have hread := @ofChars_isWritten p kind text [] hfirst (by simp)
          rw [List.append_nil, @ofChars_of_nil _ [] [] rfl] at hread
          rw [List.map_cons, List.map_nil, String.intercalate_singleton, hread]
          rfl
      | cons next further =>
          obtain ⟨tokens, finish, hread, hwords⟩ := ih hrest ((p.after text.toList).advance ' ')
          refine ⟨⟨kind, text, p⟩ :: tokens, finish, ?_, by rw [List.map_cons, hwords]⟩
          have htext : (" ".intercalate (((kind, text) :: next :: further).map Prod.snd)).toList =
              text.toList ++ ' ' :: (" ".intercalate ((next :: further).map Prod.snd)).toList := by
            simp [String.intercalate_cons_cons, String.toList_append]
          calc ofChars p (" ".intercalate (((kind, text) :: next :: further).map Prod.snd)).toList
              = (ofChars (p.after text.toList)
                  (' ' :: (" ".intercalate ((next :: further).map Prod.snd)).toList)).prepend
                    [⟨kind, text, p⟩] := by
                rw [htext]
                exact ofChars_isWritten hfirst (by simp)
            _ = TokenStream.prepend [⟨kind, text, p⟩] ⟨tokens.map .token, finish⟩ := by
                rw [ofChars_blank rfl, hread]
            _ = ⟨(⟨kind, text, p⟩ :: tokens).map .token, finish⟩ := rfl

end TokenStream

/-! ## Iterating -/

namespace Lexer

variable {lexer : Lexer} {source : String} {n : Nat}

theorem Stands.callAll_replicate_advance_of_ended (h : lexer.Stands source n true) (k : Nat) :
    (lexer.callAll (List.replicate k .advance)).1 = List.replicate k (.advance, .nothing) := by
  induction k with
  | zero => rfl
  | succ k ih =>
      rw [List.replicate_succ, callAll_cons, Lexer.call, h.advance_of_ended, ih]
      rfl

/-- The iteration ends with the end of input and not before. -/
theorem endsIteration_item (source : String) (n : Nat) :
    Log.endsIteration (.advance, .result ((TokenStream.ofString source).item n).result) =
      decide ((TokenStream.ofString source).items.length ≤ n) := by
  by_cases hn : n < (TokenStream.ofString source).items.length
  · have hitem : (TokenStream.ofString source).item n = (TokenStream.ofString source).items[n] := by
      simp [TokenStream.item, hn]
    have hmem := List.getElem_mem hn
    rw [hitem, decide_eq_false (Nat.not_le.mpr hn)]
    cases hfound : (TokenStream.ofString source).items[n] with
    | illegal error => rfl
    | token t =>
        rw [hfound] at hmem
        exact decide_eq_false (TokenStream.kind_ne_of_mem_ofChars hmem)
  · have hend : (TokenStream.ofString source).item n =
        .token (TokenStream.ofString source).endToken := by
      simp [TokenStream.item, Nat.le_of_not_lt hn]
    rw [hend, decide_eq_true (Nat.le_of_not_lt hn)]
    rfl

/-- Iterating yields the items in their order up to the end of input, and then nothing. -/
theorem Stands.callAll_replicate_advance (h : lexer.Stands source n false) {m : Nat}
    (hm : n + m = (TokenStream.ofString source).items.length) (k : Nat) :
    (lexer.callAll (List.replicate (m + 1 + k) .advance)).1 =
      ((List.range' n (m + 1)).map fun j =>
          (.advance, .result ((TokenStream.ofString source).item j).result)) ++
        List.replicate k (.advance, .nothing) := by
  induction m generalizing lexer n with
  | zero =>
      obtain ⟨hresult, hnext⟩ := h.advance
      rw [endsIteration_item, decide_eq_true (by omega)] at hnext
      rw [Nat.zero_add, Nat.add_comm, List.replicate_succ, callAll_cons, Lexer.call, hresult,
        hnext.callAll_replicate_advance_of_ended]
      rfl
  | succ m ih =>
      obtain ⟨hresult, hnext⟩ := h.advance
      rw [endsIteration_item, decide_eq_false (by omega)] at hnext
      rw [Nat.add_right_comm, List.replicate_succ, callAll_cons, Lexer.call, hresult,
        ih hnext (by omega)]
      rfl

/-- Iterating over a text yields its items, the end of input behind them, and then nothing. -/
theorem callAll_ofString_replicate_advance (source : String) (k : Nat) :
    ((ofString source).callAll (List.replicate
        ((TokenStream.ofString source).sequence.length + k) .advance)).1 =
      (TokenStream.ofString source).sequence.map
          (fun item => (.advance, .result item.result)) ++
        List.replicate k (.advance, .nothing) := by
  have hall := (stands_ofString source).callAll_replicate_advance (Nat.zero_add _) k
  have hlength : (TokenStream.ofString source).sequence.length =
      (TokenStream.ofString source).items.length + 1 := by simp [TokenStream.sequence]
  rw [hlength, hall, ← TokenStream.map_item_range, List.range_eq_range', List.map_map]
  rfl

end Lexer

/-- Words with single spaces between them are read as tokens of their kinds with their texts, and
the end of input behind them. These tokens are what iterating over the text yields, and nothing
else. -/
theorem tokens_of_words {words : List (Kind × String)}
    (h : ∀ word ∈ words, word.1.IsWritten word.2) :
    let source := " ".intercalate (words.map Prod.snd)
    ∃ tokens : List Token,
      tokens.map (fun t => (t.kind, t.literal)) = words ++ [(.endOfInput, "")] ∧
      (TokenStream.ofString source).tokens = .ok tokens ∧
      ∀ k, ((Lexer.ofString source).callAll (List.replicate (tokens.length + k) .advance)).1 =
        tokens.map (fun t => (.advance, .result (.ok t))) ++
          List.replicate k (.advance, .nothing) := by
  intro source
  obtain ⟨tokens, finish, hread, hwords⟩ := TokenStream.exists_ofChars_words h .start
  have hsequence : (TokenStream.ofString source).sequence =
      (tokens ++ [(⟨.endOfInput, "", finish⟩ : Token)]).map .token := by
    rw [TokenStream.ofString, hread, List.map_append]
    rfl
  refine ⟨tokens ++ [⟨.endOfInput, "", finish⟩], ?_, TokenStream.tokens_eq_ok_iff.mpr hsequence, ?_⟩
  · rw [List.map_append, hwords]
    rfl
  · intro k
    have hiteration := Lexer.callAll_ofString_replicate_advance source k
    rwa [hsequence, List.length_map, List.map_map] at hiteration

/-- Slashes, numbers that end in a point, and names that begin with a keyword. -/
theorem tokens_of_words_slashes :
    let words : List (Kind × String) := [(.slash, "/"), (.slash, "/"),
      (.number (.float (.ofDecimal 7 0)), "7."), (.number (.int 7), "007"),
      (.number (.float (.ofDecimal 25 1)), "2.5"), (.letKeyword, "let"), (.identifier, "letx"),
      (.identifier, "_1"), (.leftParen, "("), (.printKeyword, "print")]
    (∀ word ∈ words, word.1.IsWritten word.2) ∧
      ∃ tokens : List Token,
        tokens.map (fun t => (t.kind, t.literal)) = words ++ [(.endOfInput, "")] ∧
        (TokenStream.ofString "/ / 7. 007 2.5 let letx _1 ( print").tokens = .ok tokens := by
  intro words
  have hslash : Kind.IsWritten .slash "/" := .sign (c := '/') (by simp [delimiters])
  have hpoint : Kind.IsWritten (.number (.float (.ofDecimal 7 0))) "7." :=
    @Kind.IsWritten.decimal ['7'] [] (by simp) (by simp) (by simp)
  have hinteger : Kind.IsWritten (.number (.int 7)) "007" :=
    @Kind.IsWritten.integer ['0', '0', '7'] (by simp) (by simp)
  have hdecimal : Kind.IsWritten (.number (.float (.ofDecimal 25 1))) "2.5" :=
    @Kind.IsWritten.decimal ['2'] ['5'] (by simp) (by simp) (by simp)
  have hparen : Kind.IsWritten .leftParen "(" := .sign (c := '(') (by simp [delimiters])
  have hwritten : ∀ word ∈ words, word.1.IsWritten word.2 := by
    simp only [words, List.forall_mem_cons]
    exact ⟨hslash, hslash, hpoint, hinteger, hdecimal, .letKeyword, .identifier (by decide),
      .identifier (by decide), hparen, .printKeyword, List.forall_mem_nil _⟩
  obtain ⟨tokens, htokens, hok, -⟩ := tokens_of_words hwritten
  exact ⟨hwritten, tokens, htokens, hok⟩

end Reckoner
