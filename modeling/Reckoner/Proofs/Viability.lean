import Reckoner.Proofs.Language
import Reckoner.Proofs.Lexing

/-!
# Failures stand at the earliest possible place

While an action reads, the language of the tokens that may still follow is known exactly: it is what
the tokens read so far leave of the language of programs. Each action is tracked from the language
before it to the language behind it. Where an action fails, the language in front of the failure has
words, but none that begins with the token that is refused.
-/

namespace Reckoner

open scoped Computability

/-- The kinds that an expectation names. -/
def Expectation.Names : Expectation → Kind → Prop
  | kind required, found => found = required
  | statement, found => found = .letKeyword ∨ found = .printKeyword
  | factor, found => (∃ value, found = .number value) ∨ found = .identifier ∨ found = .leftParen

/-- Whether a syntax error says that a token was found where something else is expected. -/
def SyntaxError.Refuses : SyntaxError → Expectation → Token → Prop
  | mismatch required found, expected, t => expected = .kind required ∧ t = found
  | unexpectedToken expectation found, expected, t => expected = expectation ∧ t = found
  | unexpectedEnd expectation position, expected, t =>
    expected = expectation ∧ t.kind = .endOfInput ∧ t.position = position
  | tooDeep _, _, _ => False

/-- Whether some program begins with the given tokens. -/
def Viable (tokens : List Token) : Prop :=
  ∃ rest found, DerivesProgram (tokens ++ rest) found

/-- Whatever is expected is of some kind. -/
theorem Expectation.exists_names (expected : Expectation) : ∃ kind, expected.Names kind := by
  cases expected with
  | kind required => exact ⟨required, rfl⟩
  | statement => exact ⟨.letKeyword, .inl rfl⟩
  | factor => exact ⟨.identifier, .inr (.inl rfl)⟩

theorem SyntaxError.ofMismatch_refuses (required : Kind) (t : Token) :
    (ofMismatch required t).Refuses (.kind required) t := by
  rw [ofMismatch]
  split
  · exact ⟨rfl, ‹_›, rfl⟩
  · exact ⟨rfl, rfl⟩

theorem SyntaxError.ofUnexpected_refuses (expected : Expectation) (t : Token) :
    (ofUnexpected expected t).Refuses expected t := by
  rw [ofUnexpected]
  split
  · exact ⟨rfl, ‹_›, rfl⟩
  · exact ⟨rfl, rfl⟩

namespace TokenStream

/-- Whether a token is the next one of a stream. -/
def Starts (stream : TokenStream) (t : Token) : Prop :=
  ∃ rest, stream.sequence = .token t :: rest

theorem starts_prepend {s t : Token} {u : List Token} {stream : TokenStream} :
    (stream.prepend (t :: u)).Starts s ↔ s = t := by
  simp [Starts, sequence_prepend, eq_comm]

theorem starts_of_nil {s : Token} {stream : TokenStream} (h : stream.items = []) :
    stream.Starts s ↔ s = stream.endToken := by
  simp [Starts, sequence, h, eq_comm]

/-- A stream begins with one token only. -/
theorem Starts.eq {s t : Token} {stream : TokenStream} (hs : stream.Starts s)
    (ht : stream.Starts t) : s = t := by
  obtain ⟨_, hs⟩ := hs
  obtain ⟨_, ht⟩ := ht
  exact Item.token.inj (List.cons.inj (hs.symm.trans ht)).1

end TokenStream

namespace Reading

/-- Whether a failure to read a stream is right, when `M` holds the token sequences that may stand
there. The tokens before the failure begin a word of `M`. With the token that is refused they do
not, but with a token of each expected kind they do. -/
def Blames (M : Language Token) (stream : TokenStream) : ReadError → Prop
  | .illegal error => ∃ u rest w, stream.items = u.map .token ++ .illegal error :: rest ∧ u ++ w ∈ M
  | .unparsable error => (∃ t, error = .tooDeep t) ∨ ∃ expected t u rest,
      error.Refuses expected t ∧ stream.sequence = u.map .token ++ .token t :: rest ∧
      (∀ w, u ++ t :: w ∉ M) ∧
      ∀ kind, expected.Names kind → ∃ s w, s.kind = kind ∧ u ++ s :: w ∈ M

/-- Whether the words of `M` that go on like a stream behind some tokens go on with words of `K`. -/
structure Leaves (M : Language Token) (u : List Token) (stream : TokenStream)
    (K : Language Token) : Prop where
  keep : ∀ w ∈ K, u ++ w ∈ M
  only : ∀ t w, stream.Starts t → u ++ t :: w ∈ M → t :: w ∈ K

/-- Whether a result of reading a stream of `M` is right, when `K` is to stand behind it. -/
def Tracked (M K : Language Token) (stream : TokenStream) : Except ReadError α × TokenStream → Prop
  | (.ok _, rest) => ∃ u, stream = rest.prepend u ∧ Leaves M u rest K
  | (.error error, _) => Blames M stream error

theorem Leaves.refl (M : Language Token) (stream : TokenStream) : Leaves M [] stream M :=
  ⟨fun _ hw => hw, fun _ _ _ hw => hw⟩

/-- What is left behind one piece and then behind another is left behind both. -/
theorem Leaves.trans {M M' K : Language Token} {u v : List Token} {stream : TokenStream}
    (h : Leaves M u (stream.prepend v) M') (h' : Leaves M' v stream K) :
    Leaves M (u ++ v) stream K := by
  constructor
  · intro w hw
    rw [List.append_assoc]
    exact h.keep _ (h'.keep w hw)
  · intro t w ht hw
    apply h'.only t w ht
    rw [List.append_assoc] at hw
    cases v with
    | nil => exact h.only t w ht hw
    | cons s v => exact h.only s _ (TokenStream.starts_prepend.mpr rfl) hw

/-- A failure that is right behind some tokens is right with these tokens in front. -/
theorem Blames.prepend {M K : Language Token} {u : List Token} {stream : TokenStream}
    {error : ReadError} (h : Leaves M u stream K) (hb : Blames K stream error) :
    Blames M (stream.prepend u) error := by
  cases error with
  | illegal error =>
      obtain ⟨v, rest, w, hitems, hw⟩ := hb
      refine ⟨u ++ v, rest, w, by simp [hitems], ?_⟩
      rw [List.append_assoc]
      exact h.keep _ hw
  | unparsable error =>
      rcases hb with hdeep | ⟨expected, t, v, rest, hr, hseq, hnot, hnames⟩
      · exact .inl hdeep
      refine .inr ⟨expected, t, u ++ v, rest, hr, ?_, ?_, ?_⟩
      · rw [TokenStream.sequence_prepend, hseq, List.map_append, List.append_assoc]
      · intro w hw
        rw [List.append_assoc] at hw
        cases v with
        | nil => exact hnot w (h.only t w ⟨rest, hseq⟩ hw)
        | cons s v => exact hnot w (h.only s _ ⟨_, hseq⟩ hw)
      · intro kind hk
        obtain ⟨s, w, hs, hw⟩ := hnames kind hk
        refine ⟨s, w, hs, ?_⟩
        rw [List.append_assoc]
        exact h.keep _ hw

theorem Tracked.leaves {M M' K : Language Token} {u : List Token} {stream : TokenStream}
    {result : Except ReadError α × TokenStream} (h : Leaves M u stream M')
    (hr : Tracked M' K stream result) : Tracked M K (stream.prepend u) result := by
  rcases result with ⟨error | result, rest⟩
  · exact Blames.prepend h hr
  · obtain ⟨v, rfl, hv⟩ := hr
    exact ⟨u ++ v, (TokenStream.prepend_append u v rest).symm, h.trans hv⟩

/-- Tracking composes along the language that stands between two actions. -/
theorem Tracked.bind {M M' K : Language Token} {stream : TokenStream}
    {action : Reading TokenStream α} {further : α → Reading TokenStream β}
    (h : Tracked M M' stream (action.on stream))
    (hf : ∀ first rest, Tracked M' K rest ((further first).on rest)) :
    Tracked M K stream ((action >>= further).on stream) := by
  rw [on_bind]
  rcases hon : action.on stream with ⟨error | first, rest⟩
  · rwa [hon] at h
  · rw [hon] at h
    obtain ⟨u, rfl, hu⟩ := h
    exact (hf first rest).leaves hu

theorem tracked_pure {K : Language Token} {stream : TokenStream} (result : α) :
    Tracked K K stream ((pure result : Reading TokenStream α).on stream) :=
  ⟨[], rfl, .refl K stream⟩

/-- A failure at a depth limit is no matter of the language. -/
theorem tracked_tooDeep {M K : Language Token} {stream : TokenStream} (t : Token) :
    Tracked M K stream ((refuse (.tooDeep t) : Reading TokenStream α).on stream) :=
  .inl ⟨t, rfl⟩

/-- A token is rightly refused that no word begins with, when each expected kind begins a word. -/
theorem blames_of_starts {M : Language Token} {stream : TokenStream} {t : Token}
    {error : SyntaxError} {expected : Expectation} (ht : stream.Starts t)
    (hr : error.Refuses expected t) (hnot : ∀ w, t :: w ∉ M)
    (hnames : ∀ kind, expected.Names kind → ∃ s w, s.kind = kind ∧ s :: w ∈ M) :
    Blames M stream (.unparsable error) := by
  obtain ⟨rest, hseq⟩ := ht
  exact .inr ⟨expected, t, [], rest, hr, hseq, hnot, hnames⟩

/-- An illegal character is blamed where any word may stand. -/
theorem blames_of_illegal {M : Language Token} (hM : ∃ w, w ∈ M) {stream : TokenStream}
    {error : IllegalCharacter} {rest : List Item} (h : stream.items = .illegal error :: rest) :
    Blames M stream (.illegal error) := by
  obtain ⟨w, hw⟩ := hM
  exact ⟨[], rest, w, h, hw⟩

/-- The next token of a stream is taken unless it is the end of input, and an illegal character is
reported. -/
theorem next_cases (stream : TokenStream) :
    (∃ t rest, next.on stream = (.ok t, rest) ∧ stream.Starts t ∧
        (t.kind ≠ .endOfInput → stream = rest.prepend [t])) ∨
      ∃ error rest items, next.on stream = (.error (.illegal error), rest) ∧
        stream.items = .illegal error :: items := by
  rcases stream.head_cases with hnil | ⟨t, tail, rfl⟩ | ⟨error, items, hitems⟩
  · refine .inl ⟨stream.endToken, stream, next_on_of_nil hnil, ?_, fun h => absurd rfl h⟩
    exact (TokenStream.starts_of_nil hnil).mpr rfl
  · have hstarts := (@TokenStream.starts_prepend t t [] tail).mpr rfl
    exact .inl ⟨t, tail, next_on_prepend t [] tail, hstarts, fun _ => rfl⟩
  · exact .inr ⟨error, _, items, next_on_of_illegal hitems, hitems⟩

theorem peek_cases (stream : TokenStream) :
    (∃ t, peek.on stream = (.ok t, stream) ∧ stream.Starts t) ∨
      ∃ error rest items, peek.on stream = (.error (.illegal error), rest) ∧
        stream.items = .illegal error :: items := by
  rcases stream.head_cases with hnil | ⟨t, tail, rfl⟩ | ⟨error, items, hitems⟩
  · exact .inl ⟨_, peek_on_of_nil hnil, (TokenStream.starts_of_nil hnil).mpr rfl⟩
  · exact .inl ⟨t, peek_on_prepend t [] tail, TokenStream.starts_prepend.mpr rfl⟩
  · exact .inr ⟨error, _, items, peek_on_of_illegal hitems, hitems⟩

/-- Behind a token stands what may follow this token in a word. -/
theorem leaves_of_cons {M K : Language Token} {t : Token} (h : ∀ w, t :: w ∈ M ↔ w ∈ K)
    (stream : TokenStream) : Leaves M [t] stream K :=
  ⟨fun w hw => (h w).mpr hw, fun s w _ hw => (h (s :: w)).mp hw⟩

/-- Requiring a kind tracks the language of this kind and of what follows. -/
theorem tracked_expect {kind : Kind} (hk : ∀ value, kind ≠ .number value)
    (hend : kind ≠ .endOfInput) {K : Language Token} (hK : ∃ w, w ∈ K) (stream : TokenStream) :
    Tracked (single kind * K) K stream ((expect kind).on stream) := by
  rw [expect, on_bind]
  rcases next_cases stream with
    ⟨t, rest, hnext, hstarts, htake⟩ | ⟨error, rest, items, hnext, hitems⟩
  · rw [hnext]
    by_cases ht : t.kind = kind
    · simp only [if_pos ((Kind.beq_iff_eq hk).mpr ht), on_pure]
      have htaken := htake fun h => hend (ht.symm.trans h)
      refine ⟨[t], htaken, leaves_of_cons (fun w => ?_) rest⟩
      rw [cons_mem_single_mul, and_iff_right ht]
    · simp only [if_neg (mt (Kind.beq_iff_eq hk).mp ht), on_refuse]
      apply blames_of_starts hstarts (SyntaxError.ofMismatch_refuses kind t)
      · intro w hw
        exact ht (cons_mem_single_mul.mp hw).1
      · intro found hfound
        obtain ⟨w, hw⟩ := hK
        exact ⟨⟨found, "", .start⟩, w, rfl, cons_mem_single_mul.mpr ⟨hfound, hw⟩⟩
  · rw [hnext]
    exact blames_of_illegal (exists_mem_mul (exists_mem_single kind) hK) hitems

section

variable {operator? : Kind → Option Operator} {O K : Language Token}

theorem exists_mem_chain_mul (hK : ∃ w, w ∈ K) : ∃ w, w ∈ (signs operator? * O)∗ * K :=
  exists_mem_mul ⟨[], Language.nil_mem_kstar _⟩ hK

/-- At a token that stands for no operation a chain leaves what may follow it. -/
theorem leaves_chain {stream : TokenStream} (h : ∀ t, stream.Starts t → operator? t.kind = none) :
    Leaves ((signs operator? * O)∗ * K) [] stream K := by
  constructor
  · intro w hw
    exact Language.append_mem_mul (Language.nil_mem_kstar _) hw
  · intro t w ht hw
    exact (cons_mem_chain_mul.mp hw).resolve_right fun hne => hne.1 (h t ht)

/-- A chain tracks the language of its further operations, if no word behind it begins with their
signs. -/
theorem tracked_chain (hend : operator? .endOfInput = none) (hK : ∃ w, w ∈ K)
    (havoids : Avoids operator? K) {operand : Reading TokenStream Expr}
    (ho : ∀ stream, Tracked (O * ((signs operator? * O)∗ * K)) ((signs operator? * O)∗ * K) stream
      (operand.on stream)) (left : Expr) (stream : TokenStream) :
    Tracked ((signs operator? * O)∗ * K) K stream ((chain operator? operand left).on stream) := by
  induction left using chain.induct generalizing stream with
  | case1 left ih =>
      rcases stream.head_cases with hnil | ⟨t, tail, rfl⟩ | ⟨error, items, hitems⟩
      · rw [chain_on_of_peek (peek_on_of_nil hnil) hend]
        have hleaves : Leaves ((signs operator? * O)∗ * K) [] stream K := by
          apply leaves_chain
          intro t ht
          rw [(TokenStream.starts_of_nil hnil).mp ht]
          exact hend
        exact ⟨[], rfl, hleaves⟩
      · cases ht : operator? t.kind with
        | none =>
            rw [chain_on_of_peek (peek_on_prepend t [] tail) ht]
            have hleaves : Leaves ((signs operator? * O)∗ * K) [] (tail.prepend [t]) K := by
              apply leaves_chain
              intro s hs
              rw [TokenStream.starts_prepend.mp hs, ht]
            exact ⟨[], rfl, hleaves⟩
        | some operator =>
            have hsign : Leaves ((signs operator? * O)∗ * K) [t] tail
                (O * ((signs operator? * O)∗ * K)) := by
              apply leaves_of_cons
              intro w
              rw [cons_mem_chain_mul, ht]
              constructor
              · intro hw
                refine (hw.resolve_left fun hw => ?_).2
                simp [havoids hw] at ht
              · intro hw
                exact .inr ⟨by simp, hw⟩
            rw [chain_on_prepend ht]
            apply Tracked.leaves hsign
            apply (ho tail).bind
            intro right rest
            split
            · rename_i hd
              exact ih operator t right hd rest
            · exact tracked_tooDeep t
      · rw [chain, on_bind, peek_on_of_illegal hitems]
        exact blames_of_illegal (exists_mem_chain_mul hK) hitems

end

theorem avoids_chain_mul {operator? other? : Kind → Option Operator} {O K : Language Token}
    (hK : Avoids other? K) (hne : ∀ k, operator? k ≠ none → other? k = none) :
    Avoids other? ((signs operator? * O)∗ * K) := by
  intro t w hw
  rcases cons_mem_chain_mul.mp hw with hw | ⟨ht, -⟩
  · exact hK hw
  · exact hne t.kind ht

/-- Whether results of an action that reads factors are right, whatever is to stand behind them. -/
def TracksFactors (action : Reading TokenStream Expr) : Prop :=
  ∀ ⦃K : Language Token⦄, (∃ w, w ∈ K) →
    ∀ stream, Tracked (expressions .factor * K) K stream (action.on stream)

theorem tracked_product {action : Reading TokenStream Expr} (hf : TracksFactors action)
    {K : Language Token} (hK : ∃ w, w ∈ K) (hmul : Avoids multiplicative? K)
    (stream : TokenStream) :
    Tracked (expressions .product * K) K stream ((product action).on stream) := by
  rw [expressions_eq .product, mul_assoc]
  apply (hf (exists_mem_chain_mul hK) stream).bind
  intro left rest
  exact tracked_chain rfl hK hmul (hf (exists_mem_chain_mul hK)) left rest

theorem tracked_sum {action : Reading TokenStream Expr} (hf : TracksFactors action)
    {K : Language Token} (hK : ∃ w, w ∈ K) (hadd : Avoids additive? K)
    (hmul : Avoids multiplicative? K) (stream : TokenStream) :
    Tracked (expressions .sum * K) K stream ((sum action).on stream) := by
  have hproduct (stream : TokenStream) := tracked_product hf
    (@exists_mem_chain_mul additive? (expressions .product) K hK)
    (avoids_chain_mul hmul fun k hk => by cases k <;> first | rfl | exact absurd rfl hk) stream
  rw [expressions_eq .sum, mul_assoc]
  apply (hproduct stream).bind
  intro left rest
  exact tracked_chain rfl hK hadd hproduct left rest

/-- What stands in parentheses is tracked up to the parenthesis that closes them. -/
theorem tracked_parenthesized {levels : Nat} (hf : TracksFactors (factor levels))
    {K : Language Token} (hK : ∃ w, w ∈ K) (l : Token) (stream : TokenStream) :
    Tracked (expressions .sum * (single .rightParen * K)) K stream
      ((parenthesized (levels + 1) l).on stream) := by
  have hright := exists_mem_mul (exists_mem_single .rightParen) hK
  apply (tracked_sum hf hright (avoids_single_mul rfl) (avoids_single_mul rfl) stream).bind
  intro inner rest
  apply (tracked_expect (by simp) (by simp) hK rest).bind
  intro _ rest
  exact tracked_pure inner

theorem exists_cons_mem_factor_mul {K : Language Token} (hK : ∃ w, w ∈ K) {kind : Kind}
    (h : Expectation.factor.Names kind) :
    ∃ (s : Token) (w : List Token), s.kind = kind ∧ s :: w ∈ expressions .factor * K := by
  obtain ⟨w, hw⟩ := hK
  rcases or_assoc.mpr h with hleaf | hleft
  · exact ⟨⟨kind, "", .start⟩, w, rfl, cons_mem_factor_mul.mpr (.inl ⟨hleaf, hw⟩)⟩
  · obtain ⟨v, hv⟩ := exists_mem_mul (exists_mem_expressions .sum)
      (exists_mem_mul (exists_mem_single .rightParen) ⟨w, hw⟩)
    exact ⟨⟨kind, "", .start⟩, v, rfl, cons_mem_factor_mul.mpr (.inr ⟨hleft, hv⟩)⟩

/-- Reading a factor tracks the language of factors. By induction on the levels of parentheses. The
four cases of the first token are those of the grammar, and only a parenthesis needs the
induction. -/
theorem tracksFactors_factor (levels : Nat) : TracksFactors (factor levels) := by
  have step {levels : Nat} (hp : ∀ {K : Language Token}, (∃ w, w ∈ K) → ∀ l stream,
      Tracked (expressions .sum * (single .rightParen * K)) K stream
        ((parenthesized levels l).on stream)) : TracksFactors (factor levels) := by
    intro K hK stream
    rw [factor_eq, on_bind]
    rcases next_cases stream with
      ⟨t, rest, hnext, hstarts, htake⟩ | ⟨error, rest, items, hnext, hitems⟩
    · rw [hnext]
      have leaf (hleaf : (∃ value, t.kind = .number value) ∨ t.kind = .identifier) (e : Expr) :
          Tracked (expressions .factor * K) K stream (.ok e, rest) := by
        refine ⟨[t], htake ?_, leaves_of_cons (fun w => ?_) rest⟩
        · rcases hleaf with ⟨value, ht⟩ | ht <;> simp [ht]
        · rw [cons_mem_factor_mul, and_iff_right hleaf, or_iff_left]
          rcases hleaf with ⟨value, ht⟩ | ht <;> simp [ht]
      simp only [factorTail]
      split
      · exact leaf (.inl ⟨_, ‹_›⟩) _
      · exact leaf (.inr ‹_›) _
      · rename_i ht
        rw [htake (by simp [ht])]
        have hleft : Leaves (expressions .factor * K) [t] rest
            (expressions .sum * (single .rightParen * K)) := by
          apply leaves_of_cons
          intro w
          rw [cons_mem_factor_mul, and_iff_right ht, or_iff_right]
          simp [ht]
        exact (hp hK t rest).leaves hleft
      · rename_i hnumber hidentifier hleft
        apply blames_of_starts hstarts (SyntaxError.ofUnexpected_refuses .factor t)
        · intro w hw
          rcases cons_mem_factor_mul.mp hw with ⟨⟨value, ht⟩ | ht, -⟩ | ⟨ht, -⟩
          · exact hnumber value ht
          · exact hidentifier ht
          · exact hleft ht
        · intro kind hkind
          exact exists_cons_mem_factor_mul hK hkind
    · rw [hnext]
      exact blames_of_illegal (exists_mem_mul (exists_mem_expressions .factor) hK) hitems
  induction levels with
  | zero => exact step fun _ l _ => tracked_tooDeep l
  | succ levels ih => exact step (tracked_parenthesized ih)

theorem tracked_expression {K : Language Token} (hK : ∃ w, w ∈ K) (hadd : Avoids additive? K)
    (hmul : Avoids multiplicative? K) (stream : TokenStream) :
    Tracked (expressions .sum * K) K stream (expression.on stream) :=
  tracked_sum (tracksFactors_factor maxDepth) hK hadd hmul stream

theorem tracked_assignment {K : Language Token} (hK : ∃ w, w ∈ K) (stream : TokenStream) :
    Tracked (assignments * K) K stream (assignment.on stream) := by
  have hsemicolon := exists_mem_mul (exists_mem_single .semicolon) hK
  have hsum := exists_mem_mul (exists_mem_expressions .sum) hsemicolon
  have hassign := exists_mem_mul (exists_mem_single .assign) hsum
  have hname := exists_mem_mul (exists_mem_single .identifier) hassign
  simp only [assignments, mul_assoc]
  apply (tracked_expect (by simp) (by simp) hname stream).bind
  intro _ rest
  apply (tracked_expect (by simp) (by simp) hassign rest).bind
  intro name rest
  apply (tracked_expect (by simp) (by simp) hsum rest).bind
  intro _ rest
  apply (tracked_expression hsemicolon (avoids_single_mul rfl) (avoids_single_mul rfl) rest).bind
  intro e rest
  apply (tracked_expect (by simp) (by simp) hK rest).bind
  intro _ rest
  exact tracked_pure _

theorem tracked_printing {K : Language Token} (hK : ∃ w, w ∈ K) (stream : TokenStream) :
    Tracked (printings * K) K stream (printing.on stream) := by
  have hsemicolon := exists_mem_mul (exists_mem_single .semicolon) hK
  have hright := exists_mem_mul (exists_mem_single .rightParen) hsemicolon
  have hsum := exists_mem_mul (exists_mem_expressions .sum) hright
  have hleft := exists_mem_mul (exists_mem_single .leftParen) hsum
  simp only [printings, mul_assoc]
  apply (tracked_expect (by simp) (by simp) hleft stream).bind
  intro _ rest
  apply (tracked_expect (by simp) (by simp) hsum rest).bind
  intro _ rest
  apply (tracked_expression hright (avoids_single_mul rfl) (avoids_single_mul rfl) rest).bind
  intro e rest
  apply (tracked_expect (by simp) (by simp) hsemicolon rest).bind
  intro _ rest
  apply (tracked_expect (by simp) (by simp) hK rest).bind
  intro _ rest
  exact tracked_pure _

theorem tracked_statement {K : Language Token} (hK : ∃ w, w ∈ K) (stream : TokenStream) :
    Tracked ((assignments + printings) * K) K stream (statement.on stream) := by
  obtain ⟨p, v, hp, hprinting⟩ := exists_cons_mem_printings_mul hK
  obtain ⟨l, w, hl, hassignment⟩ := exists_cons_mem_assignments_mul hK
  rw [add_mul, statement, on_bind]
  rcases peek_cases stream with ⟨t, hpeek, hstarts⟩ | ⟨error, rest, items, hpeek, hitems⟩
  · rw [hpeek]
    simp only
    split
    · rename_i ht
      have hleaves : Leaves (assignments * K + printings * K) [] stream (assignments * K) := by
        constructor
        · intro w hw
          exact .inl hw
        · intro s w hs hw
          apply hw.resolve_right
          intro hw
          have hprint := cons_mem_printings_mul hw
          rw [hs.eq hstarts, ht] at hprint
          cases hprint
      exact (tracked_assignment hK stream).leaves hleaves
    · rename_i ht
      have hleaves : Leaves (assignments * K + printings * K) [] stream (printings * K) := by
        constructor
        · intro w hw
          exact .inr hw
        · intro s w hs hw
          apply hw.resolve_left
          intro hw
          have hlet := cons_mem_assignments_mul hw
          rw [hs.eq hstarts, ht] at hlet
          cases hlet
      exact (tracked_printing hK stream).leaves hleaves
    · rename_i hlet hprint
      apply blames_of_starts hstarts (SyntaxError.ofUnexpected_refuses .statement t)
      · rintro w (hw | hw)
        · exact hlet (cons_mem_assignments_mul hw)
        · exact hprint (cons_mem_printings_mul hw)
      · rintro kind (rfl | rfl)
        · exact ⟨l, w, hl, .inl hassignment⟩
        · exact ⟨p, v, hp, .inr hprinting⟩
  · rw [hpeek]
    exact blames_of_illegal ⟨l :: w, .inl hassignment⟩ hitems

/-- In front of a token other than the end of input a program goes on with a statement. -/
theorem leaves_programs {stream : TokenStream} (h : ∀ t, stream.Starts t → t.kind ≠ .endOfInput) :
    Leaves programs [] stream ((assignments + printings) * programs) :=
  ⟨fun _ => mem_programs_of_mul, fun t _ ht hw => cons_mem_programs hw (h t ht)⟩

theorem kind_ne_of_starts {stream : TokenStream} (hend : ¬stream.atEnd)
    (h : ∀ t, .token t ∈ stream.items → t.kind ≠ .endOfInput) {t : Token}
    (ht : stream.Starts t) : t.kind ≠ .endOfInput := by
  rcases stream.head_cases with hnil | ⟨s, tail, rfl⟩ | ⟨error, items, hitems⟩
  · exact absurd (List.isEmpty_iff.mpr hnil) hend
  · rw [TokenStream.starts_prepend.mp ht]
    exact h s (by simp)
  · obtain ⟨rest, hseq⟩ := ht
    simp [TokenStream.sequence, hitems] at hseq

/-- A failure among the statements of a stream is rightly blamed. -/
theorem blames_of_statements {stream : TokenStream} {found : List Statement} {error : ReadError}
    (hkinds : ∀ t, .token t ∈ stream.items → t.kind ≠ .endOfInput)
    (h : statements stream = (found, some error)) : Blames programs stream error := by
  induction stream using statements.induct generalizing found with
  | case1 stream hend =>
      rw [statements_of_atEnd hend] at h
      cases h
  | case2 stream hend first rest hon =>
      rw [statements_of_error hend hon] at h
      cases h
      have htracked := tracked_statement exists_mem_programs stream
      rw [hon] at htracked
      exact Blames.prepend (leaves_programs fun _ => kind_ne_of_starts hend hkinds) htracked
  | case3 stream hend first rest hon ih =>
      rw [statements_of_ok hon] at h
      have htracked := tracked_statement exists_mem_programs stream
      rw [hon] at htracked
      obtain ⟨u, rfl, hu⟩ := htracked
      have hrest : Blames programs rest error := by
        apply ih _ (Prod.ext rfl (Prod.mk.inj h).2)
        intro t ht
        exact hkinds t (List.mem_append_right _ ht)
      have hleaves := leaves_programs fun _ => kind_ne_of_starts hend hkinds
      exact Blames.prepend (hleaves.trans hu) hrest

end Reading

/-- A source text that cannot be read, though no depth limit is exceeded, fails at the earliest
possible place. An illegal character is reported only if it is the first one and the tokens before
it begin a program. A syntax error refuses a token such that the tokens before it begin a program,
but do not with this token, and do with a token of each expected kind. -/
theorem parse_error_earliest (source : String) (error : ReadError)
    (h : Program.parse source = .error error) (hdeep : ∀ t, error ≠ .unparsable (.tooDeep t)) :
    match error with
    | .illegal error =>
      (TokenStream.ofString source).tokens = .error error ∧
        ∃ before after, (TokenStream.ofString source).items =
          before.map .token ++ .illegal error :: after ∧ Viable before
    | .unparsable error =>
      ∃ expected t before after, error.Refuses expected t ∧
        (TokenStream.ofString source).sequence = before.map .token ++ .token t :: after ∧
        Viable before ∧ ¬Viable (before ++ [t]) ∧
        ∀ kind, expected.Names kind → ∃ s, s.kind = kind ∧ Viable (before ++ [s]) := by
  have hb : Reading.Blames programs (TokenStream.ofString source) error := by
    rw [Program.parse, Reading.program] at h
    rcases hs : Reading.statements (.ofString source) with ⟨found, _ | failure⟩
    · rw [hs] at h
      cases h
    · rw [hs] at h
      cases h
      exact Reading.blames_of_statements (fun _ => TokenStream.kind_ne_of_mem_ofChars) hs
  cases error with
  | illegal error =>
      obtain ⟨before, after, w, hitems, found, hw⟩ := hb
      exact ⟨TokenStream.tokens_eq_error_iff.mpr ⟨before, after, hitems⟩, before, after, hitems,
        w, found, hw⟩
  | unparsable error =>
      rcases hb with ⟨t, rfl⟩ | ⟨expected, t, before, after, hr, hseq, hnot, hnames⟩
      · exact absurd rfl (hdeep t)
      have possible {kind : Kind} (hk : expected.Names kind) :
          ∃ s, s.kind = kind ∧ Viable (before ++ [s]) := by
        obtain ⟨s, w, hs, found, hw⟩ := hnames kind hk
        exact ⟨s, hs, w, found, by rwa [List.append_assoc]⟩
      refine ⟨expected, t, before, after, hr, hseq, ?_, ?_, fun kind => possible⟩
      · obtain ⟨kind, hk⟩ := expected.exists_names
        obtain ⟨s, -, w, found, hw⟩ := possible hk
        exact ⟨s :: w, found, by rwa [List.append_assoc] at hw⟩
      · rintro ⟨w, found, hw⟩
        rw [List.append_assoc] at hw
        exact hnot w ⟨found, hw⟩

/-- In `let x = (1 2);` the second number is refused in place of the closing parenthesis. -/
theorem parse_error_earliest_missing_sign :
    let found : Token := ⟨.number (.int 2), "2", ⟨11, 1, 12⟩⟩
    Program.parse "let x = (1 2);" = .error (.unparsable (.mismatch .rightParen found)) ∧
      ∃ expected t before after, (SyntaxError.mismatch .rightParen found).Refuses expected t ∧
        (TokenStream.ofString "let x = (1 2);").sequence = before.map .token ++ .token t :: after ∧
        Viable before ∧ ¬Viable (before ++ [t]) ∧
        ∀ kind, expected.Names kind → ∃ s, s.kind = kind ∧ Viable (before ++ [s]) := by
  intro found
  have hparse : Program.parse "let x = (1 2);" =
      .error (.unparsable (.mismatch .rightParen found)) := by
    decide +kernel
  have hdeep (t : Token) : ReadError.unparsable (.mismatch .rightParen found) ≠
      .unparsable (.tooDeep t) := by
    intro h
    cases h
  exact ⟨hparse, parse_error_earliest "let x = (1 2);" _ hparse hdeep⟩

end Reckoner
