import Mathlib.Data.List.DropRight
import Reckoner.Proofs.Scanning

/-!
# Calls on a lexer

The calls on a lexer, in whatever order they are made, deliver one stream: the items of the source
text and the end of input behind them. What a call answers depends only on how many items the calls
since the last restart have used up, and on whether the iteration has ended among them. Both can be
read off these calls and their answers.
-/

namespace Reckoner

/-- A call on a lexer. -/
inductive Call where
  | next
  | peek
  | expect (kind : Kind)
  /-- Asks for the next element of the iteration. -/
  | advance
  | restart
deriving DecidableEq, Repr

/-- What a call answers. -/
inductive Answer where
  | result (result : Except ReadError Token)
  /-- The iteration has ended. -/
  | nothing
  | restarted
deriving DecidableEq, Repr

/-- Calls in the order in which they are made, with their answers. -/
abbrev Log := List (Call × Answer)

namespace Lexer

/-- Makes a call. -/
def call (lexer : Lexer) : Call → Answer × Lexer
  | .next => (.result lexer.next.1, lexer.next.2)
  | .peek => (.result lexer.peek.1, lexer.peek.2)
  | .expect kind => (.result (lexer.expect kind).1, (lexer.expect kind).2)
  | .advance => ((lexer.advance.1.map .result).getD .nothing, lexer.advance.2)
  | .restart => (.restarted, lexer.restart)

/-- Makes some calls in turn. -/
def callAll (lexer : Lexer) : List Call → Log × Lexer
  | [] => ([], lexer)
  | call :: rest =>
    let (answer, next) := lexer.call call
    let (log, final) := next.callAll rest
    ((call, answer) :: log, final)

end Lexer

/-- The answer to a call that delivers an item. -/
def Call.deliver (item : Item) : Call → Answer
  | next | peek | advance => .result item.result
  | expect kind => .result (item.result.bind (Token.require kind))
  | restart => .restarted

namespace Log

/-- Whether a call, by its answer, has used up an item. Looking ahead uses up an illegal character
only. -/
def usesItem : Call × Answer → Bool
  | (.next, _) | (.expect _, _) => true
  | (.peek, .result (.error _)) => true
  | (.advance, .result _) => true
  | _ => false

/-- Whether a call has delivered the end of input to the iteration. -/
def endsIteration : Call × Answer → Bool
  | (.advance, .result (.ok token)) => token.kind = .endOfInput
  | _ => false

/-- The calls since the last restart. -/
def recent (log : Log) : Log :=
  log.rtakeWhile fun entry => entry.1 ≠ .restart

/-- The number of items that the calls since the last restart have used up. -/
def used (log : Log) : Nat :=
  log.recent.countP usesItem

/-- Whether the iteration has ended since the last restart. -/
def ended (log : Log) : Bool :=
  log.recent.any endsIteration

/-- Whether the calls since the last restart that have used up items have delivered the items of a
stream in their order, none of them left out and none of them twice. -/
def Delivers (log : Log) (stream : TokenStream) : Prop :=
  ∀ (k : Nat) (entry : Call × Answer), (log.recent.filter usesItem)[k]? = some entry →
    entry.2 = entry.1.deliver (stream.item k)

theorem recent_concat (log : Log) (entry : Call × Answer) :
    recent (log ++ [entry]) = if entry.1 = .restart then [] else log.recent ++ [entry] := by
  rw [recent, List.rtakeWhile_concat]
  by_cases h : entry.1 = .restart
  · simp [h]
  · simp [h, recent]

theorem used_concat (log : Log) (entry : Call × Answer) :
    used (log ++ [entry]) =
      if entry.1 = .restart then 0 else log.used + if usesItem entry then 1 else 0 := by
  rw [used, recent_concat]
  split
  · rfl
  · rw [List.countP_append, List.countP_singleton, used]

theorem ended_concat (log : Log) (entry : Call × Answer) :
    ended (log ++ [entry]) =
      if entry.1 = .restart then false else log.ended || endsIteration entry := by
  rw [ended, recent_concat]
  split
  · rfl
  · rw [List.any_append, List.any_cons, List.any_nil, Bool.or_false, ended]

theorem delivers_nil (stream : TokenStream) : Delivers [] stream := by
  intro k entry hentry
  simp [recent] at hentry

/-- A log goes on to deliver if its next answer is the item that is due, before which just the used
ones were delivered. -/
theorem Delivers.concat {log : Log} {stream : TokenStream} (h : log.Delivers stream)
    {entry : Call × Answer}
    (hentry : usesItem entry → entry.2 = entry.1.deliver (stream.item log.used)) :
    Delivers (log ++ [entry]) stream := by
  intro k found hfound
  rw [recent_concat] at hfound
  split at hfound
  · simp at hfound
  · rw [List.filter_append, List.getElem?_append] at hfound
    split at hfound
    · exact h k found hfound
    · rename_i hk
      cases huses : usesItem entry with
      | false => simp [huses] at hfound
      | true =>
          rw [List.filter_cons_of_pos huses, List.filter_nil, List.getElem?_singleton] at hfound
          split at hfound
          · rename_i hk'
            obtain rfl := Option.some.inj hfound
            rw [hentry huses, used, List.countP_eq_length_filter]
            congr 2
            omega
          · cases hfound

end Log

namespace Lexer

variable {lexer : Lexer} {source : String} {n : Nat} {ended : Bool}

theorem callAll_cons (lexer : Lexer) (call : Call) (rest : List Call) :
    lexer.callAll (call :: rest) =
      ((call, (lexer.call call).1) :: ((lexer.call call).2.callAll rest).1,
        ((lexer.call call).2.callAll rest).2) := rfl

/-- Calls in two parts are answered part by part. -/
theorem callAll_append (lexer : Lexer) (calls more : List Call) :
    lexer.callAll (calls ++ more) =
      ((lexer.callAll calls).1 ++ ((lexer.callAll calls).2.callAll more).1,
        ((lexer.callAll calls).2.callAll more).2) := by
  induction calls generalizing lexer with
  | nil => rfl
  | cons call calls ih => rw [List.cons_append, callAll_cons, ih, callAll_cons, List.cons_append]

/-! ## One call -/

/-- Whether the calls on a lexer have used up `n` items of a source text, and whether they have
ended the iteration. A token that was looked at counts as not used up, although it has been
scanned. -/
structure Stands (lexer : Lexer) (source : String) (n : Nat) (ended : Bool) : Prop where
  source_eq : lexer.source = source
  ended_eq : lexer.ended = ended
  unscanned : lexer.peeked = none →
    TokenStream.ofChars lexer.place lexer.rest = (TokenStream.ofString source).drop n
  scanned : ∀ t, lexer.peeked = some t → (TokenStream.ofString source).item n = .token t ∧
    TokenStream.ofChars lexer.place lexer.rest = (TokenStream.ofString source).drop (n + 1)

theorem stands_ofString (source : String) : (ofString source).Stands source 0 false where
  source_eq := rfl
  ended_eq := rfl
  unscanned _ := rfl
  scanned t h := by cases h

namespace Stands

theorem next (h : lexer.Stands source n ended) :
    lexer.next.1 = ((TokenStream.ofString source).item n).result ∧
      lexer.next.2.Stands source (n + 1) ended := by
  cases hpeeked : lexer.peeked with
  | none =>
      obtain ⟨hitem, hrest⟩ := scan_eq lexer.place lexer.rest
      rw [h.unscanned hpeeked, TokenStream.item_drop] at hitem
      rw [h.unscanned hpeeked, TokenStream.drop_drop] at hrest
      simp only [Lexer.next, hpeeked]
      exact ⟨congrArg Item.result hitem, h.source_eq, h.ended_eq, fun _ => hrest, by simp⟩
  | some t =>
      obtain ⟨hitem, hrest⟩ := h.scanned t hpeeked
      simp only [Lexer.next, hpeeked]
      exact ⟨by rw [hitem]; rfl, h.source_eq, h.ended_eq, fun _ => hrest, by simp⟩

/-- Looking ahead to a token leaves everything as it is, but that the token has been scanned and is
now the only one that is kept. -/
theorem peek_of_token (h : lexer.Stands source n ended) {t : Token}
    (ht : (TokenStream.ofString source).item n = .token t) :
    lexer.peek.1 = .ok t ∧ lexer.peek.2.Stands source n ended := by
  cases hpeeked : lexer.peeked with
  | some first =>
      obtain ⟨hitem, -⟩ := h.scanned first hpeeked
      simp only [Lexer.peek, hpeeked]
      exact ⟨congrArg Except.ok (Item.token.inj (hitem.symm.trans ht)), h⟩
  | none =>
      obtain ⟨hresult, hnext⟩ := h.next
      have hkept : lexer.next.2.peeked = none := by simp only [Lexer.next, hpeeked]
      rcases hn : lexer.next with ⟨result, next⟩
      rw [hn] at hresult hnext hkept
      obtain rfl : result = .ok t := hresult.trans (congrArg Item.result ht)
      simp only [Lexer.peek, hpeeked, hn]
      refine ⟨trivial, hnext.source_eq, hnext.ended_eq, by simp, ?_⟩
      rintro _ ⟨⟩
      exact ⟨ht, hnext.unscanned hkept⟩

/-- Looking ahead to an illegal character uses it up. -/
theorem peek_of_illegal (h : lexer.Stands source n ended) {error : IllegalCharacter}
    (he : (TokenStream.ofString source).item n = .illegal error) :
    lexer.peek.1 = .error (.illegal error) ∧ lexer.peek.2.Stands source (n + 1) ended := by
  cases hpeeked : lexer.peeked with
  | some first =>
      obtain ⟨hitem, -⟩ := h.scanned first hpeeked
      cases hitem.symm.trans he
  | none =>
      obtain ⟨hresult, hnext⟩ := h.next
      rcases hn : lexer.next with ⟨result, next⟩
      rw [hn] at hresult hnext
      obtain rfl : result = .error (.illegal error) := hresult.trans (congrArg Item.result he)
      simp only [Lexer.peek, hpeeked, hn]
      exact ⟨trivial, hnext⟩

theorem expect (h : lexer.Stands source n ended) (kind : Kind) :
    (lexer.expect kind).1 =
        ((TokenStream.ofString source).item n).result.bind (Token.require kind) ∧
      (lexer.expect kind).2.Stands source (n + 1) ended := by
  obtain ⟨hresult, hnext⟩ := h.next
  exact ⟨congrArg (Except.bind · (Token.require kind)) hresult, hnext⟩

theorem advance_of_ended (h : lexer.Stands source n true) : lexer.advance = (none, lexer) := by
  simp only [Lexer.advance, h.ended_eq, if_true]

/-- The iteration yields the item that is due, and has ended if this was the end of input. -/
theorem advance (h : lexer.Stands source n false) :
    lexer.advance.1 = some ((TokenStream.ofString source).item n).result ∧
      lexer.advance.2.Stands source (n + 1)
        (Log.endsIteration (.advance, .result ((TokenStream.ofString source).item n).result)) := by
  obtain ⟨hresult, hnext⟩ := h.next
  rcases hn : lexer.next with ⟨result, next⟩
  rw [hn] at hresult hnext
  simp only at hresult hnext
  rw [← hresult]
  cases result with
  | error error =>
      simp only [Lexer.advance, h.ended_eq, hn]
      exact ⟨rfl, hnext⟩
  | ok t =>
      simp only [Lexer.advance, h.ended_eq, hn]
      exact ⟨rfl, hnext.source_eq, rfl, hnext.unscanned, hnext.scanned⟩

/-- A lexer that is set back begins anew, whatever it did before. -/
theorem restart (h : lexer.Stands source n ended) : lexer.restart.Stands source 0 false := by
  rw [Lexer.restart, h.source_eq]
  exact stands_ofString source

/-- A call is answered by the next item and behind it a lexer stands where the log of the calls,
this one included, says. -/
theorem call {log : Log} (h : lexer.Stands source log.used log.ended) (call : Call) :
    (lexer.call call).1 =
        (if call = .advance ∧ log.ended then .nothing
          else call.deliver ((TokenStream.ofString source).item log.used)) ∧
      let extended : Log := log ++ [(call, (lexer.call call).1)]
      (lexer.call call).2.Stands source extended.used extended.ended := by
  simp only [Log.used_concat, Log.ended_concat]
  cases call with
  | next =>
      obtain ⟨hresult, hnext⟩ := h.next
      refine ⟨congrArg Answer.result hresult, ?_⟩
      simpa [Lexer.call, Log.usesItem, Log.endsIteration] using hnext
  | expect kind =>
      obtain ⟨hresult, hnext⟩ := h.expect kind
      refine ⟨congrArg Answer.result hresult, ?_⟩
      simpa [Lexer.call, Log.usesItem, Log.endsIteration] using hnext
  | peek =>
      cases hitem : (TokenStream.ofString source).item log.used with
      | token t =>
          obtain ⟨hresult, hpeek⟩ := h.peek_of_token hitem
          refine ⟨congrArg Answer.result hresult, ?_⟩
          simpa [Lexer.call, hresult, Log.usesItem, Log.endsIteration] using hpeek
      | illegal error =>
          obtain ⟨hresult, hpeek⟩ := h.peek_of_illegal hitem
          refine ⟨congrArg Answer.result hresult, ?_⟩
          simpa [Lexer.call, hresult, Log.usesItem, Log.endsIteration] using hpeek
  | advance =>
      cases hended : log.ended with
      | true =>
          rw [hended] at h
          rw [Lexer.call, h.advance_of_ended]
          exact ⟨rfl, h⟩
      | false =>
          rw [hended] at h
          obtain ⟨hresult, hadvance⟩ := h.advance
          rw [Lexer.call, hresult]
          exact ⟨rfl, hadvance⟩
  | restart => exact ⟨rfl, h.restart⟩

/-! ## Some calls -/

theorem callAll {log : Log} (h : lexer.Stands source log.used log.ended) (calls : List Call) :
    let extended : Log := log ++ (lexer.callAll calls).1
    (lexer.callAll calls).2.Stands source extended.used extended.ended := by
  induction calls generalizing lexer log with
  | nil =>
      simp only [Lexer.callAll, List.append_nil]
      exact h
  | cons call calls ih =>
      have hrest := ih (h.call call).2
      simp only [List.append_assoc, List.singleton_append] at hrest
      exact hrest

/-- Whatever is answered is delivered from an item, unless the iteration has ended. -/
theorem mem_callAll {log : Log} (h : lexer.Stands source log.used log.ended) {calls : List Call}
    {entry : Call × Answer} (hentry : entry ∈ (lexer.callAll calls).1) :
    entry.2 = .nothing ∨ ∃ k, entry.2 = entry.1.deliver ((TokenStream.ofString source).item k) := by
  induction calls generalizing lexer log with
  | nil => cases hentry
  | cons call calls ih =>
      obtain ⟨hanswer, hnext⟩ := h.call call
      rw [callAll_cons] at hentry
      cases List.mem_cons.mp hentry with
      | inl hfirst =>
          rw [hfirst, hanswer]
          split
          · exact .inl rfl
          · exact .inr ⟨log.used, rfl⟩
      | inr hrest => exact ih hnext hrest

/-- The calls that use up items deliver them one after the other. -/
theorem delivers {log : Log} (h : lexer.Stands source log.used log.ended)
    (hlog : log.Delivers (TokenStream.ofString source)) (calls : List Call) :
    Log.Delivers (log ++ (lexer.callAll calls).1) (TokenStream.ofString source) := by
  induction calls generalizing lexer log with
  | nil =>
      simp only [Lexer.callAll, List.append_nil]
      exact hlog
  | cons call calls ih =>
      obtain ⟨hanswer, hnext⟩ := h.call call
      have hentry : Log.usesItem (call, (lexer.call call).1) →
          (lexer.call call).1 = call.deliver ((TokenStream.ofString source).item log.used) := by
        intro huses
        by_cases hended : call = .advance ∧ log.ended
        · rw [hanswer, if_pos hended, hended.1] at huses
          cases huses
        · rw [hanswer, if_neg hended]
      have hrest := ih hnext (hlog.concat hentry)
      simp only [List.append_assoc, List.singleton_append] at hrest
      exact hrest

/-- Where two lexers stand at the same item, calls have the same answers. -/
theorem callAll_fst_eq {log : Log} (h : lexer.Stands source log.used log.ended) {other : Lexer}
    (hother : other.Stands source log.used log.ended) (calls : List Call) :
    (lexer.callAll calls).1 = (other.callAll calls).1 := by
  induction calls generalizing lexer other log with
  | nil => rfl
  | cons call calls ih =>
      obtain ⟨hanswer, hnext⟩ := h.call call
      obtain ⟨hanswer', hnext'⟩ := hother.call call
      have hsame : (lexer.call call).1 = (other.call call).1 := hanswer.trans hanswer'.symm
      rw [← hsame] at hnext'
      rw [callAll_cons, callAll_cons, hsame, ih hnext hnext']

/-- Looking ahead to a token any number of times yields this token and leaves it where it is. -/
theorem callAll_replicate_peek (h : lexer.Stands source n ended) {t : Token}
    (ht : (TokenStream.ofString source).item n = .token t) (k : Nat) :
    (lexer.callAll (List.replicate k .peek)).1 = List.replicate k (.peek, .result (.ok t)) ∧
      (lexer.callAll (List.replicate k .peek)).2.Stands source n ended := by
  induction k generalizing lexer with
  | zero => exact ⟨rfl, h⟩
  | succ k ih =>
      obtain ⟨hresult, hpeek⟩ := h.peek_of_token ht
      obtain ⟨hlog, hstands⟩ := ih hpeek
      rw [List.replicate_succ, callAll_cons, Lexer.call, hresult, hlog]
      exact ⟨rfl, hstands⟩

/-- Asking for the next token again and again yields the items in their order. -/
theorem callAll_replicate_next (h : lexer.Stands source n ended) (k : Nat) :
    (lexer.callAll (List.replicate k .next)).1 = (List.range' n k).map fun j =>
      (.next, .result ((TokenStream.ofString source).item j).result) := by
  induction k generalizing lexer n with
  | zero => rfl
  | succ k ih =>
      obtain ⟨hresult, hnext⟩ := h.next
      rw [List.replicate_succ, callAll_cons, Lexer.call, hresult, ih hnext]
      rfl

end Stands

/-- The calls on a lexer deliver one stream.

The next call delivers the next item that was not used up, unless it asks for the next element of an
iteration that has ended: then it answers nothing. The calls that have used up items since the last
restart have delivered the first items, one after the other. While the next item is a token, looking
ahead any number of times shows it and changes no later answer. Behind a restart all answers are
those of a new lexer. -/
theorem calls_deliver_one_stream (source : String) (calls : List Call) :
    let stream := TokenStream.ofString source
    let log := ((ofString source).callAll calls).1
    let lexer := ((ofString source).callAll calls).2
    (∀ call, (lexer.call call).1 =
      if call = .advance ∧ log.ended then .nothing else call.deliver (stream.item log.used)) ∧
    log.Delivers stream ∧
    (∀ t, stream.item log.used = .token t → ∀ k further,
      (lexer.callAll (List.replicate k .peek ++ further)).1 =
        List.replicate k (.peek, .result (.ok t)) ++ (lexer.callAll further).1) ∧
    ∀ further, (lexer.callAll (.restart :: further)).1 =
      (.restart, .restarted) :: ((ofString source).callAll further).1 := by
  intro stream log lexer
  have hstands : lexer.Stands source log.used log.ended :=
    @Stands.callAll _ _ [] (stands_ofString source) calls
  have hdelivers : log.Delivers stream :=
    @Stands.delivers _ _ [] (stands_ofString source) (Log.delivers_nil stream) calls
  refine ⟨fun call => (hstands.call call).1, hdelivers, ?_, ?_⟩
  · intro t ht k further
    obtain ⟨hpeeks, hpeeked⟩ := hstands.callAll_replicate_peek ht k
    rw [callAll_append, hpeeks, hpeeked.callAll_fst_eq hstands]
  · intro further
    rw [callAll_cons, Lexer.call, restart, hstands.source_eq]

/-- Between the two names of `a b` the second one can be looked at twice before it is refused. -/
theorem calls_deliver_one_stream_two_names :
    let log := ((ofString "a b").callAll [.next]).1
    let lexer := ((ofString "a b").callAll [.next]).2
    (TokenStream.ofString "a b").item log.used = .token ⟨.identifier, "b", ⟨2, 1, 3⟩⟩ ∧
      (lexer.callAll [.peek, .peek, .expect .plus]).1 =
        List.replicate 2 (.peek, .result (.ok ⟨.identifier, "b", ⟨2, 1, 3⟩⟩)) ++
          (lexer.callAll [.expect .plus]).1 := by
  have hitem : (TokenStream.ofString "a b").item ((ofString "a b").callAll [.next]).1.used =
      .token ⟨.identifier, "b", ⟨2, 1, 3⟩⟩ := by decide +kernel
  exact ⟨hitem, (calls_deliver_one_stream "a b" [.next]).2.2.1 _ hitem 2 [.expect .plus]⟩

end Lexer

end Reckoner
