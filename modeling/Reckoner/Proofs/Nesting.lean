import Reckoner.Proofs.Simulation

/-!
# Counting open parentheses and active calls

`Reading.factor` is told how many parentheses may still be opened. A tally of a source keeps a count
of those that are open instead. It is raised in front of an expression in parentheses and lowered
behind it, also where that expression cannot be read. An expression in parentheses is read while the
expression around it is being read, and nothing else in reading calls itself; a tally also counts
the calls for an expression that are active at one time, and keeps the greatest such number.

Every action ends with the counts that it began with. So reading from a tally yields the same as
reading from its source, and each call but the outermost one stands in parentheses of its own.
-/

namespace Reckoner

/-- A source with three counts. When expressions are read from it, `levels` bounds the recursion. -/
structure Tally (levels : Nat) (σ : Type) where
  source : σ
  /-- How many parentheses of factors are open. -/
  nesting : Nat
  /-- How many calls for an expression are active. -/
  active : Nat
  /-- How many of these calls were active when they were most. -/
  peak : Nat

namespace Tally

open Reading

variable {levels : Nat} {σ : Type}

/-- Reads from the source of a tally. -/
def lift (action : Reading σ α) : Reading (Tally levels σ) α :=
  ask fun tally =>
    ((action.on tally.source).1, { tally with source := (action.on tally.source).2 })

/-- The number of open parentheses. -/
def openNow : Reading (Tally levels σ) Nat := fun tally => .ok tally.nesting tally

/-- Changes a tally in front of an action and behind it, also behind a failure. -/
def within (enter leave : Tally levels σ → Tally levels σ) (action : Reading (Tally levels σ) α) :
    Reading (Tally levels σ) α :=
  ask fun tally => ((action.on (enter tally)).1, leave (action.on (enter tally)).2)

/-- Reads in one more pair of parentheses. -/
def enclosed (action : Reading (Tally levels σ) α) : Reading (Tally levels σ) α :=
  within (fun tally => { tally with nesting := tally.nesting + 1 })
    (fun tally => { tally with nesting := tally.nesting - 1 }) action

/-- Makes a call for an expression. It is active until it returns or fails. -/
def called (action : Reading (Tally levels σ) α) : Reading (Tally levels σ) α :=
  within
    (fun tally => { tally with
      active := tally.active + 1
      peak := max tally.peak (tally.active + 1) })
    (fun tally => { tally with active := tally.active - 1 }) action

section

variable [TokenSource σ]

instance : TokenSource (Tally levels σ) where
  next := lift next
  peek := lift peek
  atEnd := lift atEnd

/-- A call for an expression, which is a sum of products of the given factors. -/
def sum (factor : Reading (Tally levels σ) Expr) : Reading (Tally levels σ) Expr :=
  called (Reading.sum factor)

/-- What a factor does behind an opening parenthesis. -/
def parenthesized (factor : Reading (Tally levels σ) Expr) (token : Token) :
    Reading (Tally levels σ) Expr := do
  if (← openNow) = maxDepth then refuse (.tooDeep token)
  else closed (enclosed (sum factor))

/-- A factor. The count says whether a parenthesis may be opened. The argument only bounds the
recursion: if it and the count make up `maxDepth` together, it is used up just when the count is
`maxDepth`. -/
def factor : Nat → Reading (Tally levels σ) Expr
  | 0 => factorWith fun token => refuse (.tooDeep token)
  | k + 1 => factorWith (parenthesized (factor k))

instance : ExprSource (Tally levels σ) where
  expression := sum (factor levels)

end

/-! ## The counts are kept -/

/-- Whether a tally is of a source, with `n` open parentheses and `a` active calls, and never had
more than `limit` active calls. -/
structure Counts (n a limit : Nat) (tally : Tally levels σ) (source : σ) : Prop where
  source_eq : tally.source = source
  nesting_eq : tally.nesting = n
  active_eq : tally.active = a
  peak_le : tally.peak ≤ limit

variable {n a limit : Nat}

theorem counts_start (limit : Nat) (source : σ) :
    Counts 0 0 limit (⟨source, 0, 0, 0⟩ : Tally levels σ) source :=
  ⟨rfl, rfl, rfl, Nat.zero_le limit⟩

theorem simulates_lift (action : Reading σ α) :
    Simulates (Counts n a limit) (lift action : Reading (Tally levels σ) α) action := by
  rintro tally _ ⟨rfl, hnesting, hactive, hpeak⟩
  rw [lift, on_ask]
  exact ⟨rfl, rfl, hnesting, hactive, hpeak⟩

/-- In a pair of parentheses one more is open, but no more calls are active. -/
theorem simulates_enclosed {action : Reading (Tally levels σ) α} {other : Reading σ α}
    (h : Simulates (Counts (n + 1) a limit) action other) :
    Simulates (Counts n a limit) (enclosed action) other := by
  rintro tally source ⟨hsource, hnesting, hactive, hpeak⟩
  obtain ⟨hresult, hleft⟩ := @h { tally with nesting := tally.nesting + 1 } source
    ⟨hsource, congrArg (· + 1) hnesting, hactive, hpeak⟩
  rw [enclosed, within, on_ask]
  exact ⟨hresult, hleft.source_eq, congrArg (· - 1) hleft.nesting_eq, hleft.active_eq,
    hleft.peak_le⟩

/-- In a call one more call is active. -/
theorem simulates_called (ha : a + 1 ≤ limit) {action : Reading (Tally levels σ) α}
    {other : Reading σ α} (h : Simulates (Counts n (a + 1) limit) action other) :
    Simulates (Counts n a limit) (called action) other := by
  rintro tally source ⟨hsource, hnesting, hactive, hpeak⟩
  subst hactive
  obtain ⟨hresult, hleft⟩ := @h
    { tally with active := tally.active + 1, peak := max tally.peak (tally.active + 1) } source
    ⟨hsource, hnesting, rfl, Nat.max_le.mpr ⟨hpeak, ha⟩⟩
  rw [called, within, on_ask]
  exact ⟨hresult, hleft.source_eq, hleft.nesting_eq, congrArg (· - 1) hleft.active_eq,
    hleft.peak_le⟩

/-- Whether an action ends with the count of parentheses that it began with, wherever it begins and
however it ends. -/
def KeepsNesting (action : Reading (Tally levels σ) α) : Prop :=
  ∀ tally, (action.on tally).2.nesting = tally.nesting

/-- What follows a plain action under all large limits keeps the count of parentheses. -/
theorem keepsNesting_of_simulates {action : Reading (Tally levels σ) α}
    (h : ∀ n a, ∃ least, ∀ limit ≥ least, ∃ other : Reading σ α,
      Simulates (Counts n a limit) action other) : KeepsNesting action := by
  intro tally
  obtain ⟨least, hleast⟩ := h tally.nesting tally.active
  obtain ⟨other, hother⟩ := hleast (max least tally.peak) (Nat.le_max_left _ _)
  exact (hother ⟨rfl, rfl, rfl, Nat.le_max_right _ _⟩).2.nesting_eq

section

variable [TokenSource σ]

theorem tokensAlike_counts :
    TokensAlike (Counts n a limit : Tally levels σ → σ → Prop) :=
  ⟨simulates_lift next, simulates_lift peek, simulates_lift atEnd⟩

theorem simulates_sum (ha : a + 1 ≤ limit) {factor : Reading (Tally levels σ) Expr}
    {other : Reading σ Expr} (h : Simulates (Counts n (a + 1) limit) factor other) :
    Simulates (Counts n a limit) (sum factor) (Reading.sum other) :=
  simulates_called ha (tokensAlike_counts.sum h)

/-- How many parentheses may be opened where `n` are open, when `k` bounds the recursion. Only a
count of exactly `maxDepth` stops the reader, so that a greater count would not. -/
def allowed (n k : Nat) : Nat :=
  if n ≤ maxDepth then min k (maxDepth - n) else k

theorem allowed_zero (n : Nat) : allowed n 0 = 0 := by
  simp [allowed]

theorem allowed_maxDepth (k : Nat) : allowed maxDepth k = 0 := by
  simp [allowed]

theorem allowed_succ (h : n ≠ maxDepth) (k : Nat) : allowed n (k + 1) = allowed (n + 1) k + 1 := by
  unfold allowed
  split <;> split <;> omega

/-- A parenthesis is refused at the limit of the count, and otherwise counted while what it encloses
is read. -/
theorem parenthesized_on (factor : Reading (Tally levels σ) Expr) (token : Token)
    (tally : Tally levels σ) : (parenthesized factor token).on tally =
      if tally.nesting = maxDepth then (refuse (.tooDeep token)).on tally
      else (closed (enclosed (sum factor))).on tally := by
  rw [parenthesized, on_bind]
  change (if tally.nesting = maxDepth then _ else _ : Reading (Tally levels σ) Expr).on tally = _
  split <;> rfl

/-- Another parenthesis is refused if `maxDepth` are open. -/
theorem simulates_parenthesized_maxDepth (factor : Reading (Tally levels σ) Expr) (token : Token) :
    Simulates (Counts maxDepth a limit) (parenthesized factor token)
      (refuse (.tooDeep token) : Reading σ Expr) := by
  intro tally source h
  rw [parenthesized_on, if_pos h.nesting_eq]
  exact simulates_refuse _ h

/-- An opened parenthesis is counted by one, and what it encloses is read with one call more. -/
theorem simulates_parenthesized (hn : n ≠ maxDepth) (ha : a + 1 ≤ limit)
    {factor : Reading (Tally levels σ) Expr} {other : Reading σ Expr}
    (h : Simulates (Counts (n + 1) (a + 1) limit) factor other) (token : Token) :
    Simulates (Counts n a limit) (parenthesized factor token) (closed (Reading.sum other)) := by
  intro tally source hc
  rw [parenthesized_on, if_neg (hc.nesting_eq ▸ hn)]
  exact tokensAlike_counts.closed (simulates_enclosed (simulates_sum ha h)) hc

/-- Reading from a tally opens as many parentheses as the count allows, and has no more calls active
than parentheses are opened. -/
theorem simulates_factor (n a k : Nat) (h : a + allowed n k ≤ limit) :
    Simulates (Counts n a limit) (factor k : Reading (Tally levels σ) Expr)
      (Reading.factor (allowed n k)) := by
  induction k generalizing n a with
  | zero =>
      rw [allowed_zero]
      exact tokensAlike_counts.factorWith fun token => simulates_refuse _
  | succ k ih =>
      by_cases hn : n = maxDepth
      · subst hn
        rw [allowed_maxDepth]
        exact tokensAlike_counts.factorWith (simulates_parenthesized_maxDepth _)
      · rw [allowed_succ hn] at h ⊢
        have hinner := ih (n + 1) (a + 1) (by omega)
        exact tokensAlike_counts.factorWith (simulates_parenthesized hn (by omega) hinner)

/-- Reading an expression of any level ends with as many open parentheses as it began with. -/
theorem keepsNesting (k : Nat) :
    KeepsNesting (sum (factor k) : Reading (Tally levels σ) Expr) ∧
      KeepsNesting (product (factor k) : Reading (Tally levels σ) Expr) ∧
      KeepsNesting (factor k : Reading (Tally levels σ) Expr) := by
  refine ⟨?_, ?_, ?_⟩
  · apply keepsNesting_of_simulates
    intro n a
    refine ⟨a + 1 + allowed n k, fun limit h => ⟨Reading.sum (Reading.factor (allowed n k)), ?_⟩⟩
    exact simulates_sum (by omega) (simulates_factor n (a + 1) k h)
  · apply keepsNesting_of_simulates
    intro n a
    refine ⟨a + allowed n k, fun limit h => ⟨product (Reading.factor (allowed n k)), ?_⟩⟩
    exact tokensAlike_counts.product (simulates_factor n a k h)
  · apply keepsNesting_of_simulates
    intro n a
    exact ⟨a + allowed n k, fun limit h => ⟨Reading.factor (allowed n k), simulates_factor n a k h⟩⟩

/-- Where no parentheses are open and no calls are active, expressions are read alike from a tally
and from its source. -/
theorem exprsAlike_counts [ExprSource σ]
    (he : (expression : Reading σ Expr) = Reading.sum (Reading.factor maxDepth))
    (hlevels : maxDepth ≤ levels) :
    ExprsAlike (Counts 0 0 (maxDepth + 1) : Tally levels σ → σ → Prop) := by
  have hallowed : allowed 0 levels = maxDepth := by
    rw [allowed, if_pos (Nat.zero_le _), Nat.sub_zero]
    exact Nat.min_eq_right hlevels
  have hfactor := @simulates_factor levels σ (maxDepth + 1) _ 0 1 levels (by omega)
  rw [hallowed] at hfactor
  refine ⟨tokensAlike_counts, ?_⟩
  rw [he]
  exact simulates_sum (by omega) hfactor

end

end Tally

namespace Parser

variable {σ : Type} [TokenSource σ] [ExprSource σ]

/-- A parser that counts, with what another one has not read. -/
def tallying (levels : Nat) (parser : Parser σ) : Parser (Tally levels σ) :=
  ⟨⟨parser.stream, 0, 0, 0⟩, parser.failed⟩

/-- A parser that counts gives the same replies. Between requests no parentheses are open and no
calls are active. -/
theorem requestAll_tallying
    (he : (Reading.expression : Reading σ Expr) = Reading.sum (Reading.factor maxDepth))
    {levels : Nat} (hlevels : maxDepth ≤ levels) (parser : Parser σ) (requests : List Request) :
    ((parser.tallying levels).requestAll requests).1 = (parser.requestAll requests).1 ∧
      Follows (Tally.Counts 0 0 (maxDepth + 1)) ((parser.tallying levels).requestAll requests).2
        (parser.requestAll requests).2 := by
  have hstart : Follows (Tally.Counts 0 0 (maxDepth + 1)) (parser.tallying levels) parser :=
    ⟨Tally.counts_start _ _, rfl⟩
  exact hstart.requestAll (Tally.exprsAlike_counts he hlevels) requests

/-- Counting changes no reply, and between requests no parenthesis is open and no call is active. -/
theorem exists_requestAll_tallying
    (he : (Reading.expression : Reading σ Expr) = Reading.sum (Reading.factor maxDepth))
    {levels : Nat} (hlevels : maxDepth ≤ levels) (parser : Parser σ) (requests : List Request) :
    ∃ peak, (parser.tallying levels).requestAll requests =
      ((parser.requestAll requests).1, ⟨⟨(parser.requestAll requests).2.stream, 0, 0, peak⟩,
        (parser.requestAll requests).2.failed⟩) := by
  obtain ⟨hreplies, hfollows⟩ := requestAll_tallying he hlevels parser requests
  revert hreplies hfollows
  rcases (parser.tallying levels).requestAll requests with ⟨_, ⟨source, nesting, active, peak⟩, _⟩
  rintro rfl ⟨⟨rfl, rfl, rfl, -⟩, rfl⟩
  exact ⟨peak, rfl⟩

end Parser

end Reckoner
