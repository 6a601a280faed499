import Reckoner.Interpreter
import Reckoner.Proofs.Nearest

/-!
# Divisions and their divisors

The divisor of a division is tested before it is converted, and the division is performed on what it
is converted to. Both agree on what zero is: an integer is converted to zero only if it is zero. An
evaluation that puts down which divisions it comes to, and which floating-point divisions it
performs, shows that none of the latter has a zero divisor, and that a division is refused just when
it would have one. No more is used of the conversion of integers than where it is zero, so that the
evaluation can be told by which one to convert them.
-/

namespace Reckoner

/-! ## Integers that are converted to zero -/

namespace Binary64

theorem isZero_iff {x : Binary64} : x.isZero ↔ ∃ negative, x = .zero negative := by
  cases x with
  | nan => simp [isZero, zero]
  | infinity negative => simp [isZero, zero]
  | finite negative units representable => simp [isZero, zero]

/-- Only no units at all are rounded to zero: any other number of them reaches the grid. -/
theorem nearestUnits_one_eq_zero_iff {units : Nat} : nearestUnits units 1 = 0 ↔ units = 0 := by
  constructor
  · intro h
    refine Decidable.byContradiction fun hunits => ?_
    have hgap : gap units ≤ units := by
      calc gap units
          ≤ 2 ^ units.log2 := Nat.pow_le_pow_right Nat.two_pos (Nat.sub_le _ _)
        _ ≤ units := Nat.log2_self_le hunits
    have hquotient : 0 < units / gap units := Nat.div_pos hgap (gap_pos units)
    have hrounded : units / gap units ≤ roundHalfEven units (gap units) := by
      simp only [roundHalfEven]
      split
      · exact Nat.le_refl _
      · split <;> omega
    simp only [nearestUnits, Nat.div_one, Nat.one_mul, Nat.mul_eq_zero] at h
    have hpos := gap_pos units
    omega
  · rintro rfl
    rfl

/-- A whole number of units is rounded to zero only if there are none. -/
theorem isZero_ofRatio_one_iff {negative : Bool} {units : Nat} :
    (ofRatio negative units 1).isZero ↔ units = 0 := by
  rw [← nearestUnits_one_eq_zero_iff, ofRatio]
  split
  · simp [isZero]
  · rename_i hlimit
    have hpos : 0 < limit := representable_zero.2
    simp only [isZero, Bool.false_eq_true, false_iff]
    omega

/-- The number nearest to an integer. -/
def nearestToInt (n : Int) : Binary64 :=
  ofRatio (decide (n < 0)) (n.natAbs * unitsPerOne) 1

theorem isZero_nearestToInt_iff {n : Int} : (nearestToInt n).isZero ↔ n = 0 := by
  have hpos : unitsPerOne ≠ 0 := Nat.ne_of_gt (Nat.two_pow_pos _)
  rw [nearestToInt, isZero_ofRatio_one_iff, Nat.mul_eq_zero, or_iff_left hpos, Int.natAbs_eq_zero]

/-- The conversion of the program makes only zero zero. -/
theorem isZero_ofInt_iff {n : Int} : (ofInt n).isZero ↔ n = 0 := by
  have hpos : unitsPerOne ≠ 0 := Nat.ne_of_gt (Nat.two_pow_pos _)
  rw [ofInt, isZero_ofRatio_one_iff, Nat.mul_eq_zero, or_iff_left hpos]
  constructor
  · intro h
    refine Decidable.byContradiction fun hn => ?_
    exact Nat.ne_of_gt (jammed_pos (Int.natAbs_pos.mpr hn)) h
  · rintro rfl
    rfl

end Binary64

namespace Number

/-- The floating-point number that stands for a number, if `convert` converts integers. -/
def toBinary64With (convert : Int → Binary64) : Number → Binary64
  | .int n => convert n
  | .float x => x

/-- Exact on two integers, floating-point otherwise, if `convert` converts integers. -/
def combineWith (convert : Int → Binary64) (exact : Int → Int → Int)
    (rounded : Binary64 → Binary64 → Binary64) : Number → Number → Number
  | .int m, .int n => .int (exact m n)
  | a, b => .float (rounded (a.toBinary64With convert) (b.toBinary64With convert))

theorem toBinary64With_ofInt (n : Number) : n.toBinary64With .ofInt = n.toBinary64 := by
  cases n with
  | int n => rw [toBinary64With, toBinary64]
  | float x => rw [toBinary64With, toBinary64]

theorem combineWith_ofInt (exact : Int → Int → Int) (rounded : Binary64 → Binary64 → Binary64)
    (a b : Number) : combineWith .ofInt exact rounded a b = combine exact rounded a b := by
  cases a <;> cases b <;> simp only [combineWith, combine, toBinary64With_ofInt]

/-- A number is zero if it is converted to zero. -/
theorem isZero_toBinary64With {convert : Int → Binary64} (h : ∀ n, (convert n).isZero ↔ n = 0)
    (n : Number) : (n.toBinary64With convert).isZero = n.isZero := by
  cases n with
  | int n =>
      rw [Bool.eq_iff_iff, toBinary64With, h, isZero]
      exact beq_iff_eq.symm
  | float x => rfl

end Number

/-! ## Putting divisions down -/

/-- A division sign with the values of its operands. -/
structure Division where
  left : Number
  right : Number
  /-- The place of the sign. -/
  position : Position

/-- What an evaluation puts down. -/
structure DivisionLog where
  /-- The divisions whose operands both have been evaluated. -/
  evaluated : List Division
  /-- The floating-point divisions that have been performed, each with its dividend and its
  divisor. -/
  performed : List (Binary64 × Binary64)

/-- The log in which nothing has been put down. -/
def DivisionLog.empty : DivisionLog := ⟨[], []⟩

/-- An evaluation that puts its divisions down. -/
abbrev Recording := EStateM RuntimeError DivisionLog

namespace Recording

/-- What an evaluation yields, and the log that it leaves. -/
def on (recording : Recording α) (log : DivisionLog) : Except RuntimeError α × DivisionLog :=
  match recording.run log with
  | .ok result rest => (.ok result, rest)
  | .error error rest => (.error error, rest)

/-- Puts down a division whose operands have been evaluated. -/
def note (division : Division) : Recording Unit := fun log =>
  .ok () { log with evaluated := log.evaluated ++ [division] }

/-- Performs a floating-point division and puts it down. -/
def perform (x y : Binary64) : Recording Binary64 := fun log =>
  .ok (x / y) { log with performed := log.performed ++ [(x, y)] }

end Recording

/-- The result of an operation on two numbers. -/
def Operator.applyRecording (convert : Int → Binary64) (operator : Operator) (left right : Number)
    (position : Position) : Recording Number :=
  match operator with
  | plus => return Number.combineWith convert (· + ·) (· + ·) left right
  | minus => return Number.combineWith convert (· - ·) (· - ·) left right
  | times => return Number.combineWith convert (· * ·) (· * ·) left right
  | divide => do
    Recording.note ⟨left, right, position⟩
    if right.isZero then throw (.divisionByZero position)
    else
      let dividend := left.toBinary64With convert
      let divisor := right.toBinary64With convert
      return .float (← Recording.perform dividend divisor)

/-- The value of an expression, if `convert` converts integers. -/
def Expr.evaluateRecording (convert : Int → Binary64) (store : Store) : Expr → Recording Number
  | literal value => return value
  | reference name position =>
    match store.get? name with
    | some value => return value
    | none => throw (.undefinedVariable name position)
  | operation operator left right position => do
    let l ← left.evaluateRecording convert store
    let r ← right.evaluateRecording convert store
    operator.applyRecording convert l r position

/-! ## Logs that account for a result -/

/-- The place of the division that was refused, if the evaluation failed for this reason. -/
def refusal? : Except RuntimeError α → Option Position
  | .error (.divisionByZero position) => some position
  | .error (.undefinedVariable _ _) | .ok _ => none

/-- A result is a refusal precisely if it is the failure of a division by zero. -/
theorem refusal?_eq_some_iff {result : Except RuntimeError α} {position : Position} :
    refusal? result = some position ↔ result = .error (.divisionByZero position) := by
  rcases result with (_ | _) | _ <;> simp [refusal?]

namespace DivisionLog

/-- Puts down behind one log what another one has. -/
def append (log further : DivisionLog) : DivisionLog :=
  ⟨log.evaluated ++ further.evaluated, log.performed ++ further.performed⟩

/-- Whether the evaluated divisions with a divisor that is converted to zero have been refused, and
all others have been performed on the converted operands. -/
structure AccountsFor (convert : Int → Binary64) (log : DivisionLog) (refusal : Option Position) :
    Prop where
  refused_eq :
    (log.evaluated.filter fun d => (d.right.toBinary64With convert).isZero).map Division.position =
      refusal.toList
  performed_eq : log.performed =
    (log.evaluated.filter fun d => !(d.right.toBinary64With convert).isZero).map fun d =>
      (d.left.toBinary64With convert, d.right.toBinary64With convert)

variable {convert : Int → Binary64}

theorem append_empty (log : DivisionLog) : log.append empty = log := by
  simp [append, empty]

theorem empty_append (log : DivisionLog) : empty.append log = log := by
  simp [append, empty]

theorem append_assoc (log further last : DivisionLog) :
    (log.append further).append last = log.append (further.append last) := by
  simp [append]

theorem accountsFor_empty : empty.AccountsFor convert none :=
  ⟨rfl, rfl⟩

/-- As long as no division is refused, an evaluation goes on. -/
theorem AccountsFor.append {log further : DivisionLog} {refusal : Option Position}
    (h : log.AccountsFor convert none) (hf : further.AccountsFor convert refusal) :
    (log.append further).AccountsFor convert refusal where
  refused_eq := by
    rw [DivisionLog.append, List.filter_append, List.map_append, h.refused_eq, hf.refused_eq]
    rfl
  performed_eq := by
    rw [DivisionLog.append, List.filter_append, List.map_append, h.performed_eq, hf.performed_eq]

end DivisionLog

namespace Recording

theorem on_bind (recording : Recording α) (further : α → Recording β) (log : DivisionLog) :
    (recording >>= further).on log =
      match recording.on log with
      | (.ok result, rest) => (further result).on rest
      | (.error error, rest) => (.error error, rest) := by
  simp only [on, EStateM.run, bind, EStateM.bind]
  cases recording log <;> rfl

/-- Whether an evaluation has a result, whatever has been put down before, and puts down what
accounts for this result. -/
def Accounts (convert : Int → Binary64) (recording : Recording α) : Prop :=
  ∃ (result : Except RuntimeError α) (further : DivisionLog),
    further.AccountsFor convert (refusal? result) ∧
      ∀ log, recording.on log = (result, log.append further)

variable {convert : Int → Binary64}

theorem accounts_pure (value : α) : Accounts convert (pure value) :=
  ⟨.ok value, .empty, DivisionLog.accountsFor_empty, fun log =>
    congrArg (Prod.mk _) log.append_empty.symm⟩

theorem accounts_undefinedVariable (name : String) (position : Position) :
    Accounts convert (throw (.undefinedVariable name position) : Recording α) :=
  ⟨.error (.undefinedVariable name position), .empty, DivisionLog.accountsFor_empty, fun log =>
    congrArg (Prod.mk _) log.append_empty.symm⟩

/-- What two evaluations in turn put down accounts for the result of the second one, or of the first
one if this fails. -/
theorem Accounts.bind {recording : Recording α} {further : α → Recording β}
    (h : Accounts convert recording) (hf : ∀ value, Accounts convert (further value)) :
    Accounts convert (recording >>= further) := by
  obtain ⟨result, first, hfirst, hon⟩ := h
  cases result with
  | error error =>
      refine ⟨.error error, first, ?_, fun log => by rw [on_bind, hon]⟩
      cases error with
      | divisionByZero position => exact hfirst
      | undefinedVariable name position => exact hfirst
  | ok value =>
      obtain ⟨behind, second, hsecond, hbehind⟩ := hf value
      refine ⟨behind, first.append second, hfirst.append hsecond, fun log => ?_⟩
      rw [on_bind, hon]
      exact (hbehind _).trans (congrArg (Prod.mk _) (log.append_assoc first second))

section

variable (h : ∀ n, (convert n).isZero ↔ n = 0)

include h

/-- A division is refused if its divisor is zero, which is when it would be converted to zero. Else
it is performed. -/
theorem accounts_divide (left right : Number) (position : Position) :
    Accounts convert (Operator.divide.applyRecording convert left right position) := by
  have hzero := Number.isZero_toBinary64With h right
  rw [Operator.applyRecording]
  cases hright : right.isZero with
  | true =>
      rw [hright] at hzero
      refine ⟨.error (.divisionByZero position), ⟨[⟨left, right, position⟩], []⟩, ⟨?_, ?_⟩,
        fun log => ?_⟩
      · simp [hzero, refusal?]
      · simp [hzero]
      · exact congrArg (fun performed => (_, DivisionLog.mk _ performed)) (List.append_nil _).symm
  | false =>
      rw [hright] at hzero
      refine ⟨.ok _, ⟨[⟨left, right, position⟩],
        [(left.toBinary64With convert, right.toBinary64With convert)]⟩, ⟨?_, ?_⟩, fun log => rfl⟩
      · simp [hzero, refusal?]
      · simp [hzero]

/-- An operation that is recorded refuses only what its log says. -/
theorem accounts_apply (op : Operator) (left right : Number) (position : Position) :
    Accounts convert (op.applyRecording convert left right position) := by
  cases op with
  | divide => exact accounts_divide h left right position
  | plus => exact accounts_pure _
  | minus => exact accounts_pure _
  | times => exact accounts_pure _

/-- What an evaluation puts down accounts for its result. -/
theorem accounts_evaluate (store : Store) (e : Expr) :
    Accounts convert (e.evaluateRecording convert store) := by
  induction e with
  | literal value => exact accounts_pure value
  | reference name position =>
      rw [Expr.evaluateRecording]
      cases store.get? name with
      | none => exact accounts_undefinedVariable name position
      | some value => exact accounts_pure value
  | operation op left right position ihl ihr =>
      exact ihl.bind fun l => ihr.bind fun r => accounts_apply h op l r position

end

/-! ## The same results -/

/-- Whether an evaluation has a result, whatever has been put down before. -/
def Results (recording : Recording α) (result : Except RuntimeError α) : Prop :=
  ∀ log, (recording.on log).1 = result

/-- Results of recordings compose like those of evaluations. -/
theorem Results.bind {recording : Recording α} {result : Except RuntimeError α}
    {further : α → Recording β} {behind : α → Except RuntimeError β} (h : Results recording result)
    (hf : ∀ value, Results (further value) (behind value)) :
    Results (recording >>= further) (result >>= behind) := by
  intro log
  have hresult := h log
  rw [on_bind]
  revert hresult
  rcases recording.on log with ⟨found, rest⟩
  rintro rfl
  cases found with
  | error error => rfl
  | ok value => exact hf value rest

theorem results_apply (op : Operator) (left right : Number) (position : Position) :
    Results (op.applyRecording .ofInt left right position) (op.apply left right position) := by
  intro log
  cases op with
  | plus => exact congrArg Except.ok (Number.combineWith_ofInt _ _ left right)
  | minus => exact congrArg Except.ok (Number.combineWith_ofInt _ _ left right)
  | times => exact congrArg Except.ok (Number.combineWith_ofInt _ _ left right)
  | divide =>
      rw [Operator.applyRecording, Operator.apply, left.toBinary64With_ofInt,
        right.toBinary64With_ofInt]
      cases right.isZero <;> rfl

/-- Putting divisions down does not change what an evaluation yields. -/
theorem results_evaluate (store : Store) (e : Expr) :
    Results (e.evaluateRecording .ofInt store) (e.evaluate store) := by
  induction e with
  | literal value => exact fun _ => rfl
  | reference name position =>
      rw [Expr.evaluateRecording, Expr.evaluate]
      cases store.get? name <;> exact fun _ => rfl
  | operation op left right position ihl ihr =>
      exact ihl.bind fun l => ihr.bind fun r => results_apply op l r position

end Recording

/-- A number is zero if and only if the floating-point number that stands for it is one of the two
zeros, and an integer is zero if and only if its nearest number is one. Let integers be converted by
these conversions or by any other one of which this is true: then no evaluation performs a
floating-point division with a zero divisor, and an evaluation fails at a division if and only if
both operands of this division have been evaluated and its divisor would be converted to a zero. -/
theorem Number.zero_test_guards_division :
    (∀ n : Number, n.isZero ↔ ∃ negative, n.toBinary64 = .zero negative) ∧
    (∀ n : Int, (int n).isZero ↔ ∃ negative, Binary64.nearestToInt n = .zero negative) ∧
    (∀ (store : Store) (e : Expr), ∃ log,
      (e.evaluateRecording .ofInt store).on .empty = (e.evaluate store, log)) ∧
    ∀ convert : Int → Binary64,
      (∀ n, (int n).isZero ↔ ∃ negative, convert n = .zero negative) →
      ∀ (store : Store) (e : Expr), ∃ result log,
        (e.evaluateRecording convert store).on .empty = (result, log) ∧
        (∀ dividend divisor, (dividend, divisor) ∈ log.performed →
          ∀ negative, divisor ≠ .zero negative) ∧
        ∀ position, result = .error (.divisionByZero position) ↔
          ∃ division ∈ log.evaluated, division.position = position ∧
            ∃ negative, division.right.toBinary64With convert = .zero negative := by
  refine ⟨fun n => ?_, fun n => ?_, fun store e => ?_, fun convert hconvert store e => ?_⟩
  · rw [← n.toBinary64With_ofInt, ← Binary64.isZero_iff,
      isZero_toBinary64With fun n => Binary64.isZero_ofInt_iff]
  · rw [← Binary64.isZero_iff, Binary64.isZero_nearestToInt_iff]
    exact beq_iff_eq
  · exact ⟨_, Prod.ext (Recording.results_evaluate store e .empty) rfl⟩
  · have hzero : ∀ n, (convert n).isZero ↔ n = 0 := fun n => by
      rw [Binary64.isZero_iff, ← hconvert]
      exact beq_iff_eq
    obtain ⟨result, log, haccounts, hon⟩ := Recording.accounts_evaluate hzero store e
    refine ⟨result, log, (hon .empty).trans (by rw [log.empty_append]), ?_, fun position => ?_⟩
    · intro dividend divisor hperformed negative hzero
      rw [haccounts.performed_eq] at hperformed
      obtain ⟨division, hdivision, hoperands⟩ := List.mem_map.mp hperformed
      obtain ⟨-, rfl⟩ := Prod.mk.inj hoperands
      have hnonzero := (List.mem_filter.mp hdivision).2
      rw [Binary64.isZero_iff.mpr ⟨negative, hzero⟩] at hnonzero
      cases hnonzero
    · rw [← refusal?_eq_some_iff, ← Option.mem_toList, ← haccounts.refused_eq, List.mem_map]
      simp only [List.mem_filter, Binary64.isZero_iff, and_assoc]
      exact exists_congr fun division => and_congr_right fun _ => and_comm

/-- In `6 / 4 / (0.5 - 0.5)` the first division is performed and the second one is refused. -/
theorem Number.zero_test_guards_division_second :
    let half : Expr := .literal (.float (.ofDecimal 5 1))
    let first : Expr := .operation .divide (.literal (.int 6)) (.literal (.int 4)) ⟨2, 1, 3⟩
    let e : Expr := .operation .divide first (.operation .minus half half ⟨13, 1, 14⟩) ⟨6, 1, 7⟩
    (∀ n, (int n).isZero ↔ ∃ negative, Binary64.ofInt n = .zero negative) ∧
    ∃ log,
      (e.evaluateRecording Binary64.ofInt .empty).on .empty =
        (.error (.divisionByZero ⟨6, 1, 7⟩), log) ∧
      log.performed = [(.ofInt 6, .ofInt 4)] ∧
      (∀ negative, Binary64.ofInt 4 ≠ .zero negative) ∧
      ∃ division ∈ log.evaluated, division.position = ⟨6, 1, 7⟩ ∧
        ∃ negative, division.right.toBinary64With Binary64.ofInt = .zero negative := by
  intro half first e
  have hfails : e.evaluate .empty = .error (.divisionByZero ⟨6, 1, 7⟩) :=
    refusal?_eq_some_iff.mp (by decide +kernel)
  have hperformed : ((e.evaluateRecording Binary64.ofInt .empty).on .empty).2.performed =
      [(.ofInt 6, .ofInt 4)] := by decide +kernel
  obtain ⟨hzero, -, hresults, hguards⟩ := zero_test_guards_division
  have hconverts : ∀ n, (int n).isZero ↔ ∃ negative, Binary64.ofInt n = .zero negative :=
    fun n => hzero (.int n)
  obtain ⟨result, log, hon, hdivisors, hrefused⟩ := hguards Binary64.ofInt hconverts .empty e
  obtain ⟨_, hresult⟩ := hresults .empty e
  obtain rfl : result = .error (.divisionByZero ⟨6, 1, 7⟩) :=
    (congrArg Prod.fst (hon.symm.trans hresult)).trans hfails
  rw [hon] at hperformed
  have hfour : (Binary64.ofInt 6, Binary64.ofInt 4) ∈ log.performed := by
    rw [hperformed]
    exact List.mem_singleton_self _
  have hnonzero : ∀ negative, Binary64.ofInt 4 ≠ .zero negative := hdivisors _ _ hfour
  exact ⟨hconverts, log, hon, hperformed, hnonzero, (hrefused ⟨6, 1, 7⟩).mp rfl⟩

end Reckoner
