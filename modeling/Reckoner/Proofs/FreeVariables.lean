import Reckoner.Proofs.Effects

/-!
# Variables that are read before they are assigned

A run visits the nodes of a program in the order of evaluation, and fails at the first one that is a
variable without a value or a division by zero. The variables that have a value at a statement of a
new run are those that the statements before it assign. So the first visit to any other variable is
where the run fails, unless a division fails before.
-/

namespace Reckoner

/-! ## Visits -/

/-- A node of a program as it is met in the order of evaluation. -/
structure Visit where
  /-- The variables that are assigned before the statement of the node. -/
  assigned : List String
  node : Expr.Node

/-- The variable that is visited, with its place, unless it is assigned before. -/
def Visit.free? (visit : Visit) : Option (String × Position) :=
  match visit.node with
  | .reference name position => if name ∈ visit.assigned then none else some (name, position)
  | _ => none

theorem Visit.free?_reference (assigned : List String) (name : String) (position : Position) :
    free? ⟨assigned, .reference name position⟩ =
      if name ∈ assigned then none else some (name, position) := rfl

/-- The visits of an expression in a statement before which some variables are assigned. -/
def Expr.visits (assigned : List String) (e : Expr) : List Visit :=
  e.postorder.map (Visit.mk assigned)

/-- The visits of statements before which some variables are assigned. -/
def Statement.visits (assigned : List String) : List Statement → List Visit
  | [] => []
  | statement :: rest =>
    statement.value.visits assigned ++ visits (assigned ++ statement.target?.toList) rest

/-- The visits of a program: its statements in order, and in each the left operands before the right
ones and these before their operation. -/
def Program.visits (program : Program) : List Visit :=
  Statement.visits [] program.statements

/-- The left operand is visited first, then the right one, then the operation. -/
theorem Expr.visits_operation (assigned : List String) (op : Operator) (left right : Expr)
    (position : Position) :
    (operation op left right position).visits assigned =
      left.visits assigned ++ (right.visits assigned ++ [⟨assigned, .operation op position⟩]) := by
  simp [visits, postorder]

/-! ## Visits that explain a failure -/

/-- Whether a failure is one that a visit may end with. -/
def Visit.Causes (visit : Visit) : RuntimeError → Prop
  | .undefinedVariable name position => visit.free? = some (name, position)
  | .divisionByZero position => visit.node = .operation .divide position

/-- Whether visits account for how a computation ends. If it does not fail, no variable is free. If
it fails, one of the visits is the cause, and no variable is free before it. -/
def Explains (visits : List Visit) : Option RuntimeError → Prop
  | none => ∀ visit ∈ visits, visit.free? = none
  | some error => ∃ before visit after, visits = before ++ visit :: after ∧
      (∀ earlier ∈ before, earlier.free? = none) ∧ visit.Causes error

/-- The failure that a computation ends with, if it fails. -/
def errorOf? : Except RuntimeError α → Option RuntimeError
  | .ok _ => none
  | .error error => some error

namespace Explains

variable {u v : List Visit}

theorem append_left {error : RuntimeError} (h : Explains u (some error)) (v : List Visit) :
    Explains (u ++ v) (some error) := by
  obtain ⟨before, visit, after, rfl, hbefore, hcause⟩ := h
  exact ⟨before, visit, after ++ v, by simp, hbefore, hcause⟩

/-- Visits that cause no failure may stand before those that explain one. -/
theorem append {failure : Option RuntimeError} (hu : Explains u none)
    (hv : Explains v failure) : Explains (u ++ v) failure := by
  cases failure with
  | none =>
      intro visit hvisit
      exact (List.mem_append.mp hvisit).elim (hu visit) (hv visit)
  | some error =>
      obtain ⟨before, visit, after, rfl, hbefore, hcause⟩ := hv
      refine ⟨u ++ before, visit, after, by simp, ?_, hcause⟩
      intro earlier hearlier
      exact (List.mem_append.mp hearlier).elim (hu earlier) (hbefore earlier)

theorem cause {visit : Visit} {error : RuntimeError} (h : visit.Causes error) :
    Explains [visit] (some error) :=
  ⟨[], visit, [], rfl, by simp, h⟩

theorem bound {visit : Visit} (h : visit.free? = none) : Explains [visit] none := by
  intro other hother
  rwa [List.mem_singleton.mp hother]

/-- The visits of two computations in turn: those of the first, and then those of the second. -/
theorem bind {x : Except RuntimeError α} {f : α → Except RuntimeError β}
    (hu : Explains u (errorOf? x))
    (hv : ∀ a, x = .ok a → Explains v (errorOf? (f a))) :
    Explains (u ++ v) (errorOf? (x >>= f)) := by
  cases x with
  | error error => exact hu.append_left v
  | ok a => exact hu.append (hv a rfl)

end Explains

/-! ## Evaluation -/

/-- Whether the variables of a store are some given ones. -/
def Store.Defines (store : Store) (assigned : List String) : Prop :=
  ∀ name, (store.get? name).isSome ↔ name ∈ assigned

theorem Store.defines_empty : empty.Defines [] := by
  intro name
  simp [empty, get?]

/-- Assigning a variable adds its name to those that are defined. -/
theorem Store.Defines.define {store : Store} {assigned : List String} (h : store.Defines assigned)
    (name : String) (value : Number) : (store.define name value).Defines (assigned ++ [name]) := by
  intro other
  rw [get?_define, List.mem_append, List.mem_singleton]
  by_cases hname : other = name
  · simp [hname]
  · rw [if_neg hname, h other]
    simp [hname]

theorem explains_apply (assigned : List String) (op : Operator) (left right : Number)
    (position : Position) :
    Explains [⟨assigned, .operation op position⟩]
      (errorOf? (op.apply left right position)) := by
  cases op with
  | divide =>
      rw [Operator.apply]
      split
      · exact .cause rfl
      · exact .bound rfl
  | _ => exact .bound rfl

/-- The visits of an expression account for how its evaluation ends. -/
theorem explains_evaluate {store : Store} {assigned : List String} (h : store.Defines assigned)
    (e : Expr) : Explains (e.visits assigned) (errorOf? (e.evaluate store)) := by
  induction e with
  | literal value => exact .bound rfl
  | reference name position =>
      have hname := h name
      rw [Expr.evaluate]
      cases hvalue : store.get? name with
      | some value =>
          rw [hvalue] at hname
          apply Explains.bound
          rw [Visit.free?_reference, if_pos (hname.mp rfl)]
      | none =>
          rw [hvalue] at hname
          have hfree : name ∉ assigned := fun hmem => Bool.noConfusion (hname.mpr hmem)
          apply Explains.cause
          rw [Visit.Causes, Visit.free?_reference, if_neg hfree]
  | operation op left right position ihl ihr =>
      rw [Expr.evaluate, Expr.visits_operation]
      exact ihl.bind fun l _ => ihr.bind fun r _ => explains_apply assigned op l r position

/-! ## Runs -/

namespace Interpreter

variable {state next : Interpreter} {statement : Statement}

/-- The visits of a statement explain whether it fails. -/
theorem explains_execute {assigned : List String} (h : state.store.Defines assigned)
    (statement : Statement) :
    Explains (statement.value.visits assigned) (errorOf? (state.execute statement)) := by
  have hend : Explains [] none := fun visit hvisit => absurd hvisit List.not_mem_nil
  rw [← List.append_nil (statement.value.visits assigned)]
  cases statement with
  | assign name e => exact (explains_evaluate h e).bind fun value _ => hend
  | print e => exact (explains_evaluate h e).bind fun value _ => hend

/-- A statement that succeeds defines its target and keeps what is defined. -/
theorem defines_execute {assigned : List String} (h : state.store.Defines assigned)
    (hnext : state.execute statement = .ok next) :
    next.store.Defines (assigned ++ statement.target?.toList) := by
  obtain ⟨name, e, value, rfl, -, rfl⟩ | ⟨e, value, rfl, -, rfl⟩ := execute_cases hnext
  · exact h.define name value
  · simpa [Statement.target?] using h

/-- The visits of statements account for how executing them ends. -/
theorem explains_executeAll {assigned : List String} (h : state.store.Defines assigned)
    (statements : List Statement) :
    Explains (Statement.visits assigned statements) (state.executeAll statements).1 := by
  induction statements generalizing state assigned with
  | nil => exact fun visit hvisit => absurd hvisit List.not_mem_nil
  | cons statement rest ih =>
      have hfirst := explains_execute h statement
      rw [Statement.visits]
      cases hexecute : state.execute statement with
      | error error =>
          rw [hexecute] at hfirst
          rw [executeAll_of_error hexecute]
          exact hfirst.append_left _
      | ok next =>
          rw [hexecute] at hfirst
          rw [executeAll_of_ok hexecute]
          exact hfirst.append (ih (defines_execute h hexecute))

theorem errorOf?_run (state : Interpreter) (program : Program) :
    errorOf? (state.run program).1 = (state.executeAll program.statements).1 := by
  rcases h : state.executeAll program.statements with ⟨failure | error, final⟩
  · simp only [run, h, errorOf?]
  · simp only [run, h, errorOf?]

/-- Whether a new run of a program fails for want of a value is decided by the first visit to a
variable that is not assigned before. If there is one, the run fails, and it fails at this variable
or at a division visited before. If there is none, no variable is missing in the run. -/
theorem undefined_at_first_free_variable (program : Program) :
    match program.visits.findSome? Visit.free? with
    | none => ∀ name position, (fresh.run program).1 ≠ .error (.undefinedVariable name position)
    | some (name, position) =>
      (fresh.run program).1 = .error (.undefinedVariable name position) ∨
        ∃ visit ∈ program.visits.takeWhile (·.free?.isNone), ∃ sign,
          visit.node = .operation .divide sign ∧
            (fresh.run program).1 = .error (.divisionByZero sign) := by
  have hexplains : Explains program.visits (errorOf? (fresh.run program).1) := by
    rw [errorOf?_run]
    exact explains_executeAll Store.defines_empty program.statements
  cases hrun : (fresh.run program).1 with
  | ok outcome =>
      rw [hrun] at hexplains
      rw [List.findSome?_eq_none_iff.mpr hexplains]
      simp
  | error error =>
      rw [hrun] at hexplains
      obtain ⟨before, visit, after, hvisits, hbefore, hcause⟩ := hexplains
      have hfirst : program.visits.findSome? Visit.free? =
          (visit :: after).findSome? Visit.free? := by
        rw [hvisits, List.findSome?_append, List.findSome?_eq_none_iff.mpr hbefore,
          Option.none_or]
      rw [hfirst]
      cases error with
      | undefinedVariable name position =>
          have hfree : visit.free? = some (name, position) := hcause
          rw [List.findSome?_cons, hfree]
          exact .inl rfl
      | divisionByZero sign =>
          have hnode : visit.node = .operation .divide sign := hcause
          have hfree : visit.free? = none := by rw [Visit.free?, hnode]
          have htaken : visit ∈ program.visits.takeWhile (·.free?.isNone) := by
            rw [hvisits, List.takeWhile_append_of_pos, List.takeWhile_cons_of_pos]
            · simp
            · simp [hfree]
            · simpa using hbefore
          split
          · simp
          · exact .inr ⟨visit, htaken, sign, hnode, rfl⟩

end Interpreter

end Reckoner
