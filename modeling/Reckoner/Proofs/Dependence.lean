import Reckoner.Proofs.FreeVariables

/-!
# What the effects of a program depend on

A program depends on the values that its free variables have at the beginning, and on nothing else
in the state. From two states that agree on them it executes the same statements with the same
effects, also when it fails: the runs agree on every variable that was assigned, and leave all
others alone.
-/

namespace Reckoner

/-! ## Free variables -/

/-- The free variables of statements before which some variables are assigned: those that are read
where they are not assigned before. -/
def Statement.freeNames (assigned : List String) (statements : List Statement) : List String :=
  (visits assigned statements).filterMap fun visit => visit.free?.map Prod.fst

/-- The variables that a statement of a program reads though no statement before it assigns them. -/
def Program.freeNames (program : Program) : List String :=
  Statement.freeNames [] program.statements

theorem Statement.mem_freeNames_cons {assigned : List String} {statement : Statement}
    {rest : List Statement} {name : String} :
    name ∈ freeNames assigned (statement :: rest) ↔
      (name ∉ assigned ∧ ∃ position, .reference name position ∈ statement.value.postorder) ∨
        name ∈ freeNames (assigned ++ statement.target?.toList) rest := by
  have hfirst : name ∈ (statement.value.visits assigned).filterMap
        (fun visit => visit.free?.map Prod.fst) ↔
      name ∉ assigned ∧ ∃ position, .reference name position ∈ statement.value.postorder := by
    simp only [Expr.visits, List.filterMap_map, List.mem_filterMap, Function.comp_apply,
      Option.map_eq_some_iff]
    constructor
    · rintro ⟨node, hnode, ⟨found, position⟩, hfree, rfl⟩
      cases node with
      | reference other place =>
          rw [Visit.free?_reference] at hfree
          split at hfree
          · cases hfree
          · cases hfree
            exact ⟨‹_›, position, hnode⟩
      | _ => cases hfree
    · rintro ⟨hname, position, hnode⟩
      exact ⟨_, hnode, (name, position), if_neg hname, rfl⟩
  rw [freeNames, visits, List.filterMap_append, List.mem_append, hfirst]
  rfl

/-- A variable is free in statements if one of them reads it where neither the statements before it
nor anything earlier assigns it. -/
theorem Statement.mem_freeNames_iff {assigned : List String} {statements : List Statement}
    {name : String} :
    name ∈ freeNames assigned statements ↔ name ∉ assigned ∧
      ∃ before statement after position, statements = before ++ statement :: after ∧
        .reference name position ∈ statement.value.postorder ∧
        ∀ earlier ∈ before, earlier.target? ≠ some name := by
  induction statements generalizing assigned with
  | nil => simp [freeNames, visits]
  | cons first rest ih =>
      rw [mem_freeNames_cons, ih, List.mem_append, not_or, Option.mem_toList]
      constructor
      · rintro (⟨hname, position, hmem⟩ |
          ⟨⟨hname, hfirst⟩, before, s, after, position, rfl, hmem, hbefore⟩)
        · exact ⟨hname, [], first, rest, position, rfl, hmem, by simp⟩
        · exact ⟨hname, first :: before, s, after, position, rfl, hmem,
            List.forall_mem_cons.mpr ⟨hfirst, hbefore⟩⟩
      · rintro ⟨hname, before, s, after, position, hsplit, hmem, hbefore⟩
        cases before with
        | nil =>
            obtain ⟨rfl, rfl⟩ := List.cons.inj hsplit
            exact .inl ⟨hname, position, hmem⟩
        | cons other before =>
            obtain ⟨rfl, rfl⟩ := List.cons.inj hsplit
            obtain ⟨hfirst, hb⟩ := List.forall_mem_cons.mp hbefore
            exact .inr ⟨⟨hname, hfirst⟩, before, s, after, position, rfl, hmem, hb⟩

theorem Program.mem_freeNames_iff {program : Program} {name : String} :
    name ∈ program.freeNames ↔
      ∃ before statement after position, program.statements = before ++ statement :: after ∧
        .reference name position ∈ statement.value.postorder ∧
        ∀ earlier ∈ before, earlier.target? ≠ some name := by
  rw [freeNames, Statement.mem_freeNames_iff, and_iff_right List.not_mem_nil]

/-! ## Evaluation -/

/-- The value of an expression depends on the values of the variables in it. -/
theorem Expr.evaluate_congr {a b : Store} {e : Expr}
    (h : ∀ name position, .reference name position ∈ e.postorder → a.get? name = b.get? name) :
    e.evaluate a = e.evaluate b := by
  induction e with
  | literal value => rfl
  | reference name position =>
      rw [evaluate, evaluate, h name position (List.mem_singleton.mpr rfl)]
  | operation op left right position ihl ihr =>
      have hleft := ihl fun name position hmem =>
        h name position (List.mem_append_left _ (List.mem_append_left _ hmem))
      have hright := ihr fun name position hmem =>
        h name position (List.mem_append_left _ (List.mem_append_right _ hmem))
      rw [evaluate, evaluate, hleft, hright]

/-! ## Two runs -/

namespace Interpreter

/-- Whether two states become two others by the same effects: the same lines are printed, the given
variables get values that are the same in both, and all other variables keep theirs. -/
structure SameEffects (a b : Interpreter) (targets : List String) (a' b' : Interpreter) : Prop where
  output : ∃ lines, a'.output = a.output ++ lines ∧ b'.output = b.output ++ lines
  assigned : ∀ name ∈ targets, ∃ value,
    a'.store.get? name = some value ∧ b'.store.get? name = some value
  kept : ∀ name ∉ targets,
    a'.store.get? name = a.store.get? name ∧ b'.store.get? name = b.store.get? name

namespace SameEffects

variable {a b a' b' a'' b'' : Interpreter} {targets further : List String}

theorem refl (a b : Interpreter) : SameEffects a b [] a b where
  output := ⟨[], by simp, by simp⟩
  assigned := by simp
  kept _ _ := ⟨rfl, rfl⟩

theorem trans (h : SameEffects a b targets a' b') (h' : SameEffects a' b' further a'' b'') :
    SameEffects a b (targets ++ further) a'' b'' where
  output := by
    obtain ⟨lines, ha, hb⟩ := h.output
    obtain ⟨lines', ha', hb'⟩ := h'.output
    exact ⟨lines ++ lines', by rw [ha', ha, List.append_assoc], by rw [hb', hb, List.append_assoc]⟩
  assigned := by
    intro name hname
    by_cases hfurther : name ∈ further
    · exact h'.assigned name hfurther
    · obtain ⟨value, ha, hb⟩ := h.assigned name ((List.mem_append.mp hname).resolve_right hfurther)
      obtain ⟨ha', hb'⟩ := h'.kept name hfurther
      exact ⟨value, ha'.trans ha, hb'.trans hb⟩
  kept := by
    intro name hname
    obtain ⟨hfirst, hfurther⟩ := not_or.mp (mt List.mem_append.mpr hname)
    obtain ⟨ha, hb⟩ := h.kept name hfirst
    obtain ⟨ha', hb'⟩ := h'.kept name hfurther
    exact ⟨ha'.trans ha, hb'.trans hb⟩

/-- Variables on which the states agree before are such afterwards, and so are those assigned. -/
theorem get?_eq (h : SameEffects a b targets a' b') {name : String}
    (hname : name ∈ targets ∨ a.store.get? name = b.store.get? name) :
    a'.store.get? name = b'.store.get? name := by
  by_cases htarget : name ∈ targets
  · obtain ⟨value, ha, hb⟩ := h.assigned name htarget
    rw [ha, hb]
  · obtain ⟨ha, hb⟩ := h.kept name htarget
    rw [ha, hb, hname.resolve_left htarget]

end SameEffects

variable {a b : Interpreter}

/-- Whether a statement does in two states the same: it fails with the same error, or it has the
same effects. -/
def ExecutesAlike (a b : Interpreter) (statement : Statement) : Prop :=
  (∃ error, a.execute statement = .error error ∧ b.execute statement = .error error) ∨
    ∃ a' b', a.execute statement = .ok a' ∧ b.execute statement = .ok b' ∧
      SameEffects a b statement.target?.toList a' b'

/-- A statement does the same in states that agree on the variables it reads. -/
theorem executesAlike {statement : Statement}
    (h : ∀ name position, .reference name position ∈ statement.value.postorder →
      a.store.get? name = b.store.get? name) : ExecutesAlike a b statement := by
  have hvalue : a.evaluate statement.value = b.evaluate statement.value := Expr.evaluate_congr h
  cases statement with
  | assign name e =>
      change a.evaluate e = b.evaluate e at hvalue
      rw [ExecutesAlike, execute, execute, hvalue]
      cases b.evaluate e with
      | error error => exact .inl ⟨error, rfl, rfl⟩
      | ok value =>
          refine .inr ⟨_, _, rfl, rfl, ⟨[], by simp, by simp⟩, ?_, ?_⟩
          · intro other hother
            obtain rfl := List.mem_singleton.mp hother
            exact ⟨value, by simp [Store.get?_define], by simp [Store.get?_define]⟩
          · intro other hother
            have hne : other ≠ name := mt List.mem_singleton.mpr hother
            exact ⟨by simp [Store.get?_define, hne], by simp [Store.get?_define, hne]⟩
  | print e =>
      change a.evaluate e = b.evaluate e at hvalue
      rw [ExecutesAlike, execute, execute, hvalue]
      cases b.evaluate e with
      | error error => exact .inl ⟨error, rfl, rfl⟩
      | ok value =>
          refine .inr ⟨_, _, rfl, rfl, ⟨[value.text], rfl, rfl⟩, ?_, ?_⟩
          · simp [Statement.target?]
          · exact fun _ _ => ⟨rfl, rfl⟩

/-- Executing statements does the same in states that agree on the variables assigned before and on
the free ones. They agree on what a statement assigns once it has been executed. -/
theorem executeAll_alike {assigned : List String} {statements : List Statement}
    (h : ∀ name, name ∈ assigned ∨ name ∈ Statement.freeNames assigned statements →
      a.store.get? name = b.store.get? name) :
    (a.executeAll statements).1 = (b.executeAll statements).1 ∧
      a.executed statements = b.executed statements ∧
      SameEffects a b ((a.executed statements).filterMap Statement.target?)
        (a.executeAll statements).2 (b.executeAll statements).2 := by
  induction statements generalizing a b assigned with
  | nil => exact ⟨rfl, rfl, .refl a b⟩
  | cons statement rest ih =>
      have hfirst : ExecutesAlike a b statement := by
        apply executesAlike
        intro name position hmem
        by_cases hname : name ∈ assigned
        · exact h name (.inl hname)
        · exact h name (.inr (Statement.mem_freeNames_cons.mpr (.inl ⟨hname, position, hmem⟩)))
      obtain ⟨error, ha, hb⟩ | ⟨a', b', ha, hb, heffects⟩ := hfirst
      · rw [executeAll_of_error ha, executeAll_of_error hb, executed_of_error ha,
          executed_of_error hb]
        exact ⟨rfl, rfl, .refl a b⟩
      · have hnext : ∀ name, name ∈ assigned ++ statement.target?.toList ∨
            name ∈ Statement.freeNames (assigned ++ statement.target?.toList) rest →
              a'.store.get? name = b'.store.get? name := by
          intro name hname
          apply heffects.get?_eq
          rw [List.mem_append, or_assoc, or_left_comm] at hname
          exact hname.imp id fun hbefore =>
            h name (hbefore.imp id fun hrest => Statement.mem_freeNames_cons.mpr (.inr hrest))
        obtain ⟨hfailure, hexecuted, hrest⟩ := ih hnext
        rw [executeAll_of_ok ha, executeAll_of_ok hb, executed_of_ok ha, executed_of_ok hb]
        refine ⟨hfailure, congrArg (statement :: ·) hexecuted, ?_⟩
        have htargets : (statement :: a'.executed rest).filterMap Statement.target? =
            statement.target?.toList ++ (a'.executed rest).filterMap Statement.target? := by
          rw [List.filterMap_cons]
          cases statement.target? <;> rfl
        rw [htargets]
        exact heffects.trans hrest

/-- A program does the same in two states that agree on its free variables. It fails with the same
error or succeeds in both, and executes the same statements with the same effects. -/
theorem run_congr_freeNames (a b : Interpreter) (program : Program)
    (h : ∀ name ∈ program.freeNames, a.store.get? name = b.store.get? name) :
    let (resultA, finalA) := a.run program
    let (resultB, finalB) := b.run program
    (match resultA, resultB with
      | .ok outcomeA, .ok outcomeB => outcomeA.output = outcomeB.output
      | .error errorA, .error errorB => errorA = errorB
      | _, _ => False) ∧
    a.executed program.statements = b.executed program.statements ∧
    SameEffects a b ((a.executed program.statements).filterMap Statement.target?)
      finalA finalB := by
  obtain ⟨hfailure, hexecuted, heffects⟩ := @executeAll_alike a b [] program.statements
    fun name hname => h name (hname.resolve_left List.not_mem_nil)
  rcases ha : a.executeAll program.statements with ⟨failure | error, finalA⟩
  · rcases hb : b.executeAll program.statements with ⟨failure | error, finalB⟩
    · rw [ha, hb] at heffects
      obtain ⟨lines, hlinesA, hlinesB⟩ := heffects.output
      rw [run_of_none ha, run_of_none hb]
      refine ⟨?_, hexecuted, heffects⟩
      simp only at hlinesA hlinesB ⊢
      rw [hlinesA, hlinesB, List.drop_left, List.drop_left]
    · rw [ha, hb] at hfailure
      cases hfailure
  · rcases hb : b.executeAll program.statements with ⟨failure | error', finalB⟩
    · rw [ha, hb] at hfailure
      cases hfailure
    · rw [ha, hb] at hfailure heffects
      rw [run_of_some ha, run_of_some hb]
      exact ⟨Option.some.inj hfailure, hexecuted, heffects⟩

/-- In `let t = x * 2; print(t); print(t / 0);` only `x` is free. In two states that agree on `x`,
but not on `t`, `z` and the lines, the same line is printed before the division fails. -/
theorem run_congr_freeNames_division :
    let program : Program := ⟨[
      .assign "t" (.operation .times (.reference "x" .start) (.literal (.int 2)) .start),
      .print (.reference "t" .start),
      .print (.operation .divide (.reference "t" .start) (.literal (.int 0)) .start)]⟩
    let a : Interpreter := ⟨(Store.empty.define "x" (.int 3)).define "z" (.int 1), ["1"]⟩
    let b : Interpreter := ⟨(Store.empty.define "t" (.int 9)).define "x" (.int 3), []⟩
    (∀ name ∈ program.freeNames, a.store.get? name = b.store.get? name) ∧
      (a.run program).1 = .error (.divisionByZero .start) ∧
      (b.run program).1 = .error (.divisionByZero .start) ∧
      SameEffects a b ["t"] (a.run program).2 (b.run program).2 := by
  intro program a b
  have hfree : ∀ name ∈ program.freeNames, a.store.get? name = b.store.get? name := by
    decide +kernel
  exact ⟨hfree, by rfl, by rfl, (run_congr_freeNames a b program hfree).2.2⟩

end Interpreter

end Reckoner
