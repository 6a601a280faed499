import Reckoner.Proofs.FreeVariables
import Reckoner.Proofs.Reports

/-!
# Evaluation on a stack and under substitution

The nodes of an expression, in the order of evaluation, are a program for a stack machine: operands
are put on the stack, and an operation replaces the two on top by its result. This program leaves
the value of the expression, or stops with its failure at the first node that fails.

Evaluation has no effects. So a variable may be replaced by an expression of the same value, and an
expression may be split over assignments of its parts to variables.
-/

namespace Reckoner

/-! ## The stack machine -/

/-- Why the nodes of an expression are not executed further. -/
inductive Halt where
  | failure (error : RuntimeError)
  /-- An operation finds fewer than two values on the stack. -/
  | underflow
deriving DecidableEq, Repr

namespace Expr

namespace Node

/-- The stack behind a node. A literal and a variable put their value on top of the stack. An
operation takes the two values on top away, the right operand first, and puts its result there. -/
def execute (store : Store) : List Number → Node → Except Halt (List Number)
  | stack, literal value => .ok (value :: stack)
  | stack, reference name position =>
    match store.get? name with
    | some value => .ok (value :: stack)
    | none => .error (.failure (.undefinedVariable name position))
  | right :: left :: stack, operation .plus _ => .ok ((left + right) :: stack)
  | right :: left :: stack, operation .minus _ => .ok ((left - right) :: stack)
  | right :: left :: stack, operation .times _ => .ok ((left * right) :: stack)
  | right :: left :: stack, operation .divide position =>
    if right.isZero then .error (.failure (.divisionByZero position))
    else .ok ((left / right) :: stack)
  | _, operation _ _ => .error .underflow

/-- The stack behind nodes that are executed in order, up to the first that fails. -/
def executeAll (store : Store) (stack : List Number) (nodes : List Node) :
    Except Halt (List Number) :=
  nodes.foldlM (execute store) stack

variable {store : Store} {stack : List Number}

/-- On its two operands an operation does what it does to numbers. -/
theorem execute_operation (op : Operator) (left right : Number) (position : Position) :
    execute store (right :: left :: stack) (operation op position) =
      ((op.apply left right position).map (· :: stack)).mapError .failure := by
  cases op with
  | divide =>
      rw [execute, Operator.apply]
      split <;> rfl
  | _ => rfl

theorem executeAll_nil : executeAll store stack [] = .ok stack := rfl

theorem executeAll_cons (node : Node) (rest : List Node) :
    executeAll store stack (node :: rest) =
      execute store stack node >>= fun next => executeAll store next rest :=
  List.foldlM_cons

/-- The machine stops at the first node that fails on the stack that the nodes before it leave. -/
theorem executeAll_eq_error_iff {nodes : List Node} {halt : Halt} :
    executeAll store stack nodes = .error halt ↔
      ∃ before node after reached, nodes = before ++ node :: after ∧
        executeAll store stack before = .ok reached ∧ execute store reached node = .error halt := by
  induction nodes generalizing stack with
  | nil => simp [executeAll_nil]
  | cons first rest ih =>
      rw [executeAll_cons]
      constructor
      · intro h
        obtain hfirst | ⟨next, hfirst, hrest⟩ := bind_eq_error h
        · exact ⟨[], first, rest, stack, rfl, rfl, hfirst⟩
        · obtain ⟨before, node, after, reached, rfl, hbefore, hnode⟩ := ih.mp hrest
          refine ⟨first :: before, node, after, reached, rfl, ?_, hnode⟩
          rw [executeAll_cons, hfirst]
          exact hbefore
      · rintro ⟨before, node, after, reached, hnodes, hbefore, hnode⟩
        cases before with
        | nil =>
            obtain ⟨rfl, rfl⟩ := List.cons.inj hnodes
            cases hbefore
            rw [hnode]
            rfl
        | cons other before =>
            obtain ⟨rfl, rfl⟩ := List.cons.inj hnodes
            rw [executeAll_cons] at hbefore
            cases hfirst : execute store stack first with
            | error other =>
                rw [hfirst] at hbefore
                cases hbefore
            | ok next =>
                rw [hfirst] at hbefore
                exact ih.mpr ⟨before, node, after, reached, rfl, hbefore, hnode⟩

end Node

/-- The nodes of an expression put its value on top of the stack for the nodes behind them, or stop
with its failure. The value of a left operand waits on the stack for that of the right one. -/
theorem executeAll_postorder_append (store : Store) (e : Expr) (rest : List Node)
    (stack : List Number) :
    Node.executeAll store stack (e.postorder ++ rest) =
      (e.evaluate store).mapError .failure >>= fun value =>
        Node.executeAll store (value :: stack) rest := by
  induction e generalizing rest stack with
  | literal value => rfl
  | reference name position =>
      rw [postorder, evaluate, List.singleton_append, Node.executeAll_cons, Node.execute]
      cases store.get? name <;> rfl
  | operation op left right position ihl ihr =>
      rw [postorder, List.append_assoc, List.append_assoc, ihl, evaluate]
      cases left.evaluate store with
      | error error => rfl
      | ok l =>
          change Node.executeAll store (l :: stack) _ = _
          rw [ihr]
          cases right.evaluate store with
          | error error => rfl
          | ok r =>
              change Node.executeAll store (r :: l :: stack) (_ :: rest) = _
              rw [Node.executeAll_cons, Node.execute_operation]
              change _ = (op.apply l r position).mapError Halt.failure >>= _
              cases op.apply l r position <;> rfl

/-! ## Parts of an expression -/

/-- An expression without its operands. -/
def root : Expr → Node
  | literal value => .literal value
  | reference name position => .reference name position
  | operation operator _ _ position => .operation operator position

/-- The parts of an expression in the order of evaluation, at last the expression itself. -/
def parts : Expr → List Expr
  | literal value => [literal value]
  | reference name position => [reference name position]
  | operation operator left right position =>
    left.parts ++ right.parts ++ [operation operator left right position]

theorem map_root_parts (e : Expr) : e.parts.map root = e.postorder := by
  induction e with
  | literal value => rfl
  | reference name position => rfl
  | operation op left right position ihl ihr =>
      rw [parts, postorder, List.map_append, List.map_append, ihl, ihr]
      rfl

/-- An expression fails as the first of its parts that fails, and has a value if all of them
have. -/
theorem errorOf?_evaluate (store : Store) (e : Expr) :
    errorOf? (e.evaluate store) = e.parts.findSome? fun part => errorOf? (part.evaluate store) := by
  induction e with
  | literal value => rfl
  | reference name position => rw [parts, List.findSome?_singleton]
  | operation op left right position ihl ihr =>
      rw [parts, List.findSome?_append, List.findSome?_append, List.findSome?_singleton, ← ihl,
        ← ihr, evaluate]
      cases left.evaluate store with
      | error error => rfl
      | ok l => cases right.evaluate store <;> rfl

/-- Evaluating an expression is executing its nodes on an empty stack, in the order of evaluation.
This leaves the value of the expression alone on the stack, or stops with its failure, and the
failure is that of the first node that fails on what the nodes before it leave. So the failure is
that of the first part of the expression that fails, and where there is a value, all parts have been
evaluated. -/
theorem evaluate_eq_executeAll_postorder (store : Store) (e : Expr) :
    Node.executeAll store [] e.postorder =
      ((e.evaluate store).map fun value => [value]).mapError .failure ∧
    (∀ error, e.evaluate store = .error error ↔
      ∃ before node after stack, e.postorder = before ++ node :: after ∧
        Node.executeAll store [] before = .ok stack ∧
          node.execute store stack = .error (.failure error)) ∧
    e.parts.map root = e.postorder ∧
    errorOf? (e.evaluate store) =
      e.parts.findSome? fun part => errorOf? (part.evaluate store) := by
  have hmachine : Node.executeAll store [] e.postorder =
      ((e.evaluate store).map fun value => [value]).mapError .failure := by
    have happend := executeAll_postorder_append store e [] []
    rw [List.append_nil] at happend
    rw [happend]
    cases e.evaluate store <;> rfl
  refine ⟨hmachine, fun error => ?_, map_root_parts e, errorOf?_evaluate store e⟩
  rw [← Node.executeAll_eq_error_iff, hmachine]
  cases e.evaluate store with
  | error found => simp [Except.map, Except.mapError]
  | ok value => simp [Except.map, Except.mapError]

/-- Zero times a missing variable fails: the right operand is evaluated, too. -/
example :
    (operation .times (literal (.int 0)) (reference "missing" ⟨4, 1, 5⟩) ⟨2, 1, 3⟩).evaluate
      .empty = .error (.undefinedVariable "missing" ⟨4, 1, 5⟩) := rfl

/-! ## Substitution -/

/-- The expression with another one in every place of a variable. -/
def substitute (e : Expr) (name : String) (replacement : Expr) : Expr :=
  match e with
  | literal value => literal value
  | reference other position =>
    if other = name then replacement else reference other position
  | operation operator left right position =>
    operation operator (left.substitute name replacement) (right.substitute name replacement)
      position

/-- The expression with variables replaced by what defines them. A definition may use the variables
of those before it, so the last one is replaced first. -/
def expand (e : Expr) : List (String × Expr) → Expr
  | [] => e
  | (name, definition) :: rest => (e.expand rest).substitute name definition

/-- Replacing a variable is giving it the value of the replacement. -/
theorem evaluate_substitute {store : Store} {name : String} {replacement : Expr} {value : Number}
    (h : replacement.evaluate store = .ok value) (e : Expr) :
    (e.substitute name replacement).evaluate store = e.evaluate (store.define name value) := by
  induction e with
  | literal value => rfl
  | reference other position =>
      rw [substitute, evaluate, Store.get?_define]
      by_cases hname : other = name
      · rw [if_pos hname, if_pos hname]
        exact h
      · rw [if_neg hname, if_neg hname]
        rfl
  | operation op left right position ihl ihr =>
      rw [substitute, evaluate, evaluate, ihl, ihr]

end Expr

/-- The statements that give variables the values of their definitions. -/
def Statement.assignAll (bindings : List (String × Expr)) : List Statement :=
  bindings.map fun (name, definition) => .assign name definition

namespace Interpreter

variable {state final : Interpreter}

theorem execute_assign {e : Expr} {value : Number} (h : state.evaluate e = .ok value)
    (name : String) :
    state.execute (.assign name e) =
      .ok { state with store := state.store.define name value } := by
  rw [execute, h]
  rfl

/-- Variables that have been assigned stand for their definitions. -/
theorem evaluate_expand {bindings : List (String × Expr)}
    (h : state.executeAll (Statement.assignAll bindings) = (none, final)) (e : Expr) :
    state.evaluate (e.expand bindings) = final.evaluate e := by
  induction bindings generalizing state with
  | nil =>
      cases h
      rfl
  | cons binding rest ih =>
      obtain ⟨name, definition⟩ := binding
      rw [Statement.assignAll, List.map_cons] at h
      cases hvalue : state.evaluate definition with
      | error error =>
          have hexecute : state.execute (.assign name definition) = .error error := by
            rw [execute, hvalue]
            rfl
          rw [executeAll_of_error hexecute] at h
          cases h
      | ok value =>
          rw [executeAll_of_ok (execute_assign hvalue name)] at h
          rw [Expr.expand, evaluate, Expr.evaluate_substitute hvalue]
          exact ih h

/-- An expression that has a value may be assigned to a variable, and any expression then evaluates
as it does with this variable replaced, to the same value or with the same failure. So an expression
may be split over several assignments of which each uses the variables of those before it. -/
theorem splitting_preserves_evaluation (state : Interpreter) (e : Expr) :
    (∀ name definition value, state.evaluate definition = .ok value →
      ∃ next, state.execute (.assign name definition) = .ok next ∧ next.output = state.output ∧
        state.evaluate (e.substitute name definition) = next.evaluate e) ∧
    ∀ bindings final, state.executeAll (Statement.assignAll bindings) = (none, final) →
      state.evaluate (e.expand bindings) = final.evaluate e := by
  refine ⟨fun name definition value h => ?_, fun bindings final h => evaluate_expand h e⟩
  exact ⟨_, execute_assign h name, rfl, Expr.evaluate_substitute h e⟩

/-- With `x` assigned `x + 1`, the division in `x / (x - 3)` fails as it does in
`(x + 1) / ((x + 1) - 3)`. With `y` then assigned `x * x`, the difference `y - x` is that of
`(x + 1) * (x + 1)` and `x + 1`. -/
theorem splitting_preserves_evaluation_successor :
    let x : Expr := .reference "x" ⟨0, 1, 1⟩
    let successor : Expr := .operation .plus x (.literal (.int 1)) ⟨2, 1, 3⟩
    let square : Expr := .operation .times x x ⟨2, 1, 3⟩
    let quotient : Expr :=
      .operation .divide x (.operation .minus x (.literal (.int 3)) ⟨7, 1, 8⟩) ⟨2, 1, 3⟩
    let difference : Expr := .operation .minus (.reference "y" ⟨0, 1, 1⟩) x ⟨2, 1, 3⟩
    let state : Interpreter := ⟨Store.empty.define "x" (.int 2), ["1"]⟩
    let final : Interpreter := ⟨(Store.empty.define "x" (.int 3)).define "y" (.int 9), ["1"]⟩
    state.evaluate successor = .ok (.int 3) ∧
      state.evaluate (quotient.substitute "x" successor) = .error (.divisionByZero ⟨2, 1, 3⟩) ∧
      state.executeAll (Statement.assignAll [("x", successor), ("y", square)]) = (none, final) ∧
      state.evaluate (difference.expand [("x", successor), ("y", square)]) = .ok (.int 6) := by
  intro x successor square quotient difference state final
  have hvalue : state.evaluate successor = .ok (.int 3) := by rfl
  have hassigned : state.executeAll (Statement.assignAll [("x", successor), ("y", square)]) =
      (none, final) := by rfl
  obtain ⟨next, hnext, -, hquotient⟩ :=
    (splitting_preserves_evaluation state quotient).1 "x" successor _ hvalue
  obtain rfl := Except.ok.inj ((execute_assign hvalue "x").symm.trans hnext)
  have hdifference := (splitting_preserves_evaluation state difference).2 _ _ hassigned
  exact ⟨hvalue, hquotient.trans rfl, hassigned, hdifference.trans rfl⟩

end Interpreter

end Reckoner
