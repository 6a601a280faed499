import Mathlib.Data.Finset.Card
import Reckoner.Proofs.Snapshots

/-!
# Stores and the definitions that made them

A store shows no more and no less than the history of its definitions: each name once, in the order
of first definition, with its last value. `Store` keeps its entries in one list. The values can also
be kept in a table and the order of the names in a list beside it, to which a definition adds the
name if the table had no value for it. The two then always hold the same names, and what such a
store shows is what a `Store` shows.
-/

namespace Reckoner

/-! ## Histories -/

/-- Definitions of names, in the order in which they are made. -/
abbrev History := List (String × Number)

namespace History

/-- The names that are defined, each as often as it is. -/
def names (history : History) : List String :=
  history.map Prod.fst

/-- The value that the last definition of a name gives it. -/
def last? (history : History) (name : String) : Option Number :=
  history.reverse.lookup name

theorem names_concat (history : History) (name : String) (value : Number) :
    names (history ++ [(name, value)]) = history.names ++ [name] :=
  List.map_append

/-- The last definition of a name is the one that is added, if it is of this name. -/
theorem last?_concat (history : History) (name : String) (value : Number) (x : String) :
    last? (history ++ [(name, value)]) x = if x = name then some value else history.last? x := by
  rw [last?, List.reverse_concat, List.lookup_cons]
  by_cases hx : x = name
  · simp [hx]
  · have hbeq : (x == name) = false := beq_false_of_ne hx
    rw [hbeq, if_neg hx, last?]

end History

namespace Store

/-! ## What a store shows -/

/-- What can be seen of a store. -/
structure View where
  /-- The names with their values, one after the other. -/
  entries : List (String × Number)
  get? : String → Option Number
  contains : String → Bool
  size : Nat
  isEmpty : Bool

/-- What can be seen of a store. -/
def view (store : Store) : View :=
  ⟨store.entries, store.get?, store.contains, store.size, store.isEmpty⟩

/-- Whether what is seen of a store is what a history of definitions has left. -/
structure View.Shows (view : View) (history : History) : Prop where
  /-- No name is listed twice. -/
  nodup : (view.entries.map Prod.fst).Nodup
  /-- Of two names the one comes first that was defined first. -/
  ordered : (view.entries.map Prod.fst).Pairwise fun a b =>
    history.names.idxOf a < history.names.idxOf b
  /-- The names that were defined are listed with their last values. -/
  mem_entries_iff : ∀ name value, (name, value) ∈ view.entries ↔ history.last? name = some value
  get?_eq : ∀ name, view.get? name = history.last? name
  contains_eq : ∀ name, view.contains name = (view.get? name).isSome
  /-- The size is the number of different names that were defined. -/
  size_eq : view.size = history.names.toFinset.card
  isEmpty_iff : view.isEmpty ↔ view.size = 0

/-- Makes definitions in turn. -/
def defineAll (store : Store) (history : History) : Store :=
  history.foldl (fun store entry => store.define entry.1 entry.2) store

theorem defineAll_append (store : Store) (history further : History) :
    store.defineAll (history ++ further) = (store.defineAll history).defineAll further :=
  List.foldl_append

theorem defineAll_concat (store : Store) (history : History) (name : String) (value : Number) :
    store.defineAll (history ++ [(name, value)]) = (store.defineAll history).define name value :=
  defineAll_append store history [(name, value)]

/-- A look-up finds the last definition. -/
theorem get?_defineAll (history : History) (x : String) :
    (empty.defineAll history).get? x = history.last? x := by
  induction history using List.reverseRecOn with
  | nil => rfl
  | append_singleton history entry ih =>
      obtain ⟨name, value⟩ := entry
      rw [defineAll_concat, get?_define, History.last?_concat, ih]

/-- Defining a name that is there adds none, so the names of a store are those of its history. -/
theorem mem_names_defineAll (history : History) (x : String) :
    x ∈ (empty.defineAll history).names ↔ x ∈ history.names := by
  induction history using List.reverseRecOn with
  | nil => exact Iff.rfl
  | append_singleton history entry ih =>
      obtain ⟨name, value⟩ := entry
      rw [defineAll_concat, names_define, History.names_concat, List.mem_append, ← ih,
        List.mem_singleton]
      split
      · rename_i hname
        exact ⟨.inl, fun hx => hx.elim id fun hx => hx ▸ hname⟩
      · rw [List.mem_append, List.mem_singleton]

/-- A name that is defined for the first time comes behind all others, and a further definition does
not change where a name was defined first. -/
theorem names_defineAll_pairwise (history : History) :
    (empty.defineAll history).names.Pairwise fun a b =>
      (History.names history).idxOf a < (History.names history).idxOf b := by
  induction history using List.reverseRecOn with
  | nil => exact List.Pairwise.nil
  | append_singleton history entry ih =>
      obtain ⟨name, value⟩ := entry
      have hmem {x : String} (hx : x ∈ (empty.defineAll history).names) :
          x ∈ History.names history := (mem_names_defineAll history x).mp hx
      have hold : (empty.defineAll history).names.Pairwise fun a b =>
          (History.names history ++ [name]).idxOf a <
            (History.names history ++ [name]).idxOf b := by
        refine ih.imp_of_mem fun ha hb hlt => ?_
        rwa [List.idxOf_append_of_mem (hmem ha), List.idxOf_append_of_mem (hmem hb)]
      rw [defineAll_concat, names_define, History.names_concat]
      split
      · exact hold
      · rename_i hname
        refine List.pairwise_append.mpr ⟨hold, List.pairwise_singleton _ _, fun x hx y hy => ?_⟩
        obtain rfl := List.mem_singleton.mp hy
        rw [mem_names_defineAll] at hname
        rw [List.idxOf_append_of_mem (hmem hx), List.idxOf_append_of_notMem hname]
        exact Nat.lt_add_right _ (List.idxOf_lt_length_of_mem (hmem hx))

/-- A store has as many variables as there are names in its history. -/
theorem size_defineAll (history : History) :
    (empty.defineAll history).size = history.names.toFinset.card := by
  have hnames : history.names.toFinset = (empty.defineAll history).names.toFinset := by
    ext x
    rw [List.mem_toFinset, List.mem_toFinset, mem_names_defineAll]
  rw [hnames, List.toFinset_card_of_nodup (nodup_names _), size_eq_length_names]

/-- A store shows the history of its definitions. -/
theorem view_shows (history : History) : (empty.defineAll history).view.Shows history where
  nodup := nodup_names _
  ordered := names_defineAll_pairwise history
  mem_entries_iff name value := by
    rw [← get?_defineAll]
    exact Store.mem_entries_iff
  get?_eq := get?_defineAll history
  contains_eq _ := rfl
  size_eq := size_defineAll history
  isEmpty_iff := by
    change (empty.defineAll history).entries.isEmpty ↔ (empty.defineAll history).entries.length = 0
    rw [List.isEmpty_iff, List.length_eq_zero_iff]

end Store

/-! ## A table and an order -/

/-- A store that keeps the values of its names in a table, and the order of the names apart. -/
structure IndexedStore where
  values : Std.HashMap String Number
  order : List String

namespace IndexedStore

/-- The store without names. -/
def empty : IndexedStore := ⟨∅, []⟩

/-- The value of a name. -/
def get? (store : IndexedStore) (name : String) : Option Number :=
  store.values[name]?

/-- Whether a name is defined. -/
def contains (store : IndexedStore) (name : String) : Bool :=
  store.values.contains name

/-- Gives a name a value. The name is added to the order if the table had no value for it. -/
def define (store : IndexedStore) (name : String) (value : Number) : IndexedStore where
  values := store.values.insert name value
  order := if store.values.contains name then store.order else store.order ++ [name]

/-- The names with their values, in the order of the names. A name without a value is left out. -/
def entries (store : IndexedStore) : List (String × Number) :=
  store.order.filterMap fun name => (store.get? name).map fun value => (name, value)

/-- What can be seen of the store. It is as large as the order is long. -/
def view (store : IndexedStore) : Store.View :=
  ⟨store.entries, store.get?, store.contains, store.order.length, store.order.isEmpty⟩

/-- Makes definitions in turn. -/
def defineAll (store : IndexedStore) (history : History) : IndexedStore :=
  history.foldl (fun store entry => store.define entry.1 entry.2) store

/-- Whether a table and an order have the names of a store in its order, and its values. -/
structure Represents (indexed : IndexedStore) (store : Store) : Prop where
  order_eq : indexed.order = store.names
  get?_eq : ∀ name, indexed.get? name = store.get? name

theorem represents_empty : empty.Represents .empty where
  order_eq := rfl
  get?_eq _ := Std.HashMap.getElem?_empty

namespace Represents

variable {indexed : IndexedStore} {store : Store}

theorem contains_eq (h : indexed.Represents store) (name : String) :
    indexed.contains name = store.contains name := by
  rw [IndexedStore.contains, Std.HashMap.contains_eq_isSome_getElem?]
  exact congrArg Option.isSome (h.get?_eq name)

/-- The order has the names for which the table has a value. -/
theorem mem_order_iff (h : indexed.Represents store) (name : String) :
    name ∈ indexed.order ↔ name ∈ indexed.values := by
  rw [h.order_eq, ← Store.exists_get?_eq_iff, ← h.get?_eq, ← Option.isSome_iff_exists]
  exact Std.HashMap.mem_iff_isSome_getElem?.symm

/-- A definition keeps the table and the order in step. -/
theorem define (h : indexed.Represents store) (name : String) (value : Number) :
    (indexed.define name value).Represents (store.define name value) where
  order_eq := by
    have hcontains : indexed.values.contains name ↔ name ∈ store.names := by
      rw [Std.HashMap.contains_iff_mem, ← h.mem_order_iff, h.order_eq]
    simp only [IndexedStore.define, Store.names_define, hcontains, h.order_eq]
  get?_eq x := by
    rw [Store.get?_define, ← h.get?_eq]
    exact Std.HashMap.getElem?_insert.trans (by simp only [beq_iff_eq, eq_comm (a := x)]; rfl)

theorem defineAll (h : indexed.Represents store) (history : History) :
    (indexed.defineAll history).Represents (store.defineAll history) := by
  induction history generalizing indexed store with
  | nil => exact h
  | cons entry rest ih => exact ih (h.define entry.1 entry.2)

/-- No name is left out of the entries. -/
theorem entries_eq (h : indexed.Represents store) : indexed.entries = store.entries := by
  rw [entries, h.order_eq, Store.names, List.filterMap_map]
  refine (List.filterMap_congr fun entry hentry => ?_).trans List.filterMap_some
  have hvalue : indexed.get? entry.1 = some entry.2 :=
    (h.get?_eq entry.1).trans (Store.mem_entries_iff.mp hentry)
  simp only [Function.comp_apply, hvalue, Option.map_some]

theorem view_eq (h : indexed.Represents store) : indexed.view = store.view := by
  have hlength : indexed.order.length = store.size := by
    rw [h.order_eq, Store.size_eq_length_names]
  have hempty : indexed.order.isEmpty = store.isEmpty := by
    rw [h.order_eq, Store.names, List.isEmpty_map, Store.isEmpty]
  rw [view, h.entries_eq, funext h.get?_eq, funext h.contains_eq, hlength, hempty]
  rfl

end Represents

end IndexedStore

/-! ## The definitions of an interpreter -/

namespace Interpreter

/-- The definition that a statement makes, if it is executed and assigns a variable. -/
def definition (state : Interpreter) : Statement → History
  | .assign name e =>
    match state.evaluate e with
    | .ok value => [(name, value)]
    | .error _ => []
  | .print _ => []

/-- The definitions that statements make, up to the first that fails. -/
def definitions (state : Interpreter) : List Statement → History
  | [] => []
  | statement :: rest =>
    match state.execute statement with
    | .ok next => state.definition statement ++ next.definitions rest
    | .error _ => []

/-- The definitions that are made for requests, one after another. -/
def definitionsFor (state : Interpreter) : List Request → History
  | [] => []
  | first :: rest =>
    state.definitions first.statements ++ (state.request first).definitionsFor rest

variable {state next : Interpreter}

/-- What a statement does to the store is to define its target. -/
theorem store_of_execute {statement : Statement} (h : state.execute statement = .ok next) :
    next.store = state.store.defineAll (state.definition statement) := by
  obtain ⟨name, e, value, rfl, hvalue, rfl⟩ | ⟨e, value, rfl, -, rfl⟩ := execute_cases h
  · rw [definition, hvalue]
    rfl
  · rfl

/-- What statements do to the store is to define the targets of those that are executed. -/
theorem store_executeAll (state : Interpreter) (statements : List Statement) :
    (state.executeAll statements).2.store =
      state.store.defineAll (state.definitions statements) := by
  induction statements generalizing state with
  | nil => rfl
  | cons statement rest ih =>
      rw [definitions]
      cases hexecute : state.execute statement with
      | error error =>
          rw [executeAll_of_error hexecute]
          rfl
      | ok next =>
          rw [executeAll_of_ok hexecute, ih, store_of_execute hexecute, ← Store.defineAll_append]

/-- The store that requests leave is made by their definitions. -/
theorem store_requestAll (state : Interpreter) (requests : List Request) :
    (state.requestAll requests).store = state.store.defineAll (state.definitionsFor requests) := by
  induction requests generalizing state with
  | nil => rfl
  | cons first rest ih =>
      calc (state.requestAll (first :: rest)).store
          = ((state.request first).requestAll rest).store := rfl
        _ = (state.request first).store.defineAll ((state.request first).definitionsFor rest) :=
          ih (state.request first)
        _ = state.store.defineAll (state.definitionsFor (first :: rest)) := by
          rw [store_request, store_executeAll, ← Store.defineAll_append, definitionsFor]

end Interpreter

/-- A store that keeps a table of values and an order of names apart shows the history of its
definitions: the order has no name twice, and has just the names of the table; the entries are the
defined names, each once, in the order of first definition, with the values of their last
definitions; and looking a name up, asking whether it is defined, the size and emptiness agree with
this. `Store` shows the same, and the store of an interpreter is made by the definitions that the
interpreter was asked for. -/
theorem Store.shows_history_of_definitions :
    (∀ history : History,
      let indexed := IndexedStore.empty.defineAll history
      indexed.order.Nodup ∧ (∀ name, name ∈ indexed.order ↔ name ∈ indexed.values) ∧
        indexed.view.Shows history ∧ (Store.empty.defineAll history).view = indexed.view) ∧
    ∀ requests,
      let history := Interpreter.fresh.definitionsFor requests
      (Interpreter.fresh.requestAll requests).store = Store.empty.defineAll history ∧
        (Interpreter.fresh.requestAll requests).store.view.Shows history := by
  constructor
  · intro history indexed
    have hrepresents : indexed.Represents (Store.empty.defineAll history) :=
      IndexedStore.represents_empty.defineAll history
    refine ⟨?_, hrepresents.mem_order_iff, ?_, hrepresents.view_eq.symm⟩
    · rw [hrepresents.order_eq]
      exact Store.nodup_names _
    · rw [hrepresents.view_eq]
      exact Store.view_shows history
  · intro requests history
    have hstore : (Interpreter.fresh.requestAll requests).store = Store.empty.defineAll history :=
      Interpreter.fresh.store_requestAll requests
    refine ⟨hstore, ?_⟩
    rw [hstore]
    exact Store.view_shows history

/-- A name that is defined again keeps its place. -/
example : (Store.empty.defineAll
    [("z", .int 1), ("a", .int 2), ("m", .int 3), ("z", .int 4)]).entries =
      [("z", .int 4), ("a", .int 2), ("m", .int 3)] := rfl

end Reckoner
