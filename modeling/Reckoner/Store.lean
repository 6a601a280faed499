import Reckoner.Number

/-!
# Stores

A store gives names their values. It lists its names in the order in which they were first defined;
a name that is defined again keeps its place and changes its value.
-/

namespace Reckoner

/-- The names that are defined, with their values. -/
structure Store where
  /-- The names and values in the order of first definition. -/
  entries : List (String × Number)
  nodup : (entries.map Prod.fst).Nodup
deriving DecidableEq, Repr

namespace Store

/-- The store without names. -/
def empty : Store := ⟨[], List.nodup_nil⟩

/-- The defined names. -/
def names (store : Store) : List String :=
  store.entries.map Prod.fst

/-- The value of a name. -/
def get? (store : Store) (name : String) : Option Number :=
  store.entries.lookup name

/-- Whether a name is defined. -/
def contains (store : Store) (name : String) : Bool :=
  (store.get? name).isSome

/-- The number of defined names. -/
def size (store : Store) : Nat :=
  store.entries.length

/-- Whether no name is defined. -/
def isEmpty (store : Store) : Bool :=
  store.entries.isEmpty

/-- Gives a name a value in a list of entries: in its place, or at the end if it has none. -/
def insertEntry (name : String) (value : Number) :
    List (String × Number) → List (String × Number)
  | [] => [(name, value)]
  | (other, old) :: rest =>
    if other = name then (name, value) :: rest else (other, old) :: insertEntry name value rest

/-- Inserting an entry adds its name and no other. -/
theorem mem_names_insertEntry {name x : String} {value : Number}
    {entries : List (String × Number)} :
    x ∈ (insertEntry name value entries).map Prod.fst ↔ x = name ∨ x ∈ entries.map Prod.fst := by
  fun_induction insertEntry name value entries with
  | case1 => simp
  | case2 => simp
  | case3 other old rest _ ih =>
    simp only [List.map_cons, List.mem_cons, ih]
    exact or_left_comm

/-- Inserting an entry keeps names distinct. -/
theorem nodup_insertEntry {name : String} {value : Number} {entries : List (String × Number)}
    (h : (entries.map Prod.fst).Nodup) :
    ((insertEntry name value entries).map Prod.fst).Nodup := by
  fun_induction insertEntry name value entries with
  | case1 => simp
  | case2 => exact h
  | case3 other old rest hne ih =>
    simp only [List.map_cons, List.nodup_cons] at h ⊢
    refine ⟨fun hmem => ?_, ih h.2⟩
    exact (mem_names_insertEntry.mp hmem).elim hne h.1

/-- Gives a name a value. -/
def define (store : Store) (name : String) (value : Number) : Store :=
  ⟨insertEntry name value store.entries, nodup_insertEntry store.nodup⟩

/-- Whether two stores define the same names with numerically equal values, in any order. -/
def equals (a b : Store) : Bool :=
  a.size == b.size && a.entries.all fun (name, value) => b.get? name == some value

/-- Stores are compared by `==` without regard to order. Identity of stores is `=`. -/
instance : BEq Store := ⟨equals⟩

theorem lookup_insertEntry (name : String) (value : Number) (entries : List (String × Number))
    (x : String) :
    (insertEntry name value entries).lookup x =
      if x = name then some value else entries.lookup x := by
  fun_induction insertEntry name value entries <;> grind

/-- A name that was just defined has its new value, and all others keep theirs. -/
theorem get?_define (store : Store) (name : String) (value : Number) (x : String) :
    (store.define name value).get? x = if x = name then some value else store.get? x :=
  lookup_insertEntry name value store.entries x

end Store

end Reckoner
