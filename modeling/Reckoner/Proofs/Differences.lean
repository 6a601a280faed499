import Mathlib.Data.List.Perm.Subperm
import Reckoner.Proofs.Changes
import Reckoner.Proofs.Effects

/-!
# Changes as the difference of two stores

The changes from one store to another hold all that is needed to get from the former to the latter,
if the former's names come first in the latter: making the changes in turn gives the names of the
latter in their order, and its values up to the sign of zeros. There are no changes between two
stores, in either direction, if the stores are equal and no integer stands in one of them for a
floating-point number of the other.
-/

namespace Reckoner

/-! ## Equality of numbers -/

theorem Binary64.equals_comm (x y : Binary64) : x.equals y = y.equals x := by
  cases x with
  | nan => cases y <;> rfl
  | infinity s =>
      cases y with
      | infinity t => exact BEq.comm
      | _ => rfl
  | finite s u _ =>
      cases y with
      | finite t v _ =>
          rw [equals, equals]
          by_cases h : u = v
          · rw [h, BEq.comm (a := s)]
          · simp [beq_false_of_ne h, beq_false_of_ne (Ne.symm h)]
      | _ => rfl

namespace Number

theorem beq_comm (m n : Number) : (m == n) = (n == m) := by
  change m.equals n = n.equals m
  cases m with
  | int x =>
      cases n with
      | int y => exact BEq.comm (a := x)
      | float y =>
          simp only [equals]
          exact Binary64.equals_comm ..
  | float x =>
      simp only [equals]
      exact Binary64.equals_comm ..

theorem differs_eq_false_iff {old new : Number} :
    old.differs new = false ↔ old == new ∧ old.isFloat = new.isFloat := by
  simp [differs, bne]

/-- A value that does not count as changed is the same integer or an equal floating-point number. -/
theorem eq_or_equals_of_not_differs {old new : Number} (h : old.differs new = false) :
    old = new ∨ new.isFloat ∧ old == new := by
  obtain ⟨hequals, hkind⟩ := differs_eq_false_iff.mp h
  cases new with
  | float y => exact .inr ⟨rfl, hequals⟩
  | int n =>
      cases old with
      | float x => cases hkind
      | int m => exact .inl (congrArg int (eq_of_beq (α := Int) hequals))

end Number

/-- The value that a change gives its variable. -/
def Change.value : Change → Number
  | added _ value => value
  | updated _ _ new => new

namespace Store

variable {before after a b : Store}

/-! ## The changes that are listed -/

theorem get?_eq_none_iff {store : Store} {name : String} :
    store.get? name = none ↔ name ∉ store.names := by
  rw [get?, List.lookup_eq_none_iff, names, List.mem_map]
  simp only [bne_iff_ne, not_exists, not_and]
  exact forall_congr' fun entry => forall_congr' fun _ => ne_comm

theorem exists_get?_eq_iff {store : Store} {name : String} :
    (∃ value, store.get? name = some value) ↔ name ∈ store.names := by
  rw [← Option.ne_none_iff_exists', Ne, get?_eq_none_iff, not_not]

/-- A variable without a change had a value before. -/
theorem mem_names_of_change?_eq_none {name : String} {value : Number}
    (h : before.change? name value = none) : name ∈ before.names := by
  refine Decidable.byContradiction fun hname => ?_
  have hadded : before.change? name value = some (.added name value) :=
    change?_eq_some_iff.mpr (.inl ⟨get?_eq_none_iff.mpr hname, rfl⟩)
  rw [h] at hadded
  cases hadded

/-- A variable is listed as added if it has a value now and had none before. -/
theorem added_mem_changes_iff {name : String} {value : Number} :
    .added name value ∈ before.changes after ↔
      after.get? name = some value ∧ before.get? name = none := by
  simp only [mem_changes_iff, change?_eq_some_iff]
  constructor
  · rintro ⟨other, found, hfound, ⟨hnone, hchange⟩ | ⟨old, -, -, hchange⟩⟩
    · cases hchange
      exact ⟨hfound, hnone⟩
    · cases hchange
  · rintro ⟨hvalue, hnone⟩
    exact ⟨name, value, hvalue, .inl ⟨hnone, rfl⟩⟩

/-- A variable is listed as updated with its values before and now, if these count as different. -/
theorem updated_mem_changes_iff {name : String} {old new : Number} :
    .updated name old new ∈ before.changes after ↔
      after.get? name = some new ∧ before.get? name = some old ∧ old.differs new := by
  simp only [mem_changes_iff, change?_eq_some_iff]
  constructor
  · rintro ⟨other, found, hfound, ⟨-, hchange⟩ | ⟨previous, hprevious, hdiffers, hchange⟩⟩
    · cases hchange
    · cases hchange
      exact ⟨hfound, hprevious, hdiffers⟩
  · rintro ⟨hnew, hold, hdiffers⟩
    exact ⟨name, new, hnew, .inr ⟨old, hold, hdiffers, rfl⟩⟩

/-- A change gives its variable the value that it has now. -/
theorem get?_of_mem_changes {change : Change} (h : change ∈ before.changes after) :
    after.get? change.name = some change.value := by
  cases change with
  | added name value => exact (added_mem_changes_iff.mp h).1
  | updated name old new => exact (updated_mem_changes_iff.mp h).1

/-- A variable that is not listed has a value now only if it had one before that does not count as
different. -/
theorem exists_of_notMem_changes {name : String} {value : Number}
    (hname : name ∉ (before.changes after).map Change.name)
    (hvalue : after.get? name = some value) :
    ∃ old, before.get? name = some old ∧ old.differs value = false := by
  rw [mem_changes_names_iff] at hname
  push Not at hname
  obtain ⟨old, hold, hdiffers⟩ := hname value hvalue
  exact ⟨old, hold, Bool.eq_false_iff.mpr hdiffers⟩

/-- No change is listed if there are no new variables, and no values that count as different. -/
theorem changes_eq_nil_iff : before.changes after = [] ↔
    after.names ⊆ before.names ∧ ∀ name old new, before.get? name = some old →
      after.get? name = some new → old.differs new = false := by
  constructor
  · intro h
    have hlisted (name : String) : name ∉ (before.changes after).map Change.name := by
      rw [h]
      exact List.not_mem_nil
    constructor
    · intro name hname
      obtain ⟨value, hvalue⟩ := exists_get?_eq_iff.mpr hname
      obtain ⟨old, hold, -⟩ := exists_of_notMem_changes (hlisted name) hvalue
      exact exists_get?_eq_iff.mp ⟨old, hold⟩
    · intro name old new hold hnew
      obtain ⟨found, hfound, hdiffers⟩ := exists_of_notMem_changes (hlisted name) hnew
      obtain rfl := Option.some.inj (hfound.symm.trans hold)
      exact hdiffers
  · rintro ⟨hnames, hdiffers⟩
    refine List.eq_nil_iff_forall_not_mem.mpr fun change hchange => ?_
    have hname := exists_get?_eq_iff.mp ⟨_, get?_of_mem_changes hchange⟩
    cases change with
    | added name value =>
        exact get?_eq_none_iff.mp (added_mem_changes_iff.mp hchange).2 (hnames hname)
    | updated name old new =>
        obtain ⟨hnew, hold, hchanged⟩ := updated_mem_changes_iff.mp hchange
        rw [hdiffers name old new hold hnew] at hchanged
        cases hchanged

/-! ## Making the changes -/

/-- Makes changes in turn: each gives its variable its new value. -/
def replay (store : Store) (changes : List Change) : Store :=
  changes.foldl (fun store change => store.define change.name change.value) store

section

variable {store : Store} {changes : List Change}

theorem replay_cons (store : Store) (change : Change) (rest : List Change) :
    store.replay (change :: rest) =
      (store.define change.name change.value).replay rest := rfl

theorem get?_replay_of_notMem {name : String} (h : name ∉ changes.map Change.name) :
    (store.replay changes).get? name = store.get? name := by
  induction changes generalizing store with
  | nil => rfl
  | cons change rest ih =>
      obtain ⟨hfirst, hrest⟩ := List.ne_and_not_mem_of_not_mem_cons h
      rw [replay_cons, ih hrest, get?_define, if_neg hfirst]

/-- Where each variable is changed once, it gets the value of its change. -/
theorem get?_replay_of_mem {change : Change} (hnodup : (changes.map Change.name).Nodup)
    (h : change ∈ changes) : (store.replay changes).get? change.name = some change.value := by
  induction changes generalizing store with
  | nil => cases h
  | cons first rest ih =>
      rw [List.map_cons, List.nodup_cons] at hnodup
      rw [replay_cons]
      cases List.mem_cons.mp h with
      | inl hfirst =>
          subst hfirst
          rw [get?_replay_of_notMem hnodup.1, get?_define, if_pos rfl]
      | inr hrest => exact ih hnodup.2 hrest

/-- New variables come behind those that are there, in the order of their changes. Each is changed
once only, so it is not there yet. -/
theorem names_replay (h : (changes.map Change.name).Nodup) :
    (store.replay changes).names =
      store.names ++ (changes.map Change.name).filter (· ∉ store.names) := by
  induction changes generalizing store with
  | nil => exact (List.append_nil _).symm
  | cons change rest ih =>
      rw [List.map_cons, List.nodup_cons] at h
      rw [replay_cons, ih h.2, names_define, List.map_cons]
      by_cases hname : change.name ∈ store.names
      · rw [if_pos hname, List.filter_cons_of_neg (by simpa using hname)]
      · have hrest : (rest.map Change.name).filter (· ∉ store.names ++ [change.name]) =
            (rest.map Change.name).filter (· ∉ store.names) := by
          refine List.filter_congr fun other hother => ?_
          have hne : other ≠ change.name := fun heq => h.1 (heq ▸ hother)
          simp [hne]
        rw [if_neg hname, List.filter_cons_of_pos (by simpa using hname), hrest, List.append_assoc]
        rfl

end

/-- The new variables are all listed, in the order of the store. -/
theorem filter_changes_names (before after : Store) :
    ((before.changes after).map Change.name).filter (· ∉ before.names) =
      after.names.filter (· ∉ before.names) := by
  have hnames : after.names = after.entries.map Prod.fst := rfl
  rw [changes_eq, hnames]
  induction after.entries with
  | nil => rfl
  | cons entry rest ih =>
      rw [List.filterMap_cons, List.map_cons]
      split
      · rename_i hnone
        have hname : entry.1 ∈ before.names := mem_names_of_change?_eq_none hnone
        rw [ih, List.filter_cons_of_neg (by simpa using hname)]
      · rename_i change hchange
        rw [List.map_cons, name_of_change? hchange, List.filter_cons, List.filter_cons, ih]

/-- Names that come first are followed by those that are not among them. -/
theorem names_eq_append_filter (h : before.names <+: after.names) :
    after.names = before.names ++ after.names.filter (· ∉ before.names) := by
  obtain ⟨rest, hrest⟩ := h
  have hnodup : (before.names ++ rest).Nodup := hrest ▸ after.nodup
  have hfirst : before.names.filter (· ∉ before.names) = [] := by simp
  have hsecond : rest.filter (· ∉ before.names) = rest := by
    refine List.filter_eq_self.mpr fun name hname => ?_
    simpa using fun hmem => (List.nodup_append.mp hnodup).2.2 name hmem name hname rfl
  rw [← hrest, List.filter_append, hfirst, hsecond, List.nil_append]

/-- Behind the changes from one store to another each variable has its value in the latter, or an
equal floating-point number. -/
theorem exists_get?_replay_changes {name : String} {value : Number}
    (h : after.get? name = some value) :
    ∃ found, (before.replay (before.changes after)).get? name = some found ∧
      found.isFloat = value.isFloat ∧ (found = value ∨ value.isFloat ∧ found == value) := by
  by_cases hlisted : name ∈ (before.changes after).map Change.name
  · obtain ⟨change, hchange, rfl⟩ := List.mem_map.mp hlisted
    have hvalue := (get?_of_mem_changes hchange).symm.trans h
    have hreplayed : (before.replay (before.changes after)).get? change.name = some change.value :=
      get?_replay_of_mem (nodup_changes_names before after) hchange
    exact ⟨value, hreplayed.trans hvalue, rfl, .inl rfl⟩
  · obtain ⟨old, hold, hdiffers⟩ := exists_of_notMem_changes hlisted h
    refine ⟨old, (get?_replay_of_notMem hlisted).trans hold, ?_, ?_⟩
    · exact (Number.differs_eq_false_iff.mp hdiffers).2
    · exact Number.eq_or_equals_of_not_differs hdiffers

/-- If the names of a store come first in another one, as they do at two points of a run
(`Interpreter.names_prefix_executeAll`), then making the changes between the stores gives the names
of the latter in their order. Each value is then of the same kind as in the latter, and the same or
an equal floating-point number. No variable is changed twice; a variable is added if it had no value
before, and else it is updated from its value before. -/
theorem replay_changes (before after : Store) (h : before.names <+: after.names) :
    (before.replay (before.changes after)).names = after.names ∧
    (∀ name value, after.get? name = some value →
      ∃ found, (before.replay (before.changes after)).get? name = some found ∧
        found.isFloat = value.isFloat ∧ (found = value ∨ value.isFloat ∧ found == value)) ∧
    ((before.changes after).map Change.name).Nodup ∧
    (∀ name value, .added name value ∈ before.changes after ↔
      after.get? name = some value ∧ before.get? name = none) ∧
    ∀ name old new, .updated name old new ∈ before.changes after →
      before.get? name = some old ∧ after.get? name = some new := by
  have hnodup := nodup_changes_names before after
  refine ⟨?_, fun _ _ => exists_get?_replay_changes, hnodup, fun _ _ => added_mem_changes_iff, ?_⟩
  · calc (before.replay (before.changes after)).names
        = before.names ++ ((before.changes after).map Change.name).filter (· ∉ before.names) :=
          names_replay hnodup
      _ = before.names ++ after.names.filter (· ∉ before.names) := by rw [filter_changes_names]
      _ = after.names := (names_eq_append_filter h).symm
  · intro name old new hchange
    obtain ⟨hnew, hold, -⟩ := updated_mem_changes_iff.mp hchange
    exact ⟨hold, hnew⟩

/-- An integer that becomes an equal floating-point number is updated, and so is not-a-number. A
zero that becomes negative keeps its sign. -/
theorem replay_changes_negative_zero :
    let two : Number := .float (.ofInt 2)
    let before := ((empty.define "x" (.int 2)).define "n" (.float .nan)).define "z"
      (.float (.zero false))
    let after := (((empty.define "x" two).define "n" (.float .nan)).define "z"
      (.float (.zero true))).define "a" (.int 5)
    before.names <+: after.names ∧
      before.changes after = [.updated "x" (.int 2) two,
        .updated "n" (.float .nan) (.float .nan), .added "a" (.int 5)] ∧
      (before.replay (before.changes after)).names = ["x", "n", "z", "a"] ∧
      ∃ found, (before.replay (before.changes after)).get? "z" = some found ∧
        found = .float (.zero false) ∧ found == .float (.zero true) := by
  intro two before after
  have hnames : before.names <+: after.names := ⟨["a"], by rfl⟩
  obtain ⟨hreplayed, hvalues, -⟩ := replay_changes before after hnames
  obtain ⟨found, hfound, -, hequals⟩ := hvalues "z" (.float (.zero true)) (by rfl)
  have hchanges : before.changes after = [.updated "x" (.int 2) two,
      .updated "n" (.float .nan) (.float .nan), .added "a" (.int 5)] := by decide +kernel
  have hzero : found = .float (.zero false) := by
    rw [hchanges] at hfound
    exact (Option.some.inj hfound).symm
  refine ⟨hnames, hchanges, hreplayed.trans rfl, found, hfound, hzero, ?_⟩
  exact hequals.elim (fun heq => by rw [heq] at hzero; cases hzero) And.right

/-! ## Equality of stores -/

theorem size_eq_length_names (store : Store) : store.size = store.names.length :=
  (List.length_map _).symm

theorem nodup_names (store : Store) : store.names.Nodup := store.nodup

theorem beq_iff : a == b ↔ a.size = b.size ∧ ∀ name value, a.get? name = some value →
    ∃ found, b.get? name = some found ∧ found == value := by
  have hfound (name : String) (value : Number) : (b.get? name == some value) = true ↔
      ∃ found, b.get? name = some found ∧ found == value := by
    cases b.get? name <;> simp
  change a.equals b ↔ _
  rw [equals, Bool.and_eq_true, beq_iff_eq, List.all_eq_true]
  simp only [Prod.forall, mem_entries_iff, hfound]

/-- Two stores are equal if they have the same names, and equal numbers for each of them. Then they
are equally large, since distinct names that are among equally many are all of them. -/
theorem beq_iff_names : a == b ↔ (∀ name, name ∈ a.names ↔ name ∈ b.names) ∧
    ∀ name m n, a.get? name = some m → b.get? name = some n → m == n := by
  rw [beq_iff]
  constructor
  · rintro ⟨hsize, hvalues⟩
    have hsubset : a.names ⊆ b.names := by
      intro name hname
      obtain ⟨value, hvalue⟩ := exists_get?_eq_iff.mpr hname
      obtain ⟨found, hfound, -⟩ := hvalues name value hvalue
      exact exists_get?_eq_iff.mp ⟨found, hfound⟩
    have hperm : a.names.Perm b.names := by
      refine (a.nodup_names.subperm hsubset).perm_of_length_le ?_
      rw [← size_eq_length_names, ← size_eq_length_names, hsize]
    refine ⟨fun name => hperm.mem_iff, fun name m n hm hn => ?_⟩
    obtain ⟨found, hfound, hequals⟩ := hvalues name m hm
    obtain rfl := Option.some.inj (hfound.symm.trans hn)
    rwa [Number.beq_comm]
  · rintro ⟨hnames, hvalues⟩
    have hperm : a.names.Perm b.names :=
      (List.perm_ext_iff_of_nodup a.nodup_names b.nodup_names).mpr hnames
    refine ⟨?_, fun name value hvalue => ?_⟩
    · rw [size_eq_length_names, size_eq_length_names, hperm.length_eq]
    · have hname := (hnames name).mp (exists_get?_eq_iff.mp ⟨value, hvalue⟩)
      obtain ⟨found, hfound⟩ := exists_get?_eq_iff.mpr hname
      refine ⟨found, hfound, ?_⟩
      rw [Number.beq_comm]
      exact hvalues name value found hvalue hfound

/-- There are no changes between two stores, in either direction, if and only if the stores are
equal and agree on the kind of number that each variable holds. Stores are equal if they have the
same names, in any order, with equal numbers. -/
theorem changes_eq_nil_iff_equals (a b : Store) :
    (a.changes b = [] ∧ b.changes a = [] ↔ a == b ∧
      ∀ name m n, a.get? name = some m → b.get? name = some n → m.isFloat = n.isFloat) ∧
    (a == b ↔ (∀ name, name ∈ a.names ↔ name ∈ b.names) ∧
      ∀ name m n, a.get? name = some m → b.get? name = some n → m == n) := by
  refine ⟨?_, beq_iff_names⟩
  rw [changes_eq_nil_iff, changes_eq_nil_iff, beq_iff_names]
  constructor
  · rintro ⟨⟨hba, hdiffers⟩, hab, -⟩
    have hsame name m n (hm : a.get? name = some m) (hn : b.get? name = some n) :=
      Number.differs_eq_false_iff.mp (hdiffers name m n hm hn)
    exact ⟨⟨fun name => ⟨fun hname => hab hname, fun hname => hba hname⟩,
      fun name m n hm hn => (hsame name m n hm hn).1⟩,
      fun name m n hm hn => (hsame name m n hm hn).2⟩
  · rintro ⟨⟨hnames, hequals⟩, hkinds⟩
    refine ⟨⟨fun name => (hnames name).mpr, fun name m n hm hn => ?_⟩,
      fun name => (hnames name).mp, fun name n m hn hm => ?_⟩
    · exact Number.differs_eq_false_iff.mpr ⟨hequals name m n hm hn, hkinds name m n hm hn⟩
    · rw [Number.differs_eq_false_iff, Number.beq_comm]
      exact ⟨hequals name m n hm hn, (hkinds name m n hm hn).symm⟩

end Store

end Reckoner
