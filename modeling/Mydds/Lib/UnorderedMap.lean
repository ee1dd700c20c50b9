import Mathlib.Data.List.Nodup
import Mathlib.Data.List.Perm.Basic

/-!
# Unordered maps as lists of entries

A hash map is a list of entries with one entry a key, in the order an iteration
visits them.  That order is an accident of hashing, so nothing may depend on it:
`find_perm` says a permutation of the entries is the same map.

The operations live in two layers.  `Entries.find`, `Entries.assign` and
`Entries.erase` work on raw lists, for maps that are nested in an inductive type
and cannot carry a proof there; `UnorderedMap` is a list together with its
`UniqueKeys`.  `find_assign` and `find_erase` are the two facts callers use.
-/

namespace Mydds.Lib

variable {κ α : Type*}

namespace Entries

/-- No key has two entries. -/
def UniqueKeys (l : List (κ × α)) : Prop := (l.map Prod.fst).Nodup

@[simp] theorem uniqueKeys_nil : UniqueKeys ([] : List (κ × α)) := List.nodup_nil

theorem uniqueKeys_cons {k : κ} {v : α} {l : List (κ × α)} :
    UniqueKeys ((k, v) :: l) ↔ (∀ e ∈ l, e.1 ≠ k) ∧ UniqueKeys l := by
  rw [UniqueKeys, List.map_cons, List.nodup_cons, List.mem_map]
  constructor
  · rintro ⟨h, hl⟩
    exact ⟨fun e he hk => h ⟨e, he, hk⟩, hl⟩
  · rintro ⟨h, hl⟩
    exact ⟨fun ⟨e, he, hk⟩ => h e he hk, hl⟩

theorem UniqueKeys.perm {l l' : List (κ × α)} (h : UniqueKeys l) (hp : l.Perm l') :
    UniqueKeys l' := (hp.map Prod.fst).nodup_iff.mp h

variable [DecidableEq κ]

/-- `map.find(key)`, `none` for `map.end()`. -/
def find : List (κ × α) → κ → Option α
  | [], _ => none
  | (k, v) :: l, key => if k = key then some v else find l key

/-- `map[key] = value`: a present key keeps its place. -/
def assign : List (κ × α) → κ → α → List (κ × α)
  | [], key, value => [(key, value)]
  | (k, v) :: l, key, value =>
    if k = key then (k, value) :: l else (k, v) :: assign l key value

/-- `map.erase(key)`. -/
def erase (l : List (κ × α)) (key : κ) : List (κ × α) := l.filter (fun e => decide (e.1 ≠ key))

@[simp] theorem find_nil (key : κ) : find ([] : List (κ × α)) key = none := rfl

theorem find_cons (k key : κ) (v : α) (l : List (κ × α)) :
    find ((k, v) :: l) key = if k = key then some v else find l key := rfl

theorem mem_of_find {l : List (κ × α)} {key : κ} {v : α} (h : find l key = some v) :
    (key, v) ∈ l := by
  induction l with
  | nil => simp at h
  | cons e l ih =>
    obtain ⟨k, w⟩ := e
    rw [find_cons] at h
    split at h
    · rename_i hk
      rw [← Option.some.inj h, hk]
      exact List.mem_cons_self
    · exact List.mem_cons_of_mem _ (ih h)

theorem find_eq_some_iff {l : List (κ × α)} (hl : UniqueKeys l) {key : κ} {v : α} :
    find l key = some v ↔ (key, v) ∈ l := by
  refine ⟨mem_of_find, fun h => ?_⟩
  induction l with
  | nil => simp at h
  | cons e l ih =>
    obtain ⟨k, w⟩ := e
    obtain ⟨hk, hl⟩ := uniqueKeys_cons.mp hl
    rw [find_cons]
    rcases List.mem_cons.mp h with he | hm
    · cases he
      exact if_pos rfl
    · rw [if_neg (fun e => hk _ hm e.symm)]
      exact ih hl hm

theorem find_perm {l l' : List (κ × α)} (hl : UniqueKeys l) (hp : l.Perm l') (key : κ) :
    find l key = find l' key := by
  refine Option.ext fun v => ?_
  rw [find_eq_some_iff hl, find_eq_some_iff (hl.perm hp), hp.mem_iff]

theorem find_assign (l : List (κ × α)) (key : κ) (value : α) (k : κ) :
    find (assign l key value) k = if key = k then some value else find l k := by
  induction l with
  | nil => rfl
  | cons e l ih =>
    obtain ⟨j, w⟩ := e
    rw [assign]
    by_cases hj : j = key
    · subst hj
      rw [if_pos rfl, find_cons, find_cons]
      by_cases hk : j = k
      · rw [if_pos hk, if_pos hk]
      · rw [if_neg hk, if_neg hk, if_neg hk]
    · rw [if_neg hj, find_cons, find_cons, ih]
      by_cases hk : j = k
      · rw [if_pos hk, if_pos hk, if_neg (fun h => hj (hk.trans h.symm))]
      · rw [if_neg hk, if_neg hk]

theorem find_erase (l : List (κ × α)) (key k : κ) :
    find (erase l key) k = if key = k then none else find l k := by
  induction l with
  | nil => simp [erase]
  | cons e l ih =>
    obtain ⟨j, w⟩ := e
    rw [erase, List.filter_cons]
    by_cases hj : j = key
    · subst hj
      rw [if_neg (by simp)]
      refine ih.trans ?_
      by_cases hk : j = k
      · rw [if_pos hk, if_pos hk]
      · rw [if_neg hk, if_neg hk, find_cons, if_neg hk]
    · rw [if_pos (by simpa using hj), find_cons, find_cons]
      by_cases hk : j = k
      · rw [if_pos hk, if_pos hk, if_neg (fun h => hj (hk.trans h.symm))]
      · rw [if_neg hk, if_neg hk]
        exact ih

theorem assign_ne_nil (l : List (κ × α)) (key : κ) (value : α) : assign l key value ≠ [] := by
  cases l with
  | nil => exact List.cons_ne_nil _ _
  | cons e l =>
    rw [assign]
    split
    · exact List.cons_ne_nil _ _
    · exact List.cons_ne_nil _ _

theorem assign_eq_self {l : List (κ × α)} {key : κ} {value : α} (h : find l key = some value) :
    assign l key value = l := by
  induction l with
  | nil => cases h
  | cons e l ih =>
    obtain ⟨k, w⟩ := e
    rw [find_cons] at h
    rw [assign]
    by_cases hk : k = key
    · rw [if_pos hk] at h ⊢
      rw [Option.some.inj h]
    · rw [if_neg hk] at h ⊢
      rw [ih h]

theorem mem_assign {l : List (κ × α)} {key : κ} {value : α} {e : κ × α}
    (h : e ∈ assign l key value) : e = (key, value) ∨ e ∈ l := by
  induction l with
  | nil => exact Or.inl (List.mem_singleton.mp h)
  | cons d l ih =>
    obtain ⟨j, w⟩ := d
    rw [assign] at h
    split at h
    · rename_i hj
      rcases List.mem_cons.mp h with he | hm
      · exact Or.inl (he.trans (by rw [hj]))
      · exact Or.inr (List.mem_cons_of_mem _ hm)
    · rcases List.mem_cons.mp h with he | hm
      · exact Or.inr (he ▸ List.mem_cons_self)
      · exact (ih hm).imp_right (List.mem_cons_of_mem _)

theorem mem_erase {l : List (κ × α)} {key : κ} {e : κ × α} (h : e ∈ erase l key) : e ∈ l :=
  List.mem_of_mem_filter h

theorem UniqueKeys.assign {l : List (κ × α)} (h : UniqueKeys l) (key : κ) (value : α) :
    UniqueKeys (assign l key value) := by
  induction l with
  | nil => exact uniqueKeys_cons.mpr ⟨by simp, h⟩
  | cons e l ih =>
    obtain ⟨j, w⟩ := e
    obtain ⟨hj, hl⟩ := uniqueKeys_cons.mp h
    rw [Entries.assign]
    split
    · exact uniqueKeys_cons.mpr ⟨hj, hl⟩
    · rename_i hne
      refine uniqueKeys_cons.mpr ⟨fun e he => ?_, ih hl⟩
      rcases mem_assign he with rfl | hm
      · exact fun hk => hne hk.symm
      · exact hj e hm

theorem UniqueKeys.erase {l : List (κ × α)} (h : UniqueKeys l) (key : κ) :
    UniqueKeys (erase l key) := h.sublist (List.filter_sublist.map Prod.fst)

/-- **Two maps with the same lookups are the same up to order.** -/
theorem perm_of_find_eq {l l' : List (κ × α)} (hl : UniqueKeys l) (hl' : UniqueKeys l')
    (h : ∀ key, find l key = find l' key) : l.Perm l' := by
  refine (List.perm_ext_iff_of_nodup (List.Nodup.of_map _ hl) (List.Nodup.of_map _ hl')).mpr ?_
  rintro ⟨key, v⟩
  rw [← find_eq_some_iff hl, ← find_eq_some_iff hl', h]

theorem assign_perm {l l' : List (κ × α)} (hl : UniqueKeys l) (hp : l.Perm l') (key : κ)
    (value : α) : (assign l key value).Perm (assign l' key value) := by
  refine perm_of_find_eq (hl.assign key value) ((hl.perm hp).assign key value) fun k => ?_
  rw [find_assign, find_assign, find_perm hl hp]

end Entries

/-- An `std::unordered_map`: entries with unique keys, in iteration order. -/
structure UnorderedMap (κ α : Type*) where
  entries : List (κ × α)
  uniqueKeys : Entries.UniqueKeys entries

namespace UnorderedMap

/-- The map a default constructor builds. -/
def empty : UnorderedMap κ α := ⟨[], Entries.uniqueKeys_nil⟩

/-- The values, in iteration order. -/
def values (m : UnorderedMap κ α) : List α := m.entries.map Prod.snd

/-- Two maps that differ in the order of their entries only. -/
def Reorder (m m' : UnorderedMap κ α) : Prop := m.entries.Perm m'.entries

@[refl] theorem Reorder.refl (m : UnorderedMap κ α) : m.Reorder m := List.Perm.refl _

variable [DecidableEq κ]

/-- `map.find(key)`, `none` for `map.end()`. -/
def find (m : UnorderedMap κ α) (key : κ) : Option α := Entries.find m.entries key

/-- `map.count(key)`, which is `0` or `1`, as the truth value its callers take it for. -/
def count (m : UnorderedMap κ α) (key : κ) : Bool := (m.find key).isSome

/-- `map[key] = value`. -/
def assign (m : UnorderedMap κ α) (key : κ) (value : α) : UnorderedMap κ α :=
  ⟨Entries.assign m.entries key value, m.uniqueKeys.assign key value⟩

theorem find_assign (m : UnorderedMap κ α) (key : κ) (value : α) (k : κ) :
    (m.assign key value).find k = if key = k then some value else m.find k :=
  Entries.find_assign m.entries key value k

theorem mem_entries_iff {m : UnorderedMap κ α} {key : κ} {v : α} :
    (key, v) ∈ m.entries ↔ m.find key = some v := (Entries.find_eq_some_iff m.uniqueKeys).symm

theorem Reorder.find_eq {m m' : UnorderedMap κ α} (h : m.Reorder m') (key : κ) :
    m.find key = m'.find key := Entries.find_perm m.uniqueKeys h key

theorem Reorder.count_eq {m m' : UnorderedMap κ α} (h : m.Reorder m') (key : κ) :
    m.count key = m'.count key := by rw [count, count, h.find_eq]

theorem Reorder.assign {m m' : UnorderedMap κ α} (h : m.Reorder m') (key : κ) (value : α) :
    (m.assign key value).Reorder (m'.assign key value) :=
  Entries.assign_perm m.uniqueKeys h key value

end UnorderedMap

end Mydds.Lib
