import Mathlib.Data.Finmap

/-!
# Wildcard patterns over lists of tokens

Keys are lists of tokens.  In a pattern the token `plus` stands for any one token, and
`hash` for the rest of the key, whatever it is.  `WildMap` is a finite map from keys to
values that can be searched with a pattern; a search gives the multiset of the values whose
keys match.

`wildMatch_self` says that every key matches itself as a pattern, its wildcards included.
A pattern without wildcards matches no other key (`wildMatch_literal`), and one with a
wildcard does (`exists_wildMatch_ne`).
-/

namespace Mydds.Lib

variable {τ α : Type*} [DecidableEq τ] (plus hash : τ)

/-- Does the key match the pattern? -/
def wildMatch : List τ → List τ → Bool
  | [], key => key.isEmpty
  | token :: _, [] => if token = plus then false else decide (token = hash)
  | token :: pattern, k :: key =>
    if token = plus then wildMatch pattern key
    else if token = hash then true
    else decide (token = k) && wildMatch pattern key

theorem wildMatch_hash {token : τ} (hp : token ≠ plus) (hh : token = hash) (pattern key : List τ) :
    wildMatch plus hash (token :: pattern) key = true := by
  subst hh
  cases key with
  | nil => rw [wildMatch, if_neg hp, decide_eq_true rfl]
  | cons k key => rw [wildMatch, if_neg hp, if_pos rfl]

theorem wildMatch_self (key : List τ) : wildMatch plus hash key key = true := by
  induction key with
  | nil => rfl
  | cons k key ih =>
    rw [wildMatch]
    split
    · exact ih
    · split
      · rfl
      · simpa using ih

/-- **Without wildcards a pattern matches only itself.** -/
theorem wildMatch_literal {pattern : List τ} (h : ∀ t ∈ pattern, t ≠ plus ∧ t ≠ hash)
    (key : List τ) : wildMatch plus hash pattern key = true ↔ pattern = key := by
  induction pattern generalizing key with
  | nil => cases key <;> simp [wildMatch]
  | cons t pattern ih =>
    obtain ⟨hp, hh⟩ := h t List.mem_cons_self
    cases key with
    | nil => simp [wildMatch, hp, hh]
    | cons k key =>
      rw [wildMatch, if_neg hp, if_neg hh, Bool.and_eq_true, decide_eq_true_eq,
        ih fun u hu => h u (List.mem_cons_of_mem _ hu), List.cons.injEq]

/-- **With a wildcard it matches another key**, whose tokens are tokens of the pattern and
one that is no wildcard. -/
theorem exists_wildMatch_ne (literal : τ) (hp : literal ≠ plus) (hh : literal ≠ hash) :
    ∀ {pattern : List τ}, (∃ t ∈ pattern, t = plus ∨ t = hash) →
    ∃ key, key ≠ pattern ∧ wildMatch plus hash pattern key = true ∧
      ∀ t ∈ key, t = literal ∨ t ∈ pattern := by
  intro pattern
  induction pattern with
  | nil =>
    rintro ⟨t, ht, -⟩
    exact absurd ht List.not_mem_nil
  | cons token pattern ih =>
    intro hwild
    by_cases hplus : token = plus
    · subst hplus
      refine ⟨literal :: pattern, fun h => hp (List.cons.inj h).1, ?_, ?_⟩
      · rw [wildMatch, if_pos rfl]
        exact wildMatch_self _ _ pattern
      · intro t ht
        rcases List.mem_cons.mp ht with rfl | hmem
        · exact Or.inl rfl
        · exact Or.inr (List.mem_cons_of_mem _ hmem)
    by_cases hhash : token = hash
    · subst hhash
      refine ⟨[literal], fun h => hh (List.cons.inj h).1, wildMatch_hash _ _ hplus rfl _ _, ?_⟩
      exact fun t ht => Or.inl (List.mem_singleton.mp ht)
    · obtain ⟨key, hne, hmatch, htokens⟩ := ih (by
        obtain ⟨t, ht, hw⟩ := hwild
        rcases List.mem_cons.mp ht with rfl | hmem
        · exact absurd hw (by simp [hplus, hhash])
        · exact ⟨t, hmem, hw⟩)
      refine ⟨token :: key, fun h => hne (List.cons.inj h).2, ?_, ?_⟩
      · rw [wildMatch, if_neg hplus, if_neg hhash, decide_eq_true rfl, Bool.true_and]
        exact hmatch
      · intro t ht
        rcases List.mem_cons.mp ht with rfl | hmem
        · exact Or.inr List.mem_cons_self
        · exact (htokens t hmem).imp_right (List.mem_cons_of_mem _)

/-- A finite map from keys to values. -/
abbrev WildMap (τ α : Type*) := Finmap fun _ : List τ => α

namespace WildMap

/-- Give a key a value, or take its value away. -/
def store (m : WildMap τ α) (key : List τ) : Option α → WildMap τ α
  | some v => m.insert key v
  | none => m.erase key

theorem lookup_store (m : WildMap τ α) (key k : List τ) (v : Option α) :
    (m.store key v).lookup k = if k = key then v else m.lookup k := by
  cases v with
  | none =>
    by_cases hk : k = key
    · rw [if_pos hk, hk, store, Finmap.lookup_erase]
    · rw [if_neg hk, store, Finmap.lookup_erase_ne hk]
  | some v =>
    by_cases hk : k = key
    · rw [if_pos hk, hk, store, Finmap.lookup_insert]
    · rw [if_neg hk, store, Finmap.lookup_insert_of_ne _ hk]

/-- The values of the keys that match the pattern, each key contributing once. -/
def search (m : WildMap τ α) (pattern : List τ) : Multiset α :=
  (m.entries.filter fun e => wildMatch plus hash pattern e.1 = true).map Sigma.snd

theorem mem_map_entries_iff {β : Type*} (m : WildMap τ α) (f : α → β) (key : List τ) (b : β) :
    (key, b) ∈ m.entries.map (fun e => (e.1, f e.2)) ↔ (m.lookup key).map f = some b := by
  rw [Multiset.mem_map, Option.map_eq_some_iff]
  constructor
  · intro h
    obtain ⟨⟨k, v⟩, hmem, he⟩ := h
    cases he
    exact ⟨v, Finmap.mem_lookup_iff.mpr hmem, rfl⟩
  · intro h
    obtain ⟨v, hv, rfl⟩ := h
    exact ⟨⟨key, v⟩, Finmap.mem_lookup_iff.mp hv, rfl⟩

theorem nodup_map_entries {β : Type*} (m : WildMap τ α) (f : α → β) :
    (m.entries.map (fun e => (e.1, f e.2))).Nodup := by
  refine Multiset.Nodup.map_on (fun e he e' he' h => ?_) m.nodup_entries
  obtain ⟨k, v⟩ := e
  obtain ⟨k', v'⟩ := e'
  obtain rfl : k = k' := (Prod.mk.inj h).1
  have hv := Finmap.mem_lookup_iff.mpr he
  rw [Finmap.mem_lookup_iff.mpr he'] at hv
  rw [Option.some.inj hv]

/-- **What a search finds depends on the lookups only**, also behind a function of the values. -/
theorem map_search_congr {α' β : Type*} {m : WildMap τ α} {m' : WildMap τ α'} {f : α → β}
    {f' : α' → β} (h : ∀ key, (m.lookup key).map f = (m'.lookup key).map f')
    (pattern : List τ) :
    (m.search plus hash pattern).map f = (m'.search plus hash pattern).map f' := by
  have hentries : m.entries.map (fun e => (e.1, f e.2))
      = m'.entries.map (fun e => (e.1, f' e.2)) := by
    refine (Multiset.Nodup.ext (nodup_map_entries m f) (nodup_map_entries m' f')).mpr ?_
    rintro ⟨key, b⟩
    rw [mem_map_entries_iff, mem_map_entries_iff, h]
  -- the pattern looks at the keys only
  have hsearch := congrArg (fun entries : Multiset (List τ × β) => (entries.filter
    fun e => wildMatch plus hash pattern e.1 = true).map Prod.snd) hentries
  simpa only [search, Multiset.filter_map, Multiset.map_map, Function.comp_def] using hsearch

end WildMap

end Mydds.Lib
