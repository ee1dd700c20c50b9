import Mydds.Trie
import Mydds.Lib.Wildcard

/-!
# What a trie stores

`TrieNode.get` reads the topic at a path, and `TrieNode.entries` lists all paths with their
topics.  `get_insert` and `get_eraseHelper` say what the two updates do to `get`: they
change it at the given path and nowhere else.  For `erase` this rests on
`eraseHelper_removable`: a node that may be removed has been left empty, so pruning it loses
nothing.

`findHelper_eq` says what a search collects: the topics of those entries whose path
matches the pattern.

`Trie.toMap` is the abstraction of a trie to a finite map from paths to topics, and
the operations of the trie are those of the map (`toMap_insert`, `toMap_erase`,
`find_toMap`); the order of the children does not show in it (`Reorder.toMap_eq`).
-/

namespace Mydds

open Lib

namespace TrieNode

variable {T : Type}

/-- The topic stored at a path below the node. -/
def get : TrieNode T → List Token → Option T
  | ⟨topicPtr, _⟩, [] => topicPtr
  | ⟨_, children⟩, token :: key =>
    match Entries.find children token with
    | none => none
    | some child => get child key

mutual

/-- All paths below the node that store a topic, with the topic. -/
def entries : TrieNode T → List (Σ _ : List Token, T)
  | ⟨topicPtr, children⟩ => topicPtr.toList.map (fun t => ⟨[], t⟩) ++ childEntries children

def childEntries : List (Token × TrieNode T) → List (Σ _ : List Token, T)
  | [] => []
  | (name, child) :: children =>
    (entries child).map (fun e => ⟨name :: e.1, e.2⟩) ++ childEntries children

end

@[simp] theorem get_nil (topicPtr : Option T) (children : List (Token × TrieNode T)) :
    get ⟨topicPtr, children⟩ [] = topicPtr := rfl

theorem get_cons (topicPtr : Option T) (children : List (Token × TrieNode T)) (token : Token)
    (key : List Token) : get ⟨topicPtr, children⟩ (token :: key) =
      match Entries.find children token with
      | none => none
      | some child => child.get key := rfl

@[simp] theorem get_empty (key : List Token) : (empty : TrieNode T).get key = none := by
  cases key <;> rfl

/-! ### Updates -/

/-- **Insertion changes the topic at its path and no other.** -/
theorem get_insert (node : TrieNode T) (tokens : List Token) (topicPtr : Option T)
    (key : List Token) :
    (node.insert tokens topicPtr).get key = if key = tokens then topicPtr else node.get key := by
  induction tokens generalizing node key with
  | nil =>
    obtain ⟨p, children⟩ := node
    cases key <;> rfl
  | cons token tokens ih =>
    obtain ⟨p, children⟩ := node
    cases key with
    | nil => rfl
    | cons t key =>
      rw [insert, get_cons, Entries.find_assign, get_cons]
      by_cases ht : token = t
      · subst ht
        rw [if_pos rfl]
        refine (ih _ key).trans ?_
        by_cases hk : key = tokens
        · rw [if_pos hk, if_pos (by rw [hk])]
        · rw [if_neg hk, if_neg (fun h => hk (List.cons.inj h).2)]
          cases Entries.find children token with
          | none => rw [Option.getD_none, get_empty]
          | some child => rw [Option.getD_some]
      · rw [if_neg ht, if_neg (fun h => ht (List.cons.inj h).1.symm)]

theorem eraseHelper_removable {node : TrieNode T} {tokens : List Token}
    (h : (node.eraseHelper tokens).1 = true) : (node.eraseHelper tokens).2 = empty := by
  obtain ⟨p, children⟩ := node
  cases tokens with
  | nil =>
    rw [eraseHelper] at h ⊢
    rw [List.isEmpty_iff.mp h, empty]
  | cons token tokens =>
    rw [eraseHelper] at h ⊢
    rw [Bool.and_eq_true, Option.isNone_iff_eq_none, List.isEmpty_iff] at h
    rw [h.1, h.2, empty]

/-- **Erasure clears its path and no other.** -/
theorem get_eraseHelper (node : TrieNode T) (tokens key : List Token) :
    (node.eraseHelper tokens).2.get key = if key = tokens then none else node.get key := by
  induction tokens generalizing node key with
  | nil =>
    obtain ⟨p, children⟩ := node
    cases key <;> rfl
  | cons token tokens ih =>
    obtain ⟨p, children⟩ := node
    cases key with
    | nil => rfl
    | cons t key =>
      rw [eraseHelper, get_cons, get_cons]
      cases hc : Entries.find children token with
      | none =>
        dsimp only
        by_cases ht : t :: key = token :: tokens
        · rw [if_pos ht, (List.cons.inj ht).1, hc]
        · rw [if_neg ht]
      | some child =>
        have hkey := ih child key
        dsimp only
        split_ifs with hr ht ht
        · rw [Entries.find_erase, (List.cons.inj ht).1, if_pos rfl]
        · rw [Entries.find_erase]
          by_cases hname : token = t
          · subst hname
            rw [eraseHelper_removable hr, get_empty,
              if_neg (fun h => ht (by rw [h]))] at hkey
            rw [if_pos rfl, hc]
            exact hkey
          · rw [if_neg hname]
        · rw [Entries.find_assign, (List.cons.inj ht).1, if_pos rfl]
          rw [if_pos (List.cons.inj ht).2] at hkey
          exact hkey
        · rw [Entries.find_assign]
          by_cases hname : token = t
          · subst hname
            rw [if_neg (fun h => ht (by rw [h]))] at hkey
            rw [if_pos rfl, hc]
            exact hkey
          · rw [if_neg hname]

/-! ### Entries -/

theorem childEntries_eq (children : List (Token × TrieNode T)) :
    childEntries children
      = children.flatMap (fun c => c.2.entries.map (fun e => ⟨c.1 :: e.1, e.2⟩)) := by
  induction children with
  | nil => rfl
  | cons c children ih =>
    obtain ⟨name, child⟩ := c
    rw [childEntries, ih, List.flatMap_cons]

theorem entries_eq (topicPtr : Option T) (children : List (Token × TrieNode T)) :
    entries ⟨topicPtr, children⟩ = topicPtr.toList.map (fun t => ⟨[], t⟩)
      ++ children.flatMap (fun c => c.2.entries.map (fun e => ⟨c.1 :: e.1, e.2⟩)) := by
  rw [entries, childEntries_eq]

theorem mem_entries_cons {topicPtr : Option T} {children : List (Token × TrieNode T)}
    {token : Token} {key : List Token} {t : T} :
    ⟨token :: key, t⟩ ∈ entries ⟨topicPtr, children⟩ ↔
      ∃ child, (token, child) ∈ children ∧ ⟨key, t⟩ ∈ child.entries := by
  rw [entries_eq, List.mem_append, List.mem_flatMap]
  constructor
  · rintro (h | ⟨⟨name, child⟩, hc, h⟩)
    · simp at h
    · obtain ⟨⟨k, u⟩, he, heq⟩ := List.mem_map.mp h
      cases heq
      exact ⟨child, hc, he⟩
  · rintro ⟨child, hc, h⟩
    exact Or.inr ⟨(token, child), hc, List.mem_map.mpr ⟨⟨key, t⟩, h, rfl⟩⟩

theorem mem_entries_iff {node : TrieNode T} (h : node.UniqueKeys) {key : List Token} {t : T} :
    ⟨key, t⟩ ∈ node.entries ↔ node.get key = some t := by
  induction key generalizing node with
  | nil =>
    obtain ⟨p, children⟩ := node
    rw [entries_eq, get_nil, List.mem_append]
    simp
  | cons token key ih =>
    obtain ⟨p, children⟩ := node
    rw [mem_entries_cons, get_cons]
    constructor
    · rintro ⟨child, hc, he⟩
      rw [(Entries.find_eq_some_iff h.children.1).mpr hc]
      exact (ih (h.children.2 _ hc)).mp he
    · intro hget
      cases hc : Entries.find children token with
      | none =>
        rw [hc] at hget
        cases hget
      | some child =>
        rw [hc] at hget
        exact ⟨child, Entries.mem_of_find hc, (ih (h.find hc)).mpr hget⟩

theorem nodupKeys_entries {node : TrieNode T} (h : node.UniqueKeys) : node.entries.NodupKeys := by
  induction node with
  | mk p children ih =>
    obtain ⟨hkeys, hsub⟩ := h.children
    rw [entries_eq, List.NodupKeys, List.keys, List.map_append, List.nodup_append]
    refine ⟨?_, ?_, ?_⟩
    · cases p <;> simp
    · rw [List.map_flatMap, List.nodup_flatMap]
      refine ⟨fun c hc => ?_, ?_⟩
      · have hinj : Function.Injective (List.cons c.1) := fun a b e => (List.cons.inj e).2
        have hchild := (ih c hc (hsub c hc)).map hinj
        simpa only [List.keys, List.map_map, Function.comp_def] using hchild
      · refine (List.pairwise_map.mp hkeys).imp fun hne key hk1 hk2 => hne ?_
        simp only [List.map_map, List.mem_map, Function.comp_def] at hk1 hk2
        obtain ⟨e1, -, rfl⟩ := hk1
        obtain ⟨e2, -, he⟩ := hk2
        exact (List.cons.inj he).1.symm
    · intro key hk1 key' hk2
      simp only [List.map_map, List.map_flatMap, List.mem_map, List.mem_flatMap,
        Function.comp_def] at hk1 hk2
      obtain ⟨_, -, rfl⟩ := hk1
      obtain ⟨_, -, _, -, rfl⟩ := hk2
      exact nofun

/-! ### Searches -/

theorem findChildren_eq (children : List (Token × TrieNode T)) (tokens : List Token) :
    findChildren children tokens = children.flatMap (fun c => c.2.findHelper tokens) := by
  induction children with
  | nil => rfl
  | cons c children ih =>
    obtain ⟨name, child⟩ := c
    rw [findChildren, ih, List.flatMap_cons]

/-- The step to one child, as a loop over all that passes over the others. -/
theorem findChild_eq {children : List (Token × TrieNode T)} (h : Entries.UniqueKeys children)
    (token : Token) (tokens : List Token) :
    findChild children token tokens
      = children.flatMap (fun c => if token = c.1 then c.2.findHelper tokens else []) := by
  induction children with
  | nil => rfl
  | cons c children ih =>
    obtain ⟨name, child⟩ := c
    obtain ⟨hne, hkeys⟩ := Entries.uniqueKeys_cons.mp h
    rw [findChild, List.flatMap_cons]
    by_cases hname : name = token
    · subst hname
      have hrest : children.flatMap
          (fun c => if name = c.1 then c.2.findHelper tokens else []) = [] := by
        rw [List.flatMap_eq_nil_iff]
        exact fun c hc => if_neg (fun e => hne c hc e.symm)
      rw [if_pos rfl, if_pos rfl, hrest, List.append_nil]
    · rw [if_neg hname, if_neg (fun e => hname e.symm), List.nil_append]
      exact ih hkeys

theorem filter_own (q : List Token → Bool) (topicPtr : Option T) :
    ((topicPtr.toList.map (fun t => (⟨[], t⟩ : Σ _ : List Token, T))).filter
      (fun e => q e.1)).map Sigma.snd = if q [] then topicPtr.toList else [] := by
  cases topicPtr with
  | none => simp
  | some t => cases hq : q [] <;> simp [hq]

theorem filter_child (q : List Token → Bool) (name : Token) (l : List (Σ _ : List Token, T)) :
    ((l.map (fun e => (⟨name :: e.1, e.2⟩ : Σ _ : List Token, T))).filter
      (fun e => q e.1)).map Sigma.snd
      = (l.filter (fun e => q (name :: e.1))).map Sigma.snd := by
  rw [List.filter_map, List.map_map]
  rfl

/-- **A search collects the topics of the entries that match**, each of them once. -/
theorem findHelper_eq {node : TrieNode T} (h : node.UniqueKeys) (pattern : List Token) :
    node.findHelper pattern
      = (node.entries.filter (fun e => wildMatch plus hash pattern e.1)).map Sigma.snd := by
  induction node generalizing pattern with
  | mk p children ih =>
    obtain ⟨hkeys, hsub⟩ := h.children
    rw [entries_eq, List.filter_append, List.map_append, List.filter_flatMap, List.map_flatMap,
      filter_own (wildMatch plus hash pattern)]
    simp only [filter_child (wildMatch plus hash pattern)]
    cases pattern with
    | nil => simp [findHelper, wildMatch]
    | cons token pattern =>
      rw [findHelper]
      by_cases hplus : token = plus
      · have hown : wildMatch plus hash (token :: pattern) [] = false := by
          rw [wildMatch, if_pos hplus]
        rw [if_pos hplus, hown, if_neg Bool.false_ne_true, List.nil_append, findChildren_eq]
        refine List.flatMap_congr fun c hc => ?_
        rw [ih c hc (hsub c hc)]
        simp only [wildMatch, if_pos hplus]
      rw [if_neg hplus]
      by_cases hhash : token = hash
      · rw [if_pos hhash, if_pos (wildMatch_hash plus hash hplus hhash pattern []), findChildren_eq]
        congr 1
        refine List.flatMap_congr fun c hc => ?_
        rw [ih c hc (hsub c hc)]
        simp only [wildMatch_hash plus hash hplus hhash]
      · have hown : wildMatch plus hash (token :: pattern) [] = false := by
          rw [wildMatch, if_neg hplus, decide_eq_false hhash]
        rw [if_neg hhash, hown, if_neg Bool.false_ne_true, List.nil_append, findChild_eq hkeys]
        refine List.flatMap_congr fun c hc => ?_
        rw [ih c hc (hsub c hc)]
        simp only [wildMatch, if_neg hplus, if_neg hhash]
        by_cases hname : token = c.1
        · simp [hname]
        · simp [hname]

/-! ### The order of the children -/

theorem find_append (l l' : List (Token × TrieNode T)) (token : Token) :
    Entries.find (l ++ l') token = (Entries.find l token).or (Entries.find l' token) := by
  induction l with
  | nil => rfl
  | cons c l ih =>
    obtain ⟨name, child⟩ := c
    rw [List.cons_append, Entries.find_cons, Entries.find_cons]
    by_cases hname : name = token
    · rw [if_pos hname, if_pos hname, Option.some_or]
    · rw [if_neg hname, if_neg hname, ih]

/-- **A reordered tree stores the same.** -/
theorem Reorder.get_eq {node node' : TrieNode T} (h : node.Reorder node')
    (hu : node.UniqueKeys) : node'.UniqueKeys ∧ ∀ key, node.get key = node'.get key := by
  induction h with
  | refl => exact ⟨hu, fun _ => rfl⟩
  | @perm p children children' hp =>
    obtain ⟨hkeys, hsub⟩ := hu.children
    refine ⟨.mk (hkeys.perm hp) fun c hc => hsub c (hp.mem_iff.mpr hc), fun key => ?_⟩
    cases key with
    | nil => rfl
    | cons token key => rw [get_cons, get_cons, Entries.find_perm hkeys hp]
  | @child p pre post name node node' _ ih =>
    obtain ⟨hkeys, hsub⟩ := hu.children
    obtain ⟨hnode, hget⟩ := ih (hsub (name, node) (List.mem_append_right _ List.mem_cons_self))
    refine ⟨.mk ?_ fun c hc => ?_, fun key => ?_⟩
    · rw [Entries.UniqueKeys, List.map_append, List.map_cons] at hkeys ⊢
      exact hkeys
    · rcases List.mem_append.mp hc with hc | hc
      · exact hsub c (List.mem_append_left _ hc)
      · rcases List.mem_cons.mp hc with rfl | hc
        · exact hnode
        · exact hsub c (List.mem_append_right _ (List.mem_cons_of_mem _ hc))
    · cases key with
      | nil => rfl
      | cons token key =>
        rw [get_cons, get_cons, find_append, find_append, Entries.find_cons, Entries.find_cons]
        by_cases hname : name = token
        · rw [if_pos hname, if_pos hname]
          cases Entries.find pre token with
          | none => exact hget key
          | some c => rfl
        · rw [if_neg hname, if_neg hname]
  | trans _ _ ih1 ih2 =>
    obtain ⟨hm, h1⟩ := ih1 hu
    obtain ⟨hb, h2⟩ := ih2 hm
    exact ⟨hb, fun key => (h1 key).trans (h2 key)⟩

end TrieNode

namespace Trie

variable {T : Type}

/-- The topic stored at a path. -/
def get (trie : Trie T) (key : List Token) : Option T := trie.root.get key

@[simp] theorem get_empty (key : List Token) : (empty : Trie T).get key = none :=
  TrieNode.get_empty key

theorem get_insert (trie : Trie T) (path : Bytes) (topicPtr : Option T) (key : List Token) :
    (trie.insert path topicPtr).get key
      = if key = split path slash then topicPtr else trie.get key :=
  TrieNode.get_insert _ _ _ _

theorem get_erase (trie : Trie T) (path : Bytes) (key : List Token) :
    (trie.erase path).get key = if key = split path slash then none else trie.get key :=
  TrieNode.get_eraseHelper _ _ _

theorem Reorder.get_eq {trie trie' : Trie T} (h : trie.Reorder trie') (key : List Token) :
    trie.get key = trie'.get key :=
  (TrieNode.Reorder.get_eq h trie.uniqueKeys).2 key

/-- **What a search finds**: the topics of the paths that match. -/
theorem mem_find_iff (trie : Trie T) (pattern : Bytes) (t : T) :
    t ∈ trie.find pattern ↔ ∃ key, trie.get key = some t ∧
      wildMatch plus hash (split pattern slash) key = true := by
  rw [find, TrieNode.findHelper_eq trie.uniqueKeys, List.mem_map]
  constructor
  · rintro ⟨⟨key, u⟩, he, rfl⟩
    obtain ⟨hmem, hmatch⟩ := List.mem_filter.mp he
    exact ⟨key, (TrieNode.mem_entries_iff trie.uniqueKeys).mp hmem, hmatch⟩
  · rintro ⟨key, hget, hmatch⟩
    exact ⟨⟨key, t⟩, List.mem_filter.mpr
      ⟨(TrieNode.mem_entries_iff trie.uniqueKeys).mpr hget, hmatch⟩, rfl⟩

/-! ### The abstraction to a finite map -/

/-- The finite map from paths to topics that a trie stands for. -/
def toMap (trie : Trie T) : WildMap Token T :=
  AList.toFinmap ⟨trie.root.entries, TrieNode.nodupKeys_entries trie.uniqueKeys⟩

theorem lookup_toMap (trie : Trie T) (key : List Token) :
    trie.toMap.lookup key = trie.get key := by
  refine Option.ext fun t => ?_
  rw [toMap, Finmap.lookup_toFinmap, AList.lookup, ← Option.mem_def,
    List.mem_dlookup_iff (TrieNode.nodupKeys_entries trie.uniqueKeys)]
  exact TrieNode.mem_entries_iff trie.uniqueKeys

theorem toMap_empty : (empty : Trie T).toMap = ∅ :=
  Finmap.ext_lookup fun key => by rw [lookup_toMap, get_empty, Finmap.lookup_empty]

theorem toMap_insert (trie : Trie T) (path : Bytes) (topicPtr : Option T) :
    (trie.insert path topicPtr).toMap = trie.toMap.store (split path slash) topicPtr :=
  Finmap.ext_lookup fun key => by
    rw [lookup_toMap, get_insert, WildMap.lookup_store, lookup_toMap]

theorem toMap_erase (trie : Trie T) (path : Bytes) :
    (trie.erase path).toMap = trie.toMap.store (split path slash) none :=
  Finmap.ext_lookup fun key => by
    rw [lookup_toMap, get_erase, WildMap.lookup_store, lookup_toMap]

theorem Reorder.toMap_eq {trie trie' : Trie T} (h : trie.Reorder trie') :
    trie.toMap = trie'.toMap :=
  Finmap.ext_lookup fun key => by rw [lookup_toMap, lookup_toMap, h.get_eq]

theorem find_toMap (trie : Trie T) (pattern : Bytes) :
    (trie.find pattern : Multiset T) = trie.toMap.search plus hash (split pattern slash) := by
  rw [WildMap.search, toMap, AList.toFinmap_entries, find,
    TrieNode.findHelper_eq trie.uniqueKeys, Multiset.filter_coe, Multiset.map_coe]
  simp

end Trie

end Mydds
