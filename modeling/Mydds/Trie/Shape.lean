import Mydds.Trie.Refine

/-!
# No dead branches

A node is dead if it has neither a topic nor a child.  `erase_helper` prunes on its way back:
a node is cut off exactly if it has been left dead (`eraseHelper_removable_iff`), so that below
the root no dead node is ever left.

* `noDeadBranch_run`: this holds after every run of insertions and erasures.
* `exists_get`: below a node that is not dead a topic is stored, so that the nodes are the
  prefixes of the stored paths, `isSome_nodeAt_iff`.
* `reorder_of_get_eq`: a tree without dead branches is determined by what it stores.
-/

namespace Mydds

open Lib

namespace TrieNode

variable {T : Type}

/-- The node at the end of a path. -/
def nodeAt : TrieNode T → List Token → Option (TrieNode T)
  | node, [] => some node
  | ⟨_, children⟩, token :: path =>
    match Entries.find children token with
    | none => none
    | some child => nodeAt child path

@[simp] theorem nodeAt_nil (node : TrieNode T) : node.nodeAt [] = some node := by
  cases node
  rfl

theorem nodeAt_cons (topicPtr : Option T) (children : List (Token × TrieNode T)) (token : Token)
    (path : List Token) : nodeAt ⟨topicPtr, children⟩ (token :: path) =
      match Entries.find children token with
      | none => none
      | some child => child.nodeAt path := rfl

/-- Below the node every node has a topic or a child. -/
inductive NoDeadBranch : TrieNode T → Prop
  | mk {topicPtr : Option T} {children : List (Token × TrieNode T)} :
      (∀ c ∈ children, c.2 ≠ empty) → (∀ c ∈ children, NoDeadBranch c.2) →
      NoDeadBranch ⟨topicPtr, children⟩

theorem NoDeadBranch.children {topicPtr : Option T} {children : List (Token × TrieNode T)}
    (h : NoDeadBranch ⟨topicPtr, children⟩) :
    (∀ c ∈ children, c.2 ≠ empty) ∧ ∀ c ∈ children, c.2.NoDeadBranch := by
  cases h with
  | mk h1 h2 => exact ⟨h1, h2⟩

theorem NoDeadBranch.find {topicPtr : Option T} {children : List (Token × TrieNode T)}
    (h : NoDeadBranch ⟨topicPtr, children⟩) {token : Token} {child : TrieNode T}
    (hc : Entries.find children token = some child) : child ≠ empty ∧ child.NoDeadBranch :=
  ⟨h.children.1 _ (Entries.mem_of_find hc), h.children.2 _ (Entries.mem_of_find hc)⟩

theorem noDeadBranch_empty : (empty : TrieNode T).NoDeadBranch :=
  .mk (fun _ hc => absurd hc List.not_mem_nil) fun _ hc => absurd hc List.not_mem_nil

theorem NoDeadBranch.assign {topicPtr : Option T} {children : List (Token × TrieNode T)}
    (h : NoDeadBranch ⟨topicPtr, children⟩) (token : Token) {child : TrieNode T}
    (hne : child ≠ empty) (hc : child.NoDeadBranch) :
    NoDeadBranch ⟨topicPtr, Entries.assign children token child⟩ := by
  refine .mk (fun c hmem => ?_) fun c hmem => ?_
  · rcases Entries.mem_assign hmem with rfl | hmem
    · exact hne
    · exact h.children.1 c hmem
  · rcases Entries.mem_assign hmem with rfl | hmem
    · exact hc
    · exact h.children.2 c hmem

/-! ### Updates -/

theorem insert_ne_empty (node : TrieNode T) (tokens : List Token) (t : T) :
    node.insert tokens (some t) ≠ empty := by
  obtain ⟨topicPtr, children⟩ := node
  intro h
  cases tokens with
  | nil =>
    rw [insert, empty, mk.injEq] at h
    cases h.1
  | cons token tokens =>
    rw [insert, empty, mk.injEq] at h
    exact Entries.assign_ne_nil _ _ _ h.2

theorem NoDeadBranch.insert {node : TrieNode T} (h : node.NoDeadBranch) (tokens : List Token)
    (t : T) : (node.insert tokens (some t)).NoDeadBranch := by
  induction tokens generalizing node with
  | nil =>
    obtain ⟨topicPtr, children⟩ := node
    exact .mk h.children.1 h.children.2
  | cons token tokens ih =>
    obtain ⟨topicPtr, children⟩ := node
    rw [TrieNode.insert]
    apply h.assign token (insert_ne_empty _ tokens t)
    apply ih
    cases hc : Entries.find children token with
    | none => exact noDeadBranch_empty
    | some child => exact (h.find hc).2

/-- **A node is cut off iff it has been left dead.** -/
theorem eraseHelper_removable_iff (node : TrieNode T) (tokens : List Token) :
    (node.eraseHelper tokens).1 = true ↔ (node.eraseHelper tokens).2 = empty := by
  refine ⟨eraseHelper_removable, fun h => ?_⟩
  obtain ⟨topicPtr, children⟩ := node
  cases tokens with
  | nil =>
    rw [eraseHelper, empty, mk.injEq] at h
    rw [eraseHelper, List.isEmpty_iff]
    exact h.2
  | cons token tokens =>
    rw [eraseHelper] at h ⊢
    rw [empty, mk.injEq] at h
    rw [Bool.and_eq_true, Option.isNone_iff_eq_none, List.isEmpty_iff]
    exact ⟨h.2, h.1⟩

theorem NoDeadBranch.eraseHelper {node : TrieNode T} (h : node.NoDeadBranch)
    (tokens : List Token) : (node.eraseHelper tokens).2.NoDeadBranch := by
  induction tokens generalizing node with
  | nil =>
    obtain ⟨topicPtr, children⟩ := node
    exact .mk h.children.1 h.children.2
  | cons token tokens ih =>
    obtain ⟨topicPtr, children⟩ := node
    rw [TrieNode.eraseHelper]
    cases hc : Entries.find children token with
    | none => exact h
    | some child =>
      dsimp only
      split
      · exact .mk (fun c hmem => h.children.1 c (Entries.mem_erase hmem))
          fun c hmem => h.children.2 c (Entries.mem_erase hmem)
      · rename_i hkept
        rw [eraseHelper_removable_iff] at hkept
        exact h.assign token hkept (ih (h.find hc).2)

theorem eraseHelper_absent {node : TrieNode T} (h : node.NoDeadBranch) {tokens : List Token}
    (habsent : node.get tokens = none) : (node.eraseHelper tokens).2 = node := by
  induction tokens generalizing node with
  | nil =>
    obtain ⟨topicPtr, children⟩ := node
    rw [get_nil] at habsent
    rw [eraseHelper, habsent]
  | cons token tokens ih =>
    obtain ⟨topicPtr, children⟩ := node
    rw [get_cons] at habsent
    rw [eraseHelper]
    cases hc : Entries.find children token with
    | none => rfl
    | some child =>
      rw [hc] at habsent
      obtain ⟨hne, hchild⟩ := h.find hc
      have hsame := ih hchild habsent
      -- the child is not dead, so it is not cut off
      have hkept : ¬ (child.eraseHelper tokens).1 = true := by
        rw [eraseHelper_removable_iff, hsame]
        exact hne
      dsimp only
      rw [if_neg hkept, hsame, Entries.assign_eq_self hc]

theorem Reorder.noDeadBranch {node node' : TrieNode T} (h : node.Reorder node') :
    (node.NoDeadBranch → node'.NoDeadBranch) ∧ (node' = empty → node = empty) := by
  induction h with
  | refl => exact ⟨id, id⟩
  | @perm p children children' hp =>
    refine ⟨fun hd => .mk (fun c hc => hd.children.1 c (hp.mem_iff.mpr hc))
      fun c hc => hd.children.2 c (hp.mem_iff.mpr hc), fun he => ?_⟩
    rw [empty, mk.injEq] at he
    obtain ⟨rfl, rfl⟩ := he
    rw [List.perm_nil.mp hp]
    rfl
  | @child p pre post name node node' _ ih =>
    refine ⟨fun hd => ?_, fun he => ?_⟩
    · have hmem : (name, node) ∈ pre ++ (name, node) :: post :=
        List.mem_append_right _ List.mem_cons_self
      have hothers : ∀ c ∈ pre ++ (name, node') :: post, c = (name, node') ∨
          c ∈ pre ++ (name, node) :: post := by
        intro c hc
        rcases List.mem_append.mp hc with hc | hc
        · exact Or.inr (List.mem_append_left _ hc)
        · rcases List.mem_cons.mp hc with hc | hc
          · exact Or.inl hc
          · exact Or.inr (List.mem_append_right _ (List.mem_cons_of_mem _ hc))
      refine .mk (fun c hc => ?_) fun c hc => ?_
      · rcases hothers c hc with rfl | hc
        · exact fun he => hd.children.1 _ hmem (ih.2 he)
        · exact hd.children.1 c hc
      · rcases hothers c hc with rfl | hc
        · exact ih.1 (hd.children.2 _ hmem)
        · exact hd.children.2 c hc
    · rw [empty, mk.injEq] at he
      simp at he
  | trans _ _ ih1 ih2 => exact ⟨fun hd => ih2.1 (ih1.1 hd), fun he => ih1.2 (ih2.2 he)⟩

/-! ### Nodes and stored paths -/

/-- **Below a node that is not dead a topic is stored.** -/
theorem exists_get {node : TrieNode T} (hu : node.UniqueKeys) (h : node.NoDeadBranch)
    (hne : node ≠ empty) : ∃ key t, node.get key = some t := by
  induction node with
  | mk topicPtr children ih =>
    cases topicPtr with
    | some t => exact ⟨[], t, rfl⟩
    | none =>
      cases children with
      | nil => exact absurd rfl hne
      | cons c children =>
        obtain ⟨name, child⟩ := c
        have hmem : (name, child) ∈ (name, child) :: children := List.mem_cons_self
        obtain ⟨key, t, hget⟩ := ih _ hmem (hu.children.2 _ hmem) (h.children.2 _ hmem)
          (h.children.1 _ hmem)
        refine ⟨name :: key, t, ?_⟩
        rw [get_cons, Entries.find_cons, if_pos rfl]
        exact hget

theorem get_append (node : TrieNode T) (path key : List Token) :
    node.get (path ++ key) = (node.nodeAt path).bind fun below => below.get key := by
  induction path generalizing node with
  | nil => rw [nodeAt_nil, Option.bind_some, List.nil_append]
  | cons token path ih =>
    obtain ⟨topicPtr, children⟩ := node
    rw [List.cons_append, get_cons, nodeAt_cons]
    cases Entries.find children token with
    | none => rfl
    | some child => exact ih child

theorem nodeAt_noDeadBranch {node : TrieNode T} (hu : node.UniqueKeys) (h : node.NoDeadBranch)
    {path : List Token} {below : TrieNode T} (hat : node.nodeAt path = some below) :
    below.UniqueKeys ∧ below.NoDeadBranch ∧ (path ≠ [] → below ≠ empty) := by
  induction path generalizing node with
  | nil =>
    rw [nodeAt_nil] at hat
    obtain rfl := Option.some.inj hat
    exact ⟨hu, h, fun hne => absurd rfl hne⟩
  | cons token path ih =>
    obtain ⟨topicPtr, children⟩ := node
    rw [nodeAt_cons] at hat
    cases hc : Entries.find children token with
    | none =>
      rw [hc] at hat
      cases hat
    | some child =>
      rw [hc] at hat
      dsimp only at hat
      obtain ⟨hne, hchild⟩ := h.find hc
      obtain ⟨hu', h', hne'⟩ := ih (hu.find hc) hchild hat
      refine ⟨hu', h', fun _ => ?_⟩
      cases path with
      | nil =>
        rw [nodeAt_nil] at hat
        rw [← Option.some.inj hat]
        exact hne
      | cons token' path => exact hne' (List.cons_ne_nil _ _)

/-- **The nodes are the prefixes of the stored paths.** -/
theorem isSome_nodeAt_iff {node : TrieNode T} (hu : node.UniqueKeys) (h : node.NoDeadBranch)
    (path : List Token) : (node.nodeAt path).isSome ↔
      path = [] ∨ ∃ key t, node.get key = some t ∧ path <+: key := by
  constructor
  · intro hsome
    obtain ⟨below, hbelow⟩ := Option.isSome_iff_exists.mp hsome
    obtain ⟨hu', h', hne⟩ := nodeAt_noDeadBranch hu h hbelow
    by_cases hpath : path = []
    · exact Or.inl hpath
    · obtain ⟨key, t, hget⟩ := exists_get hu' h' (hne hpath)
      refine Or.inr ⟨path ++ key, t, ?_, List.prefix_append path key⟩
      rw [get_append, hbelow]
      exact hget
  · intro hpath
    rcases hpath with rfl | ⟨key, t, hget, ⟨key', rfl⟩⟩
    · rw [nodeAt_nil]
      rfl
    · rw [get_append] at hget
      cases hat : node.nodeAt path with
      | none =>
        rw [hat] at hget
        cases hget
      | some below => rfl

/-! ### A tree is what it stores -/

theorem Reorder.children {topicPtr : Option T} {children children' : List (Token × TrieNode T)}
    (h : List.Forall₂ (fun c c' => c.1 = c'.1 ∧ c.2.Reorder c'.2) children children') :
    ∀ pre, Reorder ⟨topicPtr, pre ++ children⟩ ⟨topicPtr, pre ++ children'⟩ := by
  induction h with
  | nil => exact fun pre => .refl _
  | @cons c c' children children' hc _ ih =>
    intro pre
    obtain ⟨name, child⟩ := c
    obtain ⟨name', child'⟩ := c'
    obtain ⟨rfl, hchild⟩ := hc
    have hrest := ih (pre ++ [(name, child')])
    rw [List.append_assoc, List.append_assoc, List.singleton_append,
      List.singleton_append] at hrest
    exact (Reorder.child hchild).trans hrest

/-- A child in one of two trees that store the same is in the other. -/
theorem exists_find_of_get_eq {p p' : Option T} {children children' : List (Token × TrieNode T)}
    (hu : UniqueKeys ⟨p, children⟩) (h : NoDeadBranch ⟨p, children⟩)
    (hget : ∀ key, get ⟨p, children⟩ key = get ⟨p', children'⟩ key) {name : Token}
    {child : TrieNode T} (hc : Entries.find children name = some child) :
    ∃ child', Entries.find children' name = some child' ∧
      ∀ key, child.get key = child'.get key := by
  obtain ⟨key, t, hkey⟩ := exists_get (hu.find hc) (h.find hc).2 (h.find hc).1
  have hboth : ∀ key, child.get key = get ⟨p', children'⟩ (name :: key) := by
    intro key
    rw [← hget, get_cons, hc]
  cases hc' : Entries.find children' name with
  | none =>
    rw [hboth, get_cons, hc'] at hkey
    cases hkey
  | some child' =>
    refine ⟨child', rfl, fun key => ?_⟩
    rw [hboth, get_cons, hc']

/-- The children in the second list, in the order of the first. -/
def alignTo (children children' : List (Token × TrieNode T)) : List (Token × TrieNode T) :=
  children.map fun c => (c.1, (Entries.find children' c.1).getD empty)

theorem alignTo_perm {children children' : List (Token × TrieNode T)}
    (hu : Entries.UniqueKeys children) (hu' : Entries.UniqueKeys children')
    (hin : ∀ c ∈ children, (Entries.find children' c.1).isSome)
    (hin' : ∀ c' ∈ children', (Entries.find children c'.1).isSome) :
    (alignTo children children').Perm children' := by
  have hkeys : Entries.UniqueKeys (alignTo children children') := by
    rw [Entries.UniqueKeys, alignTo, List.map_map]
    exact hu
  refine (List.perm_ext_iff_of_nodup hkeys.of_map hu'.of_map).mpr fun c' => ?_
  constructor
  · intro hc'
    obtain ⟨c, hc, rfl⟩ := List.mem_map.mp hc'
    obtain ⟨child', hchild'⟩ := Option.isSome_iff_exists.mp (hin c hc)
    rw [hchild', Option.getD_some]
    exact Entries.mem_of_find hchild'
  · intro hc'
    obtain ⟨child, hchild⟩ := Option.isSome_iff_exists.mp (hin' c' hc')
    refine List.mem_map.mpr ⟨(c'.1, child), Entries.mem_of_find hchild, ?_⟩
    rw [(Entries.find_eq_some_iff hu').mpr hc', Option.getD_some]

/-- **A tree without dead branches is determined by what it stores.** -/
theorem reorder_of_get_eq {node node' : TrieNode T} (hu : node.UniqueKeys)
    (h : node.NoDeadBranch) (hu' : node'.UniqueKeys) (h' : node'.NoDeadBranch)
    (hget : ∀ key, node.get key = node'.get key) : node.Reorder node' := by
  induction node generalizing node' with
  | mk p children ih =>
    obtain ⟨p', children'⟩ := node'
    obtain rfl : p = p' := hget []
    have haligned : List.Forall₂ (fun c c' => c.1 = c'.1 ∧ c.2.Reorder c'.2) children
        (alignTo children children') := by
      refine List.forall₂_map_right_iff.mpr (List.forall₂_same.mpr fun c hc => ⟨rfl, ?_⟩)
      have hfind := (Entries.find_eq_some_iff hu.children.1).mpr hc
      obtain ⟨child', hchild', hsame⟩ := exists_find_of_get_eq hu h hget hfind
      rw [hchild', Option.getD_some]
      exact ih c hc (hu.children.2 c hc) (h.children.2 c hc) (hu'.find hchild')
        (h'.find hchild').2 hsame
    have hperm : (alignTo children children').Perm children' := by
      refine alignTo_perm hu.children.1 hu'.children.1 (fun c hc => ?_) fun c' hc' => ?_
      · have hfind := (Entries.find_eq_some_iff hu.children.1).mpr hc
        obtain ⟨child', hchild', -⟩ := exists_find_of_get_eq hu h hget hfind
        rw [hchild', Option.isSome_some]
      · have hfind := (Entries.find_eq_some_iff hu'.children.1).mpr hc'
        obtain ⟨child, hchild, -⟩ :=
          exists_find_of_get_eq hu' h' (fun key => (hget key).symm) hfind
        rw [hchild, Option.isSome_some]
    exact (Reorder.children haligned []).trans (.perm hperm)

end TrieNode

namespace Trie

variable {T : Type}

/-- Every node below the root has a topic or a child. -/
def NoDeadBranch (trie : Trie T) : Prop := trie.root.NoDeadBranch

theorem Step.noDeadBranch {trie trie' : Trie T} {op : Op T} (h : trie.Step op trie')
    (hd : trie.NoDeadBranch) (hop : ∀ path, op ≠ .insert path none) : trie'.NoDeadBranch := by
  refine (TrieNode.Reorder.noDeadBranch h).1 ?_
  cases op with
  | insert path topicPtr =>
    cases topicPtr with
    | none => exact absurd rfl (hop path)
    | some t => exact TrieNode.NoDeadBranch.insert hd _ t
  | erase path => exact TrieNode.NoDeadBranch.eraseHelper hd _

theorem noDeadBranch_run {trace : List (Trie T × Op T)} {trie : Trie T}
    (r : Run Step empty trace trie) (hops : ∀ x ∈ trace, ∀ path, x.2 ≠ .insert path none) :
    trie.NoDeadBranch := by
  have hempty : (empty : Trie T).NoDeadBranch := TrieNode.noDeadBranch_empty
  have r' := r.restrict (A := fun _ op => ∀ path, op ≠ .insert path none) hops
  exact r'.invariant (fun _ _ _ hd h => h.2.noDeadBranch hd h.1) hempty

/-- **No dead branches.**  After every run of insertions of topics and of erasures, every node but
the root has a topic or a child, and the nodes are the prefixes of the stored paths; an insertion
where nothing is stored is undone by an erasure, and an erasure there changes nothing. -/
theorem no_dead_branches {trace : List (Trie T × Op T)} {trie : Trie T}
    (r : Run Step empty trace trie) (hops : ∀ x ∈ trace, ∀ path, x.2 ≠ .insert path none) :
    (∀ path topicPtr children, path ≠ [] →
      trie.root.nodeAt path = some ⟨topicPtr, children⟩ → topicPtr ≠ none ∨ children ≠ []) ∧
    (∀ path, (trie.root.nodeAt path).isSome ↔
      path = [] ∨ ∃ key t, trie.get key = some t ∧ path <+: key) ∧
    (∀ path, trie.get (split path slash) = none → ∀ t mid after,
      trie.Step (.insert path (some t)) mid → mid.Step (.erase path) after → trie.Reorder after) ∧
    (∀ path, trie.get (split path slash) = none → trie.erase path = trie) := by
  have hd := noDeadBranch_run r hops
  refine ⟨fun path topicPtr children hpath hat => ?_, TrieNode.isSome_nodeAt_iff trie.uniqueKeys hd,
    fun path habsent t mid after hinsert herase => ?_, fun path habsent => ?_⟩
  · obtain ⟨-, -, hne⟩ := TrieNode.nodeAt_noDeadBranch trie.uniqueKeys hd hat
    by_contra hdead
    rw [not_or, not_not, not_not] at hdead
    rw [hdead.1, hdead.2] at hne
    exact hne hpath rfl
  · have hmid := hinsert.noDeadBranch hd fun _ hop => by cases hop
    have hafter := herase.noDeadBranch hmid fun _ hop => by cases hop
    refine TrieNode.reorder_of_get_eq trie.uniqueKeys hd after.uniqueKeys hafter fun key => ?_
    show trie.get key = after.get key
    have hstep1 : (trie.insert path (some t)).Reorder mid := hinsert
    have hstep2 : (mid.erase path).Reorder after := herase
    rw [← hstep2.get_eq, get_erase, ← hstep1.get_eq, get_insert]
    split
    · rename_i hkey
      rw [hkey, habsent]
    · rfl
  · have hsame := TrieNode.eraseHelper_absent hd habsent
    cases trie
    rw [erase, mk.injEq]
    exact hsame

/-- After `insert("a/b", 1)`: two nodes, and `"a"` is not stored. -/
theorem no_dead_branches_two :
    (empty.insert [97, 47, 98] (some 1)).erase [97] = empty.insert [97, 47, 98] (some 1) := by
  have h : Step empty (.insert [97, 47, 98] (some 1)) (empty.insert [97, 47, 98] (some 1)) :=
    Reorder.refl _
  obtain ⟨-, -, -, habsent⟩ := no_dead_branches (Run.single h) fun x hx path hop => by
    rw [List.mem_singleton.mp hx] at hop
    cases hop
  exact habsent [97] rfl

end Trie

end Mydds
