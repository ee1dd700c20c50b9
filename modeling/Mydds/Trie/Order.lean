import Mydds.Trie.Shape

/-!
# The order of the children

`Reorder` relates the trees that differ in the iteration order of their maps only.
`reorder_of_sameChildren` and its converse read it level by level: the same topic, and under
every name a child in both nodes or in none.  The updates look their children up by name, so they
keep it (`Reorder.insert`, `Reorder.eraseHelper`), and a search finds the same topics in another
order, `Trie.Reorder.find_perm`.
-/

namespace Mydds

open Lib

namespace TrieNode

variable {T : Type}

theorem Reorder.symm {node node' : TrieNode T} (h : node.Reorder node') : node'.Reorder node := by
  induction h with
  | refl => exact .refl _
  | perm hp => exact .perm hp.symm
  | child _ ih => exact .child ih
  | trans _ _ ih1 ih2 => exact ih2.trans ih1

theorem Reorder.eq_empty_iff {node node' : TrieNode T} (h : node.Reorder node') :
    node = empty ↔ node' = empty :=
  ⟨h.symm.noDeadBranch.2, h.noDeadBranch.2⟩

/-! ### Level by level -/

/-- Under every name there is a child in both lists, up to its order, or in none. -/
def SameChildren (children children' : List (Token × TrieNode T)) : Prop :=
  ∀ name, Option.Rel Reorder (Entries.find children name) (Entries.find children' name)

theorem rel_refl (child : Option (TrieNode T)) : Option.Rel Reorder child child := by
  cases child with
  | none => exact .none
  | some child => exact .some (.refl child)

theorem SameChildren.trans {a b c : List (Token × TrieNode T)} (h : SameChildren a b)
    (h' : SameChildren b c) : SameChildren a c := by
  intro name
  have hab := h name
  have hbc := h' name
  revert hab hbc
  cases Entries.find a name <;> cases Entries.find b name <;> cases Entries.find c name
  all_goals
    intro hab hbc
    cases hab
  · exact hbc
  · cases hbc
  · cases hbc
  · rename_i hab
    cases hbc with
    | some hbc => exact .some (hab.trans hbc)

/-- **Reordered nodes have the same topic and the same children.** -/
theorem Reorder.sameChildren {node node' : TrieNode T} (h : node.Reorder node')
    (hu : node.UniqueKeys) : ∀ {p p' : Option T} {children children' : List (Token × TrieNode T)},
      node = ⟨p, children⟩ → node' = ⟨p', children'⟩ →
      p = p' ∧ SameChildren children children' := by
  induction h with
  | refl node =>
    rintro p p' children children' rfl he
    cases he
    exact ⟨rfl, fun _ => rel_refl _⟩
  | perm hp =>
    rintro p p' children children' he he'
    cases he
    cases he'
    refine ⟨rfl, fun name => ?_⟩
    rw [Entries.find_perm hu.children.1 hp]
    exact rel_refl _
  | @child q pre post name node node' hnode _ =>
    rintro p p' children children' he he'
    cases he
    cases he'
    refine ⟨rfl, fun token => ?_⟩
    rw [find_append, find_append, Entries.find_cons, Entries.find_cons]
    cases Entries.find pre token with
    | some child => exact .some (.refl child)
    | none =>
      rw [Option.none_or, Option.none_or]
      by_cases hname : name = token
      · rw [if_pos hname, if_pos hname]
        exact .some hnode
      · rw [if_neg hname, if_neg hname]
        exact rel_refl _
  | @trans a b c hab _ ih1 ih2 =>
    rintro p p' children children' rfl rfl
    obtain ⟨q, mid⟩ := b
    obtain ⟨rfl, h1⟩ := ih1 hu rfl rfl
    obtain ⟨rfl, h2⟩ := ih2 (hab.get_eq hu).1 rfl rfl
    exact ⟨rfl, h1.trans h2⟩

theorem reorder_of_sameChildren {p : Option T} {children children' : List (Token × TrieNode T)}
    (hu : Entries.UniqueKeys children) (hu' : Entries.UniqueKeys children')
    (h : SameChildren children children') : Reorder ⟨p, children⟩ ⟨p, children'⟩ := by
  have hrel : ∀ {name child}, (name, child) ∈ children →
      ∃ child', Entries.find children' name = some child' ∧ child.Reorder child' := by
    intro name child hc
    have hname := h name
    rw [(Entries.find_eq_some_iff hu).mpr hc] at hname
    generalize Entries.find children' name = found at hname
    cases hname with
    | some hchild => exact ⟨_, rfl, hchild⟩
  have hrel' : ∀ {name child'}, (name, child') ∈ children' →
      ∃ child, Entries.find children name = some child := by
    intro name child' hc'
    have hname := h name
    rw [(Entries.find_eq_some_iff hu').mpr hc'] at hname
    generalize Entries.find children name = found at hname
    cases hname with
    | some _ => exact ⟨_, rfl⟩
  have haligned : List.Forall₂ (fun c c' => c.1 = c'.1 ∧ c.2.Reorder c'.2) children
      (alignTo children children') := by
    refine List.forall₂_map_right_iff.mpr (List.forall₂_same.mpr fun c hc => ⟨rfl, ?_⟩)
    obtain ⟨child', hfind, hchild⟩ := hrel hc
    rw [hfind, Option.getD_some]
    exact hchild
  have hperm : (alignTo children children').Perm children' := by
    refine alignTo_perm hu hu' (fun c hc => ?_) fun c' hc' => ?_
    · obtain ⟨child', hfind, -⟩ := hrel hc
      rw [hfind, Option.isSome_some]
    · obtain ⟨child, hfind⟩ := hrel' hc'
      rw [hfind, Option.isSome_some]
  exact (Reorder.children haligned []).trans (.perm hperm)

/-! ### Updates -/

theorem SameChildren.getD {children children' : List (Token × TrieNode T)}
    (h : SameChildren children children') (name : Token) :
    ((Entries.find children name).getD empty).Reorder
      ((Entries.find children' name).getD empty) := by
  have hname := h name
  generalize Entries.find children name = child, Entries.find children' name = child' at hname
  cases hname with
  | none => exact .refl _
  | some hchild => exact hchild

theorem SameChildren.assign {children children' : List (Token × TrieNode T)}
    (h : SameChildren children children') (token : Token) {child child' : TrieNode T}
    (hchild : child.Reorder child') :
    SameChildren (Entries.assign children token child)
      (Entries.assign children' token child') := by
  intro name
  rw [Entries.find_assign, Entries.find_assign]
  split
  · exact .some hchild
  · exact h name

theorem SameChildren.erase {children children' : List (Token × TrieNode T)}
    (h : SameChildren children children') (token : Token) :
    SameChildren (Entries.erase children token) (Entries.erase children' token) := by
  intro name
  rw [Entries.find_erase, Entries.find_erase]
  split
  · exact .none
  · exact h name

theorem UniqueKeys.getD {p : Option T} {children : List (Token × TrieNode T)}
    (h : UniqueKeys ⟨p, children⟩) (name : Token) :
    ((Entries.find children name).getD empty).UniqueKeys := by
  cases hc : Entries.find children name with
  | none => exact uniqueKeys_empty
  | some child => exact h.find hc

theorem Reorder.insert {node node' : TrieNode T} (h : node.Reorder node') (hu : node.UniqueKeys)
    (tokens : List Token) (topicPtr : Option T) :
    (node.insert tokens topicPtr).Reorder (node'.insert tokens topicPtr) := by
  induction tokens generalizing node node' with
  | nil =>
    have hu' := (h.get_eq hu).1
    obtain ⟨p, children⟩ := node
    obtain ⟨p', children'⟩ := node'
    exact reorder_of_sameChildren hu.children.1 hu'.children.1 (h.sameChildren hu rfl rfl).2
  | cons token tokens ih =>
    have hu' := (h.get_eq hu).1
    obtain ⟨p, children⟩ := node
    obtain ⟨p', children'⟩ := node'
    obtain ⟨rfl, hsame⟩ := h.sameChildren hu rfl rfl
    have hchild := ih (hsame.getD token) (hu.getD token)
    exact reorder_of_sameChildren (hu.children.1.assign _ _) (hu'.children.1.assign _ _)
      (hsame.assign token hchild)

theorem Reorder.eraseHelper {node node' : TrieNode T} (h : node.Reorder node')
    (hu : node.UniqueKeys) (tokens : List Token) :
    (node.eraseHelper tokens).2.Reorder (node'.eraseHelper tokens).2 := by
  induction tokens generalizing node node' with
  | nil =>
    have hu' := (h.get_eq hu).1
    obtain ⟨p, children⟩ := node
    obtain ⟨p', children'⟩ := node'
    exact reorder_of_sameChildren hu.children.1 hu'.children.1 (h.sameChildren hu rfl rfl).2
  | cons token tokens ih =>
    have hu' := (h.get_eq hu).1
    obtain ⟨p, children⟩ := node
    obtain ⟨p', children'⟩ := node'
    obtain ⟨rfl, hsame⟩ := h.sameChildren hu rfl rfl
    rw [TrieNode.eraseHelper, TrieNode.eraseHelper]
    have htoken := hsame token
    cases hc : Entries.find children token with
    | none =>
      cases hc' : Entries.find children' token with
      | some child' =>
        rw [hc, hc'] at htoken
        cases htoken
      | none => exact reorder_of_sameChildren hu.children.1 hu'.children.1 hsame
    | some child =>
      cases hc' : Entries.find children' token with
      | none =>
        rw [hc, hc'] at htoken
        cases htoken
      | some child' =>
        rw [hc, hc'] at htoken
        cases htoken with
        | some hchild =>
          have hrest := ih hchild (hu.find hc)
          have hflag : (child.eraseHelper tokens).1 = true ↔
              (child'.eraseHelper tokens).1 = true := by
            rw [eraseHelper_removable_iff, eraseHelper_removable_iff, hrest.eq_empty_iff]
          dsimp only
          by_cases hcut : (child.eraseHelper tokens).1 = true
          · rw [if_pos hcut, if_pos (hflag.mp hcut)]
            exact reorder_of_sameChildren (hu.children.1.erase _) (hu'.children.1.erase _)
              (hsame.erase token)
          · rw [if_neg hcut, if_neg fun hcut' => hcut (hflag.mpr hcut')]
            exact reorder_of_sameChildren (hu.children.1.assign _ _) (hu'.children.1.assign _ _)
              (hsame.assign token hrest)

end TrieNode

namespace Trie

variable {T : Type} {trie trie' : Trie T}

theorem Reorder.symm (h : trie.Reorder trie') : trie'.Reorder trie := TrieNode.Reorder.symm h

theorem Reorder.trans {trie'' : Trie T} (h : trie.Reorder trie') (h' : trie'.Reorder trie'') :
    trie.Reorder trie'' := TrieNode.Reorder.trans h h'

theorem Reorder.insert (h : trie.Reorder trie') (path : Bytes) (topicPtr : Option T) :
    (trie.insert path topicPtr).Reorder (trie'.insert path topicPtr) :=
  TrieNode.Reorder.insert h trie.uniqueKeys _ _

theorem Reorder.erase (h : trie.Reorder trie') (path : Bytes) :
    (trie.erase path).Reorder (trie'.erase path) :=
  TrieNode.Reorder.eraseHelper h trie.uniqueKeys _

/-- **A search finds the same topics**, each as often. -/
theorem Reorder.find_perm (h : trie.Reorder trie') (pattern : Bytes) :
    (trie.find pattern).Perm (trie'.find pattern) := by
  rw [← Multiset.coe_eq_coe, find_toMap, find_toMap, h.toMap_eq]

end Trie

end Mydds
