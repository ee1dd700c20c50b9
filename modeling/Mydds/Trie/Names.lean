import Mydds.Trie.Stored
import Mydds.Trie.Split

/-!
# Names without wildcards

A search for a name without wildcards is a walk along its tokens, and finds what is stored at
their end (`find_literal`).  An update of another path does not touch it, so names are
independent of each other as far as their tokens tell them apart: `find_of_ne`.  They do not
tell `a` from `a/`, which is the same node.
-/

namespace Mydds

open Lib

namespace TrieNode

variable {T : Type}

theorem findChild_find (children : List (Token × TrieNode T)) (token : Token)
    (tokens : List Token) : findChild children token tokens =
      ((Entries.find children token).map fun child => child.findHelper tokens).getD [] := by
  induction children with
  | nil => rfl
  | cons c children ih =>
    obtain ⟨name, child⟩ := c
    rw [findChild, Entries.find_cons]
    by_cases hname : name = token
    · rw [if_pos hname, if_pos hname]
      rfl
    · rw [if_neg hname, if_neg hname, ih]

/-- **Without wildcards a search is a lookup.** -/
theorem findHelper_literal {tokens : List Token} (h : ∀ t ∈ tokens, t ≠ plus ∧ t ≠ hash)
    (node : TrieNode T) : node.findHelper tokens = (node.get tokens).toList := by
  induction tokens generalizing node with
  | nil =>
    obtain ⟨topicPtr, children⟩ := node
    rfl
  | cons token tokens ih =>
    obtain ⟨topicPtr, children⟩ := node
    obtain ⟨hplus, hhash⟩ := h token List.mem_cons_self
    rw [findHelper, if_neg hplus, if_neg hhash, findChild_find, get_cons]
    cases Entries.find children token with
    | none => rfl
    | some child => exact ih (fun t ht => h t (List.mem_cons_of_mem _ ht)) child

end TrieNode

namespace Trie

variable {T : Type}

theorem find_literal {name : Bytes} (h : ∀ t ∈ split name slash, t ≠ plus ∧ t ≠ hash)
    (trie : Trie T) : trie.find name = (trie.get (split name slash)).toList :=
  TrieNode.findHelper_literal h trie.root

/-- **Names are independent** unless one of them is the other closed by a slash: what a name
without wildcards finds does not change when another is inserted or erased. -/
theorem find_of_ne {name other : Bytes} (h : ∀ t ∈ split name slash, t ≠ plus ∧ t ≠ hash)
    (hne : name ≠ other) (hcloses : ¬ Closes slash name other)
    (hclosed : ¬ Closes slash other name) (trie : Trie T) (topicPtr : Option T) :
    (trie.insert other topicPtr).find name = trie.find name ∧
      (trie.erase other).find name = trie.find name := by
  have hsplit : split name slash ≠ split other slash := by
    rw [Ne, split_eq_iff, not_or, not_or]
    exact ⟨hne, hcloses, hclosed⟩
  rw [find_literal h, find_literal h, find_literal h, get_insert, get_erase, if_neg hsplit,
    if_neg hsplit]
  exact ⟨rfl, rfl⟩

/-- The names `"a"` and `"b"`. -/
theorem find_of_ne_letters :
    ((empty.insert [97] (some 0)).insert [98] (some 1)).find [97]
        = (empty.insert [97] (some 0)).find [97] ∧
      ((empty.insert [97] (some 0)).erase [98]).find [97]
        = (empty.insert [97] (some 0)).find [97] := by
  apply find_of_ne
  · decide
  · decide
  · intro h
    exact absurd h.1 (by decide)
  · intro h
    exact absurd h.1 (by decide)

/-- The names `"a"` and `"a/"`. -/
theorem find_of_ne_fails : ¬ ∀ (name other : Bytes),
    (∀ t ∈ split name slash, t ≠ plus ∧ t ≠ hash) →
    (∀ t ∈ split other slash, t ≠ plus ∧ t ≠ hash) → name ≠ other →
    ∀ (trie : Trie Nat) (topicPtr : Option Nat),
    (trie.insert other topicPtr).find name = trie.find name ∧
      (trie.erase other).find name = trie.find name := by
  intro h
  obtain ⟨hinsert, -⟩ := h [97] [97, 47] (by decide) (by decide) (by decide) empty (some 0)
  exact absurd hinsert (by decide)

end Trie

end Mydds
