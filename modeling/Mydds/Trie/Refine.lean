import Mydds.Trie.Stored
import Mydds.Lib.Run

/-!
# A trie is a finite map with wildcard search

A run of a trie is a sequence of insertions and erasures from the empty trie, and after
each of them the children of any node may come to lie in another order.  `find_refines`
says that whatever the run, a search finds exactly what it finds in the finite map that the
same operations make.
-/

namespace Mydds.Trie

open Lib

variable {T : Type}

/-- An update of a trie. -/
inductive Op (T : Type) where
  | insert (path : Bytes) (topicPtr : Option T)
  | erase (path : Bytes)

def apply (trie : Trie T) : Op T → Trie T
  | .insert path topicPtr => trie.insert path topicPtr
  | .erase path => trie.erase path

/-- An update, after which the unordered maps are in any order. -/
def Step (trie : Trie T) (op : Op T) (trie' : Trie T) : Prop := (trie.apply op).Reorder trie'

/-- What an update does to a finite map from token lists to topics. -/
def mapStep (m : WildMap Token T) : Op T → WildMap Token T
  | .insert path topicPtr => m.store (split path slash) topicPtr
  | .erase path => m.store (split path slash) none

/-- **One update of the trie is one update of its map.** -/
theorem toMap_step {trie trie' : Trie T} {op : Op T} (h : trie.Step op trie') :
    trie'.toMap = mapStep trie.toMap op := by
  rw [← Reorder.toMap_eq h]
  cases op with
  | insert path topicPtr => exact toMap_insert trie path topicPtr
  | erase path => exact toMap_erase trie path

/-- **The trie refines the finite map.**  After every run, for every pattern, a search finds
exactly the topics of the keys that match it in the map that the same updates make from the
empty one, each key contributing once. -/
theorem find_refines {trace : List (Trie T × Op T)} {trie : Trie T}
    (r : Run Step empty trace trie) (pattern : Bytes) :
    (trie.find pattern : Multiset T)
      = ((trace.map Prod.snd).foldl mapStep ∅).search plus hash (split pattern slash) := by
  rw [find_toMap, r.simulates fun _ _ _ h => toMap_step h, toMap_empty]

/-- After `insert("a/b", 1)` and `erase("a")`. -/
theorem find_refines_two :
    (((empty.insert [97, 47, 98] (some 1)).erase [97]).find [35] : Multiset Nat)
      = (([.insert [97, 47, 98] (some 1), .erase [97]] : List (Op Nat)).foldl mapStep ∅).search
          plus hash (split [35] slash) := by
  have h1 : Step empty (.insert [97, 47, 98] (some 1)) (empty.insert [97, 47, 98] (some 1)) :=
    Reorder.refl _
  have h2 : Step (empty.insert [97, 47, 98] (some 1)) (.erase [97])
      ((empty.insert [97, 47, 98] (some 1)).erase [97]) := Reorder.refl _
  exact find_refines ((Run.single h1).snoc h2) [35]

end Mydds.Trie
