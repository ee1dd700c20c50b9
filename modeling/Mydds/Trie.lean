import Mydds.Util
import Mydds.Lib.UnorderedMap

/-!
# The class `Trie`

`src/trie.cpp`: a tree of tokens with a topic pointer, possibly null, at every node.
`T` is the type of the pointers that are not null.  The children of a node are an
unordered map, so a list of entries in iteration order, and `Reorder` relates the trees
that differ in that order only.

`findHelper`, `findChildren` and `findChild` are one recursive function of the source:
the second is its loop over all children, the third its step to one child.  The path
that `find_helper` builds next to the matches is not read by anything and is left out.

A `Trie` is a tree in which no node has two children of one name.
-/

namespace Mydds

open Lib

/-- A path element. -/
abbrev Token := Bytes

/-- `"+"` -/
def plus : Token := [43]

/-- `"#"` -/
def hash : Token := [35]

/-- `'/'` -/
def slash : UInt8 := 47

/-- `class TrieNode` -/
inductive TrieNode (T : Type) where
  | mk (topicPtr : Option T) (children : List (Token × TrieNode T))

namespace TrieNode

variable {T : Type}

@[elab_as_elim, induction_eliminator]
theorem ind {motive : TrieNode T → Prop}
    (mk : ∀ topicPtr children, (∀ c ∈ children, motive c.2) → motive (mk topicPtr children))
    (node : TrieNode T) : motive node :=
  @TrieNode.rec T motive (fun children => ∀ c ∈ children, motive c.2) (fun c => motive c.2)
    mk (fun _ hc => absurd hc List.not_mem_nil)
    (fun _ _ hc hcs d hd => (List.mem_cons.mp hd).elim (fun e => e ▸ hc) (hcs d))
    (fun _ _ h => h) node

/-- `std::make_shared<TrieNode>()` -/
def empty : TrieNode T := ⟨none, []⟩

/-- The walk of `Trie::insert` from a node down to the end of the tokens. -/
def insert : TrieNode T → List Token → Option T → TrieNode T
  | ⟨_, children⟩, [], topicPtr => ⟨topicPtr, children⟩
  | ⟨p, children⟩, token :: tokens, topicPtr =>
    let child := (Entries.find children token).getD empty
    ⟨p, Entries.assign children token (insert child tokens topicPtr)⟩

mutual

/-- `Trie::find_helper` on the tokens from `index` on: the topics it appends to `matches`. -/
def findHelper : TrieNode T → List Token → List T
  | ⟨topicPtr, _⟩, [] => topicPtr.toList
  | ⟨topicPtr, children⟩, token :: tokens =>
    if token = plus then findChildren children tokens
    else if token = hash then topicPtr.toList ++ findChildren children (token :: tokens)
    else findChild children token tokens

def findChildren : List (Token × TrieNode T) → List Token → List T
  | [], _ => []
  | (_, child) :: children, tokens => findHelper child tokens ++ findChildren children tokens

def findChild : List (Token × TrieNode T) → Token → List Token → List T
  | [], _, _ => []
  | (name, child) :: children, token, tokens =>
    if name = token then findHelper child tokens else findChild children token tokens

end

/-- `Trie::erase_helper` on the tokens from `index` on: may the node be removed, and the
node it leaves. -/
def eraseHelper : TrieNode T → List Token → Bool × TrieNode T
  | ⟨_, children⟩, [] => (children.isEmpty, ⟨none, children⟩)
  | ⟨topicPtr, children⟩, token :: tokens =>
    let children := match Entries.find children token with
      | none => children
      | some child =>
        let (removable, child) := eraseHelper child tokens
        if removable then Entries.erase children token
        else Entries.assign children token child
    (children.isEmpty && topicPtr.isNone, ⟨topicPtr, children⟩)

/-- No node has two children of one name. -/
inductive UniqueKeys : TrieNode T → Prop
  | mk {topicPtr : Option T} {children : List (Token × TrieNode T)} :
      Entries.UniqueKeys children → (∀ c ∈ children, UniqueKeys c.2) →
      UniqueKeys ⟨topicPtr, children⟩

theorem UniqueKeys.children {topicPtr : Option T} {children : List (Token × TrieNode T)}
    (h : UniqueKeys ⟨topicPtr, children⟩) :
    Entries.UniqueKeys children ∧ ∀ c ∈ children, c.2.UniqueKeys := by
  cases h with
  | mk h1 h2 => exact ⟨h1, h2⟩

theorem UniqueKeys.find {topicPtr : Option T} {children : List (Token × TrieNode T)}
    (h : UniqueKeys ⟨topicPtr, children⟩) {token : Token} {child : TrieNode T}
    (hc : Entries.find children token = some child) : child.UniqueKeys :=
  h.children.2 _ (Entries.mem_of_find hc)

theorem uniqueKeys_empty : (empty : TrieNode T).UniqueKeys :=
  .mk Entries.uniqueKeys_nil fun _ hc => absurd hc List.not_mem_nil

theorem UniqueKeys.assign {topicPtr : Option T} {children : List (Token × TrieNode T)}
    (h : UniqueKeys ⟨topicPtr, children⟩) (token : Token) {child : TrieNode T}
    (hc : child.UniqueKeys) : UniqueKeys ⟨topicPtr, Entries.assign children token child⟩ := by
  refine .mk (h.children.1.assign token child) fun c hmem => ?_
  rcases Entries.mem_assign hmem with rfl | hmem
  · exact hc
  · exact h.children.2 c hmem

theorem UniqueKeys.erase {topicPtr : Option T} {children : List (Token × TrieNode T)}
    (h : UniqueKeys ⟨topicPtr, children⟩) (token : Token) :
    UniqueKeys ⟨topicPtr, Entries.erase children token⟩ :=
  .mk (h.children.1.erase token) fun c hmem => h.children.2 c (Entries.mem_erase hmem)

theorem UniqueKeys.insert {node : TrieNode T} (h : node.UniqueKeys) (tokens : List Token)
    (topicPtr : Option T) : (node.insert tokens topicPtr).UniqueKeys := by
  induction tokens generalizing node with
  | nil =>
    obtain ⟨p, children⟩ := node
    exact .mk h.children.1 h.children.2
  | cons token tokens ih =>
    obtain ⟨p, children⟩ := node
    rw [TrieNode.insert]
    refine h.assign token (ih ?_)
    cases hc : Entries.find children token with
    | none => exact uniqueKeys_empty
    | some child => exact h.find hc

theorem UniqueKeys.eraseHelper {node : TrieNode T} (h : node.UniqueKeys) (tokens : List Token) :
    (node.eraseHelper tokens).2.UniqueKeys := by
  induction tokens generalizing node with
  | nil =>
    obtain ⟨p, children⟩ := node
    exact .mk h.children.1 h.children.2
  | cons token tokens ih =>
    obtain ⟨p, children⟩ := node
    rw [TrieNode.eraseHelper]
    cases hc : Entries.find children token with
    | none => exact h
    | some child =>
      dsimp only
      split
      · exact h.erase token
      · exact h.assign token (ih (h.find hc))

/-- The same tree with the children of its nodes in another order. -/
inductive Reorder : TrieNode T → TrieNode T → Prop
  | refl (node : TrieNode T) : Reorder node node
  | perm {topicPtr : Option T} {children children' : List (Token × TrieNode T)} :
      children.Perm children' → Reorder ⟨topicPtr, children⟩ ⟨topicPtr, children'⟩
  | child {topicPtr : Option T} {pre post : List (Token × TrieNode T)} {name : Token}
      {node node' : TrieNode T} : Reorder node node' →
      Reorder ⟨topicPtr, pre ++ (name, node) :: post⟩ ⟨topicPtr, pre ++ (name, node') :: post⟩
  | trans {a b c : TrieNode T} : Reorder a b → Reorder b c → Reorder a c

end TrieNode

/-- `class Trie` -/
structure Trie (T : Type) where
  root : TrieNode T
  uniqueKeys : root.UniqueKeys

namespace Trie

variable {T : Type}

/-- The constructor: a root without a topic and without children. -/
def empty : Trie T := ⟨TrieNode.empty, TrieNode.uniqueKeys_empty⟩

/-- The scan of `Trie::split`; `token` is what lies between `start` and the scan. -/
def splitLoop (delimiter : UInt8) : Bytes → Bytes → List Token
  -- the last part is a token only if there is something left of the path
  | [], token => if token = [] then [] else [token]
  | c :: path, token =>
    if c = delimiter then token :: splitLoop delimiter path []
    else splitLoop delimiter path (token ++ [c])

def split (path : Bytes) (delimiter : UInt8) : List Token := splitLoop delimiter path []

def insert (trie : Trie T) (path : Bytes) (topicPtr : Option T) : Trie T :=
  ⟨trie.root.insert (split path slash) topicPtr, trie.uniqueKeys.insert _ _⟩

def erase (trie : Trie T) (path : Bytes) : Trie T :=
  ⟨(trie.root.eraseHelper (split path slash)).2, trie.uniqueKeys.eraseHelper _⟩

def find (trie : Trie T) (pattern : Bytes) : List T :=
  trie.root.findHelper (split pattern slash)

def Reorder (trie trie' : Trie T) : Prop := trie.root.Reorder trie'.root

theorem Reorder.refl (trie : Trie T) : trie.Reorder trie := TrieNode.Reorder.refl _

end Trie

end Mydds
