import Mydds.Node.Discovery
import Mydds.TopicManager.Registry
import Mydds.Trie.Order
import Mathlib.Data.List.ReduceOption

/-!
# What depends on the order of a hash map

The loops of a node go over the children of trie nodes, over the topics that a search has found,
and over the published topics, in the order of an unordered map.  `same_upToOrder` says that
nothing but an order comes of it: two managers that take the same inputs, each with its own orders,
have the same objects, answer every call alike, find the same topics in some order, and announce
the same items in some order.  The last can be noticed: it is the order of the items of a packet.

`Reorder.takes` is one input.  It comes from one lemma for each operation: a search is
permuted (`Reorder.getTopics_perm`), and the loops over what it finds write the same
(`foldl_modify_perm`).
-/

namespace Mydds

open Lib

/-- **A loop of writes through the same pointers** in another order. -/
theorem Heap.foldl_modify_perm (f : Topic → Topic) {ptrs ptrs' : List TopicPtr}
    (h : ptrs.Perm ptrs') (heap : Heap) :
    ptrs.foldl (fun heap ptr => heap.modify ptr f) heap
      = ptrs'.foldl (fun heap ptr => heap.modify ptr f) heap := by
  have htopics : (ptrs.foldl (fun heap ptr => heap.modify ptr f) heap).topics
      = (ptrs'.foldl (fun heap ptr => heap.modify ptr f) heap).topics := by
    funext p
    rw [foldl_modify_topics, foldl_modify_topics, h.count_eq]
  have hnext := (foldl_modify_next f ptrs heap).trans (foldl_modify_next f ptrs' heap).symm
  generalize ptrs.foldl (fun heap ptr => heap.modify ptr f) heap = a at htopics hnext ⊢
  generalize ptrs'.foldl (fun heap ptr => heap.modify ptr f) heap = b at htopics hnext ⊢
  cases a
  cases b
  dsimp only at htopics hnext
  rw [htopics, hnext]

namespace TopicManager

variable {m m' : TopicManager}

/-! ### Calls -/

/-- The same answer, and the same state up to the order. -/
def Alike {α : Type} (r r' : α × TopicManager) : Prop := r.1 = r'.1 ∧ r.2.Reorder r'.2

theorem Reorder.getTopics_perm (h : m.Reorder m') (name : Bytes) :
    (m.getTopics name).Perm (m'.getTopics name) := by
  rw [getTopics_eq, getTopics_eq]
  exact h.topics.find_perm name

theorem Reorder.withHeap (h : m.Reorder m') (heap : Heap) :
    { m with heap }.Reorder { m' with heap } :=
  ⟨rfl, h.topics, h.publishingTopics, h.subscribingTopics⟩

theorem Reorder.insertTopic (h : m.Reorder m') (name : Bytes) (topic : Option TopicPtr) :
    Alike (m.insertTopic name topic) (m'.insertTopic name topic) := by
  have hnil : m.getTopics name = [] ↔ m'.getTopics name = [] := by
    have hlength := (h.getTopics_perm name).length_eq
    rw [← List.length_eq_zero_iff, hlength, List.length_eq_zero_iff]
  rcases m.insertTopic_cases name topic with ⟨hfound, he⟩ | ⟨habsent, he⟩
  · rw [he, insertTopic_of_found fun h' => hfound (hnil.mpr h')]
    exact ⟨rfl, h⟩
  · rcases m'.insertTopic_cases name topic with ⟨hfound', -⟩ | ⟨-, he'⟩
    · exact absurd (hnil.mp habsent) hfound'
    · rw [he, he']
      exact ⟨rfl, by rw [h.heap], h.topics.insert name topic, h.publishingTopics,
        h.subscribingTopics⟩

theorem Reorder.createTopic (h : m.Reorder m') (name : Bytes) (topic : Option TopicPtr) :
    Alike (m.createTopic name topic) (m'.createTopic name topic) := by
  rw [TopicManager.createTopic, TopicManager.createTopic, h.publishingTopics.count_eq]
  split
  · exact ⟨rfl, h⟩
  · exact ⟨rfl, (h.insertTopic name topic).2⟩

theorem Reorder.createPublishTopic (h : m.Reorder m') (name : Bytes) (topic : Option TopicPtr) :
    Alike (m.createPublishTopic name topic) (m'.createPublishTopic name topic) := by
  rw [TopicManager.createPublishTopic, TopicManager.createPublishTopic,
    h.publishingTopics.count_eq]
  split
  · exact ⟨rfl, h⟩
  · have hinsert := (h.insertTopic name topic).2
    exact ⟨rfl, hinsert.heap, hinsert.topics, hinsert.publishingTopics.assign name topic,
      hinsert.subscribingTopics⟩

theorem Reorder.createSubscribeTopic (h : m.Reorder m') (name : Bytes) (topic : Option TopicPtr) :
    Alike (m.createSubscribeTopic name topic) (m'.createSubscribeTopic name topic) := by
  rw [TopicManager.createSubscribeTopic, TopicManager.createSubscribeTopic,
    h.subscribingTopics.count_eq]
  split
  · exact ⟨rfl, h⟩
  · have hinsert := (h.insertTopic name topic).2
    exact ⟨rfl, hinsert.heap, hinsert.topics, hinsert.publishingTopics,
      hinsert.subscribingTopics.assign name topic⟩

theorem Reorder.eraseTopic (h : m.Reorder m') (name : Bytes) :
    (m.eraseTopic name).Reorder (m'.eraseTopic name) :=
  ⟨h.heap, h.topics.erase name, h.publishingTopics, h.subscribingTopics⟩

theorem Reorder.apply (h : m.Reorder m') (op : Op) : (m.apply op).Reorder (m'.apply op) := by
  cases op with
  | insertTopic name topic => exact (h.insertTopic name topic).2
  | createTopic name topic => exact (h.createTopic name topic).2
  | createPublishTopic name topic => exact (h.createPublishTopic name topic).2
  | createSubscribeTopic name topic => exact (h.createSubscribeTopic name topic).2
  | eraseTopic name => exact h.eraseTopic name

/-! ### Packets -/

theorem Reorder.announce (h : m.Reorder m') (addr : SockaddrIn) (item : TopicName) :
    (Node.announce addr m item).Reorder (Node.announce addr m' item) := by
  rw [Node.announce, Node.announce, h.heap]
  exact ((h.withHeap _).createTopic item.name _).2

theorem Reorder.publishItem (h : m.Reorder m') (item : TopicPacket) :
    (Node.publishItem m item).Reorder (Node.publishItem m' item) := by
  have hfound := h.getTopics_perm item.name.name
  rw [Node.publishItem_eq, Node.publishItem_eq, h.heap, Heap.foldl_modify_perm _ hfound]
  exact h.withHeap _

theorem Reorder.subscribeFrom (h : m.Reorder m') (addr : SockaddrIn) (item : TopicName) :
    (Node.subscribeFrom addr m item).Reorder (Node.subscribeFrom addr m' item) := by
  have hfound := h.getTopics_perm item.name
  rw [Node.subscribeFrom, Node.subscribeFrom, h.heap, Heap.foldl_modify_perm _ hfound]
  exact h.withHeap _

theorem Reorder.after (h : m.Reorder m') (event : Event) :
    (m.after event).Reorder (m'.after event) := by
  cases event with
  | discover addr items => exact List.foldl_rel h fun item _ _ _ h => h.announce addr item
  | publish addr items => exact List.foldl_rel h fun item _ _ _ h => h.publishItem item
  | subscribe addr items => exact List.foldl_rel h fun item _ _ _ h => h.subscribeFrom addr item
  | createTopic name topic => exact (h.createTopic name topic).2
  | createPublishTopic name topic => exact (h.createPublishTopic name topic).2
  | createSubscribeTopic name topic => exact (h.createSubscribeTopic name topic).2
  | write heap => exact h.withHeap heap

/-! ### Announcements -/

/-- The same items in some order, or the same fault. -/
def SameItems : Result (List TopicName) → Result (List TopicName) → Prop
  | .ok items, .ok items' => items.Perm items'
  | .error fault, .error fault' => fault = fault'
  | _, _ => False

theorem nameItems_of_null (heap : Heap) {topics : List (Option TopicPtr)} (h : none ∈ topics) :
    ∀ data, DDSPacket.nameItems heap topics data = .error .nullDereference := by
  induction topics with
  | nil => exact absurd h List.not_mem_nil
  | cons topic topics ih =>
    intro data
    cases topic with
    | none => rfl
    | some t =>
      rcases List.mem_cons.mp h with he | hmem
      · cases he
      · exact ih hmem _

theorem eq_map_some {topics : List (Option TopicPtr)} (h : none ∉ topics) :
    topics = topics.reduceOption.map some := by
  induction topics with
  | nil => rfl
  | cons topic topics ih =>
    cases topic with
    | none => exact absurd List.mem_cons_self h
    | some t =>
      rw [List.reduceOption_cons_of_some, List.map_cons,
        ← ih fun hmem => h (List.mem_cons_of_mem _ hmem)]

theorem nameItems_perm (heap : Heap) {topics topics' : List (Option TopicPtr)}
    (h : topics.Perm topics') :
    SameItems (DDSPacket.nameItems heap topics []) (DDSPacket.nameItems heap topics' []) := by
  by_cases hnull : none ∈ topics
  · rw [nameItems_of_null heap hnull, nameItems_of_null heap (h.mem_iff.mp hnull)]
    rfl
  · have hperm : topics.reduceOption.Perm topics'.reduceOption := h.filterMap id
    rw [eq_map_some hnull, eq_map_some fun hmem => hnull (h.mem_iff.mpr hmem),
      DDSPacket.nameItems_eq, DDSPacket.nameItems_eq]
    exact (hperm.map heap.topics).map nameItem

/-! ### Runs -/

/-- An operation of the class, or an event of the node. -/
inductive Input where
  | op (op : Op)
  | event (event : Event)

/-- An input, after which the unordered maps are in any order. -/
def Takes (m : TopicManager) : Input → TopicManager → Prop
  | .op op, m' => m.Step op m'
  | .event event, m' => m.Handles event m'

theorem Reorder.symm (h : m.Reorder m') : m'.Reorder m :=
  ⟨h.heap.symm, h.topics.symm, List.Perm.symm h.publishingTopics,
    List.Perm.symm h.subscribingTopics⟩

theorem Reorder.trans {m'' : TopicManager} (h : m.Reorder m') (h' : m'.Reorder m'') :
    m.Reorder m'' :=
  ⟨h.heap.trans h'.heap, h.topics.trans h'.topics,
    List.Perm.trans h.publishingTopics h'.publishingTopics,
    List.Perm.trans h.subscribingTopics h'.subscribingTopics⟩

theorem Reorder.takes (h : m.Reorder m') {input : Input} {n n' : TopicManager}
    (hstep : m.Takes input n) (hstep' : m'.Takes input n') : n.Reorder n' := by
  cases input with
  | op op =>
    have hn : (m.apply op).Reorder n := hstep
    exact hn.symm.trans ((h.apply op).trans hstep')
  | event event =>
    have hn : (m.after event).Reorder n := Handles.reorder hstep
    have hn' : (m'.after event).Reorder n' := Handles.reorder hstep'
    exact hn.symm.trans ((h.after event).trans hn')

/-- Two managers differ in nothing but the order of what they find and announce. -/
structure SameUpToOrder (m m' : TopicManager) : Prop where
  heap : m.heap = m'.heap
  getTopics : ∀ name, (m.getTopics name).Perm (m'.getTopics name)
  insertTopic : ∀ name topic, (m.insertTopic name topic).1 = (m'.insertTopic name topic).1
  createTopic : ∀ name topic, (m.createTopic name topic).1 = (m'.createTopic name topic).1
  createPublishTopic : ∀ name topic,
    (m.createPublishTopic name topic).1 = (m'.createPublishTopic name topic).1
  createSubscribeTopic : ∀ name topic,
    (m.createSubscribeTopic name topic).1 = (m'.createSubscribeTopic name topic).1
  /-- the items of a discovery message -/
  announced : SameItems (DDSPacket.nameItems m.heap m.getAllPublishTopics [])
    (DDSPacket.nameItems m'.heap m'.getAllPublishTopics [])
  /-- the items of a subscription -/
  subscribed : ∀ name, SameItems (DDSPacket.nameItems m.heap ((m.getTopics name).map some) [])
    (DDSPacket.nameItems m'.heap ((m'.getTopics name).map some) [])

theorem Reorder.sameUpToOrder (h : m.Reorder m') : m.SameUpToOrder m' where
  heap := h.heap
  getTopics := h.getTopics_perm
  insertTopic name topic := (h.insertTopic name topic).1
  createTopic name topic := (h.createTopic name topic).1
  createPublishTopic name topic := (h.createPublishTopic name topic).1
  createSubscribeTopic name topic := (h.createSubscribeTopic name topic).1
  announced := by
    have hvalues : m.getAllPublishTopics.Perm m'.getAllPublishTopics :=
      List.Perm.map Prod.snd h.publishingTopics
    rw [h.heap]
    exact nameItems_perm m'.heap hvalues
  subscribed name := by
    rw [h.heap]
    exact nameItems_perm m'.heap ((h.getTopics_perm name).map some)

/-- **The order of the unordered maps changes nothing but orders.**  Two managers that start alike
and take the same calls and packets, each with its own order after every one of them, have the same
objects and give the same answers, and what they find and the items that they announce or subscribe
to differ in order only. -/
theorem same_upToOrder {n n' : TopicManager} (h : m.Reorder n)
    {trace trace' : List (TopicManager × Input)} (r : Run Takes m trace m')
    (r' : Run Takes n trace' n') (hinputs : trace.map Prod.snd = trace'.map Prod.snd) :
    m'.SameUpToOrder n' := by
  have hstep : ∀ m n input m' n', Reorder m n → Takes m input m' → Takes n input n' →
      Reorder m' n' := fun _ _ _ _ _ h hstep hstep' => h.takes hstep hstep'
  have hend : m'.Reorder n' := r.related hstep h r' hinputs
  exact hend.sameUpToOrder

/-- A manager that stores topic 0 as `"a"` and topic 1 as `"b"`. -/
def twoTopics : TopicManager :=
  ((init ⟨fun _ => Topic.ofName [], 2⟩).apply (.insertTopic [97] (some 0))).apply
    (.insertTopic [98] (some 1))

/-- The same manager, with the trie that `"b"` and `"a"` make. -/
def twoTopics' : TopicManager :=
  { twoTopics with topics := (Trie.empty.insert [98] (some 1)).insert [97] (some 0) }

/-- Both find the two topics with `"+"`, in different orders. -/
theorem same_upToOrder_two : twoTopics.getTopics plus = [0, 1] ∧
    twoTopics'.getTopics plus = [1, 0] ∧ twoTopics.SameUpToOrder twoTopics' := by
  have htwo : twoTopics.Reorder twoTopics' :=
    ⟨rfl, .perm (List.Perm.swap _ _ _), UnorderedMap.Reorder.refl _, UnorderedMap.Reorder.refl _⟩
  let m0 := init ⟨fun _ => Topic.ofName [], 2⟩
  have hfirst : m0.Takes (.op (.insertTopic [97] (some 0)))
      (m0.apply (.insertTopic [97] (some 0))) := Reorder.refl _
  have hsecond : (m0.apply (.insertTopic [97] (some 0))).Takes
      (.op (.insertTopic [98] (some 1))) twoTopics := Reorder.refl _
  have hsecond' : (m0.apply (.insertTopic [97] (some 0))).Takes
      (.op (.insertTopic [98] (some 1))) twoTopics' := htwo
  exact ⟨by decide, by decide, same_upToOrder (Reorder.refl m0)
    ((Run.single hfirst).snoc hsecond) ((Run.single hfirst).snoc hsecond') rfl⟩

end TopicManager

end Mydds
