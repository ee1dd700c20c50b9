import Mydds.Node.Handler

/-!
# Announcements and subscriptions

What one item of a `Discover` or a `Subscribe` packet does to a node.  An announcement makes a
new topic that lists the announcer, and stores it if the name is neither published here nor
taken (`announce_cases`); the topics that are there already do not change (`announce_heap`),
and afterwards the name is taken (`exists_mem_getTopics_announce`).  A subscription appends the
subscriber to the topics that are found (`subscribeFrom_topics`).
-/

namespace Mydds

open Lib

/-- The pointers in the trie point to objects that exist. -/
def TopicManager.Allocated (m : TopicManager) : Prop :=
  ∀ key t, m.topics.get key = some t → t < m.heap.next

namespace Node

/-! ### Announcements -/

/-- **All that an announcement can do** to the topics. -/
theorem announce_cases (addr : SockaddrIn) (m : TopicManager) (item : TopicName) :
    ((m.publishingTopics.count item.name = true ∨ m.getTopics item.name ≠ []) ∧
      (announce addr m item).topics = m.topics) ∨
    (m.publishingTopics.count item.name = false ∧ m.getTopics item.name = [] ∧
      (announce addr m item).topics = m.topics.insert item.name (some m.heap.next)) := by
  rcases TopicManager.createTopic_cases { m with heap := announceHeap addr m.heap item.name }
    item.name (some m.heap.next) with ⟨hfound, he⟩ | ⟨hcount, hnil, he⟩
  · exact Or.inl ⟨hfound, by rw [announce, he]⟩
  · exact Or.inr ⟨hcount, hnil, by rw [announce, he]⟩

theorem announceHeap_topics_of_lt (addr : SockaddrIn) (heap : Heap) (name : Bytes) {p : TopicPtr}
    (hp : p < heap.next) : (announceHeap addr heap name).topics p = heap.topics p := by
  rw [announceHeap, Heap.modify_topics_of_ne _ (Nat.ne_of_lt hp)]
  exact Function.update_of_ne (Nat.ne_of_lt hp) ..

theorem announceHeap_topics_next (addr : SockaddrIn) (heap : Heap) (name : Bytes) :
    (announceHeap addr heap name).topics heap.next
      = ⟨name, fun _ => none, [], [publisherAt addr]⟩ := by
  have hnew : (heap.makeShared (Topic.ofName name)).2.topics heap.next = Topic.ofName name :=
    Function.update_self ..
  rw [announceHeap, Heap.modify_topics_self, hnew]
  rfl

theorem rename_announceHeap (addr : SockaddrIn) (heap : Heap) (name : Bytes) :
    TopicManager.rename (announceHeap addr heap name) (some heap.next) name
      = announceHeap addr heap name := by
  have hsame : ((announceHeap addr heap name).topics heap.next).setName name
      = (announceHeap addr heap name).topics heap.next := by
    rw [announceHeap_topics_next]
    rfl
  rw [TopicManager.rename, Heap.modify, hsame, Function.update_eq_self]

theorem announce_heap_eq (addr : SockaddrIn) (m : TopicManager) (item : TopicName) :
    (announce addr m item).heap = announceHeap addr m.heap item.name := by
  rcases TopicManager.createTopic_cases { m with heap := announceHeap addr m.heap item.name }
    item.name (some m.heap.next) with ⟨-, he⟩ | ⟨-, -, he⟩
  · rw [announce, he]
  · rw [announce, he]
    exact rename_announceHeap addr m.heap item.name

/-- **What it does to the objects**: there is a new one, which lists the announcer. -/
theorem announce_heap (addr : SockaddrIn) (m : TopicManager) (item : TopicName) :
    (announce addr m item).heap.next = m.heap.next + 1 ∧
    (∀ p, p < m.heap.next → (announce addr m item).heap.topics p = m.heap.topics p) ∧
    ((announce addr m item).heap.topics m.heap.next).publisherinfos = [publisherAt addr] := by
  rw [announce_heap_eq, announceHeap_topics_next]
  exact ⟨rfl, fun p hp => announceHeap_topics_of_lt addr m.heap item.name hp, rfl⟩

theorem getName_announce (addr : SockaddrIn) (m : TopicManager) (item : TopicName) :
    ((announce addr m item).heap.topics m.heap.next).getName = item.name := by
  rw [announce_heap_eq, announceHeap_topics_next]
  rfl

theorem announce_registries (addr : SockaddrIn) (m : TopicManager) (item : TopicName) :
    (announce addr m item).publishingTopics = m.publishingTopics ∧
    (announce addr m item).subscribingTopics = m.subscribingTopics := by
  rcases TopicManager.createTopic_cases { m with heap := announceHeap addr m.heap item.name }
    item.name (some m.heap.next) with ⟨-, he⟩ | ⟨-, -, he⟩
  · rw [announce, he]
    exact ⟨rfl, rfl⟩
  · rw [announce, he]
    exact ⟨rfl, rfl⟩

theorem allocated_announce {m : TopicManager} (h : m.Allocated) (addr : SockaddrIn)
    (item : TopicName) : (announce addr m item).Allocated := by
  intro key t hget
  rw [(announce_heap addr m item).1]
  rcases announce_cases addr m item with ⟨-, htopics⟩ | ⟨-, -, htopics⟩
  · rw [htopics] at hget
    exact Nat.lt_succ_of_lt (h key t hget)
  · rw [htopics, Trie.get_insert] at hget
    split at hget
    · cases hget
      exact Nat.lt_succ_self _
    · exact Nat.lt_succ_of_lt (h key t hget)

theorem get_announce_of_some (addr : SockaddrIn) {m : TopicManager} {key : List Token}
    {t : TopicPtr} (h : m.topics.get key = some t) (item : TopicName) :
    (announce addr m item).topics.get key = some t := by
  rcases announce_cases addr m item with ⟨-, htopics⟩ | ⟨-, hnil, htopics⟩
  · rw [htopics]
    exact h
  · rw [htopics, Trie.get_insert, if_neg, h]
    rintro rfl
    rw [TopicManager.get_split_of_getTopics hnil] at h
    cases h

theorem get_announce_self (addr : SockaddrIn) {m : TopicManager} {item : TopicName}
    (hcount : m.publishingTopics.count item.name = false) (hnil : m.getTopics item.name = []) :
    (announce addr m item).topics.get (Trie.split item.name slash) = some m.heap.next := by
  rcases announce_cases addr m item with ⟨htrue | hne, -⟩ | ⟨-, -, htopics⟩
  · rw [hcount] at htrue
    cases htrue
  · exact absurd hnil hne
  · rw [htopics, Trie.get_insert, if_pos rfl]

theorem mem_getTopics_announce (addr : SockaddrIn) {m : TopicManager} {name : Bytes} {t : TopicPtr}
    (h : t ∈ m.getTopics name) (item : TopicName) :
    t ∈ (announce addr m item).getTopics name := by
  obtain ⟨key, hget, hmatch⟩ := (m.mem_getTopics_iff name t).mp h
  exact (TopicManager.mem_getTopics_iff _ name t).mpr
    ⟨key, get_announce_of_some addr hget item, hmatch⟩

theorem exists_mem_getTopics_announce (addr : SockaddrIn) {m : TopicManager} {item : TopicName}
    (h : m.publishingTopics.count item.name = false) :
    ∃ t, t ∈ (announce addr m item).getTopics item.name := by
  by_cases hnil : m.getTopics item.name = []
  · exact ⟨m.heap.next, TopicManager.mem_getTopics_of_get (get_announce_self addr h hnil)⟩
  · obtain ⟨t, ht⟩ := List.exists_mem_of_ne_nil _ hnil
    exact ⟨t, mem_getTopics_announce addr ht item⟩

/-! ### Subscriptions -/

/-- **What a subscription does**: the subscriber is appended once for each time that the
topic is found. -/
theorem subscribeFrom_topics (addr : SockaddrIn) (m : TopicManager) (item : TopicName)
    (p : TopicPtr) :
    (subscribeFrom addr m item).heap.topics p = { m.heap.topics p with
      subscriberinfos := (m.heap.topics p).subscriberinfos
        ++ List.replicate ((m.getTopics item.name).count p) (subscriberAt addr) } := by
  rw [← Topic.iterate_pushSubscriberinfo]
  exact Heap.foldl_modify_topics _ _ _ p

theorem subscribeFrom_next (addr : SockaddrIn) (m : TopicManager) (item : TopicName) :
    (subscribeFrom addr m item).heap.next = m.heap.next :=
  Heap.foldl_modify_next _ _ _

end Node

end Mydds
