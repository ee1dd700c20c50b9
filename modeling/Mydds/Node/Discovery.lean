import Mydds.Node.Announce
import Mydds.Node.Publish
import Mydds.Lib.Run

/-!
# Discovery

Every node announces its topics once a second, so the same `Discover` packets come again and
again.  An `Event` is a packet that has been decoded or a call of the application; erasures are
not among them.

A name is known if it is published here or a search for it finds something.  An announced name
is known afterwards, no event makes it unknown (`Known.after`), and the announcement of a known
name only makes a topic that is dropped (`unchanged_of_known`).  So a packet that comes a second
time changes nothing, `discover_idempotent`.  What is said of the objects that were there holds of
all stored topics, `stored_unchanged`: if the application passes none but objects that exist, only
these are ever stored.
-/

namespace Mydds

open Lib

/-- A receive request that has been completed by a packet from `addr`. -/
def IoInfo.readFrom (addr : SockaddrIn) : IoInfo := ⟨.read, some addr, [], []⟩

/-- A packet that has been decoded, a call of the application, or what it does to its topics. -/
inductive Event where
  | discover (addr : SockaddrIn) (items : List TopicName)
  | publish (addr : SockaddrIn) (items : List TopicPacket)
  | subscribe (addr : SockaddrIn) (items : List TopicName)
  | createTopic (name : Bytes) (topic : Option TopicPtr)
  | createPublishTopic (name : Bytes) (topic : Option TopicPtr)
  | createSubscribeTopic (name : Bytes) (topic : Option TopicPtr)
  | write (heap : Heap)

namespace TopicManager

/-- The packet goes through the `switch` of `handler_read`. -/
def handle (m : TopicManager) : Event → Result TopicManager
  | .discover addr items => Node.handlePacket (.readFrom addr)
      ⟨⟨CommunicationType.discover.toByte⟩, .discoverData ⟨items⟩⟩ m
  | .publish addr items => Node.handlePacket (.readFrom addr)
      ⟨⟨CommunicationType.publish.toByte⟩, .publishData ⟨items⟩⟩ m
  | .subscribe addr items => Node.handlePacket (.readFrom addr)
      ⟨⟨CommunicationType.subscribe.toByte⟩, .subscribeData ⟨items⟩⟩ m
  | .createTopic name topic => .ok (m.createTopic name topic).2
  | .createPublishTopic name topic => .ok (m.createPublishTopic name topic).2
  | .createSubscribeTopic name topic => .ok (m.createSubscribeTopic name topic).2
  | .write heap => .ok { m with heap }

/-- An event, after which the unordered maps are in any order. -/
def Handles (m : TopicManager) (event : Event) (m' : TopicManager) : Prop :=
  ∃ m1, m.handle event = .ok m1 ∧ m1.Reorder m'

/-- The state after an event. -/
def after (m : TopicManager) : Event → TopicManager
  | .discover addr items => items.foldl (Node.announce addr) m
  | .publish _ items => items.foldl Node.publishItem m
  | .subscribe addr items => items.foldl (Node.subscribeFrom addr) m
  | .createTopic name topic => (m.createTopic name topic).2
  | .createPublishTopic name topic => (m.createPublishTopic name topic).2
  | .createSubscribeTopic name topic => (m.createSubscribeTopic name topic).2
  | .write heap => { m with heap }

theorem handle_eq (m : TopicManager) (event : Event) : m.handle event = .ok (m.after event) := by
  cases event with
  | discover addr items =>
    have hfrom : (IoInfo.readFrom addr).destAddr = some addr := rfl
    exact Node.handlePacket_discover hfrom items m
  | subscribe addr items =>
    have hfrom : (IoInfo.readFrom addr).destAddr = some addr := rfl
    exact Node.handlePacket_subscribe hfrom items m
  | publish | createTopic | createPublishTopic | createSubscribeTopic | write => rfl

theorem Handles.reorder {m m' : TopicManager} {event : Event} (h : m.Handles event m') :
    (m.after event).Reorder m' := by
  obtain ⟨m1, hok, hreorder⟩ := h
  rw [handle_eq] at hok
  rw [Except.ok.inj hok]
  exact hreorder

/-! ### Known names -/

/-- The name is published here, or taken. -/
def Known (m : TopicManager) (name : Bytes) : Prop :=
  m.publishingTopics.count name = true ∨ ∃ t, t ∈ m.getTopics name

theorem Known.mono {m m' : TopicManager} {name : Bytes} (h : m.Known name)
    (hcount : m.publishingTopics.count name = true → m'.publishingTopics.count name = true)
    (hmem : ∀ t, t ∈ m.getTopics name → t ∈ m'.getTopics name) : m'.Known name := by
  rcases h with h | ⟨t, ht⟩
  · exact Or.inl (hcount h)
  · exact Or.inr ⟨t, hmem t ht⟩

theorem getTopics_congr {m m' : TopicManager} (h : m.topics = m'.topics) (name : Bytes) :
    m.getTopics name = m'.getTopics name := by
  rw [getTopics_eq, getTopics_eq, h]

theorem count_assign {registry : UnorderedMap Bytes (Option TopicPtr)} {name : Bytes}
    (h : registry.count name = true) (key : Bytes) (topic : Option TopicPtr) :
    (registry.assign key topic).count name = true := by
  rw [UnorderedMap.count, UnorderedMap.find_assign]
  split
  · rfl
  · exact h

theorem Known.insertTopic {m m' : TopicManager} {name : Bytes} (h : m.Known name)
    (hcount : m.publishingTopics.count name = true → m'.publishingTopics.count name = true)
    {key : Bytes} {topic : Option TopicPtr}
    (htopics : m'.topics = m.topics ∨ m'.topics = (m.insertTopic key topic).2.topics) :
    m'.Known name := by
  refine h.mono hcount fun t ht => ?_
  rcases htopics with he | he
  · rw [getTopics_congr he]
    exact ht
  · rw [getTopics_congr he]
    exact mem_getTopics_insertTopic ht key topic

theorem Known.announce {m : TopicManager} {name : Bytes} (h : m.Known name) (addr : SockaddrIn)
    (item : TopicName) : (Node.announce addr m item).Known name := by
  refine h.mono (fun hcount => ?_) fun t ht => Node.mem_getTopics_announce addr ht item
  rw [(Node.announce_registries addr m item).1]
  exact hcount

/-- **An announced name is known.** -/
theorem known_announce_self (addr : SockaddrIn) (m : TopicManager) (item : TopicName) :
    (Node.announce addr m item).Known item.name := by
  unfold Known
  rw [(Node.announce_registries addr m item).1]
  cases hcount : m.publishingTopics.count item.name with
  | true => exact Or.inl rfl
  | false => exact Or.inr (Node.exists_mem_getTopics_announce addr hcount)

theorem known_discover (addr : SockaddrIn) {items : List TopicName} : ∀ (m : TopicManager),
    ∀ item ∈ items, (items.foldl (Node.announce addr) m).Known item.name := by
  induction items with
  | nil => exact fun _ item hitem => absurd hitem List.not_mem_nil
  | cons first items ih =>
    intro m item hitem
    rcases List.mem_cons.mp hitem with rfl | hmem
    · exact foldl_invariant (I := fun m : TopicManager => m.Known item.name)
        (fun _ i h => h.announce addr i) items _ (known_announce_self addr m item)
    · exact ih (Node.announce addr m first) item hmem

/-- **No event makes a name unknown.** -/
theorem Known.after {m : TopicManager} {name : Bytes} (h : m.Known name) (event : Event) :
    (m.after event).Known name := by
  cases event with
  | discover addr items =>
    exact foldl_invariant (I := fun m : TopicManager => m.Known name)
      (fun _ item h => h.announce addr item) items m h
  | publish addr items =>
    refine foldl_invariant (I := fun m : TopicManager => m.Known name) (fun m item h => ?_)
      items m h
    rw [Node.publishItem_eq]
    exact h
  | subscribe addr items =>
    refine foldl_invariant (I := fun m : TopicManager => m.Known name) (fun m item h => ?_)
      items m h
    exact h
  | createTopic key topic =>
    show (m.createTopic key topic).2.Known name
    rcases m.createTopic_topics key topic with he | he
    · rw [he]
      exact h
    · rw [he]
      refine h.insertTopic (fun hcount => ?_) (Or.inr rfl)
      rw [insertTopic_publishingTopics]
      exact hcount
  | createPublishTopic key topic =>
    refine h.insertTopic (fun hcount => ?_) (m.createPublishTopic_topics key topic)
    rw [TopicManager.after, createPublishTopic]
    split
    · exact hcount
    · exact count_assign (by rw [insertTopic_publishingTopics]; exact hcount) key topic
  | createSubscribeTopic key topic =>
    refine h.insertTopic (fun hcount => ?_) (m.createSubscribeTopic_topics key topic)
    rw [TopicManager.after, createSubscribeTopic]
    split
    · exact hcount
    · rw [insertTopic_publishingTopics]
      exact hcount
  | write heap => exact h

theorem Known.reorder {m m' : TopicManager} {name : Bytes} (h : m.Known name)
    (hreorder : m.Reorder m') : m'.Known name := by
  refine h.mono (fun hcount => ?_) fun t ht => (hreorder.mem_getTopics_iff name t).mp ht
  rw [UnorderedMap.count, ← hreorder.publishingTopics.find_eq]
  exact hcount

theorem Known.handles {m m' : TopicManager} {name : Bytes} (h : m.Known name) {event : Event}
    (hstep : m.Handles event m') : m'.Known name := (h.after event).reorder hstep.reorder

/-! ### Handling a packet again -/

/-- What was there before is as it was; there may be new objects. -/
structure Unchanged (m m' : TopicManager) : Prop where
  topics : m'.topics = m.topics
  publishingTopics : m'.publishingTopics = m.publishingTopics
  subscribingTopics : m'.subscribingTopics = m.subscribingTopics
  next : m.heap.next ≤ m'.heap.next
  heap : ∀ p, p < m.heap.next → m'.heap.topics p = m.heap.topics p

theorem Unchanged.known {m m' : TopicManager} (h : Unchanged m m') {name : Bytes}
    (hknown : m.Known name) : m'.Known name := by
  unfold Known at hknown ⊢
  rw [h.publishingTopics, getTopics_congr h.topics]
  exact hknown

theorem Unchanged.trans {m m' m'' : TopicManager} (h : Unchanged m m') (h' : Unchanged m' m'') :
    Unchanged m m'' where
  topics := h'.topics.trans h.topics
  publishingTopics := h'.publishingTopics.trans h.publishingTopics
  subscribingTopics := h'.subscribingTopics.trans h.subscribingTopics
  next := Nat.le_trans h.next h'.next
  heap p hp := (h'.heap p (Nat.lt_of_lt_of_le hp h.next)).trans (h.heap p hp)

/-- **The announcement of a known name changes nothing.** -/
theorem unchanged_of_known (addr : SockaddrIn) {m : TopicManager} {item : TopicName}
    (h : m.Known item.name) : Unchanged m (Node.announce addr m item) := by
  obtain ⟨hpublishing, hsubscribing⟩ := Node.announce_registries addr m item
  obtain ⟨hnext, hheap, -⟩ := Node.announce_heap addr m item
  have htopics : (Node.announce addr m item).topics = m.topics := by
    rcases Node.announce_cases addr m item with ⟨-, htopics⟩ | ⟨hcount, hnil, -⟩
    · exact htopics
    · rcases h with h | ⟨t, ht⟩
      · rw [hcount] at h
        cases h
      · rw [hnil] at ht
        exact absurd ht List.not_mem_nil
  exact ⟨htopics, hpublishing, hsubscribing, by rw [hnext]; exact Nat.le_succ _, hheap⟩

theorem unchanged_discover (addr : SockaddrIn) {items : List TopicName} : ∀ {m : TopicManager},
    (∀ item ∈ items, m.Known item.name) → Unchanged m (items.foldl (Node.announce addr) m) := by
  induction items with
  | nil => exact fun _ => ⟨rfl, rfl, rfl, Nat.le_refl _, fun _ _ => rfl⟩
  | cons item items ih =>
    intro m h
    have hfirst := unchanged_of_known addr (h item List.mem_cons_self)
    exact hfirst.trans (ih fun i hi => hfirst.known (h i (List.mem_cons_of_mem _ hi)))

theorem unchanged_again {addr : SockaddrIn} {items : List TopicName} {m m1 m2 : TopicManager}
    (hfirst : m.Handles (.discover addr items) m1) {trace : List (TopicManager × Event)}
    (r : Run Handles m1 trace m2) (addr' : SockaddrIn) :
    Unchanged m2 (m2.after (.discover addr' items)) := by
  refine unchanged_discover addr' fun item hitem => ?_
  have h1 : m1.Known item.name := (known_discover addr m item hitem).reorder hfirst.reorder
  exact r.invariant (P := fun m => m.Known item.name) (fun _ _ _ h hstep => h.handles hstep) h1

/-- **Discovery is idempotent.**  A `Discover` packet that has been handled changes nothing when it
comes again, from any sender and after any other events: what is stored, the objects that were
there and the registries are the same. -/
theorem discover_idempotent {addr : SockaddrIn} {items : List TopicName} {m m1 m2 : TopicManager}
    (hfirst : m.Handles (.discover addr items) m1) {trace : List (TopicManager × Event)}
    (r : Run Handles m1 trace m2) (addr' : SockaddrIn) :
    ∃ m3, m2.handle (.discover addr' items) = .ok m3 ∧ m3.topics = m2.topics ∧
      (∀ p, p < m2.heap.next → m3.heap.topics p = m2.heap.topics p) ∧
      m3.publishingTopics = m2.publishingTopics ∧
      m3.subscribingTopics = m2.subscribingTopics := by
  have h := unchanged_again hfirst r addr'
  exact ⟨_, m2.handle_eq _, h.topics, h.heap, h.publishingTopics, h.subscribingTopics⟩

/-- A manager that has been told of the topic `"+"`. -/
def toldPlus : TopicManager :=
  (init ⟨fun _ => Topic.ofName [], 0⟩).after (.discover ⟨(10, 0, 0, 1), (0, 80)⟩ [⟨1, [43]⟩])

/-- It is told again after a call of the application. -/
theorem discover_idempotent_plus :
    ∃ m3, (toldPlus.createPublishTopic [97] (some 0)).2.handle
        (.discover ⟨(10, 0, 0, 1), (0, 80)⟩ [⟨1, [43]⟩]) = .ok m3 ∧
      m3.topics = (toldPlus.createPublishTopic [97] (some 0)).2.topics ∧
      ∀ p, p < 1 →
        m3.heap.topics p = (toldPlus.createPublishTopic [97] (some 0)).2.heap.topics p := by
  have hfirst : (init ⟨fun _ => Topic.ofName [], 0⟩).Handles
      (.discover ⟨(10, 0, 0, 1), (0, 80)⟩ [⟨1, [43]⟩]) toldPlus :=
    ⟨_, handle_eq _ _, Reorder.refl _⟩
  have hcall : toldPlus.Handles (.createPublishTopic [97] (some 0))
      (toldPlus.createPublishTopic [97] (some 0)).2 := ⟨_, rfl, Reorder.refl _⟩
  obtain ⟨m3, hok, htopics, hheap, -⟩ := discover_idempotent hfirst (Run.single hcall)
    ⟨(10, 0, 0, 1), (0, 80)⟩
  exact ⟨m3, hok, htopics, hheap⟩

/-! ### The objects that exist -/

/-- The application passes an object that exists, and deletes none that does. -/
def PassesExisting (m : TopicManager) : Event → Prop
  | .createTopic _ topic | .createPublishTopic _ topic | .createSubscribeTopic _ topic =>
    ∀ t, topic = some t → t < m.heap.next
  | .write heap => m.heap.next ≤ heap.next
  | .discover _ _ | .publish _ _ | .subscribe _ _ => True

theorem insertTopic_next (m : TopicManager) (name : Bytes) (topic : Option TopicPtr) :
    (m.insertTopic name topic).2.heap.next = m.heap.next := by
  rcases m.insertTopic_cases name topic with ⟨-, he⟩ | ⟨-, he⟩
  · rw [he]
  · rw [he]
    cases topic <;> rfl

theorem Allocated.insertTopic {m : TopicManager} (h : m.Allocated) {name : Bytes}
    {topic : Option TopicPtr} (htopic : ∀ t, topic = some t → t < m.heap.next) :
    (m.insertTopic name topic).2.Allocated := by
  intro key t hget
  rw [insertTopic_next]
  rw [get_insertTopic] at hget
  split at hget
  · exact htopic t hget
  · exact h key t hget

/-- **Whatever is stored exists**, if the application passes nothing else. -/
theorem Allocated.after {m : TopicManager} (h : m.Allocated) {event : Event}
    (hevent : m.PassesExisting event) : (m.after event).Allocated := by
  cases event with
  | discover addr items =>
    exact foldl_invariant (I := Allocated) (fun _ item h => Node.allocated_announce h addr item)
      items m h
  | publish addr items =>
    refine foldl_invariant (I := Allocated) (fun m item h => ?_) items m h
    intro key t hget
    rw [Node.publishItem_eq] at hget ⊢
    rw [Heap.foldl_modify_next]
    exact h key t hget
  | subscribe addr items =>
    refine foldl_invariant (I := Allocated) (fun m item h => ?_) items m h
    intro key t hget
    rw [Node.subscribeFrom_next]
    exact h key t hget
  | createTopic name topic =>
    show (m.createTopic name topic).2.Allocated
    rcases m.createTopic_topics name topic with he | he
    · rw [he]
      exact h
    · rw [he]
      exact h.insertTopic hevent
  | createPublishTopic name topic =>
    rw [TopicManager.after, createPublishTopic]
    split
    · exact h
    · exact h.insertTopic hevent
  | createSubscribeTopic name topic =>
    rw [TopicManager.after, createSubscribeTopic]
    split
    · exact h
    · exact h.insertTopic hevent
  | write heap => exact fun key t hget => Nat.lt_of_lt_of_le (h key t hget) hevent

theorem Allocated.handles {m m' : TopicManager} (h : m.Allocated) {event : Event}
    (hevent : m.PassesExisting event) (hstep : m.Handles event m') : m'.Allocated := by
  intro key t hget
  have hreorder := hstep.reorder
  rw [← hreorder.heap]
  exact h.after hevent key t (by rw [hreorder.topics.get_eq, hget])

/-- **No topic that is stored changes** when a packet comes again. -/
theorem stored_unchanged {addr : SockaddrIn} {items : List TopicName} {m m1 m2 : TopicManager}
    (hm : m.Allocated) (hfirst : m.Handles (.discover addr items) m1)
    {trace : List (TopicManager × Event)} (r : Run Handles m1 trace m2)
    (hexist : ∀ x ∈ trace, x.1.PassesExisting x.2) (addr' : SockaddrIn) {key : List Token}
    {t : TopicPtr} (hget : m2.topics.get key = some t) :
    (m2.after (.discover addr' items)).heap.topics t = m2.heap.topics t := by
  have hpacket : m.PassesExisting (.discover addr items) := trivial
  have h1 : m1.Allocated := hm.handles hpacket hfirst
  have hpasses := r.restrict (A := fun m event => m.PassesExisting event) hexist
  have h2 : m2.Allocated := hpasses.invariant (fun _ _ _ h hstep => h.handles hstep.1 hstep.2) h1
  exact (unchanged_again hfirst r addr').heap t (h2 key t hget)

end TopicManager

end Mydds
