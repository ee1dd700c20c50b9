import Mydds.Node.Receive
import Mydds.Node.Announce
import Mydds.Lib.Run

/-!
# What a node knows of its peers

A `Discover` packet announces the topics of its sender, and a `Subscribe` packet names those
it wants.  `Peers` is a node with a history of what it has been told: the names that were
announced and are not published here, and the topics that were found when they were
subscribed to.  `Listed` says that nothing of it is lost or double: the topic under an
announced name lists the announcer once, and a topic that was subscribed to lists the
subscriber once.

The code keeps this for the first announcer of a name only.  A later one goes through
`create_topic`, which drops it because the name is taken; a subscriber is appended
each time it is heard of.  `listed_discover_iff` and `listed_subscribe_iff` are the exact
conditions for one item, and `listed_run_iff` is the condition for a run of packets.
-/

namespace Mydds

open Lib

/-- A node, and what it has been told so far. -/
structure Peers where
  node : Node
  announced : List (Bytes × SockaddrIn)
  subscribed : List (TopicPtr × SockaddrIn)

namespace Peers

/-- A node that has not been told anything. -/
def start (node : Node) : Peers := ⟨node, [], []⟩

/-- An item of a `Discover` packet is handled, and noted unless the name is published here. -/
def discover (addr : SockaddrIn) (s : Peers) (item : TopicName) : Peers where
  node := { s.node with topicManager := Node.announce addr s.node.topicManager item }
  announced := if s.node.topicManager.publishingTopics.count item.name then s.announced
    else (item.name, addr) :: s.announced
  subscribed := s.subscribed

/-- An item of a `Subscribe` packet is handled, and noted for each topic that it finds. -/
def subscribe (addr : SockaddrIn) (s : Peers) (item : TopicName) : Peers where
  node := { s.node with topicManager := Node.subscribeFrom addr s.node.topicManager item }
  announced := s.announced
  subscribed := (s.node.topicManager.getTopics item.name).map (fun t => (t, addr)) ++ s.subscribed

/-- The topic under the name lists the announcer once. -/
def ListsAnnouncer (m : TopicManager) (e : Bytes × SockaddrIn) : Prop :=
  ∃ t, m.topics.get (Trie.split e.1 slash) = some t ∧
    (m.heap.topics t).publisherinfos.count (publisherAt e.2) = 1

/-- The topic lists the subscriber once. -/
def ListsSubscriber (m : TopicManager) (e : TopicPtr × SockaddrIn) : Prop :=
  (m.heap.topics e.1).subscriberinfos.count (subscriberAt e.2) = 1

/-- Nothing of what the node has been told is lost or double. -/
def Listed (s : Peers) : Prop :=
  (∀ e ∈ s.announced, ListsAnnouncer s.node.topicManager e) ∧
  (∀ e ∈ s.subscribed, ListsSubscriber s.node.topicManager e)

/-- The name is published here, or free, or the topic under it lists the announcer once. -/
def DiscoverOk (addr : SockaddrIn) (s : Peers) (item : TopicName) : Prop :=
  s.node.topicManager.publishingTopics.count item.name = true ∨
  s.node.topicManager.getTopics item.name = [] ∨
  ListsAnnouncer s.node.topicManager (item.name, addr)

/-- Every topic that is found is found once, and does not list the subscriber. -/
def SubscribeOk (addr : SockaddrIn) (s : Peers) (item : TopicName) : Prop :=
  ∀ t ∈ s.node.topicManager.getTopics item.name,
    (s.node.topicManager.getTopics item.name).count t = 1 ∧
    (s.node.topicManager.heap.topics t).subscriberinfos.count (subscriberAt addr) = 0

/-- What every packet keeps: the stored objects exist, an announced name is taken, and a
subscriber is listed. -/
structure Consistent (s : Peers) : Prop where
  allocated : s.node.topicManager.Allocated
  announced : ∀ e ∈ s.announced, ∃ t, t ∈ s.node.topicManager.getTopics e.1
  subscribed : ∀ e ∈ s.subscribed, e.1 < s.node.topicManager.heap.next ∧
    1 ≤ (s.node.topicManager.heap.topics e.1).subscriberinfos.count (subscriberAt e.2)

theorem consistent_start {node : Node} (h : node.topicManager.Allocated) :
    (start node).Consistent :=
  ⟨h, fun _ he => absurd he List.not_mem_nil, fun _ he => absurd he List.not_mem_nil⟩

theorem listed_start (node : Node) : (start node).Listed :=
  ⟨fun _ he => absurd he List.not_mem_nil, fun _ he => absurd he List.not_mem_nil⟩

/-! ### One item of a `Discover` packet -/

theorem Consistent.discover {s : Peers} (h : s.Consistent) (addr : SockaddrIn) (item : TopicName) :
    (s.discover addr item).Consistent := by
  obtain ⟨hnext, hold, -⟩ := Node.announce_heap addr s.node.topicManager item
  refine ⟨Node.allocated_announce h.allocated addr item, fun e he => ?_, fun e he => ?_⟩
  · have he' : e ∈ if s.node.topicManager.publishingTopics.count item.name then s.announced
      else (item.name, addr) :: s.announced := he
    have hkept : e ∈ s.announced →
      ∃ t, t ∈ (s.discover addr item).node.topicManager.getTopics e.1 := by
      intro hmem
      obtain ⟨t, ht⟩ := h.announced e hmem
      exact ⟨t, Node.mem_getTopics_announce addr ht item⟩
    split at he'
    · exact hkept he'
    · rename_i hcount
      rcases List.mem_cons.mp he' with rfl | hmem
      · exact Node.exists_mem_getTopics_announce addr (Bool.not_eq_true _ ▸ hcount)
      · exact hkept hmem
  · obtain ⟨hlt, hcount⟩ := h.subscribed e he
    refine ⟨?_, ?_⟩
    · show e.1 < (Node.announce addr s.node.topicManager item).heap.next
      rw [hnext]
      exact Nat.lt_succ_of_lt hlt
    · show 1 ≤ ((Node.announce addr s.node.topicManager item).heap.topics
        e.1).subscriberinfos.count _
      rw [hold e.1 hlt]
      exact hcount

theorem listsAnnouncer_announce_iff {m : TopicManager} (h : m.Allocated) (addr : SockaddrIn)
    (item : TopicName) {e : Bytes × SockaddrIn} (he : ∃ t, t ∈ m.getTopics e.1) :
    ListsAnnouncer (Node.announce addr m item) e ↔ ListsAnnouncer m e := by
  obtain ⟨-, hold, -⟩ := Node.announce_heap addr m item
  constructor
  · rintro ⟨t, hget, hcount⟩
    have hget' : m.topics.get (Trie.split e.1 slash) = some t := by
      rcases Node.announce_cases addr m item with ⟨-, htopics⟩ | ⟨-, hnil, htopics⟩
      · rwa [htopics] at hget
      · rw [htopics, Trie.get_insert] at hget
        split at hget
        · -- the new topic would be stored where a search finds one already
          rename_i hsplit
          obtain ⟨t', ht'⟩ := he
          obtain ⟨key, hkey, hmatch⟩ := (m.mem_getTopics_iff _ _).mp ht'
          rw [hsplit] at hmatch
          rw [TopicManager.get_of_getTopics_nil hnil hmatch] at hkey
          cases hkey
        · exact hget
    refine ⟨t, hget', ?_⟩
    rwa [hold t (h _ t hget')] at hcount
  · rintro ⟨t, hget, hcount⟩
    refine ⟨t, Node.get_announce_of_some addr hget item, ?_⟩
    rwa [hold t (h _ t hget)]

theorem listsAnnouncer_announce_self_iff {s : Peers} (h : s.Consistent) (addr : SockaddrIn)
    {item : TopicName} (hcount : s.node.topicManager.publishingTopics.count item.name = false) :
    ListsAnnouncer (Node.announce addr s.node.topicManager item) (item.name, addr)
      ↔ DiscoverOk addr s item := by
  obtain ⟨-, -, hnew⟩ := Node.announce_heap addr s.node.topicManager item
  by_cases hnil : s.node.topicManager.getTopics item.name = []
  · refine iff_of_true ⟨s.node.topicManager.heap.next, ?_, ?_⟩ (Or.inr (Or.inl hnil))
    · exact Node.get_announce_self addr hcount hnil
    · rw [hnew, List.count_singleton_self]
  · have htaken := List.exists_mem_of_ne_nil _ hnil
    rw [listsAnnouncer_announce_iff h.allocated addr item htaken, DiscoverOk, hcount]
    simp [hnil]

/-- **An announcement is recorded iff** the name is published here, or free, or its topic
already lists the announcer once. -/
theorem listed_discover_iff {s : Peers} (h : s.Consistent) (addr : SockaddrIn) (item : TopicName) :
    (s.discover addr item).Listed ↔ s.Listed ∧ DiscoverOk addr s item := by
  obtain ⟨-, hold, -⟩ := Node.announce_heap addr s.node.topicManager item
  have hannounced : (∀ e ∈ s.announced,
        ListsAnnouncer (Node.announce addr s.node.topicManager item) e) ↔
      ∀ e ∈ s.announced, ListsAnnouncer s.node.topicManager e :=
    forall₂_congr fun e he => listsAnnouncer_announce_iff h.allocated addr item (h.announced e he)
  have hsubscribed : (∀ e ∈ s.subscribed,
        ListsSubscriber (Node.announce addr s.node.topicManager item) e) ↔
      ∀ e ∈ s.subscribed, ListsSubscriber s.node.topicManager e := by
    refine forall₂_congr fun e he => ?_
    rw [ListsSubscriber, ListsSubscriber, hold e.1 (h.subscribed e he).1]
  cases hcount : s.node.topicManager.publishingTopics.count item.name with
  | true =>
    have hhistory : (s.discover addr item).announced = s.announced := by
      rw [discover, hcount, if_pos rfl]
    have hok : DiscoverOk addr s item := Or.inl hcount
    rw [Listed, hhistory, Listed, and_iff_left hok]
    exact and_congr hannounced hsubscribed
  | false =>
    have hhistory : (s.discover addr item).announced = (item.name, addr) :: s.announced := by
      rw [discover, hcount, if_neg nofun]
    have hself := listsAnnouncer_announce_self_iff h addr hcount
    rw [Listed, hhistory, List.forall_mem_cons, Listed]
    constructor
    · rintro ⟨⟨hnew, hann⟩, hsub⟩
      exact ⟨⟨hannounced.mp hann, hsubscribed.mp hsub⟩, hself.mp hnew⟩
    · rintro ⟨⟨hann, hsub⟩, hok⟩
      exact ⟨⟨hself.mpr hok, hannounced.mpr hann⟩, hsubscribed.mpr hsub⟩

/-! ### One item of a `Subscribe` packet -/

theorem count_subscribeFrom (addr addr' : SockaddrIn) (m : TopicManager) (item : TopicName)
    (p : TopicPtr) :
    ((Node.subscribeFrom addr m item).heap.topics p).subscriberinfos.count (subscriberAt addr')
      = (m.heap.topics p).subscriberinfos.count (subscriberAt addr')
        + if subscriberAt addr = subscriberAt addr' then (m.getTopics item.name).count p
          else 0 := by
  rw [Node.subscribeFrom_topics, List.count_append, List.count_replicate]
  simp only [beq_iff_eq]

theorem Consistent.subscribe {s : Peers} (h : s.Consistent) (addr : SockaddrIn) (item : TopicName) :
    (s.subscribe addr item).Consistent := by
  refine ⟨fun key t hget => ?_, h.announced, fun e he => ?_⟩
  · show t < (Node.subscribeFrom addr s.node.topicManager item).heap.next
    rw [Node.subscribeFrom_next]
    exact h.allocated key t hget
  · show e.1 < (Node.subscribeFrom addr s.node.topicManager item).heap.next ∧ 1 ≤ _
    rw [Node.subscribeFrom_next]
    show _ ∧ 1 ≤ ((Node.subscribeFrom addr s.node.topicManager item).heap.topics
      e.1).subscriberinfos.count _
    rw [count_subscribeFrom]
    rcases List.mem_append.mp he with hnew | hold
    · obtain ⟨t, ht, rfl⟩ := List.mem_map.mp hnew
      obtain ⟨key, hget, -⟩ := (TopicManager.mem_getTopics_iff _ _ _).mp ht
      have hfound : 0 < (s.node.topicManager.getTopics item.name).count t :=
        List.count_pos_iff.mpr ht
      rw [if_pos rfl]
      exact ⟨h.allocated key t hget, Nat.le_add_left_of_le hfound⟩
    · obtain ⟨hlt, hcount⟩ := h.subscribed e hold
      exact ⟨hlt, by omega⟩

/-- **A subscription is recorded iff** every topic is found once and does not list the
subscriber. -/
theorem listed_subscribe_iff {s : Peers} (h : s.Consistent) (addr : SockaddrIn) (item : TopicName) :
    (s.subscribe addr item).Listed ↔ s.Listed ∧ SubscribeOk addr s item := by
  have hannounced : ∀ e, ListsAnnouncer (Node.subscribeFrom addr s.node.topicManager item) e ↔
      ListsAnnouncer s.node.topicManager e := by
    intro e
    refine exists_congr fun t => ?_
    rw [Node.subscribeFrom_topics]
    exact Iff.rfl
  constructor
  · rintro ⟨hann, hsub⟩
    refine ⟨⟨fun e he => (hannounced e).mp (hann e he), fun e he => ?_⟩, fun t ht => ?_⟩
    · -- the count was not zero, and it has not gone down
      have hlisted : ListsSubscriber _ e := hsub e (List.mem_append_right _ he)
      have hcount := (h.subscribed e he).2
      rw [ListsSubscriber, subscribe, count_subscribeFrom] at hlisted
      rw [ListsSubscriber]
      omega
    · have hlisted : ((Node.subscribeFrom addr s.node.topicManager item).heap.topics
          t).subscriberinfos.count (subscriberAt addr) = 1 :=
        hsub (t, addr) (List.mem_append_left _ (List.mem_map_of_mem ht))
      have hfound : 0 < (s.node.topicManager.getTopics item.name).count t :=
        List.count_pos_iff.mpr ht
      rw [count_subscribeFrom, if_pos rfl] at hlisted
      omega
  · rintro ⟨⟨hann, hsub⟩, hok⟩
    refine ⟨fun e he => (hannounced e).mpr (hann e he), fun e he => ?_⟩
    rw [ListsSubscriber, subscribe, count_subscribeFrom]
    rcases List.mem_append.mp he with hnew | hold
    · obtain ⟨t, ht, rfl⟩ := List.mem_map.mp hnew
      obtain ⟨hfound, hcount⟩ := hok t ht
      rw [if_pos rfl, hfound, hcount]
    · have hlisted := hsub e hold
      rw [ListsSubscriber] at hlisted
      split
      · rename_i hsame
        by_cases ht : e.1 ∈ s.node.topicManager.getTopics item.name
        · -- it would be listed already
          have hcount := (hok e.1 ht).2
          rw [hsame, hlisted] at hcount
          cases hcount
        · rw [List.count_eq_zero_of_not_mem ht]
          exact hlisted
      · exact hlisted

/-! ### Packets -/

/-- A `Discover` or a `Subscribe` packet, and its sender. -/
inductive Message where
  | discover (addr : SockaddrIn) (frames : List Frame)
  | subscribe (addr : SockaddrIn) (frames : List Frame)

/-- The receive request that the packet completes. -/
def Message.info : Message → IoInfo
  | .discover addr frames => ⟨.read, some addr, [],
      CommunicationType.discover.toByte :: frames.flatMap Frame.bytes⟩
  | .subscribe addr frames => ⟨.read, some addr, [],
      CommunicationType.subscribe.toByte :: frames.flatMap Frame.bytes⟩

/-- The items of the packet are handled and noted in order. -/
def note (s : Peers) : Message → Peers
  | .discover addr frames => (frames.map Frame.topicName).foldl (discover addr) s
  | .subscribe addr frames => (frames.map Frame.topicName).foldl (subscribe addr) s

/-- `handler_read` handles a packet, and its items are noted; after it, the unordered maps are
in any order. -/
structure Step (s : Peers) (message : Message) (s' : Peers) : Prop where
  handled : ∃ node' m', s.node.handlerRead message.info = .ok node' ∧
    node'.topicManager.Reorder m' ∧ s'.node = { node' with topicManager := m' }
  announced : s'.announced = (s.note message).announced
  subscribed : s'.subscribed = (s.note message).subscribed

/-- Each item meets its condition in the state in which it is handled. -/
def KeepsPeers (s : Peers) : Message → Prop
  | .discover addr frames =>
    Throughout (discover addr) (DiscoverOk addr) s (frames.map Frame.topicName)
  | .subscribe addr frames =>
    Throughout (subscribe addr) (SubscribeOk addr) s (frames.map Frame.topicName)

theorem handlerRead_note (s : Peers) (message : Message) : ∃ node',
    s.node.handlerRead message.info = .ok node' ∧
    node'.topicManager = (s.note message).node.topicManager := by
  cases message with
  | discover addr frames =>
    have hfold : ((frames.map Frame.topicName).foldl (discover addr) s).node.topicManager
        = (frames.map Frame.topicName).foldl (Node.announce addr) s.node.topicManager :=
      (List.foldl_hom (fun s : Peers => s.node.topicManager) fun _ _ => rfl).symm
    exact ⟨_, Node.handlerRead_payload .discover rfl rfl ⟨rfl, nofun⟩ s.node, hfold.symm⟩
  | subscribe addr frames =>
    have hfold : ((frames.map Frame.topicName).foldl (subscribe addr) s).node.topicManager
        = (frames.map Frame.topicName).foldl (Node.subscribeFrom addr) s.node.topicManager :=
      (List.foldl_hom (fun s : Peers => s.node.topicManager) fun _ _ => rfl).symm
    exact ⟨_, Node.handlerRead_payload .subscribe rfl rfl ⟨rfl, nofun⟩ s.node, hfold.symm⟩

theorem Step.reorder {s s' : Peers} {message : Message} (h : s.Step message s') :
    (s.note message).node.topicManager.Reorder s'.node.topicManager := by
  obtain ⟨node1, hnode1, hnote⟩ := handlerRead_note s message
  obtain ⟨node', m', hnode', hreorder, hs'⟩ := h.handled
  obtain rfl : node1 = node' := Except.ok.inj (hnode1.symm.trans hnode')
  rw [hs', ← hnote]
  exact hreorder

theorem listed_note_iff {s : Peers} (h : s.Consistent) (message : Message) :
    (s.note message).Consistent ∧ ((s.note message).Listed ↔ s.Listed ∧ s.KeepsPeers message) := by
  cases message with
  | discover addr frames =>
    exact foldl_iff (fun _ item h => h.discover addr item)
      (fun _ item h => listed_discover_iff h addr item) _ s h
  | subscribe addr frames =>
    exact foldl_iff (fun _ item h => h.subscribe addr item)
      (fun _ item h => listed_subscribe_iff h addr item) _ s h

theorem Step.consistent {s s' : Peers} {message : Message} (hs : s.Consistent)
    (h : s.Step message s') : s'.Consistent := by
  obtain ⟨hnote, -⟩ := listed_note_iff hs message
  have hreorder := h.reorder
  refine ⟨fun key t hget => ?_, fun e he => ?_, fun e he => ?_⟩
  · rw [← hreorder.topics.get_eq] at hget
    rw [← hreorder.heap]
    exact hnote.allocated key t hget
  · rw [h.announced] at he
    obtain ⟨t, ht⟩ := hnote.announced e he
    exact ⟨t, (hreorder.mem_getTopics_iff e.1 t).mp ht⟩
  · rw [h.subscribed] at he
    rw [← hreorder.heap]
    exact hnote.subscribed e he

theorem Step.listed_iff {s s' : Peers} {message : Message} (hs : s.Consistent)
    (h : s.Step message s') : s'.Listed ↔ s.Listed ∧ s.KeepsPeers message := by
  obtain ⟨-, hiff⟩ := listed_note_iff hs message
  have hreorder := h.reorder
  have hann : ∀ e, ListsAnnouncer (s.note message).node.topicManager e
      ↔ ListsAnnouncer s'.node.topicManager e := by
    intro e
    rw [ListsAnnouncer, ListsAnnouncer, hreorder.heap]
    simp only [hreorder.topics.get_eq]
  have hsub : ∀ e, ListsSubscriber (s.note message).node.topicManager e
      ↔ ListsSubscriber s'.node.topicManager e := by
    intro e
    rw [ListsSubscriber, ListsSubscriber, hreorder.heap]
  rw [← hiff, Listed, Listed, h.announced, h.subscribed]
  exact and_congr (forall₂_congr fun e _ => (hann e).symm) (forall₂_congr fun e _ => (hsub e).symm)

/-- **The bookkeeping loses and duplicates nothing in a run of packets iff each item of each
packet meets its condition**: an announced name is published here, free, or lists its
announcer already, and a subscriber is not listed by the topics it names. -/
theorem listed_run_iff {node : Node} (hnode : node.topicManager.Allocated)
    {trace : List (Peers × Message)} {s : Peers} (r : Run Step (start node) trace s) :
    ((∀ x ∈ trace, x.1.Listed) ∧ s.Listed) ↔ ∀ x ∈ trace, x.1.KeepsPeers x.2 := by
  refine r.always_iff (I := Consistent) (fun _ _ _ hs h => h.consistent hs)
    (fun s message s' hs hlisted h => ?_) (consistent_start hnode) (listed_start node)
  rw [h.listed_iff hs, and_iff_right hlisted]

theorem exists_step (s : Peers) (message : Message) : ∃ s', s.Step message s' ∧
    s'.node.topicManager = (s.note message).node.topicManager := by
  obtain ⟨node', hok, hnote⟩ := handlerRead_note s message
  exact ⟨⟨node', (s.note message).announced, (s.note message).subscribed⟩,
    ⟨⟨node', node'.topicManager, hok, TopicManager.Reorder.refl _, rfl⟩, rfl, rfl⟩, hnote⟩

/-- A node without topics. -/
def newNode : Node := Node.construct ⟨fun _ => Topic.ofName [], 0⟩

theorem allocated_newNode : newNode.topicManager.Allocated := by
  intro key t hget
  rw [newNode, Node.construct, TopicManager.init, Trie.get_empty] at hget
  cases hget

/-- One topic is announced, under a name that fills the buffer, by the host with this last
byte of its address. -/
def announceFull (host : UInt8) : Message := .discover ⟨(10, 0, 0, host), (0, 80)⟩ [Frame.full]

theorem length_announceFull (host : UInt8) :
    (announceFull host).info.recvBuffer.length = IoInfo.bufferSize := by
  show (CommunicationType.discover.toByte :: [Frame.full].flatMap Frame.bytes).length = _
  rw [List.flatMap_singleton, List.length_cons, Frame.length_bytes_full]

theorem note_announceFull (s : Peers) (host : UInt8) :
    (s.note (announceFull host)).node.topicManager = Node.announce ⟨(10, 0, 0, host), (0, 80)⟩
      s.node.topicManager Frame.full.topicName := by
  rw [announceFull, note, List.map_singleton, List.foldl_cons, List.foldl_nil, discover]

/-- The first announcement of a name. -/
theorem listed_run_iff_first :
    ∃ s, Run Step (start newNode) [(start newNode, announceFull 1)] s ∧ s.Listed := by
  obtain ⟨s, hstep, -⟩ := exists_step (start newNode) (announceFull 1)
  have r := Run.single hstep
  refine ⟨s, r, ((listed_run_iff allocated_newNode r).mpr fun x hx => ?_).2⟩
  rw [List.mem_singleton.mp hx]
  exact ⟨Or.inr (Or.inl (TopicManager.getTopics_init _ _)), trivial⟩

/-- The second announcement of a name, by another host. -/
theorem listed_run_fails : ¬ ∀ (node : Node) (trace : List (Peers × Message)) (s : Peers),
    node.topicManager.Allocated →
    (∀ x ∈ trace, x.2.info.recvBuffer.length = IoInfo.bufferSize) →
    Run Step (start node) trace s → s.Listed := by
  intro h
  obtain ⟨s1, hstep1, hs1⟩ := exists_step (start newNode) (announceFull 1)
  obtain ⟨s2, hstep2, -⟩ := exists_step s1 (announceFull 2)
  have hlisted := h _ _ _ allocated_newNode (by
    intro x hx
    rcases List.mem_append.mp hx with hx | hx
    · rw [List.mem_singleton.mp hx]
      exact length_announceFull 1
    · rw [List.mem_singleton.mp hx]
      exact length_announceFull 2) ((Run.single hstep1).snoc hstep2)
  have hs := hstep1.consistent (consistent_start allocated_newNode)
  obtain ⟨-, hkeeps, -⟩ := (hstep2.listed_iff hs).mp hlisted
  rw [DiscoverOk, hs1, note_announceFull, (Node.announce_registries _ _ _).1] at hkeeps
  -- the first announcement has stored a topic that lists the first host only
  obtain ⟨-, -, hnew⟩ := Node.announce_heap ⟨(10, 0, 0, 1), (0, 80)⟩
    (start newNode).node.topicManager Frame.full.topicName
  have hstored := @Node.get_announce_self ⟨(10, 0, 0, 1), (0, 80)⟩
    (start newNode).node.topicManager Frame.full.topicName rfl (TopicManager.getTopics_init _ _)
  rcases hkeeps with hpub | hnil | ⟨t, hget, hcount⟩
  · cases hpub
  · rw [TopicManager.get_split_of_getTopics hnil] at hstored
    cases hstored
  · obtain rfl := Option.some.inj (hstored.symm.trans hget)
    rw [hnew] at hcount
    exact absurd hcount (by decide)

end Peers

end Mydds
