import Mydds.Domain.Names
import Mydds.Domain.Broadcast
import Mydds.Util.Address

/-!
# Where peers and data come from

An object lists its publishers and its subscribers, and holds data under key 0.  `peers_heard` says
that who is listed has sent a packet that says so: an announcement of the name of the object, or a
subscription that finds it.  `data_heard` says that the data of an object have been written by the
application of the node, or were sent with a publication whose name matches a path of the object;
and whatever is sent on was written by some application in the first place.

A packet that does not fill the receive buffer says more than its sender does: behind it there are
blank items, which announce and subscribe to the empty name, and publish empty data under it.

What is found is found ever after, for a node erases nothing: `mem_getTopics_create`.
-/

namespace Mydds

open Lib

namespace Domain

variable {ι : Type} {setting : Setting ι} {log : List (ι × Message)} {m : TopicManager}

theorem mem_getTopics_create {m' : TopicManager} {name name' : Bytes} {topic : Option TopicPtr}
    {p : TopicPtr} (h : p ∈ m.getTopics name)
    (htopics : m'.topics = m.topics ∨ m'.topics = (m.insertTopic name' topic).2.topics) :
    p ∈ m'.getTopics name := by
  rcases htopics with he | he
  · rw [TopicManager.getTopics_congr he]
    exact h
  · rw [TopicManager.getTopics_congr he]
    exact TopicManager.mem_getTopics_insertTopic h name' topic

theorem mem_getTopics_createTopic {name name' : Bytes} {topic : Option TopicPtr} {p : TopicPtr}
    (h : p ∈ m.getTopics name) : p ∈ (m.createTopic name' topic).2.getTopics name :=
  mem_getTopics_create h ((m.createTopic_topics name' topic).imp (congrArg TopicManager.topics)
    (congrArg TopicManager.topics))

theorem mem_getTopics_publishItem {name : Bytes} {item : TopicPacket} {p : TopicPtr}
    (h : p ∈ m.getTopics name) : p ∈ (Node.publishItem m item).getTopics name := by
  rw [Node.publishItem_eq]
  exact h

/-! ### Peers -/

/-- A publisher at this address has announced the name, or a blank item behind its packet has. -/
def Announced (setting : Setting ι) (log : List (ι × Message)) (name : Bytes)
    (info : PublisherInfo) : Prop :=
  ∃ sender message topic, (sender, message) ∈ log ∧ message.kind = .discover ∧
    message.Holds topic ∧ topic.getName = name ∧ info = publisherAt (setting.address sender)

/-- A subscriber at this address has asked for a name that finds the object, or a blank item has. -/
def Subscribed (setting : Setting ι) (log : List (ι × Message)) (m : TopicManager) (p : TopicPtr)
    (info : SubscriberInfo) : Prop :=
  ∃ sender message topic, (sender, message) ∈ log ∧ message.kind = .subscribe ∧
    message.Holds topic ∧ p ∈ m.getTopics topic.getName ∧
    info = subscriberAt (setting.address sender)

structure PeersHeard (setting : Setting ι) (log : List (ι × Message)) (m : TopicManager) :
    Prop where
  publishers : ∀ p, ∀ info ∈ (m.heap.topics p).publisherinfos,
    Announced setting log (m.heap.topics p).getName info
  subscribers : ∀ p, ∀ info ∈ (m.heap.topics p).subscriberinfos, Subscribed setting log m p info

/-- The call leaves the lists as they are, and renames no object that lists a publisher. -/
def LeavesPeers (m : TopicManager) : Node.Call → Prop
  | .createTopic topicName topic | .createPublishTopic topicName topic => ∀ t, topic = some t →
    (m.heap.topics t).publisherinfos = [] ∨ (m.heap.topics t).getName = topicName
  | .write heap => ∀ p, (heap.topics p).publisherinfos = (m.heap.topics p).publisherinfos ∧
    (heap.topics p).subscriberinfos = (m.heap.topics p).subscriberinfos ∧
    ((m.heap.topics p).publisherinfos = [] ∨
      (heap.topics p).getName = (m.heap.topics p).getName)
  | .publish _ _ => True
  | .subscribe _ => True

theorem PeersHeard.of_same {m' : TopicManager} (h : PeersHeard setting log m)
    (hobject : ∀ p, (m'.heap.topics p).publisherinfos = (m.heap.topics p).publisherinfos ∧
      (m'.heap.topics p).subscriberinfos = (m.heap.topics p).subscriberinfos ∧
      ((m.heap.topics p).publisherinfos = [] ∨
        (m'.heap.topics p).getName = (m.heap.topics p).getName))
    (hfound : ∀ p name, p ∈ m.getTopics name → p ∈ m'.getTopics name) :
    PeersHeard setting log m' where
  publishers p info hinfo := by
    obtain ⟨hlist, -, hname⟩ := hobject p
    rw [hlist] at hinfo
    rcases hname with hnil | hname
    · rw [hnil] at hinfo
      exact absurd hinfo List.not_mem_nil
    · rw [hname]
      exact h.publishers p info hinfo
  subscribers p info hinfo := by
    rw [(hobject p).2.1] at hinfo
    obtain ⟨sender, message, topic, hsent, hkind, hholds, hmem, hat⟩ := h.subscribers p info hinfo
    exact ⟨sender, message, topic, hsent, hkind, hholds, hfound p _ hmem, hat⟩

/-- A registration that renames no listed object. -/
theorem object_of_create {m' : TopicManager} {name : Bytes} {topic : Option TopicPtr}
    (hallowed : ∀ t, topic = some t →
      (m.heap.topics t).publisherinfos = [] ∨ (m.heap.topics t).getName = name) {p : TopicPtr}
    (hobject : m'.heap.topics p = m.heap.topics p ∨
      (topic = some p ∧ m'.heap.topics p = (m.heap.topics p).setName name)) :
    (m'.heap.topics p).publisherinfos = (m.heap.topics p).publisherinfos ∧
      (m'.heap.topics p).subscriberinfos = (m.heap.topics p).subscriberinfos ∧
      ((m.heap.topics p).publisherinfos = [] ∨
        (m'.heap.topics p).getName = (m.heap.topics p).getName) := by
  rcases hobject with he | ⟨ht, he⟩
  · rw [he]
    exact ⟨rfl, rfl, Or.inr rfl⟩
  · rw [he]
    exact ⟨rfl, rfl, (hallowed p ht).imp_right Eq.symm⟩

theorem peersHeard_kept (hallowed : ∀ i m c, setting.allowed i m c → LeavesPeers m c) :
    Kept setting (fun _ => True) (fun log _ m => PeersHeard setting log m) where
  mono h more := by
    refine ⟨fun p info hinfo => ?_, fun p info hinfo => ?_⟩
    · obtain ⟨sender, message, topic, hsent, hrest⟩ := h.publishers p info hinfo
      exact ⟨sender, message, topic, List.mem_append_left _ hsent, hrest⟩
    · obtain ⟨sender, message, topic, hsent, hrest⟩ := h.subscribers p info hinfo
      exact ⟨sender, message, topic, List.mem_append_left _ hsent, hrest⟩
  reorder h hr := h.of_same (fun p => by rw [hr.heap]; exact ⟨rfl, rfl, Or.inr rfl⟩)
    fun p name hmem => (hr.mem_getTopics_iff name p).mp hmem
  discover {log i m sender message topic} h hsent _ hkind hholds := by
    refine ⟨fun p info hinfo => ?_, fun p info hinfo => ?_⟩
    · rw [announce_topics] at hinfo ⊢
      split at hinfo
      · rename_i hp
        rw [if_pos hp]
        exact ⟨sender, message, topic, hsent, hkind, hholds, rfl, List.mem_singleton.mp hinfo⟩
      · rename_i hp
        rw [if_neg hp]
        exact h.publishers p info hinfo
    · rw [announce_topics] at hinfo
      split at hinfo
      · exact absurd hinfo List.not_mem_nil
      · obtain ⟨sender', message', topic', hsent', hkind', hholds', hmem, hat⟩ :=
          h.subscribers p info hinfo
        exact ⟨sender', message', topic', hsent', hkind', hholds',
          Node.mem_getTopics_announce _ hmem _, hat⟩
  publish h _ _ _ _ := by
    refine h.of_same (fun p => ?_) fun p name hmem => mem_getTopics_publishItem hmem
    rw [Node.publishItem_topics]
    split
    · exact ⟨rfl, rfl, Or.inr rfl⟩
    · exact ⟨rfl, rfl, Or.inr rfl⟩
  subscribe {log i m sender message topic} h hsent _ hkind hholds := by
    refine ⟨fun p info hinfo => ?_, fun p info hinfo => ?_⟩
    · rw [Node.subscribeFrom_topics] at hinfo ⊢
      exact h.publishers p info hinfo
    · rw [Node.subscribeFrom_topics] at hinfo
      rcases List.mem_append.mp hinfo with hold | hnew
      · exact h.subscribers p info hold
      · obtain ⟨hcount, hat⟩ := List.mem_replicate.mp hnew
        exact ⟨sender, message, topic, hsent, hkind, hholds,
          List.count_pos_iff.mp (Nat.pos_of_ne_zero hcount), hat⟩
  createTopic h ha := h.of_same
    (fun p => object_of_create (hallowed _ _ _ ha) (createTopic_object _ _ _ p))
    fun p name hmem => mem_getTopics_createTopic hmem
  createPublishTopic h ha := h.of_same
    (fun p => object_of_create (hallowed _ _ _ ha) (createPublishTopic_object _ _ _ p))
    fun p name hmem => mem_getTopics_create hmem (TopicManager.createPublishTopic_topics _ _ _)
  write h ha := h.of_same (hallowed _ _ _ ha) fun _ _ hmem => hmem
  sends _ _ := trivial

/-- **Who is listed can be found**: the records of two addresses differ. -/
theorem publisherAt_injective : Function.Injective publisherAt := by
  intro a b h
  refine sockaddrToIpPort_injective ?_
  obtain ⟨htext, hport⟩ := PublisherInfo.mk.inj h
  rw [Util.sockaddrToIpPort_eq, Util.sockaddrToIpPort_eq]
  exact congrArg Except.ok (Prod.ext htext hport)

theorem subscriberAt_injective : Function.Injective subscriberAt := by
  intro a b h
  refine publisherAt_injective ?_
  obtain ⟨htext, hport⟩ := SubscriberInfo.mk.inj h
  rw [publisherAt, publisherAt, htext, hport]

/-- **Nobody is listed who has not asked for it**, but for the blank items.  If the applications
leave the lists and the names of listed objects alone, then in every run of a domain every publisher
that an object of a node lists is at the address of a node that has sent an announcement: of the
name of the object, or, if the object has no name, one that is smaller than the buffer.  Every
subscriber is at that of a node that has sent a subscription: under a name that finds the object,
or, if the empty name finds it, one that is smaller than the buffer.  And the record is that of no
other address. -/
theorem peers_heard [DecidableEq ι] {heaps : ι → Heap}
    (hallowed : ∀ i m c, setting.allowed i m c → LeavesPeers m c)
    (hheaps : ∀ i p, ((heaps i).topics p).publisherinfos = [] ∧
      ((heaps i).topics p).subscriberinfos = [])
    {trace : List (Network ι Node.Process Bytes × (ι × Node.Event))}
    {net : Network ι Node.Process Bytes}
    (r : Run (Network.Step (Acts setting)) (start heaps) trace net) {i : ι} {node : Node}
    {consumed : List InfoPtr} (hi : net.states i = .running node consumed) (p : TopicPtr) :
    (∀ info ∈ (node.topicManager.heap.topics p).publisherinfos, ∃ sender bytes message,
      (sender, bytes) ∈ net.sent ∧ Encodes bytes message ∧ message.kind = .discover ∧
      (∀ addr, info = publisherAt addr ↔ addr = setting.address sender) ∧
      ((∃ topic ∈ message.topics, topic.getName = (node.topicManager.heap.topics p).getName) ∨
        ((node.topicManager.heap.topics p).getName = [] ∧ message.size < IoInfo.bufferSize))) ∧
    (∀ info ∈ (node.topicManager.heap.topics p).subscriberinfos, ∃ sender bytes message,
      (sender, bytes) ∈ net.sent ∧ Encodes bytes message ∧ message.kind = .subscribe ∧
      (∀ addr, info = subscriberAt addr ↔ addr = setting.address sender) ∧
      ((∃ topic ∈ message.topics, p ∈ node.topicManager.getTopics topic.getName) ∨
        (p ∈ node.topicManager.getTopics [] ∧ message.size < IoInfo.bufferSize))) := by
  have hstart : ∀ i, PeersHeard setting ([] : List (ι × Message))
      (TopicManager.init (heaps i)) := by
    intro i
    refine ⟨fun p info hinfo => ?_, fun p info hinfo => ?_⟩
    · rw [show ((TopicManager.init (heaps i)).heap.topics p).publisherinfos = [] from
        (hheaps i p).1] at hinfo
      exact absurd hinfo List.not_mem_nil
    · rw [show ((TopicManager.init (heaps i)).heap.topics p).subscriberinfos = [] from
        (hheaps i p).2] at hinfo
      exact absurd hinfo List.not_mem_nil
  obtain ⟨log, hlog, -, hpeers⟩ := (peersHeard_kept hallowed).run hstart r
  have h := hpeers i node consumed hi
  refine ⟨fun info hinfo => ?_, fun info hinfo => ?_⟩
  · obtain ⟨sender, message, topic, hsent, hkind, hholds, hname, hat⟩ := h.publishers p info hinfo
    obtain ⟨⟨_, bytes⟩, hbytes, rfl, hencodes⟩ := (Network.exists_of_forall₂ hlog).2 _ hsent
    refine ⟨_, bytes, message, hbytes, hencodes, hkind,
      fun addr => hat ▸ publisherAt_injective.eq_iff.trans eq_comm, ?_⟩
    rcases hholds with hmem | ⟨rfl, hsize⟩
    · exact Or.inl ⟨topic, hmem, hname⟩
    · exact Or.inr ⟨hname.symm, hsize⟩
  · obtain ⟨sender, message, topic, hsent, hkind, hholds, hmem, hat⟩ := h.subscribers p info hinfo
    obtain ⟨⟨_, bytes⟩, hbytes, rfl, hencodes⟩ := (Network.exists_of_forall₂ hlog).2 _ hsent
    refine ⟨_, bytes, message, hbytes, hencodes, hkind,
      fun addr => hat ▸ subscriberAt_injective.eq_iff.trans eq_comm, ?_⟩
    rcases hholds with htopic | ⟨rfl, hsize⟩
    · exact Or.inl ⟨topic, htopic, hmem⟩
    · exact Or.inr ⟨hmem, hsize⟩

/-- The object that the second node of a pair makes of the announcement of the first one. -/
theorem peers_heard_pair : ∃ sender bytes message, Encodes bytes message ∧
    message.kind = .discover ∧
    (⟨(10, 0, 0, 1), (0, 80)⟩ : SockaddrIn) = (pair LeavesPeers).address sender := by
  have hcall : LeavesPeers (TopicManager.init (heapsA false))
      (.createPublishTopic [97] (some 0)) := fun t ht => Or.inl (by cases ht; rfl)
  obtain ⟨request, s, r, -, -, hs⟩ := exists_run_heard hcall
  obtain ⟨node, consumed, rfl, hafter⟩ := exists_running_of_topicsOf hs
  have hlisted : (node.topicManager.heap.topics 1).publisherinfos
      = [publisherAt ⟨(10, 0, 0, 1), (0, 80)⟩] := by
    obtain ⟨hnext, -, hlisted⟩ := Node.announce_heap ⟨(10, 0, 0, 1), (0, 80)⟩
      (TopicManager.init (heapsA true)) (nameItem (Topic.ofName [97]))
    have hgrown := grown_discover ⟨(10, 0, 0, 1), (0, 80)⟩
      ((List.replicate 2045 blank).map nameItem)
      (Node.announce ⟨(10, 0, 0, 1), (0, 80)⟩ (TopicManager.init (heapsA true))
        (nameItem (Topic.ofName [97])))
    rw [hafter, after_heardA, ← hlisted]
    exact congrArg Topic.publisherinfos (hgrown.objects 1 (by rw [hnext]; decide))
  obtain ⟨sender, bytes, message, -, hencodes, hkind, hat, -⟩ :=
    (peers_heard (fun _ _ _ h => h) (fun _ _ => ⟨rfl, rfl⟩) r
      (Network.move_states_self ..) 1).1
      (publisherAt ⟨(10, 0, 0, 1), (0, 80)⟩) (hlisted ▸ List.mem_cons_self)
  exact ⟨sender, bytes, message, hencodes, hkind, (hat _).mp rfl⟩

/-! ### Data -/

/-- The data were published under a name that finds the object, or are those of a blank item. -/
def Published (log : List (ι × Message)) (m : TopicManager) (p : TopicPtr) (data : Bytes) : Prop :=
  ∃ sender message topic, (sender, message) ∈ log ∧ message.kind = .publish ∧
    message.Holds topic ∧ topic.storage 0 = some data ∧ p ∈ m.getTopics topic.getName

/-- Some application has written the data, or they are those of a blank item. -/
def Original (Written : ι → Bytes → Prop) (data : Bytes) : Prop :=
  data = [] ∨ ∃ i, Written i data

structure DataHeard (Written : ι → Bytes → Prop) (log : List (ι × Message)) (i : ι)
    (m : TopicManager) : Prop where
  heard : ∀ p data, (m.heap.topics p).storage 0 = some data →
    Written i data ∨ Published log m p data
  original : ∀ p data, (m.heap.topics p).storage 0 = some data → Original Written data

/-- The call writes these data only. -/
def WritesData (Written : Bytes → Prop) (m : TopicManager) : Node.Call → Prop
  | .write heap => ∀ p, (heap.topics p).storage 0 = (m.heap.topics p).storage 0 ∨
    ∀ data, (heap.topics p).storage 0 = some data → Written data
  | _ => True

/-- The data of a message were written by some application. -/
def DataOriginal (Written : ι → Bytes → Prop) (x : ι × Message) : Prop :=
  ∀ topic ∈ x.2.topics, (x.2.kind = .publish → topic.storage 0 ≠ none) ∧
    ∀ data, topic.storage 0 = some data → Original Written data

variable {Written : ι → Bytes → Prop} {i : ι}

theorem Published.of_found {m' : TopicManager} {p : TopicPtr} {data : Bytes}
    (h : Published log m p data) (hfound : ∀ name, p ∈ m.getTopics name → p ∈ m'.getTopics name) :
    Published log m' p data := by
  obtain ⟨sender, message, topic, hsent, hkind, hholds, hstorage, hmem⟩ := h
  exact ⟨sender, message, topic, hsent, hkind, hholds, hstorage, hfound _ hmem⟩

theorem DataHeard.of_same {m' : TopicManager} (h : DataHeard Written log i m)
    (hobject : ∀ p, (m'.heap.topics p).storage 0 = (m.heap.topics p).storage 0 ∨
      ∀ data, (m'.heap.topics p).storage 0 = some data → Written i data)
    (hfound : ∀ p name, p ∈ m.getTopics name → p ∈ m'.getTopics name) :
    DataHeard Written log i m' where
  heard p data hdata := by
    rcases hobject p with hsame | hwritten
    · rw [hsame] at hdata
      exact (h.heard p data hdata).imp_right fun hpublished => hpublished.of_found (hfound p)
    · exact Or.inl (hwritten data hdata)
  original p data hdata := by
    rcases hobject p with hsame | hwritten
    · rw [hsame] at hdata
      exact h.original p data hdata
    · exact Or.inr ⟨i, hwritten data hdata⟩

theorem DataHeard.publishItem {item : TopicPacket} (h : DataHeard Written log i m)
    (hsent : ∀ p ∈ m.getTopics item.name.name, Published log m p item.data.data)
    (horiginal : Original Written item.data.data) :
    DataHeard Written log i (Node.publishItem m item) where
  heard p data hdata := by
    have hfound : ∀ name, p ∈ m.getTopics name → p ∈ (Node.publishItem m item).getTopics name :=
      fun _ hmem => mem_getTopics_publishItem hmem
    rw [Node.publishItem_topics] at hdata
    split at hdata
    · rename_i hmem
      rw [Topic.storage_setData_self] at hdata
      cases hdata
      exact Or.inr ((hsent p hmem).of_found hfound)
    · exact (h.heard p data hdata).imp_right fun hpublished => hpublished.of_found hfound
  original p data hdata := by
    rw [Node.publishItem_topics] at hdata
    split at hdata
    · rw [Topic.storage_setData_self] at hdata
      cases hdata
      exact horiginal
    · exact h.original p data hdata

theorem exists_original {x : ι × Message} (h : DataOriginal Written x) (hkind : x.2.kind = .publish)
    {topic : Topic} (hholds : x.2.Holds topic) :
    ∃ data, topic.storage 0 = some data ∧ Original Written data := by
  rcases hholds with hmem | hblank
  · obtain ⟨hsome, horiginal⟩ := h topic hmem
    obtain ⟨data, hdata⟩ := Option.ne_none_iff_exists'.mp (hsome hkind)
    exact ⟨data, hdata, horiginal data hdata⟩
  · rw [hblank.1]
    exact ⟨[], rfl, Or.inl rfl⟩

theorem dataHeard_kept (hallowed : ∀ i m c, setting.allowed i m c → WritesData (Written i) m c) :
    Kept setting (DataOriginal Written) (DataHeard Written) where
  mono h more := by
    refine ⟨fun p data hdata => (h.heard p data hdata).imp_right ?_, h.original⟩
    rintro ⟨sender, message, topic, hsent, hrest⟩
    exact ⟨sender, message, topic, List.mem_append_left _ hsent, hrest⟩
  reorder h hr := h.of_same (fun p => Or.inl (by rw [hr.heap]))
    fun p name hmem => (hr.mem_getTopics_iff name p).mp hmem
  discover {log i m sender message topic} h _ _ _ _ := by
    have hnone : ∀ p, p = m.heap.next → ∀ data, ¬ ((Node.announce (setting.address sender) m
        (nameItem topic)).heap.topics p).storage 0 = some data := by
      intro p hp data hdata
      rw [announce_topics, if_pos hp] at hdata
      cases hdata
    refine h.of_same (fun p => ?_) fun p name hmem => Node.mem_getTopics_announce _ hmem _
    by_cases hp : p = m.heap.next
    · exact Or.inr fun data hdata => absurd hdata (hnone p hp data)
    · rw [announce_topics, if_neg hp]
      exact Or.inl rfl
  publish {log i m sender message topic} h hsent hM hkind hholds := by
    obtain ⟨data, hstorage, horiginal⟩ := exists_original hM hkind hholds
    have hitem : (dataItem topic).data.data = data := by
      rw [dataItem, hstorage]
      rfl
    refine h.publishItem (fun p hmem => ?_) (hitem ▸ horiginal)
    rw [hitem]
    exact ⟨sender, message, topic, hsent, hkind, hholds, hstorage, hmem⟩
  subscribe h _ _ _ _ := by
    refine h.of_same (fun p => Or.inl ?_) fun _ _ hmem => hmem
    rw [Node.subscribeFrom_topics]
  createTopic {log i m name topic} h _ := by
    refine h.of_same (fun p => Or.inl ?_) fun p _ hmem => mem_getTopics_createTopic hmem
    rcases createTopic_object m name topic p with he | ⟨-, he⟩
    · rw [he]
    · rw [he]
      rfl
  createPublishTopic {log i m name topic} h _ := by
    refine h.of_same (fun p => Or.inl ?_) fun p _ hmem =>
      mem_getTopics_create hmem (m.createPublishTopic_topics name topic)
    rcases createPublishTopic_object m name topic p with he | ⟨-, he⟩
    · rw [he]
    · rw [he]
      rfl
  write h ha := h.of_same (hallowed _ _ _ ha) fun _ _ hmem => hmem
  sends {log i m message} h hsends := by
    obtain ⟨ptrs, htopics, hdata, -⟩ := hsends
    intro topic htopic
    rw [show message.topics = ptrs.map m.heap.topics from htopics] at htopic
    obtain ⟨p, hp, rfl⟩ := List.mem_map.mp htopic
    exact ⟨fun hk => hdata hk p hp, h.original p⟩

/-- **Data come from a publication that matches**, or from a blank item.  If the application of each
node writes data of `Written` only, then in every run of a domain the data under key 0 of an object
were written at its node; or were sent in a publication whose name finds the object there; or are
empty, the empty name finds the object, and a publication was smaller than the buffer.  In every
case some application has written them, or they are empty. -/
theorem data_heard [DecidableEq ι] {heaps : ι → Heap}
    (hallowed : ∀ i m c, setting.allowed i m c → WritesData (Written i) m c)
    (hheaps : ∀ i p data, ((heaps i).topics p).storage 0 = some data → Written i data)
    {trace : List (Network ι Node.Process Bytes × (ι × Node.Event))}
    {net : Network ι Node.Process Bytes}
    (r : Run (Network.Step (Acts setting)) (start heaps) trace net) {i : ι} {node : Node}
    {consumed : List InfoPtr} (hi : net.states i = .running node consumed) {p : TopicPtr}
    {data : Bytes} (hdata : (node.topicManager.heap.topics p).storage 0 = some data) :
    (Written i data ∨ ∃ sender bytes message, (sender, bytes) ∈ net.sent ∧ Encodes bytes message ∧
      message.kind = .publish ∧
      ((∃ topic ∈ message.topics, topic.storage 0 = some data ∧
          p ∈ node.topicManager.getTopics topic.getName) ∨
        (data = [] ∧ p ∈ node.topicManager.getTopics [] ∧ message.size < IoInfo.bufferSize))) ∧
    (data = [] ∨ ∃ j, Written j data) := by
  obtain ⟨log, hlog, -, hheard⟩ := (dataHeard_kept hallowed).run
    (fun i => ⟨fun p data h => Or.inl (hheaps i p data h),
      fun p data h => Or.inr ⟨i, hheaps i p data h⟩⟩) r
  have h := hheard i node consumed hi
  refine ⟨(h.heard p data hdata).imp_right ?_, h.original p data hdata⟩
  rintro ⟨sender, message, topic, hsent, hkind, hholds, hstorage, hmem⟩
  obtain ⟨⟨_, bytes⟩, hbytes, rfl, hencodes⟩ := (Network.exists_of_forall₂ hlog).2 _ hsent
  refine ⟨_, bytes, message, hbytes, hencodes, hkind, ?_⟩
  rcases hholds with htopic | ⟨rfl, hsize⟩
  · exact Or.inl ⟨topic, htopic, hstorage, hmem⟩
  · exact Or.inr ⟨(Option.some.inj hstorage).symm, hmem, hsize⟩

/-- Only the objects of the first node have data, `[1, 2]`. -/
def WrittenFirst (i : Bool) (data : Bytes) : Prop := i = false ∧ data = [1, 2]

/-- No application writes anything. -/
def WritesNothing (_ : TopicManager) : Node.Call → Prop
  | .write _ => False
  | _ => True

/-- The second node has them from a publication. -/
theorem data_heard_pair : ∃ trace net node consumed,
    Run (Network.Step (Acts (pair WritesNothing))) (start (heapsWith [1, 2])) trace net ∧
      net.states true = .running node consumed ∧
      (node.topicManager.heap.topics 0).storage 0 = some [1, 2] ∧
      ∃ sender bytes message, (sender, bytes) ∈ net.sent ∧ Encodes bytes message ∧
        message.kind = .publish := by
  obtain ⟨trace, net, node, consumed, r, hi, hdata⟩ := @exists_run_published [1, 2] WritesNothing
    (fun _ => trivial) (fun _ => trivial) (by decide) (by decide)
  have hallowed : ∀ i m c, (pair WritesNothing).allowed i m c →
      WritesData (WrittenFirst i) m c := by
    intro i m c hc
    cases c with
    | write heap => exact hc.elim
    | createTopic _ _ | createPublishTopic _ _ | publish _ _ | subscribe _ => exact trivial
  have hheaps : ∀ i p data, ((heapsWith [1, 2] i).topics p).storage 0 = some data →
      WrittenFirst i data := by
    intro i p data hsome
    cases i with
    | false => exact ⟨rfl, (Option.some.inj hsome).symm⟩
    | true => cases hsome
  rcases (data_heard hallowed hheaps r hi hdata).1 with hwritten | hsent
  · cases hwritten.1
  · obtain ⟨sender, bytes, message, hmem, hencodes, hkind, -⟩ := hsent
    exact ⟨trace, net, node, consumed, r, hi, hdata, sender, bytes, message, hmem, hencodes, hkind⟩

end Domain

end Mydds
