import Mydds.Domain.Invariant

/-!
# Where the names come from

A name reaches a node as the bytes of a packet, possibly cut off, padded, late, twice or from the
node itself, and it is stored, announced and sent on under the name of an object.  `names_given`
says that all the same no name is made up: a name that some node knows has been given by the
application of a node, or is the empty name of a blank item.
-/

namespace Mydds

open Lib

namespace Domain

/-! ### The objects -/

theorem announce_topics (addr : SockaddrIn) (m : TopicManager) (item : TopicName) (p : TopicPtr) :
    (Node.announce addr m item).heap.topics p
      = if p = m.heap.next then ⟨item.name, fun _ => none, [], [publisherAt addr]⟩
        else m.heap.topics p := by
  rw [Node.announce_heap_eq]
  by_cases hp : p = m.heap.next
  · rw [if_pos hp, hp, Node.announceHeap_topics_next]
  · rw [if_neg hp, Node.announceHeap, Heap.modify_topics_of_ne _ hp]
    exact Function.update_of_ne hp ..

theorem insertTopic_object (m : TopicManager) (name : Bytes) (topic : Option TopicPtr)
    (p : TopicPtr) : (m.insertTopic name topic).2.heap.topics p = m.heap.topics p ∨
      (topic = some p ∧
        (m.insertTopic name topic).2.heap.topics p = (m.heap.topics p).setName name) := by
  rcases m.insertTopic_cases name topic with ⟨-, he⟩ | ⟨-, he⟩
  · exact Or.inl (by rw [he])
  · rw [he]
    cases topic with
    | none => exact Or.inl rfl
    | some t =>
      dsimp only [TopicManager.rename]
      by_cases hp : p = t
      · subst hp
        exact Or.inr ⟨rfl, Heap.modify_topics_self ..⟩
      · exact Or.inl (Heap.modify_topics_of_ne _ hp _)

theorem createTopic_object (m : TopicManager) (name : Bytes) (topic : Option TopicPtr)
    (p : TopicPtr) : (m.createTopic name topic).2.heap.topics p = m.heap.topics p ∨
      (topic = some p ∧
        (m.createTopic name topic).2.heap.topics p = (m.heap.topics p).setName name) := by
  rcases m.createTopic_topics name topic with he | he
  · exact Or.inl (by rw [he])
  · rw [he]
    exact insertTopic_object m name topic p

theorem createPublishTopic_object (m : TopicManager) (name : Bytes) (topic : Option TopicPtr)
    (p : TopicPtr) : (m.createPublishTopic name topic).2.heap.topics p = m.heap.topics p ∨
      (topic = some p ∧
        (m.createPublishTopic name topic).2.heap.topics p = (m.heap.topics p).setName name) := by
  rw [TopicManager.createPublishTopic]
  split
  · exact Or.inl rfl
  · exact insertTopic_object m name topic p

/-! ### Names -/

/-- The names of the objects, of the stored paths and of the published topics are all right. -/
structure NamesOk (Ok : Bytes → Prop) (m : TopicManager) : Prop where
  object : ∀ p, Ok (m.heap.topics p).getName
  stored : ∀ key t, m.topics.get key = some t → ∃ name, Ok name ∧ key = Trie.split name slash
  published : ∀ name topic, m.publishingTopics.find name = some topic → Ok name

variable {Ok : Bytes → Prop} {m : TopicManager}

theorem namesOk_init {heap : Heap} (h : ∀ p, Ok (heap.topics p).getName) :
    NamesOk Ok (TopicManager.init heap) := by
  refine ⟨h, fun key t hget => ?_, fun name topic hfind => ?_⟩
  · rw [TopicManager.init, Trie.get_empty] at hget
    cases hget
  · cases hfind

theorem NamesOk.reorder {m' : TopicManager} (h : NamesOk Ok m) (hr : m.Reorder m') :
    NamesOk Ok m' where
  object := hr.heap ▸ h.object
  stored key t hget := h.stored key t ((hr.topics.get_eq key).trans hget)
  published name topic hfind :=
    h.published name topic ((hr.publishingTopics.find_eq name).trans hfind)

theorem NamesOk.announce (h : NamesOk Ok m) (addr : SockaddrIn) {item : TopicName}
    (hname : Ok item.name) : NamesOk Ok (Node.announce addr m item) where
  object p := by
    rw [announce_topics]
    split
    · exact hname
    · exact h.object p
  stored key t hget := by
    rcases Node.announce_cases addr m item with ⟨-, he⟩ | ⟨-, -, he⟩
    · exact h.stored key t (he ▸ hget)
    · rw [he, Trie.get_insert] at hget
      split at hget
      · rename_i hkey
        exact ⟨item.name, hname, hkey⟩
      · exact h.stored key t hget
  published name topic hfind := by
    rw [(Node.announce_registries addr m item).1] at hfind
    exact h.published name topic hfind

theorem NamesOk.withHeap (h : NamesOk Ok m) {heap : Heap}
    (hheap : ∀ p, Ok (heap.topics p).getName) : NamesOk Ok { m with heap } :=
  ⟨hheap, h.stored, h.published⟩

theorem NamesOk.publishItem (h : NamesOk Ok m) (item : TopicPacket) :
    NamesOk Ok (Node.publishItem m item) := by
  have hname : ∀ p, Ok ((Node.publishItem m item).heap.topics p).getName := by
    intro p
    rw [Node.publishItem_topics]
    split
    · exact h.object p
    · exact h.object p
  rw [Node.publishItem_eq] at hname ⊢
  exact h.withHeap hname

theorem NamesOk.subscribeFrom (h : NamesOk Ok m) (addr : SockaddrIn) (item : TopicName) :
    NamesOk Ok (Node.subscribeFrom addr m item) :=
  h.withHeap fun p => by
    have hobject := Node.subscribeFrom_topics addr m item p
    rw [Node.subscribeFrom] at hobject
    rw [hobject]
    exact h.object p

theorem NamesOk.insertTopic (h : NamesOk Ok m) {name : Bytes} (hname : Ok name)
    (topic : Option TopicPtr) : NamesOk Ok (m.insertTopic name topic).2 where
  object p := by
    rcases insertTopic_object m name topic p with he | ⟨-, he⟩
    · rw [he]
      exact h.object p
    · rw [he]
      exact hname
  stored key t hget := by
    rw [TopicManager.get_insertTopic] at hget
    split at hget
    · rename_i hkey
      exact ⟨name, hname, hkey.1⟩
    · exact h.stored key t hget
  published name' topic' hfind := by
    rw [TopicManager.insertTopic_publishingTopics] at hfind
    exact h.published name' topic' hfind

theorem NamesOk.createPublishTopic (h : NamesOk Ok m) {name : Bytes} (hname : Ok name)
    (topic : Option TopicPtr) : NamesOk Ok (m.createPublishTopic name topic).2 := by
  rw [TopicManager.createPublishTopic]
  split
  · exact h
  · have hinsert := h.insertTopic hname topic
    refine ⟨hinsert.object, hinsert.stored, fun name' topic' hfind => ?_⟩
    rw [UnorderedMap.find_assign] at hfind
    split at hfind
    · rename_i hsame
      exact hsame ▸ hname
    · exact hinsert.published name' topic' hfind

/-! ### A domain -/

variable {ι : Type} {setting : Setting ι}

/-- The call gives names of these only, to objects that it writes or registers. -/
def Gives (Given : Bytes → Prop) (m : TopicManager) : Node.Call → Prop
  | .createTopic topicName _ => Given topicName
  | .createPublishTopic topicName _ => Given topicName
  | .write heap => ∀ p, Given (heap.topics p).getName ∨
      (heap.topics p).getName = (m.heap.topics p).getName
  | .publish _ _ => True
  | .subscribe _ => True

/-- The name has been given, or is that of a blank item. -/
def Genuine (Given : Bytes → Prop) (name : Bytes) : Prop := Given name ∨ name = []

theorem namesOk_kept {Given : Bytes → Prop}
    (hallowed : ∀ i m c, setting.allowed i m c → Gives Given m c) :
    Kept setting (fun x => ∀ topic ∈ x.2.topics, Genuine Given topic.getName)
      (fun _ _ m => NamesOk (Genuine Given) m) := by
  have hholds : ∀ {message : Message} {topic : Topic},
      (∀ topic ∈ message.topics, Genuine Given topic.getName) → message.Holds topic →
      Genuine Given topic.getName := by
    rintro message topic hM (hmem | ⟨rfl, -⟩)
    · exact hM topic hmem
    · exact Or.inr rfl
  refine ⟨fun h _ => h, fun h => h.reorder, fun h _ hM _ ht => h.announce _ (hholds hM ht),
    fun h _ _ _ _ => h.publishItem _, fun h _ _ _ _ => h.subscribeFrom _ _, fun h ha => ?_,
    fun h ha => h.createPublishTopic (Or.inl (hallowed _ _ _ ha)) _, fun h ha => ?_,
    fun h hsends => ?_⟩
  · rename_i m name topic
    have hname : Genuine Given name := Or.inl (hallowed _ _ _ ha)
    rcases m.createTopic_topics name topic with he | he
    · rw [he]
      exact h
    · rw [he]
      exact h.insertTopic hname topic
  · refine h.withHeap fun p => ?_
    rcases hallowed _ _ _ ha p with hgiven | hsame
    · exact Or.inl hgiven
    · rw [hsame]
      exact h.object p
  · obtain ⟨ptrs, htopics, -⟩ := hsends
    intro topic htopic
    rw [htopics] at htopic
    obtain ⟨p, -, rfl⟩ := List.mem_map.mp htopic
    exact h.object p

/-- **No name out of thin air.**  If the applications give names of `Given` only, then in every run
of a domain, whatever becomes of the datagrams, every object, every stored path and every published
topic of every node bears a name of `Given`, or the empty name; and so does every topic of every
message that is sent. -/
theorem names_given [DecidableEq ι] {Given : Bytes → Prop} {heaps : ι → Heap}
    (hallowed : ∀ i m c, setting.allowed i m c → Gives Given m c)
    (hheaps : ∀ i p, Genuine Given ((heaps i).topics p).getName)
    {trace : List (Network ι Node.Process Bytes × (ι × Node.Event))}
    {net : Network ι Node.Process Bytes}
    (r : Run (Network.Step (Acts setting)) (start heaps) trace net) :
    (∀ i node consumed, net.states i = .running node consumed →
      (∀ p, Genuine Given (node.topicManager.heap.topics p).getName) ∧
      (∀ key t, node.topicManager.topics.get key = some t →
        ∃ name, Genuine Given name ∧ key = Trie.split name slash) ∧
      (∀ name topic, node.topicManager.publishingTopics.find name = some topic →
        Genuine Given name)) ∧
    ∀ i bytes, (i, bytes) ∈ net.sent → ∃ message, Encodes bytes message ∧
      ∀ topic ∈ message.topics, Genuine Given topic.getName := by
  obtain ⟨log, hlog, hM, hnames⟩ :=
    (namesOk_kept hallowed).run (fun i => namesOk_init (hheaps i)) r
  refine ⟨fun i node consumed hi => ?_, fun i bytes hsent => ?_⟩
  · have h := hnames i node consumed hi
    exact ⟨h.object, h.stored, h.published⟩
  · obtain ⟨⟨j, message⟩, hmem, -, hencodes⟩ := (Network.exists_of_forall₂ hlog).1 _ hsent
    exact ⟨message, hencodes, hM _ hmem⟩

/-- The applications of a pair only know the name `"a"`: the second node, too, stores it. -/
theorem names_given_pair : ∃ trace net node consumed,
    Run (Network.Step (Acts (pair (Gives fun name => name = [97])))) (start heapsA) trace net ∧
      trace.length = 3 ∧ net.states true = .running node consumed ∧ (false, [0, 1, 97]) ∈ net.sent ∧
      ∀ p, Genuine (fun name => name = [97]) (node.topicManager.heap.topics p).getName := by
  obtain ⟨request, s, r, -, -, htopics⟩ := @exists_run_heard (Gives fun name => name = [97]) rfl
  obtain ⟨node, consumed, rfl, -⟩ := exists_running_of_topicsOf htopics
  have hheaps : ∀ i p, Genuine (fun name => name = [97]) ((heapsA i).topics p).getName := by
    intro i p
    cases i with
    | false => exact Or.inl rfl
    | true => exact Or.inr rfl
  have hnames := names_given (fun _ _ _ h => h) hheaps r
  have hi : (announcedPair.move true (.running node consumed) []).states true
      = .running node consumed := Network.move_states_self ..
  exact ⟨_, _, node, consumed, r, rfl, hi, List.mem_append_left _ sent_announcedPair,
    (hnames.1 true node consumed hi).1⟩

end Domain

end Mydds
