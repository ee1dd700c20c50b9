import Mydds.Node.Publish
import Mydds.Lib.Run

/-!
# The effect of a `Publish` packet

The items of a packet are handled in order, and each writes the data of every topic that its
name finds.  None of them changes what is stored where, so a topic that is found by an item
would be found by it at any point of the loop (`DataOnly.publishItem`), and the last of those
that find it has its data there in the end.

`handlePacket_publish` is the effect of a whole packet: the data under key 0, by the rule above,
and nothing else.
-/

namespace Mydds.Node

open Lib

/-- The name, read as a pattern, matches a path that the topic is stored under. -/
def Finds (m : TopicManager) (item : TopicPacket) (p : TopicPtr) : Prop :=
  ∃ key, m.topics.get key = some p ∧
    wildMatch plus hash (Trie.split item.name.name slash) key = true

/-- The two topics differ in the data under key 0 only. -/
structure TopicDataOnly (topic topic' : Topic) : Prop where
  topicName : topic'.topicName = topic.topicName
  storage : ∀ key, key ≠ 0 → topic'.storage key = topic.storage key
  subscriberinfos : topic'.subscriberinfos = topic.subscriberinfos
  publisherinfos : topic'.publisherinfos = topic.publisherinfos

theorem TopicDataOnly.refl (topic : Topic) : TopicDataOnly topic topic :=
  ⟨rfl, fun _ _ => rfl, rfl, rfl⟩

theorem TopicDataOnly.setData {topic topic' : Topic} (h : TopicDataOnly topic topic')
    (data : Bytes) : TopicDataOnly topic (topic'.setData 0 data) := by
  refine ⟨h.topicName, fun key hkey => ?_, h.subscriberinfos, h.publisherinfos⟩
  rw [← h.storage key hkey]
  exact Function.update_of_ne hkey ..

/-- The two states differ in the data under key 0 only. -/
structure DataOnly (m m' : TopicManager) : Prop where
  topics : m'.topics = m.topics
  publishingTopics : m'.publishingTopics = m.publishingTopics
  subscribingTopics : m'.subscribingTopics = m.subscribingTopics
  next : m'.heap.next = m.heap.next
  heap : ∀ p, TopicDataOnly (m.heap.topics p) (m'.heap.topics p)

theorem DataOnly.refl (m : TopicManager) : DataOnly m m :=
  ⟨rfl, rfl, rfl, rfl, fun _ => TopicDataOnly.refl _⟩

/-- **One item changes data under key 0 only.** -/
theorem DataOnly.publishItem {m m' : TopicManager} (h : DataOnly m m') (item : TopicPacket) :
    DataOnly m (publishItem m' item) := by
  have hheap : ∀ p, TopicDataOnly (m.heap.topics p) ((Node.publishItem m' item).heap.topics p) := by
    intro p
    rw [publishItem_topics]
    split
    · exact (h.heap p).setData _
    · exact h.heap p
  rw [publishItem_eq] at hheap ⊢
  exact ⟨h.topics, h.publishingTopics, h.subscribingTopics,
    (Heap.foldl_modify_next _ _ _).trans h.next, hheap⟩

theorem DataOnly.mem_getTopics_iff {m m' : TopicManager} (h : DataOnly m m') (item : TopicPacket)
    (p : TopicPtr) : p ∈ m'.getTopics item.name.name ↔ Finds m item p := by
  rw [TopicManager.mem_getTopics_iff, h.topics]
  exact Iff.rfl

/-- **The effect of a `Publish` packet.**  The data under key 0 of a topic are those of the last
item that finds it, if there is one; nothing else changes. -/
theorem handlePacket_publish (info : IoInfo) (items : List TopicPacket) (m : TopicManager) :
    ∃ m', handlePacket info ⟨⟨CommunicationType.publish.toByte⟩, .publishData ⟨items⟩⟩ m = .ok m' ∧
      (∀ p pre item post, items = pre ++ item :: post → Finds m item p →
        (∀ later ∈ post, ¬ Finds m later p) →
        (m'.heap.topics p).storage 0 = some item.data.data) ∧
      (∀ p, (∀ item ∈ items, ¬ Finds m item p) →
        (m'.heap.topics p).storage 0 = (m.heap.topics p).storage 0) ∧
      DataOnly m m' := by
  have hinv : ∀ m' item, DataOnly m m' → DataOnly m (publishItem m' item) :=
    fun _ item h => h.publishItem item
  have hwrite : ∀ p m' item, DataOnly m m' → Finds m item p →
      ((publishItem m' item).heap.topics p).storage 0 = some item.data.data := by
    intro p m' item h hfinds
    rw [publishItem_topics, if_pos ((h.mem_getTopics_iff item p).mpr hfinds),
      Topic.storage_setData_self]
  have hkeep : ∀ p m' item, DataOnly m m' → ¬ Finds m item p →
      ((publishItem m' item).heap.topics p).storage 0 = (m'.heap.topics p).storage 0 := by
    intro p m' item h hfinds
    rw [publishItem_topics, if_neg fun hmem => hfinds ((h.mem_getTopics_iff item p).mp hmem)]
  refine ⟨items.foldl publishItem m, rfl, ?_, ?_, foldl_invariant hinv items m (DataOnly.refl m)⟩
  · intro p pre item post hitems hfinds hpost
    rw [hitems]
    exact foldl_lastWriter (fun m' => (m'.heap.topics p).storage 0)
      (fun item => some item.data.data) hinv (hwrite p) (hkeep p) pre hfinds hpost (DataOnly.refl m)
  · intro p hno
    exact foldl_keeps (fun m' => (m'.heap.topics p).storage 0) hinv (hkeep p) hno m
      (DataOnly.refl m)

end Mydds.Node
