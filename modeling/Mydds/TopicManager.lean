import Mydds.Topic
import Mydds.Trie.Stored

/-!
# The class `TopicManager`

`include/topicmanager.h`: a trie of all topics, and two registries of the topics that
are published and subscribed to here.  The methods write through the pointers they are
given, so the heap of `Topic` objects is part of the state.  `Reorder` relates states that
differ in the iteration order of the unordered maps only.

The duplicate check of `insertTopic` reads the name as a pattern, and the insertion reads
it as a path.  Every path matches itself, so `get_split_of_getTopics` holds: where
the check finds nothing, nothing is stored at the path.  `get_insertTopic` is then
the exact effect of `insertTopic` on what is stored.
-/

namespace Mydds

open Lib

structure TopicManager where
  heap : Heap
  topics : Trie TopicPtr
  publishingTopics : UnorderedMap Bytes (Option TopicPtr)
  subscribingTopics : UnorderedMap Bytes (Option TopicPtr)

namespace TopicManager

/-- A new manager, in a process with these `Topic` objects. -/
def init (heap : Heap) : TopicManager := ⟨heap, Trie.empty, UnorderedMap.empty, UnorderedMap.empty⟩

/-- `topic->setName(name)` unless the pointer is null. -/
def rename (heap : Heap) (topic : Option TopicPtr) (name : Bytes) : Heap :=
  match topic with
  | none => heap
  | some ptr => heap.modify ptr (·.setName name)

def insertTopic (m : TopicManager) (name : Bytes) (topic : Option TopicPtr) :
    Option TopicPtr × TopicManager :=
  if (m.topics.find name).length ≠ 0 then (none, m)
  else (topic, { m with
    heap := rename m.heap topic name
    topics := m.topics.insert name topic })

def getTopics (m : TopicManager) (name : Bytes) : List TopicPtr :=
  if (m.topics.find name).length = 0 then [] else m.topics.find name

def eraseTopic (m : TopicManager) (name : Bytes) : TopicManager :=
  { m with topics := m.topics.erase name }

def createTopic (m : TopicManager) (name : Bytes) (topic : Option TopicPtr) :
    Bool × TopicManager :=
  if m.publishingTopics.count name then (false, m)
  else (true, (m.insertTopic name topic).2)

def createPublishTopic (m : TopicManager) (name : Bytes) (topic : Option TopicPtr) :
    Bool × TopicManager :=
  if m.publishingTopics.count name then (false, m)
  else
    let m := (m.insertTopic name topic).2
    (true, { m with publishingTopics := m.publishingTopics.assign name topic })

def createSubscribeTopic (m : TopicManager) (name : Bytes) (topic : Option TopicPtr) :
    Option TopicPtr × TopicManager :=
  if m.subscribingTopics.count name then (none, m)
  else
    let m := (m.insertTopic name topic).2
    (topic, { m with subscribingTopics := m.subscribingTopics.assign name topic })

def getAllPublishTopics (m : TopicManager) : List (Option TopicPtr) := m.publishingTopics.values

/-- The same state with its unordered maps in another order. -/
structure Reorder (m m' : TopicManager) : Prop where
  heap : m.heap = m'.heap
  topics : m.topics.Reorder m'.topics
  publishingTopics : m.publishingTopics.Reorder m'.publishingTopics
  subscribingTopics : m.subscribingTopics.Reorder m'.subscribingTopics

theorem Reorder.refl (m : TopicManager) : m.Reorder m :=
  ⟨rfl, Trie.Reorder.refl _, UnorderedMap.Reorder.refl _, UnorderedMap.Reorder.refl _⟩

/-! ### Lookups -/

theorem getTopics_eq (m : TopicManager) (name : Bytes) : m.getTopics name = m.topics.find name := by
  rw [getTopics]
  split
  · rename_i h
    exact (List.eq_nil_of_length_eq_zero h).symm
  · rfl

/-- **A lookup finds the topics whose paths match the name.** -/
theorem mem_getTopics_iff (m : TopicManager) (name : Bytes) (t : TopicPtr) :
    t ∈ m.getTopics name ↔ ∃ key, m.topics.get key = some t ∧
      wildMatch plus hash (Trie.split name slash) key = true := by
  rw [getTopics_eq]
  exact m.topics.mem_find_iff name t

theorem get_of_getTopics_nil {m : TopicManager} {name : Bytes} (h : m.getTopics name = [])
    {key : List Token} (hkey : wildMatch plus hash (Trie.split name slash) key = true) :
    m.topics.get key = none := by
  rw [Option.eq_none_iff_forall_not_mem]
  intro t ht
  have hmem : t ∈ m.getTopics name := (m.mem_getTopics_iff name t).mpr ⟨key, ht, hkey⟩
  rw [h] at hmem
  exact List.not_mem_nil hmem

theorem get_split_of_getTopics {m : TopicManager} {name : Bytes} (h : m.getTopics name = []) :
    m.topics.get (Trie.split name slash) = none :=
  get_of_getTopics_nil h (wildMatch_self _ _ _)

theorem mem_getTopics_of_get {m : TopicManager} {name : Bytes} {t : TopicPtr}
    (h : m.topics.get (Trie.split name slash) = some t) : t ∈ m.getTopics name :=
  (m.mem_getTopics_iff name t).mpr ⟨_, h, wildMatch_self _ _ _⟩

theorem getTopics_init (heap : Heap) (name : Bytes) : (init heap).getTopics name = [] := by
  refine List.eq_nil_iff_forall_not_mem.mpr fun t ht => ?_
  obtain ⟨key, hget, -⟩ := (mem_getTopics_iff _ name t).mp ht
  rw [init, Trie.get_empty] at hget
  cases hget

theorem Reorder.mem_getTopics_iff {m m' : TopicManager} (h : m.Reorder m') (name : Bytes)
    (t : TopicPtr) : t ∈ m.getTopics name ↔ t ∈ m'.getTopics name := by
  rw [m.mem_getTopics_iff, m'.mem_getTopics_iff]
  simp only [h.topics.get_eq]

/-! ### Insertion -/

theorem insertTopic_cases (m : TopicManager) (name : Bytes) (topic : Option TopicPtr) :
    (m.getTopics name ≠ [] ∧ m.insertTopic name topic = (none, m)) ∨
    (m.getTopics name = [] ∧ m.insertTopic name topic = (topic, { m with
      heap := rename m.heap topic name
      topics := m.topics.insert name topic })) := by
  rw [getTopics_eq, insertTopic]
  by_cases h : m.topics.find name = []
  · refine Or.inr ⟨h, ?_⟩
    rw [if_neg (by rw [h]; exact fun h => h rfl)]
  · refine Or.inl ⟨h, ?_⟩
    rw [if_pos (fun h0 => h (List.eq_nil_of_length_eq_zero h0))]

theorem insertTopic_of_found {m : TopicManager} {name : Bytes} (h : m.getTopics name ≠ [])
    (topic : Option TopicPtr) : m.insertTopic name topic = (none, m) := by
  rcases m.insertTopic_cases name topic with ⟨_, he⟩ | ⟨h0, _⟩
  · exact he
  · exact absurd h0 h

theorem insertTopic_of_absent {m : TopicManager} {name : Bytes} (h : m.getTopics name = [])
    (topic : Option TopicPtr) : (m.insertTopic name topic).2 = { m with
      heap := rename m.heap topic name
      topics := m.topics.insert name topic } := by
  rcases m.insertTopic_cases name topic with ⟨h0, _⟩ | ⟨_, he⟩
  · exact absurd h h0
  · rw [he]

@[simp] theorem insertTopic_publishingTopics (m : TopicManager) (name : Bytes)
    (topic : Option TopicPtr) :
    (m.insertTopic name topic).2.publishingTopics = m.publishingTopics := by
  rcases m.insertTopic_cases name topic with ⟨_, he⟩ | ⟨_, he⟩ <;> rw [he]

/-- **What `insertTopic` stores**: the topic at the path of the name, if the lookup found
nothing and the topic is not null, and nothing else. -/
theorem get_insertTopic (m : TopicManager) (name : Bytes) (topic : Option TopicPtr)
    (key : List Token) :
    (m.insertTopic name topic).2.topics.get key
      = if key = Trie.split name slash ∧ m.getTopics name = [] ∧ topic ≠ none then topic
        else m.topics.get key := by
  by_cases h : m.getTopics name = []
  · rw [insertTopic_of_absent h, Trie.get_insert]
    by_cases hkey : key = Trie.split name slash
    · cases topic with
      | none => rw [if_pos hkey, if_neg (fun hc => hc.2.2 rfl), hkey, get_split_of_getTopics h]
      | some t => rw [if_pos hkey, if_pos ⟨hkey, h, nofun⟩]
    · rw [if_neg hkey, if_neg (fun hc => hkey hc.1)]
  · rw [insertTopic_of_found h, if_neg (fun hc => h hc.2.1)]

theorem get_insertTopic_of_some {m : TopicManager} {key : List Token} {t : TopicPtr}
    (h : m.topics.get key = some t) (name : Bytes) (topic : Option TopicPtr) :
    (m.insertTopic name topic).2.topics.get key = some t := by
  rw [get_insertTopic, if_neg, h]
  rintro ⟨rfl, hnil, -⟩
  rw [get_split_of_getTopics hnil] at h
  cases h

theorem mem_getTopics_insertTopic {m : TopicManager} {name' : Bytes} {t : TopicPtr}
    (h : t ∈ m.getTopics name') (name : Bytes) (topic : Option TopicPtr) :
    t ∈ (m.insertTopic name topic).2.getTopics name' := by
  obtain ⟨key, hget, hmatch⟩ := (m.mem_getTopics_iff name' t).mp h
  exact (mem_getTopics_iff _ name' t).mpr ⟨key, get_insertTopic_of_some hget name topic, hmatch⟩

/-! ### The registering operations, on what is stored -/

theorem createTopic_topics (m : TopicManager) (name : Bytes) (topic : Option TopicPtr) :
    (m.createTopic name topic).2 = m ∨
      (m.createTopic name topic).2 = (m.insertTopic name topic).2 := by
  rw [createTopic]
  split
  · exact Or.inl rfl
  · exact Or.inr rfl

theorem createTopic_cases (m : TopicManager) (name : Bytes) (topic : Option TopicPtr) :
    ((m.publishingTopics.count name = true ∨ m.getTopics name ≠ []) ∧
      (m.createTopic name topic).2 = m) ∨
    (m.publishingTopics.count name = false ∧ m.getTopics name = [] ∧
      (m.createTopic name topic).2 = { m with
        heap := rename m.heap topic name
        topics := m.topics.insert name topic }) := by
  rw [createTopic]
  cases hcount : m.publishingTopics.count name with
  | true => exact Or.inl ⟨Or.inl rfl, rfl⟩
  | false =>
    rcases m.insertTopic_cases name topic with ⟨hfound, he⟩ | ⟨hnil, he⟩
    · exact Or.inl ⟨Or.inr hfound, congrArg Prod.snd he⟩
    · exact Or.inr ⟨rfl, hnil, congrArg Prod.snd he⟩

theorem createPublishTopic_topics (m : TopicManager) (name : Bytes) (topic : Option TopicPtr) :
    (m.createPublishTopic name topic).2.topics = m.topics ∨
      (m.createPublishTopic name topic).2.topics = (m.insertTopic name topic).2.topics := by
  rw [createPublishTopic]
  split
  · exact Or.inl rfl
  · exact Or.inr rfl

theorem createSubscribeTopic_topics (m : TopicManager) (name : Bytes) (topic : Option TopicPtr) :
    (m.createSubscribeTopic name topic).2.topics = m.topics ∨
      (m.createSubscribeTopic name topic).2.topics = (m.insertTopic name topic).2.topics := by
  rw [createSubscribeTopic]
  split
  · exact Or.inl rfl
  · exact Or.inr rfl

/-- **Registration never overwrites.**  The four registering operations leave every stored
topic where it is; `insertTopic` changes what is stored at exactly the path of the name, and
exactly when the lookup of the name found nothing and the topic is not null; `eraseTopic`
clears exactly the path of the name. -/
theorem registration_never_overwrites (m : TopicManager) (name : Bytes) (topic : Option TopicPtr) :
    (∀ key t, m.topics.get key = some t →
      (m.insertTopic name topic).2.topics.get key = some t ∧
      (m.createTopic name topic).2.topics.get key = some t ∧
      (m.createPublishTopic name topic).2.topics.get key = some t ∧
      (m.createSubscribeTopic name topic).2.topics.get key = some t) ∧
    (∀ key, (m.insertTopic name topic).2.topics.get key ≠ m.topics.get key ↔
      key = Trie.split name slash ∧ m.getTopics name = [] ∧ topic ≠ none) ∧
    (m.getTopics name = [] →
      (m.insertTopic name topic).2.topics.get (Trie.split name slash) = topic) ∧
    (∀ key, (m.eraseTopic name).topics.get key
      = if key = Trie.split name slash then none else m.topics.get key) := by
  refine ⟨fun key t h => ?_, fun key => ?_, fun hnil => ?_, fun key => m.topics.get_erase name key⟩
  · have hinsert := get_insertTopic_of_some h name topic
    refine ⟨hinsert, ?_, ?_, ?_⟩
    · rcases m.createTopic_topics name topic with he | he <;> rw [he]
      exacts [h, hinsert]
    · rcases m.createPublishTopic_topics name topic with he | he <;> rw [he]
      exacts [h, hinsert]
    · rcases m.createSubscribeTopic_topics name topic with he | he <;> rw [he]
      exacts [h, hinsert]
  · rw [get_insertTopic]
    constructor
    · intro hne
      by_contra hc
      exact hne (if_neg hc)
    · rintro ⟨rfl, hnil, hsome⟩
      rw [if_pos ⟨rfl, hnil, hsome⟩, get_split_of_getTopics hnil]
      exact hsome
  · rw [insertTopic_of_absent hnil, Trie.get_insert, if_pos rfl]

/-- A name with a wildcard: `"+"` is stored at its own path, and found there. -/
example :
    ((init ⟨fun _ => Topic.ofName [], 1⟩).insertTopic [43] (some 0)).2.getTopics [43] = [0] := by
  decide

end TopicManager

end Mydds
