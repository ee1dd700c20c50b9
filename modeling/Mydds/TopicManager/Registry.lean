import Mydds.TopicManager
import Mydds.Packet
import Mydds.Lib.Run

/-!
# The registry of published topics

`RegistryOk` is what the discovery message needs of `publishing_topics`: every entry is a
topic that is not null, bears the name it is registered under and is found under it.  Then
the message can be built and announces exactly the registered names
(`RegistryOk.announces`).

The operations do not keep it.  `create_publishTopic` registers a pointer whether or not
`insertTopic` has taken it, the null pointer included; `insertTopic` renames a topic that may be
registered under another name; `eraseTopic` does not touch the registry.  `KeepsRegistry`
is the condition under which an operation does none of this, in terms of the state before
it: `registryOk_apply_iff` is one step, `registryOk_run_iff` is a run.
-/

namespace Mydds.TopicManager

open Lib

/-- An operation of the class. -/
inductive Op where
  | insertTopic (name : Bytes) (topic : Option TopicPtr)
  | createTopic (name : Bytes) (topic : Option TopicPtr)
  | createPublishTopic (name : Bytes) (topic : Option TopicPtr)
  | createSubscribeTopic (name : Bytes) (topic : Option TopicPtr)
  | eraseTopic (name : Bytes)

def apply (m : TopicManager) : Op → TopicManager
  | .insertTopic name topic => (m.insertTopic name topic).2
  | .createTopic name topic => (m.createTopic name topic).2
  | .createPublishTopic name topic => (m.createPublishTopic name topic).2
  | .createSubscribeTopic name topic => (m.createSubscribeTopic name topic).2
  | .eraseTopic name => m.eraseTopic name

/-- An operation, after which the unordered maps are in any order. -/
def Step (m : TopicManager) (op : Op) (m' : TopicManager) : Prop := (m.apply op).Reorder m'

/-- Every published topic is there, bears its name and is found under it. -/
def RegistryOk (m : TopicManager) : Prop :=
  ∀ name topic, m.publishingTopics.find name = some topic →
    ∃ t, topic = some t ∧ (m.heap.topics t).getName = name ∧ t ∈ m.getTopics name

/-- A topic is published under no other name. -/
def NamedAlone (m : TopicManager) (name : Bytes) (t : TopicPtr) : Prop :=
  ∀ name', m.publishingTopics.find name' = some (some t) → name' = name

/-- If the name is free, the topic that would be renamed is published under no other. -/
def KeepsNames (m : TopicManager) (name : Bytes) (topic : Option TopicPtr) : Prop :=
  m.getTopics name = [] → ∀ t, topic = some t → m.NamedAlone name t

/-- The condition on a state and an operation, see `registryOk_apply_iff`. -/
def KeepsRegistry (m : TopicManager) : Op → Prop
  | .insertTopic name topic => m.KeepsNames name topic
  | .createTopic name topic => m.publishingTopics.find name = none → m.KeepsNames name topic
  | .createSubscribeTopic name topic =>
    m.subscribingTopics.find name = none → m.KeepsNames name topic
  | .createPublishTopic name topic => m.publishingTopics.find name = none →
    ∃ t, topic = some t ∧ ((m.getTopics name = [] ∧ m.NamedAlone name t) ∨
      (t ∈ m.getTopics name ∧ (m.heap.topics t).getName = name))
  | .eraseTopic name => ∀ name' t, m.publishingTopics.find name' = some (some t) →
    ∃ key, key ≠ Trie.split name slash ∧ m.topics.get key = some t ∧
      wildMatch plus hash (Trie.split name' slash) key = true

/-! ### The discovery message -/

/-- **The discovery message announces exactly the registered names**, without touching a
null pointer. -/
theorem RegistryOk.announces {m : TopicManager} (h : m.RegistryOk) :
    ∃ items, DDSPacket.nameItems m.heap m.getAllPublishTopics [] = .ok items ∧
      items.map (·.name) = m.publishingTopics.entries.map Prod.fst := by
  have hentries : ∀ e ∈ m.publishingTopics.entries,
      ∃ t, e.2 = some t ∧ (m.heap.topics t).getName = e.1 := by
    rintro ⟨name, topic⟩ he
    obtain ⟨t, ht, hname, -⟩ := h name topic (UnorderedMap.mem_entries_iff.mp he)
    exact ⟨t, ht, hname⟩
  have loop : ∀ (entries : List (Bytes × Option TopicPtr)) (data : List TopicName),
      (∀ e ∈ entries, ∃ t, e.2 = some t ∧ (m.heap.topics t).getName = e.1) →
      ∃ items, DDSPacket.nameItems m.heap (entries.map Prod.snd) data = .ok (data ++ items) ∧
        items.map (·.name) = entries.map Prod.fst := by
    intro entries
    induction entries with
    | nil => exact fun data _ => ⟨[], by rw [List.append_nil]; rfl, rfl⟩
    | cons e entries ih =>
      intro data hall
      obtain ⟨t, ht, hname⟩ := hall e List.mem_cons_self
      obtain ⟨items, hitems, hnames⟩ := ih (data ++ [⟨UInt32.ofNat (m.heap.topics t).getName.length,
        (m.heap.topics t).getName⟩]) fun e he => hall e (List.mem_cons_of_mem _ he)
      refine ⟨⟨UInt32.ofNat (m.heap.topics t).getName.length, (m.heap.topics t).getName⟩ :: items,
        ?_, by rw [List.map_cons, List.map_cons, hnames, hname]⟩
      rw [List.map_cons, ht, DDSPacket.nameItems, Heap.deref]
      exact hitems.trans (by rw [List.append_assoc, List.singleton_append])
  obtain ⟨items, hitems, hnames⟩ := loop m.publishingTopics.entries [] hentries
  exact ⟨items, hitems, hnames⟩

/-! ### One operation -/

theorem getName_rename (heap : Heap) (topic : Option TopicPtr) (name : Bytes) (t : TopicPtr) :
    ((rename heap topic name).topics t).getName
      = if topic = some t then name else (heap.topics t).getName := by
  cases topic with
  | none => rfl
  | some ptr =>
    rw [rename]
    by_cases ht : t = ptr
    · rw [ht, Heap.modify_topics_self, Topic.getName_setName, if_pos rfl]
    · rw [Heap.modify_topics_of_ne _ ht, if_neg (fun e => ht (Option.some.inj e).symm)]

theorem registryOk_congr {m m' : TopicManager}
    (hreg : ∀ name, m.publishingTopics.find name = m'.publishingTopics.find name)
    (hname : ∀ name t, m.publishingTopics.find name = some (some t) →
      ((m.heap.topics t).getName = name ↔ (m'.heap.topics t).getName = name))
    (hget : ∀ name t, m.publishingTopics.find name = some (some t) →
      (t ∈ m.getTopics name ↔ t ∈ m'.getTopics name)) : m.RegistryOk ↔ m'.RegistryOk := by
  constructor
  · intro h name topic hfind
    obtain ⟨t, rfl, h1, h2⟩ := h name topic ((hreg name).trans hfind)
    have hfind' := (hreg name).trans hfind
    exact ⟨t, rfl, (hname name t hfind').mp h1, (hget name t hfind').mp h2⟩
  · intro h name topic hfind
    obtain ⟨t, rfl, h1, h2⟩ := h name topic ((hreg name).symm.trans hfind)
    exact ⟨t, rfl, (hname name t hfind).mpr h1, (hget name t hfind).mpr h2⟩

theorem Reorder.registryOk_iff {m m' : TopicManager} (h : m.Reorder m') :
    m.RegistryOk ↔ m'.RegistryOk :=
  registryOk_congr h.publishingTopics.find_eq (fun _ _ _ => by rw [h.heap])
    (fun name t _ => h.mem_getTopics_iff name t)

theorem registryOk_insertTopic_iff {m : TopicManager} (h : m.RegistryOk) (name : Bytes)
    (topic : Option TopicPtr) :
    (m.insertTopic name topic).2.RegistryOk ↔ m.KeepsNames name topic := by
  constructor
  · rintro h' hnil t rfl name' hfind
    obtain ⟨t', ht', hname, -⟩ := h' name' (some t) (by rwa [insertTopic_publishingTopics])
    rw [insertTopic_of_absent hnil, getName_rename, if_pos ht'] at hname
    exact hname.symm
  · intro hkeep name' topic' hfind
    rw [insertTopic_publishingTopics] at hfind
    obtain ⟨t, rfl, hname, hmem⟩ := h name' topic' hfind
    refine ⟨t, rfl, ?_, mem_getTopics_insertTopic hmem name topic⟩
    by_cases hnil : m.getTopics name = []
    · rw [insertTopic_of_absent hnil, getName_rename]
      split
      · rename_i htopic
        exact (hkeep hnil t htopic name' hfind).symm
      · exact hname
    · rw [insertTopic_of_found hnil]
      exact hname

theorem count_eq_false_iff {m : UnorderedMap Bytes (Option TopicPtr)} {name : Bytes} :
    ¬ m.count name = true ↔ m.find name = none := by
  rw [UnorderedMap.count, Bool.not_eq_true, Option.isSome_eq_false_iff, Option.isNone_iff_eq_none]

/-- An operation that inserts the topic unless the name is in some registry. -/
theorem registryOk_register_iff {m m' : TopicManager} (h : m.RegistryOk)
    {registry : UnorderedMap Bytes (Option TopicPtr)} {name : Bytes} {topic : Option TopicPtr}
    (htaken : registry.count name = true → m' = m)
    (hfree : ¬ registry.count name = true →
      (m'.RegistryOk ↔ (m.insertTopic name topic).2.RegistryOk)) :
    m'.RegistryOk ↔ (registry.find name = none → m.KeepsNames name topic) := by
  by_cases hcount : registry.count name = true
  · rw [htaken hcount]
    refine iff_of_true h fun hnone => ?_
    exact absurd hcount (count_eq_false_iff.mpr hnone)
  · rw [hfree hcount, registryOk_insertTopic_iff h]
    exact ⟨fun hk _ => hk, fun hk => hk (count_eq_false_iff.mp hcount)⟩

theorem registryOk_createTopic_iff {m : TopicManager} (h : m.RegistryOk) (name : Bytes)
    (topic : Option TopicPtr) : (m.createTopic name topic).2.RegistryOk ↔
      (m.publishingTopics.find name = none → m.KeepsNames name topic) := by
  apply registryOk_register_iff h
  · intro hcount
    rw [createTopic, if_pos hcount]
  · intro hcount
    rw [createTopic, if_neg hcount]

theorem registryOk_createSubscribeTopic_iff {m : TopicManager} (h : m.RegistryOk) (name : Bytes)
    (topic : Option TopicPtr) : (m.createSubscribeTopic name topic).2.RegistryOk ↔
      (m.subscribingTopics.find name = none → m.KeepsNames name topic) := by
  apply registryOk_register_iff h
  · intro hcount
    rw [createSubscribeTopic, if_pos hcount]
  · intro hcount
    -- the registry it writes to is not looked at
    rw [createSubscribeTopic, if_neg hcount]
    exact Iff.rfl

theorem registered_insertTopic_iff (m : TopicManager) (name : Bytes) (t : TopicPtr) :
    (((m.insertTopic name (some t)).2.heap.topics t).getName = name ∧
      t ∈ (m.insertTopic name (some t)).2.getTopics name) ↔
    (m.getTopics name = [] ∨ (t ∈ m.getTopics name ∧ (m.heap.topics t).getName = name)) := by
  by_cases hnil : m.getTopics name = []
  · refine iff_of_true ⟨?_, mem_getTopics_of_get ?_⟩ (Or.inl hnil)
    · rw [insertTopic_of_absent hnil, getName_rename, if_pos rfl]
    · rw [insertTopic_of_absent hnil, Trie.get_insert, if_pos rfl]
  · rw [insertTopic_of_found hnil, or_iff_right hnil]
    exact and_comm

/-- **Publishing keeps the registry iff the topic is there and ends up under its name.** -/
theorem registryOk_createPublishTopic_iff {m : TopicManager} (h : m.RegistryOk) (name : Bytes)
    (topic : Option TopicPtr) : (m.createPublishTopic name topic).2.RegistryOk ↔
      m.KeepsRegistry (.createPublishTopic name topic) := by
  rw [createPublishTopic, KeepsRegistry]
  split
  · rename_i hcount
    refine iff_of_true h fun hnone => ?_
    exact absurd hcount (count_eq_false_iff.mpr hnone)
  rename_i hcount
  have hnone := count_eq_false_iff.mp hcount
  have hfind : ∀ name', ((m.insertTopic name topic).2.publishingTopics.assign name topic).find name'
      = if name = name' then some topic else m.publishingTopics.find name' := by
    intro name'
    rw [UnorderedMap.find_assign, insertTopic_publishingTopics]
  constructor
  · intro h' _
    obtain ⟨t, rfl, hname, hmem⟩ := h' name topic ((hfind name).trans (if_pos rfl))
    refine ⟨t, rfl, ?_⟩
    rcases (m.registered_insertTopic_iff name t).mp ⟨hname, hmem⟩ with hnil | hfound
    · refine Or.inl ⟨hnil, fun name' hpub => ?_⟩
      have hne : name ≠ name' := by
        intro he
        rw [← he, hnone] at hpub
        cases hpub
      -- the object has one name, and it is that of both entries
      obtain ⟨t', ht', hname', -⟩ :=
        h' name' (some t) (((hfind name').trans (if_neg hne)).trans hpub)
      rw [← Option.some.inj ht'] at hname'
      exact hname'.symm.trans hname
    · exact Or.inr hfound
  · intro hk name' topic' hpub
    obtain ⟨t, rfl, ht⟩ := hk hnone
    have hpub' := (hfind name').symm.trans hpub
    by_cases hne : name = name'
    · rw [if_pos hne] at hpub'
      obtain rfl := Option.some.inj hpub'
      subst hne
      obtain ⟨hname, hmem⟩ := (m.registered_insertTopic_iff name t).mpr (ht.imp And.left id)
      exact ⟨t, rfl, hname, hmem⟩
    · rw [if_neg hne] at hpub'
      have hkeep : m.KeepsNames name (some t) := by
        intro hnil t' ht'
        rw [← Option.some.inj ht']
        rcases ht with ⟨_, halone⟩ | ⟨hmem, _⟩
        · exact halone
        · rw [hnil] at hmem
          exact absurd hmem List.not_mem_nil
      exact (registryOk_insertTopic_iff h name (some t)).mpr hkeep name' topic'
        (by rwa [insertTopic_publishingTopics])

/-- **Erasure keeps the registry iff every published topic is stored elsewhere, too.** -/
theorem registryOk_eraseTopic_iff {m : TopicManager} (h : m.RegistryOk) (name : Bytes) :
    (m.eraseTopic name).RegistryOk ↔ m.KeepsRegistry (.eraseTopic name) := by
  constructor
  · intro h' name' t hpub
    obtain ⟨t', ht', -, hmem⟩ := h' name' (some t) hpub
    obtain rfl := Option.some.inj ht'
    obtain ⟨key, hget, hmatch⟩ := (mem_getTopics_iff _ name' t).mp hmem
    rw [eraseTopic, Trie.get_erase] at hget
    split at hget
    · cases hget
    · rename_i hkey
      exact ⟨key, hkey, hget, hmatch⟩
  · intro hk name' topic hpub
    obtain ⟨t, rfl, hname, -⟩ := h name' topic hpub
    obtain ⟨key, hkey, hget, hmatch⟩ := hk name' t hpub
    refine ⟨t, rfl, hname, (mem_getTopics_iff _ name' t).mpr ⟨key, ?_, hmatch⟩⟩
    rw [eraseTopic, Trie.get_erase, if_neg hkey]
    exact hget

theorem registryOk_apply_iff {m : TopicManager} (h : m.RegistryOk) (op : Op) :
    (m.apply op).RegistryOk ↔ m.KeepsRegistry op := by
  cases op with
  | insertTopic name topic => exact registryOk_insertTopic_iff h name topic
  | createTopic name topic => exact registryOk_createTopic_iff h name topic
  | createPublishTopic name topic => exact registryOk_createPublishTopic_iff h name topic
  | createSubscribeTopic name topic => exact registryOk_createSubscribeTopic_iff h name topic
  | eraseTopic name => exact registryOk_eraseTopic_iff h name

/-! ### Runs -/

theorem registryOk_init (heap : Heap) : (init heap).RegistryOk := by
  intro name topic hfind
  cases hfind

/-- What discovery needs of a state: the invariant, and with it a message that can be built
and announces exactly the registered names. -/
def Announceable (m : TopicManager) : Prop :=
  m.RegistryOk ∧ ∃ items, DDSPacket.nameItems m.heap m.getAllPublishTopics [] = .ok items ∧
    items.map (·.name) = m.publishingTopics.entries.map Prod.fst

theorem announceable_iff {m : TopicManager} : m.Announceable ↔ m.RegistryOk :=
  ⟨fun h => h.1, fun h => ⟨h, h.announces⟩⟩

/-- **The registry is announceable in every state of a run iff each of its operations meets
the condition in the state it starts in.** -/
theorem registryOk_run_iff {heap : Heap} {trace : List (TopicManager × Op)} {m : TopicManager}
    (r : Run Step (init heap) trace m) :
    ((∀ x ∈ trace, x.1.Announceable) ∧ m.Announceable) ↔ ∀ x ∈ trace, x.1.KeepsRegistry x.2 := by
  simp only [announceable_iff]
  refine r.always_iff (I := fun _ => True) (fun _ _ _ _ _ => trivial) (fun m op m' _ h hstep => ?_)
    trivial (registryOk_init heap)
  rw [← Reorder.registryOk_iff hstep]
  exact registryOk_apply_iff h op

/-- Publishing topic 0 as `"a"` in a new process. -/
theorem registryOk_run_iff_publish :
    ((init ⟨fun _ => Topic.ofName [], 1⟩).apply
      (.createPublishTopic [97] (some 0))).Announceable := by
  refine ((registryOk_run_iff (Run.single (Reorder.refl _))).mpr fun x hx => ?_).2
  rw [List.mem_singleton.mp hx]
  exact fun _ => ⟨0, rfl, Or.inl ⟨rfl, fun name' h => nomatch h⟩⟩

/-- Publishing the default, the null pointer, as `"a"`. -/
theorem registryOk_run_fails : ¬ ∀ (heap : Heap) (trace : List (TopicManager × Op))
    (m : TopicManager), Run Step (init heap) trace m → m.RegistryOk := by
  intro h
  have hm := h ⟨fun _ => Topic.ofName [], 1⟩ _ _
    (Run.single (i := Op.createPublishTopic [97] none) (Reorder.refl _))
  obtain ⟨t, ht, -⟩ := hm [97] none rfl
  cases ht

end Mydds.TopicManager
