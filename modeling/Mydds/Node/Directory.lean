import Mydds.Node.Order

/-!
# What a node keeps about its topics

A `Directory` is what the application and the network see of a `TopicManager`: the objects, a
finite map from paths to them that is searched with wildcards, and two registries, which are partial
functions.  There are no trie nodes, hash maps and iteration orders in it, and what happens to it is
a function of the input: a name is registered if a search for it finds nothing, an announcement adds
an object, a publication writes to all that a search finds, and a subscription is noted there.

`directory_refined` says that the class and the handlers of a node do just that, over whole runs,
with the same answers to all calls.
-/

namespace Mydds

open Lib

structure Directory where
  objects : TopicPtr → Topic
  next : TopicPtr
  stored : WildMap Token TopicPtr
  publishing : Bytes → Option (Option TopicPtr)
  subscribing : Bytes → Option (Option TopicPtr)

/-- What a call returns. -/
inductive Answer where
  | nothing
  | done (ret : Bool)
  | topic (ret : Option TopicPtr)
  deriving DecidableEq, Repr

namespace Directory

/-- A directory of these objects, none of which is registered. -/
def empty (heap : Heap) : Directory :=
  ⟨heap.topics, heap.next, ∅, fun _ => none, fun _ => none⟩

/-- The objects that are stored under the paths that match the name. -/
def search (d : Directory) (name : Bytes) : Multiset TopicPtr :=
  d.stored.search plus hash (Trie.split name slash)

/-- The object gets the name, and is stored under it. -/
def place (d : Directory) (name : Bytes) (topic : Option TopicPtr) : Directory :=
  { d with
    objects := fun p => if topic = some p then (d.objects p).setName name else d.objects p
    stored := d.stored.store (Trie.split name slash) topic }

/-- It is placed if nothing is found under the name. -/
def register (d : Directory) (name : Bytes) (topic : Option TopicPtr) : Directory :=
  if d.search name = 0 then d.place name topic else d

/-- A new object of this name lists the announcer; it is registered unless the name is published
here. -/
def announce (addr : SockaddrIn) (d : Directory) (item : TopicName) : Directory :=
  let d' := { d with
    objects := Function.update d.objects d.next ⟨item.name, fun _ => none, [], [publisherAt addr]⟩
    next := d.next + 1 }
  if d.publishing item.name = none then d'.register item.name (some d.next) else d'

/-- All that is found gets the data. -/
def deliver (d : Directory) (item : TopicPacket) : Directory :=
  { d with objects := fun p =>
      if p ∈ d.search item.name.name then (d.objects p).setData 0 item.data.data else d.objects p }

/-- All that is found lists the subscriber, once for each path. -/
def enlist (addr : SockaddrIn) (d : Directory) (item : TopicName) : Directory :=
  { d with objects := fun p => { d.objects p with
      subscriberinfos := (d.objects p).subscriberinfos
        ++ List.replicate ((d.search item.name).count p) (subscriberAt addr) } }

def createTopic (d : Directory) (name : Bytes) (topic : Option TopicPtr) : Bool × Directory :=
  if d.publishing name = none then (true, d.register name topic) else (false, d)

def createPublishTopic (d : Directory) (name : Bytes) (topic : Option TopicPtr) :
    Bool × Directory :=
  if d.publishing name = none then
    (true, { d.register name topic with
      publishing := Function.update d.publishing name (some topic) })
  else (false, d)

def createSubscribeTopic (d : Directory) (name : Bytes) (topic : Option TopicPtr) :
    Option TopicPtr × Directory :=
  if d.subscribing name = none then
    (topic, { d.register name topic with
      subscribing := Function.update d.subscribing name (some topic) })
  else (none, d)

/-- An input, and its answer. -/
def take (d : Directory) : TopicManager.Input → Answer × Directory
  | .op (.insertTopic name topic) =>
    (.topic (if d.search name = 0 then topic else none), d.register name topic)
  | .op (.createTopic name topic) | .event (.createTopic name topic) =>
    (d.createTopic name topic).map .done id
  | .op (.createPublishTopic name topic) | .event (.createPublishTopic name topic) =>
    (d.createPublishTopic name topic).map .done id
  | .op (.createSubscribeTopic name topic) | .event (.createSubscribeTopic name topic) =>
    (d.createSubscribeTopic name topic).map .topic id
  | .op (.eraseTopic name) =>
    (.nothing, { d with stored := d.stored.store (Trie.split name slash) none })
  | .event (.discover addr items) => (.nothing, items.foldl (announce addr) d)
  | .event (.publish _ items) => (.nothing, items.foldl deliver d)
  | .event (.subscribe addr items) => (.nothing, items.foldl (enlist addr) d)
  | .event (.write heap) => (.nothing, { d with objects := heap.topics, next := heap.next })

/-- After inputs that come one after another. -/
def afterAll (d : Directory) (inputs : List TopicManager.Input) : Directory :=
  inputs.foldl (fun d input => (d.take input).2) d

/-- The answers to them. -/
def answers : Directory → List TopicManager.Input → List Answer
  | _, [] => []
  | d, input :: inputs => (d.take input).1 :: (d.take input).2.answers inputs

end Directory

namespace TopicManager

/-- What the class returns. -/
def answer (m : TopicManager) : Input → Answer
  | .op (.insertTopic name topic) => .topic (m.insertTopic name topic).1
  | .op (.createTopic name topic) | .event (.createTopic name topic) =>
    .done (m.createTopic name topic).1
  | .op (.createPublishTopic name topic) | .event (.createPublishTopic name topic) =>
    .done (m.createPublishTopic name topic).1
  | .op (.createSubscribeTopic name topic) | .event (.createSubscribeTopic name topic) =>
    .topic (m.createSubscribeTopic name topic).1
  | _ => .nothing

def toDirectory (m : TopicManager) : Directory where
  objects := m.heap.topics
  next := m.heap.next
  stored := m.topics.toMap
  publishing := m.publishingTopics.find
  subscribing := m.subscribingTopics.find

variable {m m' : TopicManager}

/-! ### Searches and registrations -/

/-- **A lookup is a search of the directory.** -/
theorem getTopics_toDirectory (m : TopicManager) (name : Bytes) :
    (m.getTopics name : Multiset TopicPtr) = m.toDirectory.search name := by
  rw [getTopics_eq, Trie.find_toMap]
  rfl

theorem search_eq_zero_iff (m : TopicManager) (name : Bytes) :
    m.toDirectory.search name = 0 ↔ m.getTopics name = [] := by
  rw [← getTopics_toDirectory, Multiset.coe_eq_zero]

theorem mem_search_iff (m : TopicManager) (name : Bytes) (p : TopicPtr) :
    p ∈ m.toDirectory.search name ↔ p ∈ m.getTopics name := by
  rw [← getTopics_toDirectory, Multiset.mem_coe]

theorem count_search (m : TopicManager) (name : Bytes) (p : TopicPtr) :
    (m.toDirectory.search name).count p = (m.getTopics name).count p := by
  rw [← getTopics_toDirectory, Multiset.coe_count]

theorem Reorder.toDirectory_eq (h : m.Reorder m') : m.toDirectory = m'.toDirectory := by
  rw [toDirectory, toDirectory, h.heap, Trie.Reorder.toMap_eq h.topics,
    funext h.publishingTopics.find_eq, funext h.subscribingTopics.find_eq]

theorem count_eq_true_iff {registry : UnorderedMap Bytes (Option TopicPtr)} {name : Bytes} :
    registry.count name = true ↔ ¬ registry.find name = none := by
  rw [UnorderedMap.count, Option.isSome_iff_ne_none]

theorem find_assign_eq (registry : UnorderedMap Bytes (Option TopicPtr)) (name : Bytes)
    (topic : Option TopicPtr) :
    (registry.assign name topic).find = Function.update registry.find name (some topic) := by
  funext key
  rw [UnorderedMap.find_assign]
  by_cases hkey : name = key
  · rw [if_pos hkey, hkey, Function.update_self]
  · rw [if_neg hkey, Function.update_of_ne (Ne.symm hkey)]

theorem rename_objects (heap : Heap) (topic : Option TopicPtr) (name : Bytes) :
    (rename heap topic name).topics = (fun p => if topic = some p then
      (heap.topics p).setName name else heap.topics p) ∧
    (rename heap topic name).next = heap.next := by
  cases topic with
  | none => exact ⟨rfl, rfl⟩
  | some t =>
    refine ⟨funext fun p => ?_, rfl⟩
    rw [rename]
    by_cases hp : t = p
    · rw [hp, if_pos rfl, Heap.modify_topics_self]
    · rw [if_neg fun h => hp (Option.some.inj h), Heap.modify_topics_of_ne _ (Ne.symm hp)]

theorem toDirectory_insertTopic (m : TopicManager) (name : Bytes) (topic : Option TopicPtr) :
    (m.insertTopic name topic).1
        = (if m.toDirectory.search name = 0 then topic else none) ∧
      (m.insertTopic name topic).2.toDirectory = m.toDirectory.register name topic := by
  rw [Directory.register]
  rcases m.insertTopic_cases name topic with ⟨hfound, he⟩ | ⟨hnil, he⟩
  · have hsearch : ¬ m.toDirectory.search name = 0 := fun h =>
      hfound ((m.search_eq_zero_iff name).mp h)
    rw [he, if_neg hsearch, if_neg hsearch]
    exact ⟨rfl, rfl⟩
  · have hsearch := (m.search_eq_zero_iff name).mpr hnil
    obtain ⟨hobjects, hnext⟩ := rename_objects m.heap topic name
    rw [he, if_pos hsearch, if_pos hsearch, toDirectory]
    dsimp only
    rw [hobjects, hnext, Trie.toMap_insert]
    exact ⟨rfl, rfl⟩

theorem toDirectory_createTopic (m : TopicManager) (name : Bytes) (topic : Option TopicPtr) :
    (m.createTopic name topic).1 = (m.toDirectory.createTopic name topic).1 ∧
      (m.createTopic name topic).2.toDirectory = (m.toDirectory.createTopic name topic).2 := by
  rw [createTopic, Directory.createTopic]
  by_cases hcount : m.publishingTopics.count name = true
  · have hsome : ¬ m.toDirectory.publishing name = none := count_eq_true_iff.mp hcount
    rw [if_pos hcount, if_neg hsome]
    exact ⟨rfl, rfl⟩
  · have hnone : m.toDirectory.publishing name = none :=
      not_not.mp fun h => hcount (count_eq_true_iff.mpr h)
    rw [if_neg hcount, if_pos hnone]
    exact ⟨rfl, (m.toDirectory_insertTopic name topic).2⟩

theorem toDirectory_createPublishTopic (m : TopicManager) (name : Bytes)
    (topic : Option TopicPtr) :
    (m.createPublishTopic name topic).1 = (m.toDirectory.createPublishTopic name topic).1 ∧
      (m.createPublishTopic name topic).2.toDirectory
        = (m.toDirectory.createPublishTopic name topic).2 := by
  rw [createPublishTopic, Directory.createPublishTopic]
  by_cases hcount : m.publishingTopics.count name = true
  · have hsome : ¬ m.toDirectory.publishing name = none := count_eq_true_iff.mp hcount
    rw [if_pos hcount, if_neg hsome]
    exact ⟨rfl, rfl⟩
  · have hnone : m.toDirectory.publishing name = none :=
      not_not.mp fun h => hcount (count_eq_true_iff.mpr h)
    rw [if_neg hcount, if_pos hnone]
    refine ⟨rfl, ?_⟩
    dsimp only
    rw [← (m.toDirectory_insertTopic name topic).2, toDirectory, find_assign_eq,
      insertTopic_publishingTopics]
    rfl

theorem insertTopic_subscribingTopics (m : TopicManager) (name : Bytes)
    (topic : Option TopicPtr) :
    (m.insertTopic name topic).2.subscribingTopics = m.subscribingTopics := by
  rcases m.insertTopic_cases name topic with ⟨-, he⟩ | ⟨-, he⟩ <;> rw [he]

theorem toDirectory_createSubscribeTopic (m : TopicManager) (name : Bytes)
    (topic : Option TopicPtr) :
    (m.createSubscribeTopic name topic).1 = (m.toDirectory.createSubscribeTopic name topic).1 ∧
      (m.createSubscribeTopic name topic).2.toDirectory
        = (m.toDirectory.createSubscribeTopic name topic).2 := by
  rw [createSubscribeTopic, Directory.createSubscribeTopic]
  by_cases hcount : m.subscribingTopics.count name = true
  · have hsome : ¬ m.toDirectory.subscribing name = none := count_eq_true_iff.mp hcount
    rw [if_pos hcount, if_neg hsome]
    exact ⟨rfl, rfl⟩
  · have hnone : m.toDirectory.subscribing name = none :=
      not_not.mp fun h => hcount (count_eq_true_iff.mpr h)
    rw [if_neg hcount, if_pos hnone]
    refine ⟨rfl, ?_⟩
    dsimp only
    rw [← (m.toDirectory_insertTopic name topic).2, toDirectory, find_assign_eq,
      insertTopic_subscribingTopics]
    rfl

theorem toDirectory_eraseTopic (m : TopicManager) (name : Bytes) :
    (m.eraseTopic name).toDirectory
      = { m.toDirectory with
          stored := m.toDirectory.stored.store (Trie.split name slash) none } := by
  rw [eraseTopic, toDirectory]
  dsimp only
  rw [Trie.toMap_erase]
  rfl

/-! ### Packets -/

theorem toDirectory_announce (addr : SockaddrIn) (m : TopicManager) (item : TopicName) :
    (Node.announce addr m item).toDirectory = m.toDirectory.announce addr item := by
  have hobjects : (Node.announceHeap addr m.heap item.name).topics = Function.update m.heap.topics
      m.heap.next ⟨item.name, fun _ => none, [], [publisherAt addr]⟩ := by
    funext p
    by_cases hp : p = m.heap.next
    · rw [hp, Node.announceHeap_topics_next, Function.update_self]
    · rw [Node.announceHeap, Heap.modify_topics_of_ne _ hp, Function.update_of_ne hp]
      exact Function.update_of_ne hp ..
  rw [Node.announce, (toDirectory_createTopic _ _ _).2, Directory.createTopic, Directory.announce]
  have hnew : ({ m with heap := Node.announceHeap addr m.heap item.name } :
      TopicManager).toDirectory = { m.toDirectory with
        objects := Function.update m.toDirectory.objects m.toDirectory.next
          ⟨item.name, fun _ => none, [], [publisherAt addr]⟩
        next := m.toDirectory.next + 1 } := by
    rw [toDirectory]
    dsimp only
    rw [hobjects]
    rfl
  rw [hnew]
  split
  · rfl
  · rfl

theorem toDirectory_publishItem (m : TopicManager) (item : TopicPacket) :
    (Node.publishItem m item).toDirectory = m.toDirectory.deliver item := by
  have hobjects : (Node.publishItem m item).heap.topics = (m.toDirectory.deliver item).objects := by
    funext p
    rw [Node.publishItem_topics, Directory.deliver]
    simp only [mem_search_iff]
    rfl
  have hnext : (Node.publishItem m item).heap.next = m.heap.next := by
    rw [Node.publishItem_eq]
    exact Heap.foldl_modify_next ..
  rw [toDirectory, hobjects, hnext, Node.publishItem_eq]
  rfl

theorem toDirectory_subscribeFrom (addr : SockaddrIn) (m : TopicManager) (item : TopicName) :
    (Node.subscribeFrom addr m item).toDirectory = m.toDirectory.enlist addr item := by
  have hobjects : (Node.subscribeFrom addr m item).heap.topics
      = (m.toDirectory.enlist addr item).objects := by
    funext p
    rw [Node.subscribeFrom_topics, Directory.enlist]
    simp only [count_search]
    rfl
  rw [toDirectory, hobjects, Node.subscribeFrom_next]
  rfl

/-! ### Runs -/

theorem foldl_toDirectory {α : Type} {f : TopicManager → α → TopicManager}
    {g : Directory → α → Directory} (h : ∀ m x, (f m x).toDirectory = g m.toDirectory x)
    (items : List α) (m : TopicManager) :
    (items.foldl f m).toDirectory = items.foldl g m.toDirectory := by
  induction items generalizing m with
  | nil => rfl
  | cons x items ih => rw [List.foldl_cons, List.foldl_cons, ih, h]

/-- **One input** has the answer and the effect that the directory says. -/
theorem Takes.refines {input : Input} (h : m.Takes input m') :
    m.answer input = (m.toDirectory.take input).1 ∧
      m'.toDirectory = (m.toDirectory.take input).2 := by
  cases input with
  | op op =>
    have hreorder : (m.apply op).Reorder m' := h
    rw [← hreorder.toDirectory_eq]
    cases op with
    | insertTopic name topic =>
      obtain ⟨hret, hafter⟩ := m.toDirectory_insertTopic name topic
      exact ⟨congrArg Answer.topic hret, hafter⟩
    | createTopic name topic =>
      obtain ⟨hret, hafter⟩ := m.toDirectory_createTopic name topic
      exact ⟨congrArg Answer.done hret, hafter⟩
    | createPublishTopic name topic =>
      obtain ⟨hret, hafter⟩ := m.toDirectory_createPublishTopic name topic
      exact ⟨congrArg Answer.done hret, hafter⟩
    | createSubscribeTopic name topic =>
      obtain ⟨hret, hafter⟩ := m.toDirectory_createSubscribeTopic name topic
      exact ⟨congrArg Answer.topic hret, hafter⟩
    | eraseTopic name => exact ⟨rfl, m.toDirectory_eraseTopic name⟩
  | event event =>
    have hreorder : (m.after event).Reorder m' := Handles.reorder h
    rw [← hreorder.toDirectory_eq]
    cases event with
    | discover addr items => exact ⟨rfl, foldl_toDirectory (toDirectory_announce addr) items m⟩
    | publish addr items => exact ⟨rfl, foldl_toDirectory toDirectory_publishItem items m⟩
    | subscribe addr items =>
      exact ⟨rfl, foldl_toDirectory (toDirectory_subscribeFrom addr) items m⟩
    | createTopic name topic =>
      obtain ⟨hret, hafter⟩ := m.toDirectory_createTopic name topic
      exact ⟨congrArg Answer.done hret, hafter⟩
    | createPublishTopic name topic =>
      obtain ⟨hret, hafter⟩ := m.toDirectory_createPublishTopic name topic
      exact ⟨congrArg Answer.done hret, hafter⟩
    | createSubscribeTopic name topic =>
      obtain ⟨hret, hafter⟩ := m.toDirectory_createSubscribeTopic name topic
      exact ⟨congrArg Answer.topic hret, hafter⟩
    | write heap => exact ⟨rfl, rfl⟩

theorem toDirectory_init (heap : Heap) : (init heap).toDirectory = Directory.empty heap := by
  rw [toDirectory, init]
  dsimp only
  rw [Trie.toMap_empty]
  rfl

theorem answers_append (inputs : List Input) (input : Input) (d : Directory) :
    d.answers (inputs ++ [input]) = d.answers inputs
      ++ [((d.afterAll inputs).take input).1] := by
  induction inputs generalizing d with
  | nil => rfl
  | cons first inputs ih =>
    rw [List.cons_append, Directory.answers, ih, Directory.answers, List.cons_append]
    rfl

theorem mem_getAllPublishTopics_iff (m : TopicManager) (topic : Option TopicPtr) :
    topic ∈ m.getAllPublishTopics ↔ ∃ name, m.publishingTopics.find name = some topic := by
  rw [getAllPublishTopics, UnorderedMap.values, List.mem_map]
  constructor
  · rintro ⟨⟨name, t⟩, hmem, rfl⟩
    exact ⟨name, UnorderedMap.mem_entries_iff.mp hmem⟩
  · rintro ⟨name, hfind⟩
    exact ⟨(name, topic), UnorderedMap.mem_entries_iff.mpr hfind, rfl⟩

/-- **A node keeps a directory.**  For every sequence of calls, of packets and of writes to the
objects, in whatever order the unordered maps are after each of them: every call returns what the
directory returns, the objects are those of the directory, what is announced is what it publishes,
and every lookup finds exactly what its search finds, each path once. -/
theorem directory_refined {heap : Heap} {trace : List (TopicManager × Input)}
    (r : Run Takes (init heap) trace m) :
    (trace.map fun x => x.1.answer x.2) = (Directory.empty heap).answers (trace.map Prod.snd) ∧
      m.heap.topics = ((Directory.empty heap).afterAll (trace.map Prod.snd)).objects ∧
      (∀ topic, topic ∈ m.getAllPublishTopics ↔ ∃ name,
        ((Directory.empty heap).afterAll (trace.map Prod.snd)).publishing name = some topic) ∧
      ∀ name, (m.getTopics name : Multiset TopicPtr)
        = ((Directory.empty heap).afterAll (trace.map Prod.snd)).search name := by
  have hall : (trace.map fun x => x.1.answer x.2)
        = (Directory.empty heap).answers (trace.map Prod.snd) ∧
      m.toDirectory = (Directory.empty heap).afterAll (trace.map Prod.snd) := by
    induction r with
    | nil => exact ⟨rfl, toDirectory_init heap⟩
    | @snoc trace n m input _ hstep ih =>
      obtain ⟨hanswers, hn⟩ := ih
      obtain ⟨hanswer, hm⟩ := Takes.refines hstep
      rw [List.map_append, List.map_append, hanswers]
      refine ⟨?_, ?_⟩
      · rw [List.map_singleton, List.map_singleton, answers_append, hanswer, hn]
      · rw [hm, hn, Directory.afterAll, Directory.afterAll, List.foldl_append]
        rfl
  obtain ⟨hanswers, hm⟩ := hall
  rw [← hm]
  exact ⟨hanswers, rfl, m.mem_getAllPublishTopics_iff, m.getTopics_toDirectory⟩

/-- A topic is published as `"a"`, and then announced as `"+"` by another node. -/
def twoInputs : List Input :=
  [.op (.createPublishTopic [97] (some 0)),
    .event (.discover ⟨(10, 0, 0, 1), (0, 80)⟩ [⟨1, plus⟩])]

/-- The announcement registers nothing, since `"+"` finds what is published as `"a"`. -/
theorem directory_refined_two : ∃ trace m,
    Run Takes (init ⟨fun _ => Topic.ofName [], 1⟩) trace m ∧ trace.map Prod.snd = twoInputs ∧
      (m.getTopics plus : Multiset TopicPtr)
        = ((Directory.empty ⟨fun _ => Topic.ofName [], 1⟩).afterAll twoInputs).search plus := by
  have hpublish : Takes (init ⟨fun _ => Topic.ofName [], 1⟩)
      (.op (.createPublishTopic [97] (some 0))) _ := Reorder.refl _
  have hdiscover : Takes ((init ⟨fun _ => Topic.ofName [], 1⟩).apply
      (.createPublishTopic [97] (some 0))) (.event (.discover ⟨(10, 0, 0, 1), (0, 80)⟩
        [⟨1, plus⟩])) _ := ⟨_, handle_eq _ _, Reorder.refl _⟩
  have r := (Run.single hpublish).snoc hdiscover
  exact ⟨_, _, r, rfl, (directory_refined r).2.2.2 plus⟩

end TopicManager

end Mydds
