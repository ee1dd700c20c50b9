import Mydds.Util
import Mathlib.Logic.Function.Iterate

/-!
# Topics and the objects shared pointers point to

`Topic` is `include/topic.hpp` with the peer records of `publisherinfo.h` and
`subscriberinfo.h`.  Topics are shared objects: the trie, the registries and the
application hold `std::shared_ptr<Topic>`, and a write through one of them is seen
through all.  So a pointer is an address, `Option TopicPtr` with `none` for the null
pointer, and the objects live in a `Heap`.
-/

namespace Mydds

structure SubscriberInfo where
  ipaddr : Bytes
  port : Int
  deriving DecidableEq, Repr

structure PublisherInfo where
  ipaddr : Bytes
  port : Int
  deriving DecidableEq, Repr

structure Topic where
  topicName : Bytes
  storage : Int → Option Bytes
  subscriberinfos : List SubscriberInfo
  publisherinfos : List PublisherInfo

namespace Topic

/-- `Topic(name)` -/
def ofName (name : Bytes) : Topic := ⟨name, fun _ => none, [], []⟩

/-- The overload for strings, which does not check the key. -/
def setData (topic : Topic) (key : Int) (data : Bytes) : Topic :=
  { topic with storage := Function.update topic.storage key (some data) }

def getData (topic : Topic) (key : Int) : Result Bytes :=
  match topic.storage key with
  | none => .error (.runtimeError ("Key not found: " ++ toString key))
  | some data => .ok data

def getName (topic : Topic) : Bytes := topic.topicName

def setName (topic : Topic) (name : Bytes) : Topic := { topic with topicName := name }

/-- `topic->subscriberinfos.push_back(info)` -/
def pushSubscriberinfo (topic : Topic) (info : SubscriberInfo) : Topic :=
  { topic with subscriberinfos := topic.subscriberinfos ++ [info] }

/-- `topic->publisherinfos.push_back(info)` -/
def pushPublisherinfo (topic : Topic) (info : PublisherInfo) : Topic :=
  { topic with publisherinfos := topic.publisherinfos ++ [info] }

@[simp] theorem storage_setData_self (topic : Topic) (key : Int) (data : Bytes) :
    (topic.setData key data).storage key = some data := Function.update_self ..

theorem iterate_setData (key : Int) (data : Bytes) (n : Nat) (topic : Topic) :
    (·.setData key data)^[n] topic = if n = 0 then topic else topic.setData key data := by
  induction n with
  | zero => rfl
  | succ n ih =>
    rw [Function.iterate_succ_apply', ih, if_neg (Nat.succ_ne_zero n)]
    split
    · rfl
    · rw [setData, setData, Function.update_idem]

theorem iterate_pushSubscriberinfo (info : SubscriberInfo) (n : Nat) (topic : Topic) :
    (·.pushSubscriberinfo info)^[n] topic
      = { topic with subscriberinfos := topic.subscriberinfos ++ List.replicate n info } := by
  induction n generalizing topic with
  | zero => rw [List.replicate_zero, List.append_nil]; rfl
  | succ n ih =>
    rw [Function.iterate_succ_apply, ih, pushSubscriberinfo, List.replicate_succ,
      List.append_assoc, List.singleton_append]

@[simp] theorem getName_setName (topic : Topic) (name : Bytes) :
    (topic.setName name).getName = name := rfl

end Topic

/-- The address of a `Topic`. -/
abbrev TopicPtr := Nat

/-- The `Topic` objects of a process; those from `next` on are not allocated yet. -/
structure Heap where
  topics : TopicPtr → Topic
  next : TopicPtr

namespace Heap

/-- `std::make_shared<Topic>` -/
def makeShared (heap : Heap) (topic : Topic) : TopicPtr × Heap :=
  (heap.next, ⟨Function.update heap.topics heap.next topic, heap.next + 1⟩)

/-- A write through a pointer. -/
def modify (heap : Heap) (ptr : TopicPtr) (f : Topic → Topic) : Heap :=
  { heap with topics := Function.update heap.topics ptr (f (heap.topics ptr)) }

/-- A read through a pointer that may be null. -/
def deref (heap : Heap) : Option TopicPtr → Result Topic
  | none => .error .nullDereference
  | some ptr => .ok (heap.topics ptr)

@[simp] theorem modify_next (heap : Heap) (ptr : TopicPtr) (f : Topic → Topic) :
    (heap.modify ptr f).next = heap.next := rfl
@[simp] theorem modify_topics_self (heap : Heap) (ptr : TopicPtr) (f : Topic → Topic) :
    (heap.modify ptr f).topics ptr = f (heap.topics ptr) := Function.update_self ..

theorem modify_topics_of_ne (heap : Heap) {ptr p : TopicPtr} (h : p ≠ ptr) (f : Topic → Topic) :
    (heap.modify ptr f).topics p = heap.topics p := Function.update_of_ne h ..

/-- **A loop of writes** applies the function to an object once for each pointer to it. -/
theorem foldl_modify_topics (f : Topic → Topic) (ptrs : List TopicPtr) (heap : Heap)
    (p : TopicPtr) : (ptrs.foldl (fun heap ptr => heap.modify ptr f) heap).topics p
      = f^[ptrs.count p] (heap.topics p) := by
  induction ptrs generalizing heap with
  | nil => rfl
  | cons ptr ptrs ih =>
    rw [List.foldl_cons, ih, List.count_cons]
    by_cases hp : ptr = p
    · subst hp
      rw [modify_topics_self, beq_self_eq_true, if_pos rfl, Function.iterate_succ_apply]
    · rw [modify_topics_of_ne _ (Ne.symm hp), if_neg (by simpa using hp), Nat.add_zero]

theorem foldl_modify_next (f : Topic → Topic) (ptrs : List TopicPtr) (heap : Heap) :
    (ptrs.foldl (fun heap ptr => heap.modify ptr f) heap).next = heap.next := by
  induction ptrs generalizing heap with
  | nil => rfl
  | cons ptr ptrs ih => rw [List.foldl_cons, ih, modify_next]

end Heap

end Mydds
