import Mydds.Domain
import Mydds.Node.Delivery
import Mydds.Node.Discovery
import Mathlib.Data.List.ReduceOption

/-!
# The protocol

What the nodes of a domain do to each other, without requests, buffers and bytes.  A peer is its
topics, while it runs.  A message is what kind it is of and the topics it was made of, and it
`Arrives` as the first of them, or as all of them with blank ones behind.

`Protocol` has one case for each thing that can happen to a peer: a message arrives, or is cut off
in the middle of an item, and the decoder ends the peer; the application calls, and the message is
sent, or refused by the encoder, or the peer is ended by a null pointer; the timer expires, and ends
the peer if it cannot announce its topics.  `topicsOf`, `Encodes` and `SeenAs` are the abstraction
of a domain to this, and `Acts.simulates` says that every event of a node is one of these.
-/

namespace Mydds

open Lib

namespace Domain

variable {ι : Type}

structure Message where
  kind : CommunicationType
  topics : List Topic

/-- What makes a peer act. -/
inductive Input (ι : Type) where
  | receive (sender : ι) (message : Message) (received : List Topic)
  | cut (sender : ι) (message : Message)
  | call (call : Node.Call)
  | timer
  | idle

/-- The items that have arrived, as an event of the receiver. -/
def arrival (kind : CommunicationType) (addr : SockaddrIn) (received : List Topic) : Event :=
  match kind with
  | .discover => .discover addr (received.map nameItem)
  | .publish => .publish addr (received.map dataItem)
  | .subscribe => .subscribe addr (received.map nameItem)

/-- What a call leaves of the topics, and what it sends. -/
def answer (m : TopicManager) : Node.Call → TopicManager × List Message
  | .createTopic topicName topic => ((m.createTopic topicName topic).2, [])
  | .createPublishTopic topicName topic => ((m.createPublishTopic topicName topic).2, [])
  | .publish topicName topic =>
    (m, if (m.getTopics topicName).length = 1
      then (topic.toList.filter fun t => ((m.heap.topics t).storage 0).isSome).map
        fun t => ⟨.publish, [m.heap.topics t]⟩
      else [])
  | .subscribe topicName =>
    (m, if (m.getTopics topicName).length = 0 then []
      else [⟨.subscribe, (m.getTopics topicName).map m.heap.topics⟩])
  | .write heap => ({ m with heap }, [])

/-- The encoder throws on one of the topics. -/
def Message.Refused (message : Message) : Prop :=
  ∃ topic ∈ message.topics, Mydds.Refused message.kind topic

/-- The announcement of the published topics, if there are any. -/
def announcement (m : TopicManager) : List Message :=
  if m.getAllPublishTopics.length = 0 then []
  else [⟨.discover, m.getAllPublishTopics.reduceOption.map m.heap.topics⟩]

/-- The published topics can be announced. -/
def CanTick (m : TopicManager) : Prop :=
  ∀ topic ∈ m.getAllPublishTopics, CanAnnounce m.heap topic

/-- An action of peer `i`; the unordered maps are in any order behind it. -/
inductive Protocol (setting : Setting ι) (log : List (ι × Message)) (i : ι) :
    Option TopicManager → Input ι → Option TopicManager → List Message → Prop
  | receive {m m' : TopicManager} {sender : ι} {message : Message} {received : List Topic} :
      (sender, message) ∈ log → Arrives message.kind message.topics received →
      (m.after (arrival message.kind (setting.address sender) received)).Reorder m' →
      Protocol setting log i (some m) (.receive sender message received) (some m') []
  | cut {m : TopicManager} {sender : ι} {message : Message} :
      (sender, message) ∈ log → (¬ ∃ received, Arrives message.kind message.topics received) →
      Protocol setting log i (some m) (.cut sender message) none []
  | call {m m' : TopicManager} {c : Node.Call} :
      setting.allowed i m c → ¬ Node.PublishesNull m c →
      (∀ message ∈ (answer m c).2, ¬ message.Refused) → (answer m c).1.Reorder m' →
      Protocol setting log i (some m) (.call c) (some m') (answer m c).2
  | refuse {m m' : TopicManager} {c : Node.Call} {message : Message} :
      setting.allowed i m c → message ∈ (answer m c).2 → message.Refused → m.Reorder m' →
      Protocol setting log i (some m) (.call c) (some m') []
  | crash {m : TopicManager} {c : Node.Call} :
      setting.allowed i m c → Node.PublishesNull m c →
      Protocol setting log i (some m) (.call c) none []
  | announce {m m' : TopicManager} : CanTick m → m.Reorder m' →
      Protocol setting log i (some m) .timer (some m') (announcement m)
  | fail {m : TopicManager} : ¬ CanTick m → Protocol setting log i (some m) .timer none []
  | idle {m m' : TopicManager} : m.Reorder m' →
      Protocol setting log i (some m) .idle (some m') []

/-- The topics of a node, while it runs. -/
def topicsOf : Node.Process → Option TopicManager
  | .running node _ => some node.topicManager
  | .terminated _ => none

/-- The datagram is the packet of the message. -/
def Encodes (bytes : Bytes) (message : Message) : Prop :=
  ∃ (heap : Heap) (ptrs : List TopicPtr),
    createPacket message.kind heap (ptrs.map some) = .ok bytes ∧
      message.topics = ptrs.map heap.topics

/-- What an event of a node is for its peer. -/
def SeenAs (setting : Setting ι) : Node.Event → Input ι → Prop
  | .complete request res bytes addr, .receive sender message _
  | .complete request res bytes addr, .cut sender message =>
    request.2.type = .read ∧ (0 ≤ res ∨ res = -etime) ∧ addr = setting.address sender ∧
      Encodes bytes message
  | .complete request res _ _, .timer => request.2.type = .timer ∧ (0 ≤ res ∨ res = -etime)
  | .complete request res _ _, .idle =>
    (res < 0 ∧ res ≠ -etime) ∨ request.2.type = .multicast ∨ request.2.type = .unicast
  | .call c, .call c' => c = c'
  | _, _ => False

/-! ### Datagrams -/

theorem Encodes.pack {bytes : Bytes} {message : Message} (h : Encodes bytes message) :
    DDSPacket.pack ⟨⟨message.kind.toByte⟩, sentData message.kind message.topics⟩ = .ok bytes := by
  obtain ⟨heap, ptrs, hcreate, htopics⟩ := h
  rw [htopics]
  exact (pack_of_createPacket hcreate).2

/-- **All of a datagram is accepted**, and gives back what it was made of. -/
theorem Encodes.unpack {bytes : Bytes} {message : Message} (h : Encodes bytes message)
    (hlt : bytes.length < 2 ^ 32) (packet : DDSPacket) :
    packet.unpack bytes = (.ok (UInt32.ofNat bytes.length),
      ⟨⟨message.kind.toByte⟩, sentData message.kind message.topics⟩) ∧
    Carries message.kind message.topics (sentData message.kind message.topics) := by
  have hpack := h.pack
  obtain ⟨heap, ptrs, hcreate, htopics⟩ := h
  have hframable : ∀ topic ∈ message.topics, Framable message.kind topic := by
    rw [htopics]
    exact List.forall_mem_map.mpr (framable_of_createPacket hcreate hlt)
  obtain ⟨frames, hcanon, heven, hpayload⟩ := exists_sentFrames _ _ hframable
  have hbytes := DDSPacket.pack_payloadOf message.kind frames heven
  rw [hpayload, hcanon, hpack] at hbytes
  obtain rfl := Except.ok.inj hbytes
  refine ⟨?_, carries_sentData hframable⟩
  rw [packet.unpack_payload ⟨rfl, heven⟩, hpayload]
  rfl

theorem Encodes.not_refused {bytes : Bytes} {message : Message} (h : Encodes bytes message) :
    ¬ message.Refused := by
  obtain ⟨heap, ptrs, hcreate, htopics⟩ := h
  rintro ⟨topic, htopic, hrefused⟩
  rw [htopics] at htopic
  obtain ⟨p, hp, rfl⟩ := List.mem_map.mp htopic
  have hthrows := (createPacket_throwsIff message.kind heap ptrs).throws ⟨p, hp, hrefused⟩
  rw [hcreate] at hthrows
  exact not_throws_ok bytes hthrows

theorem refused_of_error {kind : CommunicationType} {heap : Heap} {ptrs : List TopicPtr}
    {fault : Fault} (h : createPacket kind heap (ptrs.map some) = .error fault) :
    Message.Refused ⟨kind, ptrs.map heap.topics⟩ := by
  obtain ⟨⟨p, hp, hrefused⟩, -⟩ := (createPacket_throwsIff kind heap ptrs).of_error h
  exact ⟨_, List.mem_map_of_mem hp, hrefused⟩

/-! ### What the handlers do with a message -/

theorem handlePacket_arrival {info : IoInfo} {addr : SockaddrIn} (h : info.destAddr = some addr)
    (kind : CommunicationType) (received : List Topic) (m : TopicManager) :
    Node.handlePacket info ⟨⟨kind.toByte⟩, sentData kind received⟩ m
      = .ok (m.after (arrival kind addr received)) := by
  cases kind with
  | discover => exact Node.handlePacket_discover h (received.map nameItem) m
  | publish => rfl
  | subscribe => exact Node.handlePacket_subscribe h (received.map nameItem) m

theorem handlerRead_arrives {bytes : Bytes} {message : Message} (hencodes : Encodes bytes message)
    (hlt : bytes.length < 2 ^ 32) (addr : SockaddrIn) {received : List Topic}
    (h : Arrives message.kind message.topics received) (node : Node) :
    node.handlerRead (Node.receiveInfo.received bytes addr) = .ok { node with
      topicManager := node.topicManager.after (arrival message.kind addr received)
    }.submitReceiveRequest := by
  obtain ⟨heap, ptrs, hcreate, htopics⟩ := hencodes
  rw [htopics] at h
  have haddr : (Node.receiveInfo.received bytes addr).destAddr = some addr := rfl
  rw [Node.handlerRead, unpack_received_arrives hcreate hlt (DDSPacket.fresh 0) addr h]
  show (Node.handlePacket _ ⟨⟨message.kind.toByte⟩, sentData message.kind received⟩
    node.topicManager >>= _) = _
  rw [handlePacket_arrival haddr]
  rfl

theorem handlerRead_cut {bytes : Bytes} {message : Message} (hencodes : Encodes bytes message)
    (hlt : bytes.length < 2 ^ 32) (addr : SockaddrIn)
    (h : ¬ ∃ received, Arrives message.kind message.topics received) (node : Node) :
    ∃ what, node.handlerRead (Node.receiveInfo.received bytes addr)
      = .error (.invalidArgument what) := by
  obtain ⟨heap, ptrs, hcreate, htopics⟩ := hencodes
  rw [htopics] at h
  obtain ⟨what, hwhat⟩ := unpack_received_reject hcreate hlt (DDSPacket.fresh 0) addr h
  exact ⟨what, by rw [Node.handlerRead, hwhat]⟩

theorem tick_fails {node : Node} (h : ¬ CanTick node.topicManager) :
    ∃ fault, node.tick = .error fault := by
  cases hok : node.tick with
  | error fault => exact ⟨fault, rfl⟩
  | ok node' => exact absurd ((Node.tick_ok_iff node).mp ⟨node', hok⟩) h

theorem tick_announces {node : Node} (h : CanTick node.topicManager) :
    (announcement node.topicManager = [] ∧ node.tick = .ok node.setTimer) ∨
    ∃ bytes message, announcement node.topicManager = [message] ∧ Encodes bytes message ∧
      node.tick = .ok (node.multiacast bytes).setTimer := by
  by_cases hnil : node.topicManager.getAllPublishTopics.length = 0
  · refine Or.inl ⟨if_pos hnil, Result.bind_eq_ok.mpr ⟨(false, node), ?_, rfl⟩⟩
    rw [Node.discovery, if_pos hnil]
  · obtain ⟨bytes, hbytes⟩ := (createDiscoverPacket_ok_iff _ _).mpr h
    refine Or.inr ⟨bytes, _, if_neg hnil, ?_,
      Result.bind_eq_ok.mpr ⟨(true, node.multiacast bytes), ?_, rfl⟩⟩
    · have hitems := hbytes
      rw [DDSPacket.createDiscoverPacket, Result.bind_eq_ok] at hitems
      obtain ⟨items, hitems, -⟩ := hitems
      obtain ⟨ptrs, hptrs⟩ := exists_map_some_of_nameItems _ hitems
      refine ⟨node.topicManager.heap, ptrs, ?_, ?_⟩
      · rw [← hptrs]
        exact hbytes
      · rw [hptrs]
        simp [List.reduceOption]
    · rw [Node.discovery, if_neg hnil, hbytes]
      rfl

/-- **What a call does to the topics, and what it sends.** -/
theorem call_answers {node node' : Node} {c : Node.Call} (h : node.call c = .ok node') :
    (∃ m, (answer node.topicManager c).1 = m ∧ (answer node.topicManager c).2 = [] ∧
      node' = { node with topicManager := m }) ∨
    ∃ bytes message, (answer node.topicManager c).1 = node.topicManager ∧
      (answer node.topicManager c).2 = [message] ∧ Encodes bytes message ∧
      node' = node.multiacast bytes := by
  cases c with
  | createTopic topicName topic | createPublishTopic topicName topic | write heap =>
    cases h
    exact Or.inl ⟨_, rfl, rfl, rfl⟩
  | publish topicName topic =>
    rw [Node.call_publish] at h
    split at h
    · rename_i hone
      cases h
      exact Or.inl ⟨_, rfl, if_neg hone, rfl⟩
    · rename_i hone
      obtain ⟨bytes, hcreate, rfl⟩ := Result.map_eq_ok.mp h
      cases topic with
      | none => cases hcreate
      | some t =>
        have hpacket : createPacket .publish node.topicManager.heap ([t].map some) = .ok bytes :=
          hcreate
        have hdata := (pack_of_createPacket hpacket).1 rfl t (List.mem_singleton_self t)
        refine Or.inr ⟨bytes, ⟨.publish, [node.topicManager.heap.topics t]⟩, rfl, ?_,
          ⟨_, [t], hpacket, rfl⟩, rfl⟩
        rw [answer, if_pos (not_not.mp hone)]
        simp [Option.isSome_iff_ne_none, hdata]
  | subscribe topicName =>
    rw [Node.call_subscribe] at h
    split at h
    · rename_i hnil
      cases h
      exact Or.inl ⟨_, rfl, if_pos hnil, rfl⟩
    · rename_i hnil
      obtain ⟨bytes, hcreate, rfl⟩ := Result.map_eq_ok.mp h
      exact Or.inr ⟨bytes, _, rfl, if_neg hnil, ⟨_, _, hcreate, rfl⟩, rfl⟩

/-- **A call that throws** would have sent what the encoder refuses, or data that are missing. -/
theorem call_refused {node : Node} {c : Node.Call} {fault : Fault}
    (h : node.call c = .error fault) (hno : ¬ Node.PublishesNull node.topicManager c) :
    (answer node.topicManager c).1 = node.topicManager ∧
      ((answer node.topicManager c).2 = [] ∨
        ∃ message ∈ (answer node.topicManager c).2, message.Refused) := by
  cases c with
  | createTopic topicName topic | createPublishTopic topicName topic | write heap => cases h
  | publish topicName topic =>
    rw [Node.call_publish] at h
    split at h
    · cases h
    · rename_i hone
      rw [not_not] at hone
      refine ⟨rfl, ?_⟩
      rw [answer, if_pos hone]
      cases topic with
      | none => exact absurd ⟨rfl, hone⟩ hno
      | some t =>
        have hthrows : createPacket .publish node.topicManager.heap ([t].map some)
            = .error fault := Result.map_eq_error.mp h
        cases hdata : (node.topicManager.heap.topics t).storage 0 with
        | none => exact Or.inl (by simp [hdata])
        | some data => exact Or.inr ⟨_, by simp [hdata], refused_of_error hthrows⟩
  | subscribe topicName =>
    rw [Node.call_subscribe] at h
    split at h
    · cases h
    · rename_i hnil
      refine ⟨rfl, Or.inr ?_⟩
      rw [answer, if_neg hnil]
      exact ⟨_, List.mem_singleton_self _, refused_of_error (Result.map_eq_error.mp h)⟩

end Domain

end Mydds
