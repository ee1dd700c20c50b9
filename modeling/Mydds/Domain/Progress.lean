import Mydds.Domain.Protocol

/-!
# What a node can do

A node that runs and is armed may receive any datagram that has been sent, and what becomes of it is
known: it handles the message if it arrives (`exists_receive`), and it is ended if the message is
cut off (`exists_receive_cut`).  A call that sends leaves it as it was (`exists_call`).

Two nodes at the end do so: one of them announces a topic, and the other one hears of it.
-/

namespace Mydds

open Lib

namespace Domain

variable {ι : Type} {setting : Setting ι} {i : ι}

/-! ### A node -/

/-- The node runs and is armed. -/
def Listening : Node.Process → Prop
  | .running node consumed => InOrder (.running node consumed) ∧ node.Armed consumed
  | .terminated _ => False

theorem exists_request {node : Node} {type : EventType} (h : node.outstanding type = 1) :
    ∃ request ∈ node.requests, request.2.type = type := by
  have hpos : 0 < node.outstanding type := by omega
  obtain ⟨request, hrequest, htype⟩ := List.countP_pos_iff.mp hpos
  exact ⟨request, hrequest, of_decide_eq_true htype⟩

theorem loopStep_of_next {s s' : Node.Process} {event : Node.Event} (h : Node.Next s event s') :
    Node.LoopStep s event s' := ⟨s', h, Node.Process.Reorder.refl s'⟩

theorem listening_of_step {node node' : Node} {consumed consumed' : List InfoPtr}
    {event : Node.Event} (h : Listening (.running node consumed))
    (hreturns : Node.HandlerReturns (.running node consumed) event)
    (hkeeps : Node.KeepsArmed (.running node consumed) event)
    (hstep : Node.LoopStep (.running node consumed) event (.running node' consumed')) :
    Listening (.running node' consumed') := by
  have hfresh : (Node.Process.running node consumed).Fresh := h.1.1
  exact ⟨h.1.step hstep, (hstep.armed_iff hfresh h.2 hreturns).mpr hkeeps⟩

theorem receivedSize_good (bytes : Bytes) :
    ¬ (receivedSize bytes < 0 ∧ receivedSize bytes ≠ -etime) :=
  fun h => absurd (receivedSize_nonneg bytes) (Int.not_le.mpr h.1)

theorem fromGroup_receive {log : List (ι × Bytes)} {sender : ι} {bytes : Bytes}
    (hsent : (sender, bytes) ∈ log) (hmax : bytes.length ≤ maxDatagram)
    (request : InfoPtr × IoInfo) :
    FromGroup setting log (.complete request (receivedSize bytes) bytes
      (setting.address sender)) :=
  fun _ => Or.inl ⟨rfl, hmax, sender, hsent, rfl⟩

theorem handleEvent_receive {node : Node} {consumed : List InfoPtr}
    (h : Listening (.running node consumed)) {request : InfoPtr × IoInfo}
    (hrequest : request ∈ node.requests) (htype : request.2.type = .read) (bytes : Bytes)
    (addr : SockaddrIn) : (node.take request).handleEvent (Node.completed request.2 bytes addr)
      = (node.take request).handlerRead (Node.receiveInfo.received bytes addr) := by
  rw [Node.completed, if_pos htype, h.1.2 request hrequest htype]
  rfl

theorem exists_receive {node : Node} {consumed : List InfoPtr}
    (h : Listening (.running node consumed)) {log : List (ι × Bytes)} {sender : ι} {bytes : Bytes}
    (hsent : (sender, bytes) ∈ log) (hmax : bytes.length ≤ maxDatagram) {message : Message}
    {received : List Topic} (hencodes : Encodes bytes message)
    (harrives : Arrives message.kind message.topics received) :
    ∃ request node' consumed', request.2.type = .read ∧
      Acts setting log i (.running node consumed)
        (.complete request (receivedSize bytes) bytes (setting.address sender))
        (.running node' consumed') [] ∧
      Listening (.running node' consumed') ∧ node'.topicManager
        = node.topicManager.after (arrival message.kind (setting.address sender) received) := by
  obtain ⟨request, hrequest, htype⟩ := exists_request h.2.1
  have hnext := @Node.Next.complete node consumed request (receivedSize bytes) bytes
    (setting.address sender) hrequest
  have hlt : bytes.length < 2 ^ 32 := Nat.lt_of_le_of_lt hmax (by decide)
  have hread := handlerRead_arrives hencodes hlt (setting.address sender) harrives
    (node.take request)
  rw [Node.processCqe, if_neg (receivedSize_good bytes), handleEvent_receive h hrequest htype,
    hread] at hnext
  have hstep := loopStep_of_next hnext
  have hkeeps : Node.KeepsArmed (.running node consumed)
      (.complete request (receivedSize bytes) bytes (setting.address sender)) := by
    refine ⟨Or.inl (receivedSize_nonneg bytes), fun htimer => ?_⟩
    rw [htype] at htimer
    cases htimer
  have hreturns : Node.HandlerReturns (.running node consumed)
      (.complete request (receivedSize bytes) bytes (setting.address sender)) := by
    intro _ _
    rw [Node.completed, if_pos htype, h.1.2 request hrequest htype]
    exact ⟨_, hread⟩
  exact ⟨request, _, _, htype, ⟨hstep, fromGroup_receive hsent hmax request, trivial,
    (submitted_take h.1.1 request [(node.nextInfo, Node.receiveInfo)] rfl (by simp)).symm⟩,
    listening_of_step h hreturns hkeeps hstep, rfl⟩

/-- A node that sends a datagram goes on listening, if it has. -/
theorem exists_call {node : Node} {consumed : List InfoPtr}
    (h : InOrder (.running node consumed)) {log : List (ι × Bytes)} {c : Node.Call}
    {bytes : Bytes} (hallowed : setting.allowed i node.topicManager c)
    (hcall : node.call c = .ok (node.multiacast bytes)) :
    Acts setting log i (.running node consumed) (.call c)
      (.running (node.multiacast bytes) consumed) [bytes] ∧
    (Listening (.running node consumed) →
      Listening (.running (node.multiacast bytes) consumed)) := by
  have hstep := loopStep_of_next (@Node.Next.call node _ consumed c hcall)
  have hout : submitted (.running node consumed) (.running (node.multiacast bytes) consumed)
      = [bytes] := by
    have hrequests : (node.multiacast bytes).requests
        = node.requests ++ [(node.nextInfo, Node.multicastInfo bytes)] := rfl
    exact submitted_eq h.1 hrequests (fun _ hmem => hmem) (by simp)
  have hreturns : Node.HandlerReturns (.running node consumed) (.call c) := trivial
  exact ⟨⟨hstep, trivial, hallowed, hout.symm⟩, fun hlistening =>
    listening_of_step hlistening hreturns (Node.not_publishesNull_of_ok hcall) hstep⟩

/-! ### A domain -/

section Networks

variable {net : Network ι Node.Process Bytes} {heaps : ι → Heap}
  {trace : List (Network ι Node.Process Bytes × (ι × Node.Event))} {m : TopicManager}

theorem Listening.exists_running {s : Node.Process} (h : Listening s) :
    ∃ node consumed, s = .running node consumed := by
  cases s with
  | running node consumed => exact ⟨node, consumed, rfl⟩
  | terminated fault => exact h.elim

theorem exists_running_of_topicsOf {s : Node.Process} (h : topicsOf s = some m) :
    ∃ node consumed, s = .running node consumed ∧ node.topicManager = m := by
  cases s with
  | running node consumed => exact ⟨node, consumed, rfl, Option.some.inj h⟩
  | terminated fault => cases h

variable [DecidableEq ι]

theorem inOrder_run (r : Run (Network.Step (Acts setting)) (start heaps) trace net) (i : ι) :
    InOrder (net.states i) := by
  have hstart : (start heaps).Sound (fun _ => True) fun _ _ s => InOrder s :=
    ⟨fun _ _ => trivial, inOrder_start heaps⟩
  exact (hstart.run (A := fun _ _ _ => True) (fun _ _ _ _ hs => hs)
    (fun _ _ _ _ _ _ _ hs _ hact => ⟨hs.step hact.1, fun _ _ => trivial⟩) r
    fun _ _ => trivial).states i

theorem listening_run (r : Run (Network.Step (Acts setting)) (start heaps) trace net) {j : ι}
    (harmed : (net.states j).Armed) : Listening (net.states j) := by
  have horder := inOrder_run r j
  cases hj : net.states j with
  | running node consumed =>
    rw [hj] at horder harmed
    exact ⟨horder, harmed⟩
  | terminated fault =>
    rw [hj] at harmed
    exact harmed.elim

theorem exists_received {sender j : ι} {bytes : Bytes} {message : Message} {received : List Topic}
    (hlistening : Listening (net.states j)) (hm : topicsOf (net.states j) = some m)
    (hsent : (sender, bytes) ∈ net.sent) (hmax : bytes.length ≤ maxDatagram)
    (hencodes : Encodes bytes message) (harrives : Arrives message.kind message.topics received) :
    ∃ request s', request.2.type = .read ∧ Network.Step (Acts setting) net
        (j, .complete request (receivedSize bytes) bytes (setting.address sender))
        (net.move j s' []) ∧
      Listening s' ∧ topicsOf s'
        = some (m.after (arrival message.kind (setting.address sender) received)) := by
  obtain ⟨node, consumed, hj, rfl⟩ := exists_running_of_topicsOf hm
  rw [hj] at hlistening
  obtain ⟨request, node', consumed', htype, hact, hlistening', hafter⟩ :=
    @exists_receive _ setting j _ _ hlistening _ _ _ hsent hmax _ _ hencodes harrives
  exact ⟨request, _, htype, ⟨_, [], hj ▸ hact, rfl⟩, hlistening', congrArg some hafter⟩

end Networks

/-! ### Two nodes -/

/-- A domain of two nodes, at 10.0.0.1 and 10.0.0.2. -/
def pair (allowed : TopicManager → Node.Call → Prop) : Setting Bool :=
  ⟨fun i => ⟨(10, 0, 0, if i then 2 else 1), (0, 80)⟩, fun _ => allowed⟩

/-- The objects of the first one are named `"a"`, those of the second one have no name. -/
def heapsA : Bool → Heap := fun i => ⟨fun _ => Topic.ofName (if i then [] else [97]), 1⟩

/-- The first one publishes an object. -/
def publisher : Node :=
  { (Node.construct (heapsA false)).setTimer.submitReceiveRequest with
    topicManager := ((TopicManager.init (heapsA false)).createPublishTopic [97] (some 0)).2 }

theorem run_pair {allowed : TopicManager → Node.Call → Prop}
    (h : allowed (TopicManager.init (heapsA false)) (.createPublishTopic [97] (some 0))) :
    Run (Network.Step (Acts (pair allowed))) (start heapsA)
      [(start heapsA, (false, .call (.createPublishTopic [97] (some 0))))]
      ((start heapsA).move false (.running publisher []) []) :=
  Run.single ⟨_, _, ⟨⟨_, .call rfl, Node.Process.Reorder.refl _⟩, trivial, h, rfl⟩, rfl⟩

theorem canTick_publisher : CanTick publisher.topicManager := by
  have hall : publisher.topicManager.getAllPublishTopics = [some 0] := by decide
  intro topic htopic
  rw [hall] at htopic
  rw [List.mem_singleton.mp htopic]
  exact ⟨0, rfl, by decide⟩

/-- Its timer has expired. -/
def ticked : Node :=
  { ((publisher.take (0, Node.timerInfo)).multiacast [0, 1, 97]).setTimer with deleted := [0] }

def announcedPair : Network Bool Node.Process Bytes :=
  ((start heapsA).move false (.running publisher []) []).move false (.running ticked [0])
    [[0, 1, 97]]

theorem run_announced {allowed : TopicManager → Node.Call → Prop}
    (h : allowed (TopicManager.init (heapsA false)) (.createPublishTopic [97] (some 0))) :
    Run (Network.Step (Acts (pair allowed))) (start heapsA)
      [(start heapsA, (false, .call (.createPublishTopic [97] (some 0)))),
        ((start heapsA).move false (.running publisher []) [],
          (false, .complete (0, Node.timerInfo) (-62) [] ⟨(0, 0, 0, 0), (0, 0)⟩))]
      announcedPair := by
  have htimer : (0, Node.timerInfo) ∈ publisher.requests := List.mem_cons_self
  have hloop : Node.LoopStep (.running publisher [])
      (.complete (0, Node.timerInfo) (-62) [] ⟨(0, 0, 0, 0), (0, 0)⟩) (.running ticked [0]) :=
    ⟨_, .complete (-62) [] ⟨(0, 0, 0, 0), (0, 0)⟩ htimer,
      Node.Process.Reorder.refl (.running ticked [0])⟩
  have htick : Network.Step (Acts (pair allowed))
      ((start heapsA).move false (.running publisher []) [])
      (false, .complete (0, Node.timerInfo) (-62) [] ⟨(0, 0, 0, 0), (0, 0)⟩) announcedPair :=
    ⟨_, [[0, 1, 97]], ⟨hloop, fun hread => (by cases hread), trivial, rfl⟩, rfl⟩
  exact (run_pair h).snoc htick

theorem sent_announcedPair : (false, [0, 1, 97]) ∈ announcedPair.sent := by decide

theorem encodes_a : Encodes [0, 1, 97] ⟨.discover, [Topic.ofName [97]]⟩ :=
  ⟨heapsA false, [0], by decide, rfl⟩

/-- The topics that a node hears of in such a packet. -/
def heardA : List Topic := [Topic.ofName [97]] ++ List.replicate 2045 blank

theorem after_heardA (addr : SockaddrIn) (m : TopicManager) :
    m.after (.discover addr (heardA.map nameItem)) =
      (Node.announce addr m (nameItem (Topic.ofName [97]))).after
        (.discover addr ((List.replicate 2045 blank).map nameItem)) := by
  simp only [heardA, TopicManager.after, List.map_append, List.foldl_append, List.map_cons,
    List.map_nil, List.foldl_cons, List.foldl_nil]

theorem mem_heardA : Topic.ofName [97] ∈ heardA := List.mem_append_left _ List.mem_cons_self

theorem arrives_a : Arrives .discover [Topic.ofName [97]] heardA := by
  have hcreate : createPacket .discover (heapsA false) ([0].map some) = .ok [0, 1, 97] := by decide
  have hlength := length_createPacket hcreate (by decide)
  refine .whole (n := 2045) ?_
  rw [show [Topic.ofName [97]] = [0].map (heapsA false).topics from rfl, ← hlength]
  rfl

theorem listening_announcedPair (j : Bool) : Listening (announcedPair.states j) := by
  refine listening_run (@run_announced (fun _ _ => True) trivial) ?_
  cases j with
  | false => exact ⟨rfl, rfl, by decide⟩
  | true => exact ⟨rfl, rfl, by decide⟩

/-- **The other node hears of the topic.** -/
theorem exists_run_heard {allowed : TopicManager → Node.Call → Prop}
    (h : allowed (TopicManager.init (heapsA false)) (.createPublishTopic [97] (some 0))) :
    ∃ request s, Run (Network.Step (Acts (pair allowed))) (start heapsA)
        [(start heapsA, (false, .call (.createPublishTopic [97] (some 0)))),
          ((start heapsA).move false (.running publisher []) [],
            (false, .complete (0, Node.timerInfo) (-62) [] ⟨(0, 0, 0, 0), (0, 0)⟩)),
          (announcedPair, (true, .complete request 3 [0, 1, 97] ⟨(10, 0, 0, 1), (0, 80)⟩))]
        (announcedPair.move true s []) ∧
      request.2.type = .read ∧ Listening s ∧ topicsOf s = some ((TopicManager.init
        (heapsA true)).after (.discover ⟨(10, 0, 0, 1), (0, 80)⟩ (heardA.map nameItem))) := by
  have hm : topicsOf (announcedPair.states true) = some (TopicManager.init (heapsA true)) := rfl
  obtain ⟨request, s, htype, hstep, hlistening, htopics⟩ := @exists_received _ (pair allowed) _ _ _
    _ _ _ _ _ (listening_announcedPair true) hm sent_announcedPair (by decide) encodes_a arrives_a
  exact ⟨request, s, (run_announced h).snoc hstep, htype, hlistening, htopics⟩

end Domain

end Mydds
