import Mydds.Domain.Refine

/-!
# Nodes that stay alive

A node is ended by an exception that its loop does not catch, or by a null pointer.  Behind `Unpack`
nothing throws, and what arrives in a domain has been packed by a node of the domain; so the nodes
end each other in one way only, by a datagram that does not fill the receive buffer up with whole
items, and themselves by a timer that cannot announce or a call that publishes a null pointer.
`Acts.alive_iff` is one event, read off the action of the peer, and `alive_run_iff` a run.
-/

namespace Mydds

open Lib

namespace Domain

variable {ι : Type} {setting : Setting ι} {i : ι}

def Alive : Node.Process → Prop
  | .running _ _ => True
  | .terminated _ => False

/-- The datagram is a packet that fits into the buffer, and not a `Publish` of odd size; or one
that the buffer cuts off behind an item. -/
def Lands (bytes : Bytes) : Prop :=
  ∃ message, Encodes bytes message ∧
    if bytes.length ≤ IoInfo.bufferSize then ¬ (message.kind = .publish ∧ bytes.length % 2 = 1)
    else ∃ j < message.topics.length, boundary message.kind message.topics j = IoInfo.bufferSize

/-- If a timer has expired, the node can announce its topics; if a datagram has been received, it
lands; and a call does not publish data of a null pointer. -/
def KeepsAlive : Node.Process → Node.Event → Prop
  | .running node _, .complete request res bytes _ => (0 ≤ res ∨ res = -etime) →
    (request.2.type = .timer → CanTick node.topicManager) ∧ (request.2.type = .read → Lands bytes)
  | .running node _, .call c => ¬ Node.PublishesNull node.topicManager c
  | .terminated _, _ => True

/-- **A datagram lands iff its message arrives.** -/
theorem lands_iff {bytes : Bytes} (hlt : bytes.length < 2 ^ 32) : Lands bytes ↔
    ∃ message received, Encodes bytes message ∧ Arrives message.kind message.topics received := by
  refine exists_congr fun message => ?_
  rw [exists_and_left]
  refine and_congr_right fun hencodes => ?_
  obtain ⟨heap, ptrs, hcreate, htopics⟩ := hencodes
  have hlength := length_createPacket hcreate hlt
  rw [← htopics] at hlength
  split
  · rename_i hfits
    rw [exists_arrives_iff_odd (hlength ▸ hfits), ← hlength]
  · rename_i hlong
    rw [exists_arrives_iff_boundary (hlength ▸ Nat.not_le.mp hlong)]

theorem alive_iff_topicsOf {s : Node.Process} : Alive s ↔ ∃ m, topicsOf s = some m := by
  cases s with
  | running node consumed => exact iff_of_true trivial ⟨_, rfl⟩
  | terminated fault => exact iff_of_false id fun ⟨_, h⟩ => by cases h

theorem not_lands_of_cut {bytes : Bytes} {message : Message} (hencodes : Encodes bytes message)
    (hlt : bytes.length < 2 ^ 32)
    (hcut : ¬ ∃ received, Arrives message.kind message.topics received) : ¬ Lands bytes := by
  rw [lands_iff hlt]
  rintro ⟨message', received, hencodes', harrives⟩
  have node := Node.construct ⟨fun _ => Topic.ofName [], 0⟩
  have addr : SockaddrIn := ⟨(0, 0, 0, 0), (0, 0)⟩
  obtain ⟨what, hcut'⟩ := handlerRead_cut hencodes hlt addr hcut node
  rw [handlerRead_arrives hencodes' hlt addr harrives node] at hcut'
  cases hcut'

theorem not_publishesNull_of_mem {m : TopicManager} {c : Node.Call} {message : Message}
    (h : message ∈ (answer m c).2) : ¬ Node.PublishesNull m c := by
  cases c with
  | createTopic _ _ | createPublishTopic _ _ | subscribe _ | write _ => exact id
  | publish topicName topic =>
    rintro ⟨rfl, hone⟩
    rw [answer, if_pos hone] at h
    exact absurd h List.not_mem_nil

theorem exists_messages {log : List (ι × Bytes)} (h : ∀ x ∈ log, ∃ message, Encodes x.2 message) :
    ∃ log' : List (ι × Message),
      List.Forall₂ (fun x y => x.1 = y.1 ∧ Encodes x.2 y.2) log log' := by
  induction log with
  | nil => exact ⟨[], .nil⟩
  | cons x log ih =>
    obtain ⟨message, hencodes⟩ := h x List.mem_cons_self
    obtain ⟨log', hlog⟩ := ih fun y hy => h y (List.mem_cons_of_mem _ hy)
    exact ⟨(x.1, message) :: log', .cons ⟨rfl, hencodes⟩ hlog⟩

/-- **An event leaves a node alive iff** its timer can announce, its datagram lands, or its call
passes no null pointer: that is when the peer goes on. -/
theorem Acts.alive_iff {log : List (ι × Bytes)} (hlog : ∀ x ∈ log, ∃ message, Encodes x.2 message)
    {s s' : Node.Process} {event : Node.Event} {out : List Bytes} (hs : InOrder s)
    (h : Acts setting log i s event s' out) : Alive s' ↔ KeepsAlive s event := by
  obtain ⟨log', hlog'⟩ := exists_messages hlog
  obtain ⟨input, out', hact, hseen, -⟩ := h.simulates hlog' hs
  obtain ⟨⟨mid, hnext, -⟩, hgroup, -, -⟩ := h
  rw [alive_iff_topicsOf]
  cases s with
  | terminated fault => cases hnext
  | running node consumed =>
  generalize hm : topicsOf (.running node consumed) = m at hact
  generalize topicsOf s' = m' at hact
  cases event with
  | call c =>
    rw [KeepsAlive]
    cases hact with
    | receive | cut | announce | fail | idle => exact hseen.elim
    | call _ hno _ _ =>
      obtain rfl := Option.some.inj hm
      obtain rfl : c = _ := hseen
      exact iff_of_true ⟨_, rfl⟩ hno
    | refuse _ hmessage hrefused _ =>
      obtain rfl := Option.some.inj hm
      obtain rfl : c = _ := hseen
      exact iff_of_true ⟨_, rfl⟩ (not_publishesNull_of_mem hmessage)
    | crash _ hnull =>
      obtain rfl := Option.some.inj hm
      obtain rfl : c = _ := hseen
      exact iff_of_false (fun ⟨_, h⟩ => by cases h) fun hno => hno hnull
  | complete request res bytes addr =>
    rw [KeepsAlive]
    cases hact with
    | call | refuse | crash => exact hseen.elim
    | receive _ harrives _ =>
      obtain ⟨htype, hres, -, hencodes⟩ := hseen
      have hread : request.2.type ≠ .timer := by simp [htype]
      have hlands := (lands_iff (hgroup.length_lt htype hres)).mpr ⟨_, _, hencodes, harrives⟩
      exact iff_of_true ⟨_, rfl⟩ fun _ => ⟨fun htimer => absurd htimer hread, fun _ => hlands⟩
    | cut _ hcut =>
      obtain ⟨htype, hres, -, hencodes⟩ := hseen
      have hlt := hgroup.length_lt htype hres
      exact iff_of_false (fun ⟨_, h⟩ => by cases h) fun hkeeps =>
        not_lands_of_cut hencodes hlt hcut ((hkeeps hres).2 htype)
    | announce htick _ =>
      obtain rfl := Option.some.inj hm
      have htimer : request.2.type ≠ .read := by simp [hseen.1]
      exact iff_of_true ⟨_, rfl⟩ fun _ => ⟨fun _ => htick, fun hread => absurd hread htimer⟩
    | fail hno =>
      obtain rfl := Option.some.inj hm
      exact iff_of_false (fun ⟨_, h⟩ => by cases h) fun hkeeps =>
        hno ((hkeeps hseen.2).1 hseen.1)
    | idle _ =>
      refine iff_of_true ⟨_, rfl⟩ fun hres => ?_
      rcases hseen with ⟨hneg, hne⟩ | hsend | hsend
      · omega
      · simp [hsend]
      · simp [hsend]

variable [DecidableEq ι]

/-- **The nodes of a domain stay alive iff** every timer that expires can announce the topics of
its node, every datagram that is received lands, and no call publishes data of a null pointer: no
other event, of any node, in any order, ends a node. -/
theorem alive_run_iff {heaps : ι → Heap}
    {trace : List (Network ι Node.Process Bytes × (ι × Node.Event))}
    {net : Network ι Node.Process Bytes}
    (r : Run (Network.Step (Acts setting)) (start heaps) trace net) :
    ((∀ x ∈ trace, ∀ i, Alive (x.1.states i)) ∧ ∀ i, Alive (net.states i)) ↔
      ∀ x ∈ trace, KeepsAlive (x.1.states x.2.1) x.2.2 := by
  refine Network.always_iff (M := fun x => ∃ message, Encodes x.2 message)
    (I := fun _ _ s => InOrder s) (Q := Alive) (C := fun _ _ s event => KeepsAlive s event)
    (fun _ _ _ _ h => h) (fun log i s event s' out hlog hs h => ⟨hs.step h.1, ?_⟩)
    (fun log i s event s' out hlog hs _ h => h.alive_iff hlog hs)
    ⟨fun x hx => absurd hx List.not_mem_nil, inOrder_start heaps⟩ (fun i => trivial) r
  obtain ⟨log', hlog'⟩ := exists_messages hlog
  obtain ⟨-, out', -, -, hout⟩ := h.simulates hlog' hs
  intro bytes hbytes
  obtain ⟨message, -, hencodes⟩ := (Network.exists_of_forall₂ hout).1 bytes hbytes
  exact ⟨message, hencodes⟩

/-- Both nodes of a pair are alive when the second one has heard of what the first one publishes. -/
theorem alive_run_iff_pair : ∃ trace net,
    Run (Network.Step (Acts (pair fun _ _ => True))) (start heapsA) trace net ∧
      trace.length = 3 ∧ ∀ i, Alive (net.states i) := by
  obtain ⟨request, s, r, htype, -, -⟩ := @exists_run_heard (fun _ _ => True) trivial
  have hlands : Lands [0, 1, 97] := by
    refine ⟨_, encodes_a, ?_⟩
    rw [if_pos (by decide)]
    exact fun h => by cases h.1
  refine ⟨_, _, r, rfl, ((alive_run_iff r).mpr fun x hx => ?_).2⟩
  rcases List.mem_cons.mp hx with rfl | hx
  · exact id
  rcases List.mem_cons.mp hx with rfl | hx
  · exact fun _ => ⟨fun _ => canTick_publisher, fun hread => by cases hread⟩
  · obtain rfl := List.mem_singleton.mp hx
    refine fun _ => ⟨fun htimer => ?_, fun _ => hlands⟩
    rw [htype] at htimer
    cases htimer

end Domain

end Mydds
