import Mydds.Domain.Discovery

/-!
# What is sent

The log of a domain holds nothing but what its nodes have put there.  `sent_accepted` leads from a
datagram back to the event that has sent it: a timer that has expired, a `publish` or a `subscribe`.
It is the packet of topics that the sender had at that moment, at least one of them, and a decoder
that gets all of it returns their names and data.

A message of the protocol is an action of a peer (`Network.exists_sender`), so the way back leads
over `exists_protocolRun`.
-/

namespace Mydds

open Lib

namespace Domain

variable {ι : Type} {setting : Setting ι}

/-- A node with these topics sends the message at this event. -/
def SentOn (m : TopicManager) (message : Message) : Node.Event → Prop
  | .complete request res _ _ => request.2.type = .timer ∧ (0 ≤ res ∨ res = -etime) ∧
    CanTick m ∧ message ∈ announcement m
  | .call c => message ∈ (answer m c).2

theorem topics_ne_nil_of_announcement {m : TopicManager} {message : Message} (h : CanTick m)
    (hmem : message ∈ announcement m) : message.topics ≠ [] := by
  rw [announcement] at hmem
  split at hmem
  · exact absurd hmem List.not_mem_nil
  · rename_i hlength
    obtain rfl := List.mem_singleton.mp hmem
    obtain ⟨topic, htopic⟩ := List.length_pos_iff_exists_mem.mp (Nat.pos_of_ne_zero hlength)
    -- no null pointer is announced
    obtain ⟨t, rfl, -⟩ := h topic htopic
    intro hnil
    have ht := List.reduceOption_mem_iff.mpr htopic
    rw [List.map_eq_nil_iff.mp hnil] at ht
    exact List.not_mem_nil ht

theorem topics_ne_nil_of_answer {m : TopicManager} {c : Node.Call} {message : Message}
    (hmem : message ∈ (answer m c).2) : message.topics ≠ [] := by
  cases c with
  | createTopic _ _ | createPublishTopic _ _ | write _ => exact absurd hmem List.not_mem_nil
  | publish name topic =>
    rw [answer] at hmem
    split at hmem
    · obtain ⟨t, -, rfl⟩ := List.mem_map.mp hmem
      exact List.cons_ne_nil _ _
    · exact absurd hmem List.not_mem_nil
  | subscribe name =>
    rw [answer] at hmem
    split at hmem
    · exact absurd hmem List.not_mem_nil
    · rename_i hlength
      obtain rfl := List.mem_singleton.mp hmem
      exact fun hnil => hlength (by rw [List.map_eq_nil_iff.mp hnil]; rfl)

/-- **No message is empty.** -/
theorem SentOn.topics_ne_nil {m : TopicManager} {message : Message} {event : Node.Event}
    (h : SentOn m message event) : message.topics ≠ [] := by
  cases event with
  | complete request res bytes addr => exact topics_ne_nil_of_announcement h.2.2.1 h.2.2.2
  | call c => exact topics_ne_nil_of_answer h

theorem Protocol.sentOn {log : List (ι × Message)} {i : ι} {s s' : Option TopicManager}
    {input : Input ι} {out : List Message} {message : Message} {event : Node.Event}
    (h : Protocol setting log i s input s' out) (hmem : message ∈ out)
    (hseen : SeenAs setting event input) : ∃ m, s = some m ∧ SentOn m message event := by
  cases h with
  | receive | cut | refuse | crash | fail | idle => exact absurd hmem List.not_mem_nil
  | @announce m m' htick hreorder =>
    cases event with
    | complete request res bytes addr => exact ⟨m, rfl, hseen.1, hseen.2, htick, hmem⟩
    | call c => exact hseen.elim
  | @call m m' c hallowed _ _ hreorder =>
    cases event with
    | complete request res bytes addr => exact hseen.elim
    | call c' =>
      obtain rfl : c' = c := hseen
      exact ⟨m, rfl, hmem⟩

/-- **Whatever has been sent was made of what its sender had.**  For every datagram in the log of a
domain there is an event of its sender, the expiry of a timer or a call, at which the sender had
the topics of the message that the datagram encodes: all that it publishes, the one that it
publishes data of, or those that it subscribes to.  If the datagram is not too large for UDP,
`Unpack` accepts it whole and returns one item for each of these topics, with its name and data. -/
theorem sent_accepted [DecidableEq ι] {heaps : ι → Heap}
    {trace : List (Network ι Node.Process Bytes × (ι × Node.Event))}
    {net : Network ι Node.Process Bytes}
    (r : Run (Network.Step (Acts setting)) (start heaps) trace net) {i : ι} {bytes : Bytes}
    (hsent : (i, bytes) ∈ net.sent) : ∃ before event m message,
      (before, (i, event)) ∈ trace ∧ topicsOf (before.states i) = some m ∧
      SentOn m message event ∧ message.topics ≠ [] ∧ Encodes bytes message ∧
      (bytes.length ≤ maxDatagram → ∀ packet : DDSPacket, ∃ n data,
        packet.unpack bytes = (.ok n, ⟨⟨message.kind.toByte⟩, data⟩) ∧ n.toNat = bytes.length ∧
        Carries message.kind message.topics data) := by
  obtain ⟨trace', net', r', hnet, hfollows⟩ :=
    exists_protocolRun (inOrder_start heaps) (abstracts_start heaps) r
  obtain ⟨⟨j, message⟩, hmem, hj, hencodes⟩ := (Network.exists_of_forall₂ hnet.sent).1 _ hsent
  obtain rfl : i = j := hj
  rcases Network.exists_sender r' hmem with hstart | ⟨before', input, s, out, hy, hact, hout⟩
  · exact absurd hstart List.not_mem_nil
  obtain ⟨⟨before, k, event⟩, hx, habstracts, hk, hseen⟩ :=
    (Network.exists_of_forall₂ hfollows).2 _ hy
  obtain rfl : k = i := hk
  obtain ⟨m, hm, hsentOn⟩ := hact.sentOn hout hseen
  refine ⟨before, event, m, message, hx, (habstracts.states k).symm.trans hm, hsentOn,
    hsentOn.topics_ne_nil, hencodes, fun hmax packet => ?_⟩
  have hlt : bytes.length < 2 ^ 32 := Nat.lt_of_le_of_lt hmax (by decide)
  obtain ⟨hunpack, hcarries⟩ := hencodes.unpack hlt packet
  exact ⟨_, _, hunpack, UInt32.toNat_ofNat_of_lt' hlt, hcarries⟩

/-- A node that publishes `"a"` subscribes to it. -/
theorem sent_accepted_pair : ∃ (before : Network Bool Node.Process Bytes) (event : Node.Event)
    (m : TopicManager) (message : Message), topicsOf (before.states false) = some m ∧
      SentOn m message event ∧ Encodes [2, 1, 97] message := by
  have hstep : Network.Step (Acts (pair fun _ _ => True))
      ((start heapsA).move false (.running publisher []) []) (false, .call (.subscribe [97])) _ :=
    ⟨.running (publisher.multiacast [2, 1, 97]) [], _,
      ⟨⟨_, .call rfl, Node.Process.Reorder.refl _⟩, trivial, trivial, rfl⟩, rfl⟩
  have hsent : (false, [2, 1, 97]) ∈ (((start heapsA).move false (.running publisher []) []).move
      false (.running (publisher.multiacast [2, 1, 97]) []) [[2, 1, 97]]).sent := by decide
  obtain ⟨before, event, m, message, -, hm, hsentOn, -, hencodes, -⟩ :=
    sent_accepted ((run_pair trivial).snoc hstep) hsent
  exact ⟨before, event, m, message, hm, hsentOn, hencodes⟩

end Domain

end Mydds
