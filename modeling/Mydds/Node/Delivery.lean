import Mydds.Packet.Truncate
import Mydds.Node.Receive

/-!
# What a receiver makes of a packet

The receive buffer has one size.  A shorter packet is followed by the zeros of the buffer, and a
zero byte is the frame of the empty string; a longer one is cut off.  So the receiver reads the
first 2048 bytes of the packet with blank items behind it, `padded`, and it reads them without a
fault iff the buffer ends at the boundary of an item.

`Arrives` says it in terms of the packet: all of it arrives and blank items fill up the buffer, or
the first items fill it.  `unpack_received` is the outcome of the decoder for every packet that an
encoder makes.
-/

namespace Mydds

/-- The topic of a blank item: no name, and no data. -/
def blank : Topic := ⟨[], fun _ => some [], [], []⟩

/-- The topics of the items that a receiver reads when a packet of these topics arrives. -/
inductive Arrives (kind : CommunicationType) (topics : List Topic) : List Topic → Prop
  | whole {n : Nat} : boundary kind topics topics.length + kind.fields * n = IoInfo.bufferSize →
      Arrives kind topics (topics ++ List.replicate n blank)
  | cut {j : Nat} : j < topics.length → boundary kind topics j = IoInfo.bufferSize →
      Arrives kind topics (topics.take j)

/-- The topics, and blank ones to fill any buffer. -/
def padded (topics : List Topic) : List Topic :=
  topics ++ List.replicate IoInfo.bufferSize blank

/-! ### Boundaries behind the packet -/

theorem itemSize_blank (kind : CommunicationType) : itemSize kind blank = kind.fields := by
  have hfield : fieldSize [] = 1 := by
    rw [fieldSize, List.length_nil, Util.lengthPrefix_of_lt (by decide)]
    rfl
  cases kind with
  | discover | subscribe => exact hfield
  | publish =>
    show fieldSize [] + fieldSize [] = 2
    rw [hfield]

theorem boundary_append_of_le (kind : CommunicationType) (topics more : List Topic) {j : Nat}
    (hj : j ≤ topics.length) : boundary kind (topics ++ more) j = boundary kind topics j := by
  rw [boundary, boundary, List.take_append_of_le_length hj]

theorem boundary_blank (kind : CommunicationType) (topics : List Topic) {n m : Nat} (hn : n ≤ m) :
    boundary kind (topics ++ List.replicate m blank) (topics.length + n)
      = boundary kind topics topics.length + kind.fields * n := by
  have htake : (topics ++ List.replicate m blank).take (topics.length + n)
      = topics ++ List.replicate n blank := by
    rw [List.take_length_add_append, List.take_replicate, Nat.min_eq_left hn]
  have hsum : ((List.replicate n blank).map (itemSize kind)).sum = kind.fields * n := by
    rw [List.map_replicate, itemSize_blank, List.sum_replicate_nat, Nat.mul_comm]
  rw [boundary, boundary, htake, List.take_length, List.map_append, List.sum_append, hsum]
  omega

theorem fields_pos (kind : CommunicationType) : 0 < kind.fields := by
  cases kind <;> decide

theorem arrives_iff {kind : CommunicationType} {topics received : List Topic} :
    Arrives kind topics received ↔ ∃ j ≤ (padded topics).length,
      boundary kind (padded topics) j = IoInfo.bufferSize ∧ received = (padded topics).take j := by
  have hlength : (padded topics).length = topics.length + IoInfo.bufferSize := by
    rw [padded, List.length_append, List.length_replicate]
  constructor
  · intro h
    cases h with
    | @whole n hsize =>
      have hn : n ≤ IoInfo.bufferSize := by
        have hle := Nat.mul_le_mul_right n (fields_pos kind)
        omega
      refine ⟨topics.length + n, by omega, (boundary_blank kind topics hn).trans hsize, ?_⟩
      rw [padded, List.take_length_add_append, List.take_replicate, Nat.min_eq_left hn]
    | @cut j hj hsize =>
      refine ⟨j, by omega, (boundary_append_of_le kind _ _ (Nat.le_of_lt hj)).trans hsize, ?_⟩
      rw [padded, List.take_append_of_le_length (Nat.le_of_lt hj)]
  · rintro ⟨j, hj, hsize, rfl⟩
    by_cases hlt : j < topics.length
    · rw [padded, boundary_append_of_le kind _ _ (Nat.le_of_lt hlt)] at hsize
      rw [padded, List.take_append_of_le_length (Nat.le_of_lt hlt)]
      exact .cut hlt hsize
    · obtain ⟨n, rfl⟩ := Nat.exists_eq_add_of_le (Nat.not_lt.mp hlt)
      have hn : n ≤ IoInfo.bufferSize := by omega
      rw [padded, boundary_blank kind topics hn] at hsize
      rw [padded, List.take_length_add_append, List.take_replicate, Nat.min_eq_left hn]
      exact .whole hsize

/-! ### The padded packet -/

theorem Frame.canon_zero : Frame.zero.canon = Frame.zero := Frame.canon_ofContent [] _

theorem pairUp_append : ∀ {frames : List Frame} (more : List Frame), Even frames.length →
    pairUp (frames ++ more) = pairUp frames ++ pairUp more
  | [], _, _ => rfl
  | [_], _, h => absurd h (by rw [List.length_singleton]; decide)
  | f :: g :: frames, more, h => by
    have heven : Even frames.length := by
      rw [List.length_cons, List.length_cons] at h
      simpa [Nat.even_add_one] using h
    rw [List.cons_append, List.cons_append, pairUp, pairUp, pairUp_append more heven,
      List.cons_append]

theorem pairUp_replicate (n : Nat) : pairUp (List.replicate (2 * n) Frame.zero)
    = List.replicate n (Frame.zero, Frame.zero) := by
  induction n with
  | zero => rfl
  | succ n ih =>
    rw [Nat.mul_succ, List.replicate_succ, List.replicate_succ, pairUp, ih, List.replicate_succ]

/-- **Zeros are the frames of blank items.** -/
theorem payloadOf_padded {kind : CommunicationType} {frames : List Frame} {topics : List Topic}
    (heven : kind = .publish → Even frames.length)
    (h : payloadOf kind frames = sentData kind topics) (n : Nat) :
    payloadOf kind (frames ++ List.replicate (kind.fields * n) Frame.zero)
      = sentData kind (topics ++ List.replicate n blank) := by
  cases kind with
  | discover | subscribe =>
    simp only [payloadOf, sentData, DDSData.discoverData.injEq, DiscoverData.mk.injEq,
      DDSData.subscribeData.injEq, SubscribeData.mk.injEq] at h ⊢
    rw [List.map_append, List.map_append, h, CommunicationType.fields, Nat.one_mul,
      List.map_replicate, List.map_replicate]
    rfl
  | publish =>
    simp only [payloadOf, sentData, DDSData.publishData.injEq, PublishData.mk.injEq] at h ⊢
    rw [pairUp_append _ (heven rfl), List.map_append, List.map_append, h, CommunicationType.fields,
      pairUp_replicate, List.map_replicate, List.map_replicate]
    rfl

theorem recvBuffer_eq_take (bytes : Bytes) (addr : SockaddrIn) {n : Nat}
    (hn : IoInfo.bufferSize ≤ n) : (Node.receiveInfo.received bytes addr).recvBuffer
      = (bytes ++ List.replicate n 0).take IoInfo.bufferSize := by
  rw [IoInfo.received, Node.receiveInfo, List.length_replicate, List.drop_replicate,
    List.take_append, List.take_replicate, Nat.min_eq_left (Nat.le_trans (Nat.sub_le _ _) hn)]

/-- **Topics that can be framed are encoded**, in as many bytes as their last boundary says. -/
theorem exists_packet (kind : CommunicationType) (heap : Heap) {ptrs : List TopicPtr}
    (h : ∀ p ∈ ptrs, Framable kind (heap.topics p)) :
    ∃ bytes, createPacket kind heap (ptrs.map some) = .ok bytes ∧
      bytes.length = boundary kind (ptrs.map heap.topics) (ptrs.map heap.topics).length := by
  obtain ⟨frames, hcanon, heven, hpayload⟩ := exists_sentFrames kind (ptrs.map heap.topics)
    (List.forall_mem_map.mpr h)
  have hpack := DDSPacket.pack_payloadOf kind frames heven
  rw [hpayload, hcanon] at hpack
  have hdata : kind = .publish → ∀ p ∈ ptrs, (heap.topics p).storage 0 ≠ none := by
    intro hk p hp hnone
    obtain ⟨data, hsome, -⟩ := (h p hp).2 hk
    rw [hnone] at hsome
    cases hsome
  refine ⟨_, (createPacket_eq_pack kind heap hdata).trans hpack, ?_⟩
  rw [List.length_cons, length_frames hcanon heven hpayload, boundary, List.take_length,
    Nat.add_comm]

theorem length_createPacket {kind : CommunicationType} {heap : Heap} {topics : List TopicPtr}
    {bytes : Bytes} (hcreate : createPacket kind heap (topics.map some) = .ok bytes)
    (hlt : bytes.length < 2 ^ 32) :
    bytes.length = boundary kind (topics.map heap.topics) (topics.map heap.topics).length := by
  obtain ⟨bytes', hcreate', hlength⟩ :=
    exists_packet kind heap (framable_of_createPacket hcreate hlt)
  obtain rfl := Except.ok.inj (hcreate.symm.trans hcreate')
  exact hlength

theorem exists_arrives_iff_dvd {kind : CommunicationType} {topics : List Topic}
    (hsize : boundary kind topics topics.length ≤ IoInfo.bufferSize) :
    (∃ received, Arrives kind topics received) ↔
      kind.fields ∣ IoInfo.bufferSize - boundary kind topics topics.length := by
  constructor
  · rintro ⟨received, harrives⟩
    cases harrives with
    | @whole n hn => exact ⟨n, by omega⟩
    | @cut j hj hcut =>
      -- an earlier boundary lies before the last one
      have hle : boundary kind topics topics.length ≤ boundary kind topics j := by omega
      exact absurd ((boundary_le_iff kind (Nat.le_refl _)).mp hle) (Nat.not_le.mpr hj)
  · rintro ⟨n, hn⟩
    exact ⟨_, .whole (n := n) (by omega)⟩

/-- A packet that is not cut off arrives unless it is a `Publish` of odd size. -/
theorem exists_arrives_iff_odd {kind : CommunicationType} {topics : List Topic}
    (hsize : boundary kind topics topics.length ≤ IoInfo.bufferSize) :
    (∃ received, Arrives kind topics received) ↔
      ¬ (kind = .publish ∧ boundary kind topics topics.length % 2 = 1) := by
  have hbuffer : IoInfo.bufferSize = 2048 := rfl
  rw [exists_arrives_iff_dvd hsize]
  cases kind with
  | discover | subscribe => exact iff_of_true (Nat.one_dvd _) (by simp)
  | publish =>
    rw [hbuffer, CommunicationType.fields, Nat.dvd_iff_mod_eq_zero]
    simp only [true_and]
    omega

/-- A packet that is cut off arrives iff the buffer ends behind one of its items. -/
theorem exists_arrives_iff_boundary {kind : CommunicationType} {topics : List Topic}
    (hsize : IoInfo.bufferSize < boundary kind topics topics.length) :
    (∃ received, Arrives kind topics received) ↔
      ∃ j < topics.length, boundary kind topics j = IoInfo.bufferSize := by
  constructor
  · rintro ⟨received, harrives⟩
    cases harrives with
    | whole hn => omega
    | @cut j hj hcut => exact ⟨j, hj, hcut⟩
  · rintro ⟨j, hj, hcut⟩
    exact ⟨_, .cut hj hcut⟩

theorem exists_paddedFrames {kind : CommunicationType} {heap : Heap} {topics : List TopicPtr}
    {bytes : Bytes} (hcreate : createPacket kind heap (topics.map some) = .ok bytes)
    (hlt : bytes.length < 2 ^ 32) (addr : SockaddrIn) :
    ∃ frames : List Frame, frames.map Frame.canon = frames ∧
      (kind = .publish → Even frames.length) ∧
      payloadOf kind frames = sentData kind (padded (topics.map heap.topics)) ∧
      2047 ≤ (frames.flatMap Frame.bytes).length ∧
      (Node.receiveInfo.received bytes addr).recvBuffer
        = kind.toByte :: (frames.flatMap Frame.bytes).take 2047 := by
  have hframable := framable_of_createPacket hcreate hlt
  obtain ⟨frames, hcanon, heven, hpayload⟩ := exists_sentFrames kind (topics.map heap.topics)
    (List.forall_mem_map.mpr hframable)
  obtain ⟨-, hpack⟩ := pack_of_createPacket hcreate
  rw [← hpayload, DDSPacket.pack_payloadOf kind frames heven, hcanon] at hpack
  obtain rfl := Except.ok.inj hpack
  have hle : IoInfo.bufferSize ≤ kind.fields * IoInfo.bufferSize :=
    Nat.le_mul_of_pos_left _ (fields_pos kind)
  have hbytes : (frames ++ List.replicate (kind.fields * IoInfo.bufferSize) Frame.zero).flatMap
      Frame.bytes = frames.flatMap Frame.bytes
        ++ List.replicate (kind.fields * IoInfo.bufferSize) 0 := by
    rw [List.flatMap_append, flatMap_replicate_zero]
  refine ⟨frames ++ List.replicate (kind.fields * IoInfo.bufferSize) Frame.zero, ?_, fun hk => ?_,
    payloadOf_padded heven hpayload _, ?_, ?_⟩
  · rw [List.map_append, hcanon, List.map_replicate, Frame.canon_zero]
  · rw [List.length_append, List.length_replicate, hk]
    exact (heven hk).add (even_two_mul _)
  · have hsize : IoInfo.bufferSize = 2048 := rfl
    rw [hbytes, List.length_append, List.length_replicate]
    omega
  · rw [recvBuffer_eq_take _ addr hle, List.cons_append, hbytes]
    rfl

theorem unpack_received_arrives {kind : CommunicationType} {heap : Heap} {topics : List TopicPtr}
    {bytes : Bytes} (hcreate : createPacket kind heap (topics.map some) = .ok bytes)
    (hlt : bytes.length < 2 ^ 32) (packet : DDSPacket) (addr : SockaddrIn) {received : List Topic}
    (h : Arrives kind (topics.map heap.topics) received) :
    packet.unpack (Node.receiveInfo.received bytes addr).recvBuffer
      = (.ok 2048, ⟨⟨kind.toByte⟩, sentData kind received⟩) := by
  obtain ⟨frames, hcanon, heven, hpayload, hlong, hbuffer⟩ := exists_paddedFrames hcreate hlt addr
  obtain ⟨j, -, hsize, rfl⟩ := arrives_iff.mp h
  have hleft := packet.unpack_payload (isPayload_take hcanon heven hpayload hsize.symm)
  rw [payloadOf_take hpayload, List.length_take, Nat.min_eq_left hlong] at hleft
  rw [hbuffer]
  exact hleft

theorem unpack_received_reject {kind : CommunicationType} {heap : Heap} {topics : List TopicPtr}
    {bytes : Bytes} (hcreate : createPacket kind heap (topics.map some) = .ok bytes)
    (hlt : bytes.length < 2 ^ 32) (packet : DDSPacket) (addr : SockaddrIn)
    (h : ¬ ∃ received, Arrives kind (topics.map heap.topics) received) :
    ∃ what, packet.unpack (Node.receiveInfo.received bytes addr).recvBuffer
      = (.error (.invalidArgument what), ⟨⟨kind.toByte⟩, packet.ddsData⟩) := by
  obtain ⟨frames, hcanon, heven, hpayload, hlong, hbuffer⟩ := exists_paddedFrames hcreate hlt addr
  rw [hbuffer]
  refine packet.unpack_reject fun frames' hframes' => h ?_
  obtain ⟨j, hj, hsize⟩ := exists_boundary_of_isPayload hcanon heven hpayload hlong hframes'
  exact ⟨_, arrives_iff.mpr ⟨j, hj, hsize.symm, rfl⟩⟩

/-- **What a receiver makes of a packet.**  It reads the packet with blank items behind it, as far
as the buffer goes; the decoder throws iff the buffer ends in the middle of an item.  If the packet
fits into the buffer, this is so iff it is a `Publish` of odd size. -/
theorem unpack_received {kind : CommunicationType} {heap : Heap} {topics : List TopicPtr}
    {bytes : Bytes} (hcreate : createPacket kind heap (topics.map some) = .ok bytes)
    (hlt : bytes.length < 2 ^ 32) (packet : DDSPacket) (addr : SockaddrIn) :
    (∀ received, Arrives kind (topics.map heap.topics) received →
      packet.unpack (Node.receiveInfo.received bytes addr).recvBuffer
        = (.ok 2048, ⟨⟨kind.toByte⟩, sentData kind received⟩)) ∧
    ((¬ ∃ received, Arrives kind (topics.map heap.topics) received) → ∃ what,
      packet.unpack (Node.receiveInfo.received bytes addr).recvBuffer
        = (.error (.invalidArgument what), ⟨⟨kind.toByte⟩, packet.ddsData⟩)) ∧
    (bytes.length ≤ 2048 → ((∃ received, Arrives kind (topics.map heap.topics) received) ↔
      ¬ (kind = .publish ∧ bytes.length % 2 = 1))) := by
  refine ⟨fun received harrives => unpack_received_arrives hcreate hlt packet addr harrives,
    fun hno => unpack_received_reject hcreate hlt packet addr hno, fun hsize => ?_⟩
  have hlength := length_createPacket hcreate hlt
  rw [exists_arrives_iff_odd (by rw [← hlength]; exact hsize), ← hlength]

/-- The announcement of a topic `"a"`, three bytes long. -/
theorem unpack_received_three :
    (DDSPacket.fresh 0).unpack (Node.receiveInfo.received [0, 1, 97]
        ⟨(10, 0, 0, 1), (0, 80)⟩).recvBuffer
      = (.ok 2048,
        ⟨⟨0⟩, sentData .discover ([Topic.ofName [97]] ++ List.replicate 2045 blank)⟩) := by
  have hcreate : createPacket .discover ⟨fun _ => Topic.ofName [97], 1⟩ ([0].map some)
      = .ok [0, 1, 97] := by decide
  have hlength := length_createPacket hcreate (by decide)
  refine (unpack_received hcreate (by decide) (DDSPacket.fresh 0) ⟨(10, 0, 0, 1), (0, 80)⟩).1 _
    (.whole (n := 2045) ?_)
  rw [← hlength]
  rfl

end Mydds
