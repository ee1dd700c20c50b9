import Mydds.Node
import Mydds.Packet.Encode

/-!
# A packet in the receive buffer

The kernel writes a datagram over the front of a zeroed buffer of 2048 bytes, and
`handler_read` decodes the whole buffer.  A zero byte is a frame, the one without content.
So behind the items that were sent the decoder sees one empty item for each byte that is
left, for `Publish` one for every two, and it refuses a `Publish` that leaves an odd number.
`carries_received_iff` says that a packet arrives as it was sent exactly when it fills the
buffer.
-/

namespace Mydds

/-- The buffer and the address that the kernel has written. -/
def IoInfo.received (info : IoInfo) (bytes : Bytes) (addr : SockaddrIn) : IoInfo :=
  { info with
    destAddr := some addr
    recvBuffer := bytes.take info.recvBuffer.length ++ info.recvBuffer.drop bytes.length }

/-- The frame of the empty string. -/
def Frame.zero : Frame := Frame.ofContent [] (Nat.zero_le _)

theorem Frame.bytes_zero : Frame.zero.bytes = [0] := by
  show Util.lengthPrefix 0 ++ [] = [0]
  rw [Util.lengthPrefix_of_lt (Nat.zero_lt_succ _)]
  rfl

theorem flatMap_replicate_zero (n : Nat) :
    (List.replicate n Frame.zero).flatMap Frame.bytes = List.replicate n 0 := by
  induction n with
  | zero => rfl
  | succ n ih => rw [List.replicate_succ, List.flatMap_cons, ih, Frame.bytes_zero]; rfl

theorem recvBuffer_received {bytes : Bytes} (h : bytes.length ≤ IoInfo.bufferSize)
    (addr : SockaddrIn) : (Node.receiveInfo.received bytes addr).recvBuffer
      = bytes ++ List.replicate (IoInfo.bufferSize - bytes.length) 0 := by
  rw [IoInfo.received, Node.receiveInfo, List.length_replicate, List.take_of_length_le h,
    List.drop_replicate]

/-- A name that fills the buffer, behind the type and the two bytes of its length. -/
def fullName : Bytes := List.replicate 2045 97

theorem length_fullName : fullName.length = 2045 := List.length_replicate

/-- The frame of a name that fills the buffer. -/
def Frame.full : Frame := Frame.ofContent fullName (by rw [length_fullName]; decide)

theorem Frame.length_bytes_full : Frame.full.bytes.length + 1 = IoInfo.bufferSize := by
  have hprefix : (Util.lengthPrefix 2045).length = 2 := by
    rw [Util.lengthPrefix_of_ge (by decide), Util.lengthPrefix_of_lt (by decide)]
    rfl
  rw [Frame.length_bytes]
  show (Util.lengthPrefix fullName.length).length + fullName.length + 1 = 2048
  rw [length_fullName, hprefix]

def DDSData.itemCount : DDSData → Nat
  | discoverData data => data.data.length
  | publishData data => data.data.length
  | subscribeData data => data.data.length

theorem Carries.itemCount_eq {kind : CommunicationType} {topics : List Topic} {data : DDSData}
    (h : Carries kind topics data) : data.itemCount = topics.length := by
  cases kind with
  | discover | publish | subscribe =>
    obtain ⟨d, rfl, hall⟩ := h
    exact hall.length_eq.symm

theorem length_pairUp : ∀ (frames : List Frame), (pairUp frames).length = frames.length / 2
  | [] => rfl
  | [_] => by simp [pairUp]
  | f :: g :: frames => by
    rw [pairUp, List.length_cons, length_pairUp frames, List.length_cons, List.length_cons]
    omega

theorem eq_zero_of_itemCount {kind : CommunicationType} {frames : List Frame} {n : Nat}
    (heven : kind = .publish → Even frames.length)
    (heven' : kind = .publish → Even (frames ++ List.replicate n Frame.zero).length)
    (h : (payloadOf kind (frames ++ List.replicate n Frame.zero)).itemCount
      = (payloadOf kind frames).itemCount) : n = 0 := by
  cases kind with
  | discover | subscribe =>
    simp only [payloadOf, DDSData.itemCount, List.length_map, List.length_append,
      List.length_replicate] at h
    omega
  | publish =>
    obtain ⟨a, ha⟩ := heven rfl
    obtain ⟨b, hb⟩ := heven' rfl
    simp only [payloadOf, DDSData.itemCount, List.length_map, length_pairUp] at h
    rw [List.length_append, List.length_replicate] at hb h
    omega

/-- **A packet in a larger buffer does not carry what was sent.** -/
theorem size_of_carries {kind : CommunicationType} {heap : Heap} {topics : List TopicPtr}
    {bytes : Bytes} (hcreate : createPacket kind heap (topics.map some) = .ok bytes)
    (hsize : bytes.length ≤ IoInfo.bufferSize) {addr : SockaddrIn} {packet packet' : DDSPacket}
    {n : UInt32} (hunpack : packet.unpack (Node.receiveInfo.received bytes addr).recvBuffer
      = (.ok n, packet'))
    (hcarries : Carries kind (topics.map heap.topics) packet'.ddsData) :
    bytes.length = IoInfo.bufferSize := by
  have hframable := framable_of_createPacket hcreate (Nat.lt_of_le_of_lt hsize (by decide))
  obtain ⟨rest, frames, hcreate', ⟨hrest, heven⟩, hpayload⟩ := createPacket_eq kind heap hframable
  obtain rfl : bytes = kind.toByte :: rest := Except.ok.inj (hcreate.symm.trans hcreate')
  rw [recvBuffer_received hsize, List.cons_append] at hunpack
  -- the frames of the buffer are those of the packet and one for each zero
  obtain ⟨frames', hframes'⟩ := (packet.unpack_ok_iff kind _).mp ⟨n, by rw [hunpack]⟩
  obtain rfl : frames' = frames
      ++ List.replicate (IoInfo.bufferSize - (kind.toByte :: rest).length) Frame.zero := by
    refine Frame.isPrefixCode.flatMap_injective (hframes'.1.symm.trans ?_)
    rw [List.flatMap_append, flatMap_replicate_zero, ← hrest]
  rw [packet.unpack_payload hframes'] at hunpack
  obtain ⟨-, rfl⟩ := Prod.mk.inj hunpack
  have hcount := hcarries.itemCount_eq.trans
    (carries_sentData (List.forall_mem_map.mpr hframable)).itemCount_eq.symm
  rw [← hpayload] at hcount
  have hzero := eq_zero_of_itemCount heven hframes'.2 hcount
  omega

/-- **Receive framing.**  A packet that fits into the receive buffer is decoded there, without
a fault and into exactly the items that were sent, iff it fills the buffer. -/
theorem carries_received_iff (kind : CommunicationType) (heap : Heap) (topics : List TopicPtr)
    (bytes : Bytes) (addr : SockaddrIn)
    (hcreate : createPacket kind heap (topics.map some) = .ok bytes)
    (hsize : bytes.length ≤ IoInfo.bufferSize) :
    (∃ n packet, (DDSPacket.fresh 0).unpack (Node.receiveInfo.received bytes addr).recvBuffer
        = (.ok n, packet) ∧ packet.header.type = kind.toByte ∧
      Carries kind (topics.map heap.topics) packet.ddsData) ↔ bytes.length = IoInfo.bufferSize := by
  constructor
  · rintro ⟨n, packet, hunpack, -, hcarries⟩
    exact size_of_carries hcreate hsize hunpack hcarries
  · intro hfull
    have hframable := framable_of_createPacket hcreate (Nat.lt_of_le_of_lt hsize (by decide))
    obtain ⟨rest, frames, hcreate', hrest, hpayload⟩ := createPacket_eq kind heap hframable
    obtain rfl : bytes = kind.toByte :: rest := Except.ok.inj (hcreate.symm.trans hcreate')
    refine ⟨UInt32.ofNat (rest.length + 1), ⟨⟨kind.toByte⟩, payloadOf kind frames⟩, ?_, rfl, ?_⟩
    · rw [recvBuffer_received hsize, hfull, Nat.sub_self, List.replicate_zero, List.append_nil,
        DDSPacket.unpack_payload _ hrest]
    · show Carries kind _ (payloadOf kind frames)
      rw [hpayload]
      exact carries_sentData (List.forall_mem_map.mpr hframable)

/-- A topic whose name fills the buffer. -/
theorem carries_received_iff_full : ∃ bytes n packet,
    createPacket .discover ⟨fun _ => Topic.ofName fullName, 1⟩ ([0].map some) = .ok bytes ∧
    (DDSPacket.fresh 0).unpack (Node.receiveInfo.received bytes ⟨(10, 0, 0, 1), (0, 80)⟩).recvBuffer
      = (.ok n, packet) ∧
    Carries .discover [Topic.ofName fullName] packet.ddsData := by
  have hnopublish : CommunicationType.discover ≠ .publish := by decide
  have hcreate := (@createPacket_eq_pack .discover ⟨fun _ => Topic.ofName fullName, 1⟩ [0]
    fun hk => absurd hk hnopublish).trans
    (DDSPacket.pack_payloadOf .discover [Frame.full] fun hk => absurd hk hnopublish)
  have hsize : (CommunicationType.discover.toByte ::
      ([Frame.full].map Frame.canon).flatMap Frame.bytes).length = 2048 := by
    rw [List.map_singleton, List.flatMap_singleton, Frame.full, Frame.canon_ofContent,
      List.length_cons]
    exact Frame.length_bytes_full
  obtain ⟨n, packet, hunpack, -, hcarries⟩ := (carries_received_iff _ _ [0] _
    ⟨(10, 0, 0, 1), (0, 80)⟩ hcreate (Nat.le_of_eq hsize)).mpr hsize
  exact ⟨_, n, packet, hcreate, hunpack, hcarries⟩

/-- The announcement of a topic `"a"` is three bytes long. -/
theorem carries_received_fails : ¬ ∀ (kind : CommunicationType) (heap : Heap)
    (topics : List TopicPtr) (bytes : Bytes) (addr : SockaddrIn),
    createPacket kind heap (topics.map some) = .ok bytes → bytes.length ≤ IoInfo.bufferSize →
    ∃ n packet, (DDSPacket.fresh 0).unpack (Node.receiveInfo.received bytes addr).recvBuffer
        = (.ok n, packet) ∧ Carries kind (topics.map heap.topics) packet.ddsData := by
  intro h
  have hcreate : createPacket .discover ⟨fun _ => Topic.ofName [97], 1⟩ ([0].map some)
      = .ok [0, 1, 97] := by decide
  obtain ⟨n, packet, hunpack, hcarries⟩ :=
    h _ _ _ _ ⟨(10, 0, 0, 1), (0, 80)⟩ hcreate (by decide)
  exact absurd (size_of_carries hcreate (by decide) hunpack hcarries) (by decide)

end Mydds
