import Mydds.Packet.Encode

/-!
# Packets that are cut off

A datagram that is longer than the receive buffer loses its end.  What is left is read only if
the cut falls between two items: `boundary kind topics j` is the count of bytes of the type and
the first `j` items.

* `Frame.isPrefixCode` makes the frames that can still be read the first ones of the packet.
* `payloadOf_take`: the first frames are the items of the first topics.
* `length_frames`: and they are as long as `boundary` says.
* `boundary_le_iff`: an item lies before the cut exactly if it is one of them.
-/

namespace Mydds

open Lib

/-! ### Boundaries -/

/-- How many strings an item has. -/
def CommunicationType.fields : CommunicationType → Nat
  | discover => 1
  | publish => 2
  | subscribe => 1

/-- The size of a string behind its length. -/
def fieldSize (text : Bytes) : Nat := (Util.lengthPrefix text.length).length + text.length

/-- The size of the item that a topic is sent as. -/
def itemSize (kind : CommunicationType) (topic : Topic) : Nat :=
  match kind with
  | .discover => fieldSize topic.getName
  | .publish => fieldSize topic.getName + fieldSize ((topic.storage 0).getD [])
  | .subscribe => fieldSize topic.getName

/-- The end of the first `j` items. -/
def boundary (kind : CommunicationType) (topics : List Topic) (j : Nat) : Nat :=
  1 + ((topics.take j).map (itemSize kind)).sum

theorem itemSize_pos (kind : CommunicationType) (topic : Topic) : 0 < itemSize kind topic := by
  have hname : 0 < fieldSize topic.getName := by
    rw [fieldSize, Util.lengthPrefix]
    split
    · exact Nat.add_pos_left (Nat.succ_pos 0) _
    · exact Nat.add_pos_left (Nat.succ_pos _) _
  cases kind with
  | discover => exact hname
  | publish => exact Nat.add_pos_left hname _
  | subscribe => exact hname

theorem sum_take_le_iff : ∀ {sizes : List Nat}, (∀ s ∈ sizes, 0 < s) → ∀ {i j : Nat},
    i ≤ sizes.length → ((sizes.take i).sum ≤ (sizes.take j).sum ↔ i ≤ j) := by
  intro sizes
  induction sizes with
  | nil =>
    intro _ i j hi
    obtain rfl : i = 0 := Nat.le_zero.mp hi
    simp
  | cons s sizes ih =>
    intro hpos i j hi
    have hs := hpos s List.mem_cons_self
    cases i with
    | zero => simp
    | succ i =>
      cases j with
      | zero =>
        rw [List.take_succ_cons, List.sum_cons, List.take_zero, List.sum_nil]
        omega
      | succ j =>
        have hrest := @ih (fun t ht => hpos t (List.mem_cons_of_mem _ ht)) i j
          (Nat.le_of_succ_le_succ hi)
        rw [List.take_succ_cons, List.take_succ_cons, List.sum_cons, List.sum_cons,
          Nat.add_le_add_iff_left, hrest, Nat.succ_le_succ_iff]

theorem boundary_le_iff (kind : CommunicationType) {topics : List Topic} {i j : Nat}
    (hi : i ≤ topics.length) : boundary kind topics i ≤ boundary kind topics j ↔ i ≤ j := by
  have hpos : ∀ s ∈ topics.map (itemSize kind), 0 < s :=
    List.forall_mem_map.mpr fun topic _ => itemSize_pos kind topic
  rw [boundary, boundary, Nat.add_le_add_iff_left, List.map_take, List.map_take]
  exact sum_take_le_iff hpos (by rw [List.length_map]; exact hi)

/-! ### Frames before a cut -/

theorem pairUp_take : ∀ (j : Nat) (frames : List Frame),
    pairUp (frames.take (2 * j)) = (pairUp frames).take j
  | 0, frames => by rw [Nat.mul_zero, List.take_zero, List.take_zero]; rfl
  | j + 1, [] => by rw [List.take_nil]; rfl
  | j + 1, [f] => by rw [Nat.mul_succ]; rfl
  | j + 1, f :: g :: frames => by
    rw [Nat.mul_succ, List.take_succ_cons, List.take_succ_cons, pairUp, pairUp,
      pairUp_take j frames, List.take_succ_cons]

theorem payloadOf_take {kind : CommunicationType} {frames : List Frame} {topics : List Topic}
    (h : payloadOf kind frames = sentData kind topics) (j : Nat) :
    payloadOf kind (frames.take (kind.fields * j)) = sentData kind (topics.take j) := by
  cases kind with
  | discover | subscribe =>
    simp only [payloadOf, sentData, DDSData.discoverData.injEq, DiscoverData.mk.injEq,
      DDSData.subscribeData.injEq, SubscribeData.mk.injEq] at h ⊢
    rw [CommunicationType.fields, Nat.one_mul, List.map_take, List.map_take, h]
  | publish =>
    simp only [payloadOf, sentData, DDSData.publishData.injEq, PublishData.mk.injEq] at h ⊢
    rw [CommunicationType.fields, pairUp_take, List.map_take, List.map_take, h]

theorem Frame.length_bytes_canon (f : Frame) : f.canon.bytes.length = fieldSize f.content :=
  List.length_append

theorem length_frames {kind : CommunicationType} {frames : List Frame} {topics : List Topic}
    (hcanon : frames.map Frame.canon = frames) (heven : kind = .publish → Even frames.length)
    (h : payloadOf kind frames = sentData kind topics) :
    (frames.flatMap Frame.bytes).length = (topics.map (itemSize kind)).sum := by
  have hnames : frames.map Frame.topicName = topics.map nameItem →
      (frames.flatMap Frame.bytes).length
        = (topics.map (fun topic => fieldSize topic.getName)).sum := by
    intro hitems
    have hsizes := congrArg (List.map fun item : TopicName => fieldSize item.name) hitems
    rw [List.map_map, List.map_map] at hsizes
    rw [← hcanon, List.flatMap_map, List.length_flatMap]
    simp only [Frame.length_bytes_canon]
    exact congrArg List.sum hsizes
  cases kind with
  | discover =>
    exact hnames (DiscoverData.mk.inj (DDSData.discoverData.inj h))
  | subscribe =>
    exact hnames (SubscribeData.mk.inj (DDSData.subscribeData.inj h))
  | publish =>
    have hitems : (pairUp frames).map pairPacket = topics.map dataItem :=
      PublishData.mk.inj (DDSData.publishData.inj h)
    have hsizes := congrArg (List.map fun item : TopicPacket =>
      fieldSize item.name.name + fieldSize item.data.data) hitems
    rw [List.map_map, List.map_map] at hsizes
    rw [← flatMap_pairUp frames (heven rfl), ← hcanon, pairUp_map_canon, List.flatMap_map,
      List.length_flatMap]
    simp only [pairBytes, List.length_append, Frame.length_bytes_canon]
    exact congrArg List.sum hsizes

/-! ### Cuts -/

/-- The topic has no string that is too long for a packet of this kind. -/
def Bounded (kind : CommunicationType) (topic : Topic) : Prop :=
  topic.getName.length ≤ 268435455 ∧
    (kind = .publish → ∀ data, topic.storage 0 = some data → data.length ≤ 268435455)

theorem framable_of_bounded {kind : CommunicationType} {heap : Heap} {topics : List TopicPtr}
    {bytes : Bytes} (hcreate : createPacket kind heap (topics.map some) = .ok bytes)
    (h : ∀ p ∈ topics, Bounded kind (heap.topics p)) :
    ∀ p ∈ topics, Framable kind (heap.topics p) := by
  obtain ⟨hdata, -⟩ := pack_of_createPacket hcreate
  intro p hp
  obtain ⟨hname, hlen⟩ := h p hp
  refine ⟨hname, fun hk => ?_⟩
  obtain ⟨data, hsome⟩ := Option.ne_none_iff_exists'.mp (hdata hk p hp)
  exact ⟨data, hsome, hlen hk data hsome⟩

theorem exists_fields_mul {kind : CommunicationType} {i : Nat} (h : kind = .publish → Even i) :
    ∃ j, i = kind.fields * j := by
  cases kind with
  | discover | subscribe => exact ⟨i, (Nat.one_mul i).symm⟩
  | publish =>
    obtain ⟨j, hj⟩ := h rfl
    exact ⟨j, by rw [hj]; exact (Nat.two_mul j).symm⟩

section Cut

variable {kind : CommunicationType} {frames : List Frame} {topics : List Topic}

theorem even_take (heven : kind = .publish → Even frames.length) (j : Nat) :
    kind = .publish → Even (frames.take (kind.fields * j)).length := by
  intro hk
  subst hk
  rw [List.length_take, CommunicationType.fields]
  rcases Nat.le_total (2 * j) frames.length with hle | hle
  · rw [Nat.min_eq_left hle]
    exact even_two_mul j
  · rw [Nat.min_eq_right hle]
    exact heven rfl

theorem length_take_frames (hcanon : frames.map Frame.canon = frames)
    (heven : kind = .publish → Even frames.length)
    (hpayload : payloadOf kind frames = sentData kind topics) (j : Nat) :
    ((frames.take (kind.fields * j)).flatMap Frame.bytes).length + 1 = boundary kind topics j := by
  rw [length_frames (by rw [List.map_take, hcanon]) (even_take heven j) (payloadOf_take hpayload j),
    boundary, Nat.add_comm]

/-- **What is left at a boundary is a payload.** -/
theorem isPayload_take (hcanon : frames.map Frame.canon = frames)
    (heven : kind = .publish → Even frames.length)
    (hpayload : payloadOf kind frames = sentData kind topics) {j m : Nat}
    (hm : m + 1 = boundary kind topics j) :
    IsPayload kind ((frames.flatMap Frame.bytes).take m) (frames.take (kind.fields * j)) := by
  have hpre : (frames.take (kind.fields * j)).flatMap Frame.bytes <+: frames.flatMap Frame.bytes :=
    Frame.isPrefixCode.flatMap_isPrefix_iff.mpr (List.take_prefix _ _)
  have hlen := length_take_frames hcanon heven hpayload j
  rw [← hm] at hlen
  refine ⟨?_, even_take heven j⟩
  rw [List.prefix_iff_eq_take.mp hpre, Nat.succ.inj hlen]

/-- **And what is left elsewhere is none.** -/
theorem exists_boundary_of_isPayload (hcanon : frames.map Frame.canon = frames)
    (heven : kind = .publish → Even frames.length)
    (hpayload : payloadOf kind frames = sentData kind topics) {m : Nat} {frames' : List Frame}
    (hm : m ≤ (frames.flatMap Frame.bytes).length)
    (h : IsPayload kind ((frames.flatMap Frame.bytes).take m) frames') :
    ∃ j ≤ topics.length, m + 1 = boundary kind topics j := by
  obtain ⟨htake, heven'⟩ := h
  have hpre : frames' <+: frames := by
    rw [← Frame.isPrefixCode.flatMap_isPrefix_iff, ← htake]
    exact List.take_prefix m _
  obtain ⟨j, hj⟩ := exists_fields_mul heven'
  have hframes' : frames' = frames.take (kind.fields * j) := by
    rw [← hj]
    exact List.prefix_iff_eq_take.mp hpre
  have hlen : (frames'.flatMap Frame.bytes).length = m := by
    rw [← htake, List.length_take, Nat.min_eq_left hm]
  refine ⟨min j topics.length, Nat.min_le_right _ _, ?_⟩
  rw [← hlen, hframes', length_take_frames hcanon heven hpayload j, boundary, boundary,
    ← List.take_eq_take_min]

end Cut

namespace DDSPacket

/-- **Truncation never corrupts an item.**  What is left of a packet after a cut is read without
a fault iff the cut is at a boundary; then the items are those that end before the cut, and
elsewhere the decoder throws `std::invalid_argument`. -/
theorem unpack_take {kind : CommunicationType} {heap : Heap} {topics : List TopicPtr}
    {bytes : Bytes} (hcreate : createPacket kind heap (topics.map some) = .ok bytes)
    (hbounded : ∀ p ∈ topics, Bounded kind (heap.topics p)) (packet : DDSPacket) {k : Nat}
    (hpos : 1 ≤ k) (hk : k ≤ bytes.length) :
    ((∃ n, (packet.unpack (bytes.take k)).1 = .ok n) ↔
      ∃ j ≤ topics.length, k = boundary kind (topics.map heap.topics) j) ∧
    (∀ j ≤ topics.length, k = boundary kind (topics.map heap.topics) j →
      ∃ n packet', packet.unpack (bytes.take k) = (.ok n, packet') ∧
        packet'.header.type = kind.toByte ∧
        Carries kind ((topics.take j).map heap.topics) packet'.ddsData ∧
        ∀ i < topics.length, (i < j ↔ boundary kind (topics.map heap.topics) (i + 1) ≤ k)) ∧
    ((¬ ∃ j ≤ topics.length, k = boundary kind (topics.map heap.topics) j) →
      ∃ what, (packet.unpack (bytes.take k)).1 = .error (.invalidArgument what)) := by
  have hframable := framable_of_bounded hcreate hbounded
  obtain ⟨frames, hcanon, heven, hpayload⟩ := exists_sentFrames kind (topics.map heap.topics)
    (List.forall_mem_map.mpr hframable)
  obtain ⟨-, hpack⟩ := pack_of_createPacket hcreate
  rw [← hpayload, pack_payloadOf kind frames heven, hcanon] at hpack
  obtain rfl := Except.ok.inj hpack
  obtain ⟨m, rfl⟩ : ∃ m, k = m + 1 := ⟨k - 1, by omega⟩
  rw [List.length_cons] at hk
  rw [List.take_succ_cons]
  have hboundary : (∃ frames', IsPayload kind ((frames.flatMap Frame.bytes).take m) frames') ↔
      ∃ j ≤ topics.length, m + 1 = boundary kind (topics.map heap.topics) j := by
    constructor
    · intro h
      obtain ⟨frames', hframes'⟩ := h
      have hj := exists_boundary_of_isPayload hcanon heven hpayload (Nat.le_of_succ_le_succ hk)
        hframes'
      rwa [List.length_map] at hj
    · intro h
      obtain ⟨j, -, hj⟩ := h
      exact ⟨_, isPayload_take hcanon heven hpayload hj⟩
  refine ⟨(packet.unpack_ok_iff kind _).trans hboundary, fun j hj hm => ?_, fun hno => ?_⟩
  · have hleft := packet.unpack_payload (isPayload_take hcanon heven hpayload hm)
    rw [payloadOf_take hpayload, ← List.map_take] at hleft
    refine ⟨_, _, hleft, rfl, carries_sentData ?_, fun i hi => ?_⟩
    · exact List.forall_mem_map.mpr fun p hp => hframable p (List.mem_of_mem_take hp)
    · rw [hm, boundary_le_iff kind (by rw [List.length_map]; exact hi), Nat.succ_le_iff]
  · rw [← hboundary] at hno
    obtain ⟨what, hwhat⟩ := packet.unpack_reject fun frames' h => hno ⟨frames', h⟩
    exact ⟨what, by rw [hwhat]⟩

/-- Two names, and a cut between them. -/
theorem unpack_take_between : ∃ n packet', (fresh 0).unpack ([0, 1, 97, 1, 97].take 3)
      = (.ok n, packet') ∧ packet'.header.type = 0 ∧
    Carries .discover [Topic.ofName [97]] packet'.ddsData := by
  have hcreate : createPacket .discover ⟨fun _ => Topic.ofName [97], 1⟩ ([0, 0].map some)
      = .ok [0, 1, 97, 1, 97] := by decide
  have hbounded : ∀ p ∈ [0, 0], Bounded .discover (Topic.ofName [97]) := by
    intro p _
    exact ⟨by decide, fun hk => absurd hk (by decide)⟩
  have hsize : fieldSize [97] = 2 := by
    rw [fieldSize, Util.lengthPrefix_of_lt (by decide)]
    rfl
  have hk : 3 = boundary .discover [Topic.ofName [97], Topic.ofName [97]] 1 := by
    show 3 = 1 + (fieldSize [97] + 0)
    rw [hsize]
  obtain ⟨-, hat, -⟩ := unpack_take hcreate hbounded (fresh 0) (by decide : 1 ≤ 3) (by decide)
  obtain ⟨n, packet', hunpack, htype, hcarries, -⟩ := hat 1 (by decide) hk
  exact ⟨n, packet', hunpack, htype, hcarries⟩

end DDSPacket

end Mydds
