import Mydds.Packet.RoundTrip

/-!
# Reading a packet and writing it again

The decoder accepts padded length prefixes and the encoder does not write them.  So a
packet that was read is written with the same contents behind shortest prefixes:
`Frame.canon` on each of its frames.

* `payloadOf_canon`: the items do not change.
* `length_canon_le`: no frame gets longer.
* `map_canon_eq_iff`: nothing changes exactly if every prefix was of minimal width.
-/

namespace Mydds

namespace Frame

@[simp] theorem topicName_canon (f : Frame) : f.canon.topicName = f.topicName := rfl

@[simp] theorem topicData_canon (f : Frame) : f.canon.topicData = f.topicData := rfl

theorem lengthPrefix_canon (f : Frame) :
    f.canon.lengthPrefix = Util.lengthPrefix (prefixValue f.lengthPrefix) := by
  rw [f.length_eq]
  rfl

/-- **A frame is written as it was read iff its prefix is of minimal width.** -/
theorem canon_eq_iff (f : Frame) : f.canon = f ↔ Util.IsShortest f.lengthPrefix := by
  obtain ⟨-, hiff⟩ := Util.lengthPrefix_eq_iff f.isLengthPrefix
  rw [← hiff, ← lengthPrefix_canon]
  constructor
  · intro h
    rw [h]
  · intro h
    exact Frame.ext h rfl

theorem length_bytes_canon_le (f : Frame) : f.canon.bytes.length ≤ f.bytes.length := by
  obtain ⟨hle, -⟩ := Util.lengthPrefix_eq_iff f.isLengthPrefix
  rw [length_bytes, length_bytes, lengthPrefix_canon]
  exact Nat.add_le_add_right hle _

end Frame

theorem length_canon_le (frames : List Frame) :
    ((frames.map Frame.canon).flatMap Frame.bytes).length
      ≤ (frames.flatMap Frame.bytes).length := by
  induction frames with
  | nil => exact Nat.le_refl _
  | cons f frames ih =>
    have hf := f.length_bytes_canon_le
    simp only [List.map_cons, List.flatMap_cons, List.length_append]
    omega

theorem map_canon_eq_iff (frames : List Frame) :
    (frames.map Frame.canon).flatMap Frame.bytes = frames.flatMap Frame.bytes ↔
      ∀ f ∈ frames, Util.IsShortest f.lengthPrefix := by
  constructor
  · intro h f hf
    have hmap : frames.map Frame.canon = frames := Frame.isPrefixCode.flatMap_injective h
    have hid : frames.map Frame.canon = frames.map id := by rw [hmap, List.map_id]
    exact f.canon_eq_iff.mp (List.map_inj_left.mp hid f hf)
  · intro h
    have hmap : frames.map Frame.canon = frames.map id :=
      List.map_inj_left.mpr fun f hf => f.canon_eq_iff.mpr (h f hf)
    rw [hmap, List.map_id]

theorem payloadOf_canon (kind : CommunicationType) (frames : List Frame) :
    payloadOf kind (frames.map Frame.canon) = payloadOf kind frames := by
  cases kind with
  | discover | subscribe =>
    simp only [payloadOf, List.map_map]
    rfl
  | publish =>
    simp only [payloadOf, pairUp_map_canon, List.map_map]
    rfl

namespace DDSPacket

/-- **Writing a packet that was read makes it canonical.**  It can be written, with the same
type byte and without getting longer; what is written is read as the same packet again; and it
is what was read the first time iff there every length prefix was of minimal width. -/
theorem pack_unpack {packet packet' : DDSPacket} {kind : CommunicationType} {rest : Bytes}
    {n : UInt32} (h : packet.unpack (kind.toByte :: rest) = (.ok n, packet')) :
    ∃ bytes frames, packet'.pack = .ok bytes ∧ bytes.head? = some kind.toByte ∧
      bytes.length ≤ (kind.toByte :: rest).length ∧
      (∀ other : DDSPacket, ∃ m, other.unpack bytes = (.ok m, packet')) ∧
      IsPayload kind rest frames ∧
      (bytes = kind.toByte :: rest ↔ ∀ f ∈ frames, Util.IsShortest f.lengthPrefix) := by
  obtain ⟨frames, hframes⟩ := (packet.unpack_ok_iff kind rest).mp ⟨n, by rw [h]⟩
  rw [packet.unpack_payload hframes] at h
  obtain ⟨-, rfl⟩ := Prod.mk.inj h
  obtain ⟨hrest, heven⟩ := hframes
  refine ⟨kind.toByte :: (frames.map Frame.canon).flatMap Frame.bytes, frames,
    pack_payloadOf kind frames heven, rfl, ?_, ?_, ⟨hrest, heven⟩, ?_⟩
  · rw [hrest, List.length_cons, List.length_cons]
    exact Nat.succ_le_succ (length_canon_le frames)
  · intro other
    have hcanon : IsPayload kind ((frames.map Frame.canon).flatMap Frame.bytes)
        (frames.map Frame.canon) := ⟨rfl, fun hk => by rw [List.length_map]; exact heven hk⟩
    exact ⟨_, by rw [other.unpack_payload hcanon, payloadOf_canon]⟩
  · rw [hrest, List.cons.injEq, and_iff_right rfl]
    exact map_canon_eq_iff frames

/-- One empty name behind a padded prefix: the padding goes. -/
theorem pack_unpack_padded : ∃ bytes frames,
    ((fresh 0).unpack [0, 128, 0]).2.pack = .ok bytes ∧ bytes.head? = some 0 ∧ bytes.length ≤ 3 ∧
      (∀ other : DDSPacket, ∃ m, other.unpack bytes = (.ok m, ((fresh 0).unpack [0, 128, 0]).2)) ∧
      IsPayload .discover [128, 0] frames ∧
      (bytes = [0, 128, 0] ↔ ∀ f ∈ frames, Util.IsShortest f.lengthPrefix) := by
  have h : (fresh 0).unpack (CommunicationType.discover.toByte :: [128, 0])
      = (.ok 3, ((fresh 0).unpack [0, 128, 0]).2) := by decide
  exact pack_unpack h

end DDSPacket

end Mydds
