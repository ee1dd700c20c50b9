import Mydds.Packet.Frame

/-!
# The grammar of a packet

After its type byte a packet is a string of frames, for `Publish` an even number of them:
`IsPayload`.  `DDSPacket.unpack_payload` and `DDSPacket.unpack_reject` say that the decoder
accepts exactly this grammar.  It then holds the frames in order, for `Publish` paired as
names and data, and it throws `std::invalid_argument` on every other payload.

`DDSPacket.unpack_exact` joins the two halves, with the uniqueness of the decomposition.
-/

namespace Mydds

open Lib

/-! ### Pairs of frames -/

/-- Frames two by two; a last one without a partner is left out. -/
def pairUp : List Frame → List (Frame × Frame)
  | f :: g :: frames => (f, g) :: pairUp frames
  | _ => []

theorem flatMap_pairUp : ∀ (frames : List Frame), Even frames.length →
    (pairUp frames).flatMap pairBytes = frames.flatMap Frame.bytes
  | [], _ => rfl
  | [_], h => absurd h (by rw [List.length_singleton]; decide)
  | f :: g :: frames, h => by
    have heven : Even frames.length := by
      rw [List.length_cons, List.length_cons] at h
      simpa [Nat.even_add_one] using h
    rw [pairUp, List.flatMap_cons, List.flatMap_cons, List.flatMap_cons,
      flatMap_pairUp frames heven, pairBytes, List.append_assoc]

/-- The frames of a list of pairs. -/
def unpair (pairs : List (Frame × Frame)) : List Frame := pairs.flatMap (fun p => [p.1, p.2])

theorem unpair_cons (p : Frame × Frame) (pairs : List (Frame × Frame)) :
    unpair (p :: pairs) = p.1 :: p.2 :: unpair pairs := rfl

theorem pairUp_unpair (pairs : List (Frame × Frame)) : pairUp (unpair pairs) = pairs := by
  induction pairs with
  | nil => rfl
  | cons p pairs ih => rw [unpair_cons, pairUp, ih]

theorem length_unpair (pairs : List (Frame × Frame)) :
    (unpair pairs).length = 2 * pairs.length := by
  induction pairs with
  | nil => rfl
  | cons p pairs ih =>
    rw [unpair_cons, List.length_cons, List.length_cons, List.length_cons, ih]
    omega

theorem even_length_unpair (pairs : List (Frame × Frame)) : Even (unpair pairs).length :=
  ⟨pairs.length, by rw [length_unpair, Nat.two_mul]⟩

theorem flatMap_unpair (pairs : List (Frame × Frame)) :
    (unpair pairs).flatMap Frame.bytes = pairs.flatMap pairBytes := by
  rw [← flatMap_pairUp _ (even_length_unpair pairs), pairUp_unpair]

/-! ### Payloads -/

theorem CommunicationType.toByte_of_ofByte {type : UInt8} {kind : CommunicationType}
    (h : ofByte type = some kind) : type = kind.toByte := by
  unfold ofByte at h
  split_ifs at h with h0 h1 h2
  all_goals cases h; assumption

theorem CommunicationType.ofByte_head {type : UInt8} {kind : CommunicationType} {rest rest' : Bytes}
    (h : type :: rest = kind.toByte :: rest') : ofByte type = some kind := by
  rw [(List.cons.inj h).1, ofByte_toByte]

/-- `rest` is the string of `frames`, in an even number if the packet is a `Publish`. -/
def IsPayload (kind : CommunicationType) (rest : Bytes) (frames : List Frame) : Prop :=
  rest = frames.flatMap Frame.bytes ∧ (kind = .publish → Even frames.length)

/-- The payload object that `frames` make up. -/
def payloadOf (kind : CommunicationType) (frames : List Frame) : DDSData :=
  match kind with
  | .discover => .discoverData ⟨frames.map Frame.topicName⟩
  | .publish => .publishData ⟨(pairUp frames).map pairPacket⟩
  | .subscribe => .subscribeData ⟨frames.map Frame.topicName⟩

theorem IsPayload.unique {kind kind' : CommunicationType} {rest : Bytes}
    {frames frames' : List Frame} (h : IsPayload kind rest frames)
    (h' : IsPayload kind' rest frames') : frames = frames' :=
  Frame.isPrefixCode.flatMap_injective (h.1.symm.trans h'.1)

section Items

variable {β ι : Type} {enc : β → Bytes} {obj : β → ι} {unpack : Range → Result (UInt32 × ι)}

theorem Reads.unpackLoop_all (h : Reads enc obj unpack) (bs : List β) :
    unpackLoop unpack (bs.flatMap enc).length (bs.flatMap enc) [] 0
      = .ok (UInt32.ofNat (bs.flatMap enc).length, bs.map obj) := by
  rw [h.unpackLoop_words bs _ [] 0 (Nat.le_refl _), UInt32.zero_add, List.nil_append]

end Items

namespace DDSPacket

/-- The call up to the `switch`: the header is read, and the payload follows it. -/
theorem unpack_cons (packet : DDSPacket) (type : UInt8) (rest : Bytes) :
    packet.unpack (type :: rest) =
      match CommunicationType.ofByte type with
      | some .discover =>
        assign ⟨⟨type⟩, packet.ddsData⟩ (type :: rest) (DiscoverData.unpack ⟨[]⟩ rest) .discoverData
      | some .publish =>
        assign ⟨⟨type⟩, packet.ddsData⟩ (type :: rest) (PublishData.unpack ⟨[]⟩ rest) .publishData
      | some .subscribe =>
        assign ⟨⟨type⟩, packet.ddsData⟩ (type :: rest) (SubscribeData.unpack ⟨[]⟩ rest)
          .subscribeData
      | none =>
        match slice (type :: rest) 0 10 with
        | .error fault => (.error fault, ⟨⟨type⟩, packet.ddsData⟩)
        | .ok _ => (.ok (UInt32.ofNat (type :: rest).length), ⟨⟨type⟩, packet.ddsData⟩) := by
  have hadv : advance (type :: rest) (1 : UInt32).toNat = .ok rest := advance_append [type] rest
  cases hkind : CommunicationType.ofByte type with
  | none =>
    cases hslice : slice (type :: rest) 0 10 <;>
      simp only [unpack, DDSHeader.unpack, hadv, hkind, hslice]
  | some kind => cases kind <;> simp only [unpack, DDSHeader.unpack, hadv, hkind]

/-- **A payload in the grammar is accepted**, and its frames are the items. -/
theorem unpack_payload (packet : DDSPacket) {kind : CommunicationType} {rest : Bytes}
    {frames : List Frame} (h : IsPayload kind rest frames) :
    packet.unpack (kind.toByte :: rest)
      = (.ok (UInt32.ofNat (rest.length + 1)), ⟨⟨kind.toByte⟩, payloadOf kind frames⟩) := by
  obtain ⟨rfl, heven⟩ := h
  rw [unpack_cons, CommunicationType.ofByte_toByte]
  cases kind with
  | discover =>
    simp only [DiscoverData.unpack, TopicName.unpack_reads.unpackLoop_all]
    rfl
  | subscribe =>
    simp only [SubscribeData.unpack, TopicName.unpack_reads.unpackLoop_all]
    rfl
  | publish =>
    rw [← flatMap_pairUp frames (heven rfl)]
    simp only [PublishData.unpack, TopicPacket.unpack_reads.unpackLoop_all]
    rfl

/-- **Every other payload is refused**; the header has been written by then, the payload
object has not. -/
theorem unpack_reject (packet : DDSPacket) {kind : CommunicationType} {rest : Bytes}
    (h : ∀ frames, ¬ IsPayload kind rest frames) :
    ∃ what, packet.unpack (kind.toByte :: rest)
      = (.error (.invalidArgument what), ⟨⟨kind.toByte⟩, packet.ddsData⟩) := by
  rw [unpack_cons, CommunicationType.ofByte_toByte]
  cases kind with
  | discover =>
    obtain ⟨what, hwhat⟩ := TopicName.unpack_reads.unpackLoop_reject rest.length rest [] 0
      (Nat.le_refl _) fun frames e => h frames ⟨e, fun hk => nomatch hk⟩
    refine ⟨what, ?_⟩
    simp only [DiscoverData.unpack, hwhat]
    rfl
  | subscribe =>
    obtain ⟨what, hwhat⟩ := TopicName.unpack_reads.unpackLoop_reject rest.length rest [] 0
      (Nat.le_refl _) fun frames e => h frames ⟨e, fun hk => nomatch hk⟩
    refine ⟨what, ?_⟩
    simp only [SubscribeData.unpack, hwhat]
    rfl
  | publish =>
    obtain ⟨what, hwhat⟩ := TopicPacket.unpack_reads.unpackLoop_reject rest.length rest [] 0
      (Nat.le_refl _) fun pairs e =>
        h (unpair pairs) ⟨by rw [flatMap_unpair, e], fun _ => even_length_unpair pairs⟩
    refine ⟨what, ?_⟩
    simp only [PublishData.unpack, hwhat]
    rfl

theorem unpack_ok_iff (packet : DDSPacket) (kind : CommunicationType) (rest : Bytes) :
    (∃ n, (packet.unpack (kind.toByte :: rest)).1 = .ok n) ↔
      ∃ frames, IsPayload kind rest frames := by
  constructor
  · rintro ⟨n, hn⟩
    by_contra hno
    obtain ⟨what, hwhat⟩ := packet.unpack_reject fun frames h => hno ⟨frames, h⟩
    rw [hwhat] at hn
    cases hn
  · rintro ⟨frames, h⟩
    exact ⟨_, by rw [packet.unpack_payload h]⟩

/-- **The exact grammar of the decoder.**  A packet whose type byte is that of a kind is
accepted iff the rest of it is a string of frames, an even number of them for `Publish`.
There is one such string, its frames are the items of the packet, and without one the
decoder throws `std::invalid_argument`. -/
theorem unpack_exact (packet : DDSPacket) (kind : CommunicationType) (rest : Bytes) :
    ((∃ n, (packet.unpack (kind.toByte :: rest)).1 = .ok n) ↔
      ∃ frames, IsPayload kind rest frames) ∧
    (∀ frames frames', IsPayload kind rest frames → IsPayload kind rest frames' →
      frames = frames') ∧
    (∀ frames, IsPayload kind rest frames →
      (packet.unpack (kind.toByte :: rest)).2 = ⟨⟨kind.toByte⟩, payloadOf kind frames⟩) ∧
    ((¬ ∃ frames, IsPayload kind rest frames) →
      ∃ what, (packet.unpack (kind.toByte :: rest)).1 = .error (.invalidArgument what)) := by
  refine ⟨packet.unpack_ok_iff kind rest, fun _ _ h h' => h.unique h', fun frames h => ?_,
    fun hno => ?_⟩
  · rw [packet.unpack_payload h]
  · obtain ⟨what, hwhat⟩ := packet.unpack_reject fun frames h => hno ⟨frames, h⟩
    exact ⟨what, by rw [hwhat]⟩

/-- Two frames of a `Publish`: the name `a` with a padded prefix, and empty data. -/
example : ((fresh 0).unpack [1, 129, 0, 97, 0]).2
    = ⟨⟨1⟩, .publishData ⟨[⟨⟨1, [97]⟩, ⟨0, []⟩⟩]⟩⟩ := by decide

end DDSPacket

end Mydds
