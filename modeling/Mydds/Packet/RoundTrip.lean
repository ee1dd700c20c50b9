import Mydds.Packet.Grammar
import Mathlib.Data.List.Forall2

/-!
# Encoding, and the way back

The encoder writes every field as the frame of its content with the shortest prefix
(`packField_eq`), so the packet of a payload that was read from `frames` is written as the
string of `frames.map Frame.canon` (`DDSPacket.pack_payloadOf`).

`createPacket kind` is the encoder of the kind.  On topics that can be framed
(`Framable`: no string is longer than `MAX_LENGTH`, and for `Publish` there are data under
key 0) it writes the frames of `sentData` (`createPacket_eq`), so by the grammar the decoder
gives back the items that were sent, `unpack_createPacket`.
-/

namespace Mydds

open Lib

/-! ### Fields and loops -/

/-- The frame of the same content with the shortest prefix. -/
def Frame.canon (f : Frame) : Frame := Frame.ofContent f.content f.content_length_le

@[simp] theorem Frame.canon_ofContent (content : Bytes) (h : content.length ≤ 268435455) :
    (Frame.ofContent content h).canon = Frame.ofContent content h := rfl

theorem packField_eq (f : Frame) :
    packField (UInt32.ofNat f.content.length) f.content = .ok f.canon.bytes := by
  have hlen : (UInt32.ofNat f.content.length).toNat = f.content.length :=
    UInt32.toNat_ofNat_of_lt' (Nat.lt_of_le_of_lt f.content_length_le (by decide))
  rw [packField, Util.packLength_eq (by rw [hlen]; exact f.content_length_le), hlen]
  rfl

theorem TopicName.pack_topicName (f : Frame) : f.topicName.pack = .ok f.canon.bytes :=
  packField_eq f

theorem TopicPacket.pack_pairPacket (p : Frame × Frame) :
    (pairPacket p).pack = .ok (pairBytes (p.1.canon, p.2.canon)) := by
  have h1 : (pairPacket p).name.pack = .ok p.1.canon.bytes := packField_eq p.1
  have h2 : (pairPacket p).data.pack = .ok p.2.canon.bytes := packField_eq p.2
  rw [TopicPacket.pack, h1, h2]
  rfl

theorem packLoop_eq {β ι : Type} {pack : ι → Result Bytes} {obj : β → ι} {enc : β → Bytes}
    (h : ∀ b, pack (obj b) = .ok (enc b)) : ∀ (bs : List β) (ret : Bytes),
    packLoop pack (bs.map obj) ret = .ok (ret ++ bs.flatMap enc) := by
  intro bs
  induction bs with
  | nil =>
    intro ret
    rw [List.map_nil, packLoop, List.flatMap_nil, List.append_nil]
  | cons b bs ih =>
    intro ret
    rw [List.map_cons, packLoop, h]
    refine (ih (ret ++ enc b)).trans ?_
    rw [List.flatMap_cons, List.append_assoc]

theorem pairUp_map_canon : ∀ (frames : List Frame),
    pairUp (frames.map Frame.canon) = (pairUp frames).map (fun p => (p.1.canon, p.2.canon))
  | [] => rfl
  | [_] => rfl
  | f :: g :: frames => by
    rw [List.map_cons, List.map_cons, pairUp, pairUp, List.map_cons, pairUp_map_canon frames]

namespace DDSPacket

/-- **What the encoder makes of a payload**: the same frames with shortest prefixes. -/
theorem pack_payloadOf (kind : CommunicationType) (frames : List Frame)
    (heven : kind = .publish → Even frames.length) :
    pack ⟨⟨kind.toByte⟩, payloadOf kind frames⟩
      = .ok (kind.toByte :: (frames.map Frame.canon).flatMap Frame.bytes) := by
  have hnames : packLoop TopicName.pack (frames.map Frame.topicName) []
      = .ok ((frames.map Frame.canon).flatMap Frame.bytes) := by
    rw [packLoop_eq TopicName.pack_topicName, List.nil_append, List.flatMap_map]
  cases kind with
  | discover =>
    simp only [pack, payloadOf, DiscoverData.pack, hnames]
    rfl
  | subscribe =>
    simp only [pack, payloadOf, SubscribeData.pack, hnames]
    rfl
  | publish =>
    have hpairs : packLoop TopicPacket.pack ((pairUp frames).map pairPacket) []
        = .ok ((frames.map Frame.canon).flatMap Frame.bytes) := by
      rw [packLoop_eq TopicPacket.pack_pairPacket, List.nil_append,
        ← flatMap_pairUp _ (by rw [List.length_map]; exact heven rfl), pairUp_map_canon,
        List.flatMap_map]
    simp only [pack, payloadOf, PublishData.pack, hpairs]
    rfl

end DDSPacket

/-! ### The encoders -/

/-- `create_discover_packet`, `create_publish_packet` or `create_subscribe_packet`. -/
def createPacket (kind : CommunicationType) (heap : Heap) (topics : List (Option TopicPtr)) :
    Result Bytes :=
  match kind with
  | .discover => DDSPacket.createDiscoverPacket heap topics
  | .publish => DDSPacket.createPublishPacket heap topics
  | .subscribe => DDSPacket.createSubscribePacket heap topics

/-- The topic has what a packet of this kind says of it, in strings that can be framed. -/
def Framable (kind : CommunicationType) (topic : Topic) : Prop :=
  topic.getName.length ≤ 268435455 ∧
    (kind = .publish → ∃ data, topic.storage 0 = some data ∧ data.length ≤ 268435455)

/-- The item a name is sent as. -/
def nameItem (topic : Topic) : TopicName :=
  ⟨UInt32.ofNat topic.getName.length, topic.getName⟩

/-- The item a name and the data under key 0 are sent as. -/
def dataItem (topic : Topic) : TopicPacket :=
  ⟨nameItem topic, ⟨UInt32.ofNat ((topic.storage 0).getD []).length, (topic.storage 0).getD []⟩⟩

/-- The payload object an encoder builds, one item for each topic. -/
def sentData (kind : CommunicationType) (topics : List Topic) : DDSData :=
  match kind with
  | .discover => .discoverData ⟨topics.map nameItem⟩
  | .publish => .publishData ⟨topics.map dataItem⟩
  | .subscribe => .subscribeData ⟨topics.map nameItem⟩

namespace DDSPacket

theorem nameItems_eq (heap : Heap) : ∀ (topics : List TopicPtr) (data : List TopicName),
    nameItems heap (topics.map some) data
      = .ok (data ++ (topics.map heap.topics).map nameItem) := by
  intro topics
  induction topics with
  | nil =>
    intro data
    rw [List.map_nil, nameItems, List.map_nil, List.map_nil, List.append_nil]
  | cons p topics ih =>
    intro data
    rw [List.map_cons, nameItems, Heap.deref]
    refine (ih _).trans ?_
    rw [List.append_assoc, List.map_cons, List.map_cons, List.singleton_append]
    rfl

theorem publishItems_eq (heap : Heap) : ∀ (topics : List TopicPtr) (data : List TopicPacket),
    (∀ p ∈ topics, (heap.topics p).storage 0 ≠ none) →
    publishItems heap (topics.map some) data
      = .ok (data ++ (topics.map heap.topics).map dataItem) := by
  intro topics
  induction topics with
  | nil =>
    intro data _
    rw [List.map_nil, publishItems, List.map_nil, List.map_nil, List.append_nil]
  | cons p topics ih =>
    intro data h
    obtain ⟨text, htext⟩ := Option.ne_none_iff_exists'.mp (h p List.mem_cons_self)
    have hget : (heap.topics p).getData 0 = .ok text := by rw [Topic.getData, htext]
    have hitem : dataItem (heap.topics p)
        = ⟨⟨UInt32.ofNat (heap.topics p).getName.length, (heap.topics p).getName⟩,
          ⟨UInt32.ofNat text.length, text⟩⟩ := by rw [dataItem, htext]; rfl
    rw [List.map_cons, publishItems, Heap.deref]
    show ((heap.topics p).getData 0 >>= _) = _
    rw [hget]
    refine (ih _ (fun q hq => h q (List.mem_cons_of_mem _ hq))).trans ?_
    rw [List.append_assoc, List.map_cons, List.map_cons, List.singleton_append, hitem]

end DDSPacket

theorem createPacket_eq_pack (kind : CommunicationType) (heap : Heap) {topics : List TopicPtr}
    (h : kind = .publish → ∀ p ∈ topics, (heap.topics p).storage 0 ≠ none) :
    createPacket kind heap (topics.map some)
      = DDSPacket.pack ⟨⟨kind.toByte⟩, sentData kind (topics.map heap.topics)⟩ := by
  cases kind with
  | discover =>
    rw [createPacket, DDSPacket.createDiscoverPacket, DDSPacket.nameItems_eq, List.nil_append]
    rfl
  | publish =>
    rw [createPacket, DDSPacket.createPublishPacket, DDSPacket.publishItems_eq _ _ _ (h rfl),
      List.nil_append]
    rfl
  | subscribe =>
    rw [createPacket, DDSPacket.createSubscribePacket, DDSPacket.nameItems_eq, List.nil_append]
    rfl

theorem topicName_ofContent (content : Bytes) (h : content.length ≤ 268435455) :
    (Frame.ofContent content h).topicName = ⟨UInt32.ofNat content.length, content⟩ := rfl

/-- **The payload of topics that can be framed is a string of shortest frames.** -/
theorem exists_sentFrames (kind : CommunicationType) (topics : List Topic)
    (h : ∀ topic ∈ topics, Framable kind topic) :
    ∃ frames : List Frame, frames.map Frame.canon = frames ∧
      (kind = .publish → Even frames.length) ∧ payloadOf kind frames = sentData kind topics := by
  induction topics with
  | nil => exact ⟨[], rfl, fun _ => by decide, by cases kind <;> rfl⟩
  | cons topic topics ih =>
    obtain ⟨frames, hcanon, heven, hpayload⟩ := ih fun t ht => h t (List.mem_cons_of_mem _ ht)
    obtain ⟨hname, hdata⟩ := h topic List.mem_cons_self
    cases kind with
    | discover | subscribe =>
      refine ⟨Frame.ofContent topic.getName hname :: frames, ?_, ?_, ?_⟩
      · rw [List.map_cons, hcanon, Frame.canon_ofContent]
      · intro hk
        cases hk
      · simp only [payloadOf, sentData, List.map_cons, topicName_ofContent] at hpayload ⊢
        simp_all [nameItem]
    | publish =>
      obtain ⟨data, hsome, hlen⟩ := hdata rfl
      refine ⟨Frame.ofContent topic.getName hname :: Frame.ofContent data hlen :: frames,
        ?_, ?_, ?_⟩
      · rw [List.map_cons, List.map_cons, hcanon, Frame.canon_ofContent, Frame.canon_ofContent]
      · intro _
        rw [List.length_cons, List.length_cons]
        exact (heven rfl).add (by decide : Even 2)
      · simp only [payloadOf, sentData, pairUp, List.map_cons] at hpayload ⊢
        simp_all [dataItem, nameItem, pairPacket, Frame.topicName, Frame.topicData, Frame.ofContent]

/-- One item for each topic, in order, with the strings of the topic and their lengths. -/
def Carries (kind : CommunicationType) (topics : List Topic) (data : DDSData) : Prop :=
  match kind with
  | .discover => ∃ d : DiscoverData, data = .discoverData d ∧
      List.Forall₂ (fun topic item => item.name = topic.getName ∧
        item.length.toNat = item.name.length) topics d.data
  | .publish => ∃ d : PublishData, data = .publishData d ∧
      List.Forall₂ (fun topic item => item.name.name = topic.getName ∧
        item.name.length.toNat = item.name.name.length ∧
        topic.storage 0 = some item.data.data ∧
        item.data.length.toNat = item.data.data.length) topics d.data
  | .subscribe => ∃ d : SubscribeData, data = .subscribeData d ∧
      List.Forall₂ (fun topic item => item.name = topic.getName ∧
        item.length.toNat = item.name.length) topics d.data

theorem carries_sentData {kind : CommunicationType} {topics : List Topic}
    (h : ∀ topic ∈ topics, Framable kind topic) : Carries kind topics (sentData kind topics) := by
  have hname : ∀ topic ∈ topics, (nameItem topic).name = topic.getName ∧
      (nameItem topic).length.toNat = (nameItem topic).name.length := fun topic ht =>
    ⟨rfl, UInt32.toNat_ofNat_of_lt' (Nat.lt_of_le_of_lt (h topic ht).1 (by decide))⟩
  cases kind with
  | discover => exact ⟨_, rfl, List.forall₂_map_right_iff.mpr (List.forall₂_same.mpr hname)⟩
  | subscribe => exact ⟨_, rfl, List.forall₂_map_right_iff.mpr (List.forall₂_same.mpr hname)⟩
  | publish =>
    refine ⟨_, rfl, List.forall₂_map_right_iff.mpr (List.forall₂_same.mpr fun topic ht => ?_)⟩
    obtain ⟨data, hsome, hlen⟩ := (h topic ht).2 rfl
    have hitem : (dataItem topic).data = ⟨UInt32.ofNat data.length, data⟩ := by
      rw [dataItem, hsome]
      rfl
    rw [hitem]
    exact ⟨(hname topic ht).1, (hname topic ht).2, hsome,
      UInt32.toNat_ofNat_of_lt' (Nat.lt_of_le_of_lt hlen (by decide))⟩

theorem createPacket_eq (kind : CommunicationType) (heap : Heap) {topics : List TopicPtr}
    (h : ∀ p ∈ topics, Framable kind (heap.topics p)) :
    ∃ rest frames, createPacket kind heap (topics.map some) = .ok (kind.toByte :: rest) ∧
      IsPayload kind rest frames ∧
      payloadOf kind frames = sentData kind (topics.map heap.topics) := by
  obtain ⟨frames, hcanon, heven, hpayload⟩ := exists_sentFrames kind (topics.map heap.topics)
    (List.forall_mem_map.mpr h)
  refine ⟨_, frames, ?_, ⟨rfl, heven⟩, hpayload⟩
  rw [createPacket_eq_pack kind heap, ← hpayload, DDSPacket.pack_payloadOf kind frames heven,
    hcanon]
  intro hk p hp hnone
  obtain ⟨data, hsome, -⟩ := (h p hp).2 hk
  rw [hnone] at hsome
  cases hsome

/-- **Wire round trip.**  Topics that can be framed are encoded without a fault, and
decoding the bytes gives a packet of the same kind that carries them. -/
theorem unpack_createPacket (kind : CommunicationType) (heap : Heap) (topics : List TopicPtr)
    (packet : DDSPacket) (h : ∀ p ∈ topics, Framable kind (heap.topics p)) :
    ∃ bytes n packet', createPacket kind heap (topics.map some) = .ok bytes ∧
      packet.unpack bytes = (.ok n, packet') ∧ packet'.header.type = kind.toByte ∧
      Carries kind (topics.map heap.topics) packet'.ddsData := by
  obtain ⟨rest, frames, hcreate, hrest, hpayload⟩ := createPacket_eq kind heap h
  refine ⟨_, _, _, hcreate, packet.unpack_payload hrest, rfl, ?_⟩
  show Carries kind _ (payloadOf kind frames)
  rw [hpayload]
  exact carries_sentData (List.forall_mem_map.mpr h)

/-- A topic without a name and with data that look like a length prefix. -/
theorem unpack_createPacket_prefix : ∃ bytes n packet',
    createPacket .publish ⟨fun _ => ⟨[], fun _ => some [128, 1], [], []⟩, 1⟩ ([0].map some)
      = .ok bytes ∧
      (DDSPacket.fresh 0).unpack bytes = (.ok n, packet') ∧ packet'.header.type = 1 ∧
      Carries .publish [⟨[], fun _ => some [128, 1], [], []⟩] packet'.ddsData :=
  unpack_createPacket .publish ⟨fun _ => ⟨[], fun _ => some [128, 1], [], []⟩, 1⟩ [0]
    (DDSPacket.fresh 0) fun _ _ => ⟨Nat.zero_le _, fun _ => ⟨[128, 1], rfl, by decide⟩⟩

end Mydds
