import Mydds.Packet.RoundTrip
import Mathlib.Data.Set.List

/-!
# What the size of a packet says

`packField_ok_iff` is the exact result of writing a field whose length is any 32-bit number:
the shortest prefix of that number, then the text.  The number is the size of the text
modulo `2 ^ 32`, so a text of `2 ^ 32` bytes or more is written behind a prefix that is too
small.  Such a packet is at least as long, and `framable_of_createPacket` draws the
conclusion: a packet that is written and is shorter than `2 ^ 32` bytes is made of topics
that can be framed.  `createDiscoverPacket_ok_iff` says when an announcement can be written.
-/

namespace Mydds

theorem packField_ok_iff {length : UInt32} {text bytes : Bytes} :
    packField length text = .ok bytes ↔
      length.toNat ≤ 268435455 ∧ bytes = Util.lengthPrefix length.toNat ++ text := by
  rw [packField, Result.bind_eq_ok]
  by_cases h : length.toNat ≤ 268435455
  · rw [Util.packLength_eq h]
    constructor
    · rintro ⟨ret, ⟨⟩, ⟨⟩⟩
      exact ⟨h, rfl⟩
    · rintro ⟨-, rfl⟩
      exact ⟨_, rfl, rfl⟩
  · rw [Util.packLength_error (Nat.not_le.mp h)]
    constructor
    · rintro ⟨ret, hret, -⟩
      cases hret
    · exact fun hle => absurd hle.1 h

theorem length_le_of_packField {text bytes : Bytes}
    (h : packField (UInt32.ofNat text.length) text = .ok bytes) (hlt : bytes.length < 2 ^ 32) :
    text.length ≤ 268435455 := by
  obtain ⟨hle, rfl⟩ := packField_ok_iff.mp h
  rw [List.length_append] at hlt
  have hfield : (UInt32.ofNat text.length).toNat = text.length :=
    UInt32.toNat_ofNat_of_lt' (show _ < 2 ^ 32 by omega)
  rwa [hfield] at hle

/-- **If the loop returns, it has written every item**, and the bytes are as long as any of
them. -/
theorem packLoop_ok {ι : Type} {pack : ι → Result Bytes} : ∀ {items : List ι} {ret bytes : Bytes},
    packLoop pack items ret = .ok bytes → ret.length ≤ bytes.length ∧
      ∀ item ∈ items, ∃ packed, pack item = .ok packed ∧ packed.length ≤ bytes.length := by
  intro items
  induction items with
  | nil =>
    intro ret bytes h
    cases h
    exact ⟨Nat.le_refl _, fun item hitem => absurd hitem List.not_mem_nil⟩
  | cons item items ih =>
    intro ret bytes h
    rw [packLoop, Result.bind_eq_ok] at h
    obtain ⟨packed, hpacked, h⟩ := h
    obtain ⟨hlen, hrest⟩ := ih h
    rw [List.length_append] at hlen
    refine ⟨by omega, fun item' hitem' => ?_⟩
    rcases List.mem_cons.mp hitem' with rfl | hmem
    · exact ⟨packed, hpacked, by omega⟩
    · exact hrest item' hmem

theorem storage_of_publishItems (heap : Heap) : ∀ {topics : List TopicPtr}
    {data items : List TopicPacket},
    DDSPacket.publishItems heap (topics.map some) data = .ok items →
    ∀ p ∈ topics, (heap.topics p).storage 0 ≠ none := by
  intro topics
  induction topics with
  | nil => exact fun _ p hp => absurd hp List.not_mem_nil
  | cons q topics ih =>
    intro data items h p hp hnone
    rw [List.map_cons, DDSPacket.publishItems, Heap.deref, Result.bind_eq_ok] at h
    obtain ⟨topic, ⟨⟩, h⟩ := h
    rw [Result.bind_eq_ok] at h
    obtain ⟨text, htext, h⟩ := h
    rcases List.mem_cons.mp hp with rfl | hmem
    · rw [Topic.getData, hnone] at htext
      cases htext
    · exact ih h p hmem hnone

theorem pack_of_createPacket {kind : CommunicationType} {heap : Heap} {topics : List TopicPtr}
    {bytes : Bytes} (h : createPacket kind heap (topics.map some) = .ok bytes) :
    (kind = .publish → ∀ p ∈ topics, (heap.topics p).storage 0 ≠ none) ∧
      DDSPacket.pack ⟨⟨kind.toByte⟩, sentData kind (topics.map heap.topics)⟩ = .ok bytes := by
  have hdata : kind = .publish → ∀ p ∈ topics, (heap.topics p).storage 0 ≠ none := by
    rintro rfl
    rw [createPacket, DDSPacket.createPublishPacket, Result.bind_eq_ok] at h
    obtain ⟨items, hitems, -⟩ := h
    exact storage_of_publishItems heap hitems
  refine ⟨hdata, ?_⟩
  rw [← createPacket_eq_pack kind heap hdata]
  exact h

/-- What a payload object is written as. -/
def packPayload : DDSData → Result Bytes
  | .discoverData data => data.pack
  | .publishData data => data.pack
  | .subscribeData data => data.pack

theorem DDSPacket.pack_ok {packet : DDSPacket} {bytes : Bytes} (h : packet.pack = .ok bytes) :
    ∃ payload, packPayload packet.ddsData = .ok payload ∧
      bytes = packet.header.type :: payload := by
  obtain ⟨header, ddsData⟩ := packet
  cases ddsData with
  | discoverData data | publishData data | subscribeData data =>
    obtain ⟨payload, hpayload, hbytes⟩ := Result.bind_eq_ok.mp h
    cases hbytes
    exact ⟨payload, hpayload, rfl⟩

theorem TopicPacket.pack_ok {packet : TopicPacket} {bytes : Bytes} (h : packet.pack = .ok bytes) :
    ∃ name text, packet.name.pack = .ok name ∧ packet.data.pack = .ok text ∧
      bytes = name ++ text := by
  rw [TopicPacket.pack, Result.bind_eq_ok] at h
  obtain ⟨name, hname, h⟩ := h
  rw [Result.bind_eq_ok] at h
  obtain ⟨text, htext, hboth⟩ := h
  cases hboth
  exact ⟨name, text, hname, htext, rfl⟩

/-- **A packet shorter than `2 ^ 32` bytes is made of topics that can be framed.** -/
theorem framable_of_createPacket {kind : CommunicationType} {heap : Heap} {topics : List TopicPtr}
    {bytes : Bytes} (h : createPacket kind heap (topics.map some) = .ok bytes)
    (hlt : bytes.length < 2 ^ 32) : ∀ p ∈ topics, Framable kind (heap.topics p) := by
  obtain ⟨hdata, hpack⟩ := pack_of_createPacket h
  obtain ⟨payload, hpayload, rfl⟩ := DDSPacket.pack_ok hpack
  rw [List.length_cons] at hlt
  -- a name, in the loop over the items of any of the three kinds
  have hnames : ∀ {p : TopicPtr}, p ∈ topics →
      packLoop TopicName.pack ((topics.map heap.topics).map nameItem) [] = .ok payload →
      (heap.topics p).getName.length ≤ 268435455 := by
    intro p hp hloop
    obtain ⟨packed, hpacked, hle⟩ := (packLoop_ok hloop).2 _
      (List.mem_map_of_mem (List.mem_map_of_mem hp))
    exact length_le_of_packField hpacked (by omega)
  intro p hp
  cases kind with
  | discover => exact ⟨hnames hp hpayload, fun hk => nomatch hk⟩
  | subscribe => exact ⟨hnames hp hpayload, fun hk => nomatch hk⟩
  | publish =>
    obtain ⟨data, hsome⟩ := Option.ne_none_iff_exists'.mp (hdata rfl p hp)
    have hloop : packLoop TopicPacket.pack ((topics.map heap.topics).map dataItem) []
        = .ok payload := hpayload
    obtain ⟨packed, hpacked, hle⟩ := (packLoop_ok hloop).2 _
      (List.mem_map_of_mem (List.mem_map_of_mem hp))
    obtain ⟨name, text, hname, htext, rfl⟩ := TopicPacket.pack_ok hpacked
    rw [List.length_append] at hle
    have hitem : (dataItem (heap.topics p)).data = ⟨UInt32.ofNat data.length, data⟩ := by
      rw [dataItem, hsome]
      rfl
    rw [hitem] at htext
    exact ⟨length_le_of_packField hname (by omega),
      fun _ => ⟨data, hsome, length_le_of_packField htext (by omega)⟩⟩

/-! ### Announcements -/

theorem packLoop_of_ok {ι : Type} {pack : ι → Result Bytes} : ∀ {items : List ι} (ret : Bytes),
    (∀ item ∈ items, ∃ packed, pack item = .ok packed) →
    ∃ bytes, packLoop pack items ret = .ok bytes := by
  intro items
  induction items with
  | nil => exact fun ret _ => ⟨ret, rfl⟩
  | cons item items ih =>
    intro ret h
    obtain ⟨packed, hpacked⟩ := h item List.mem_cons_self
    obtain ⟨bytes, hbytes⟩ := ih (ret ++ packed) fun i hi => h i (List.mem_cons_of_mem _ hi)
    exact ⟨bytes, by rw [packLoop, hpacked]; exact hbytes⟩

theorem exists_map_some_of_nameItems (heap : Heap) : ∀ {topics : List (Option TopicPtr)}
    {data items : List TopicName}, DDSPacket.nameItems heap topics data = .ok items →
    ∃ ptrs : List TopicPtr, topics = ptrs.map some := by
  intro topics
  induction topics with
  | nil => exact fun _ => ⟨[], rfl⟩
  | cons topic topics ih =>
    intro data items h
    rw [DDSPacket.nameItems, Result.bind_eq_ok] at h
    obtain ⟨_, htopic, h⟩ := h
    obtain ⟨ptrs, rfl⟩ := ih h
    cases topic with
    | none => cases htopic
    | some ptr => exact ⟨ptr :: ptrs, rfl⟩

/-- The topic is there, and its length field is small enough. -/
def CanAnnounce (heap : Heap) (topic : Option TopicPtr) : Prop :=
  ∃ t, topic = some t ∧ (UInt32.ofNat (heap.topics t).getName.length).toNat ≤ 268435455

theorem createDiscoverPacket_ok_iff (heap : Heap) (topics : List (Option TopicPtr)) :
    (∃ bytes, DDSPacket.createDiscoverPacket heap topics = .ok bytes) ↔
      ∀ topic ∈ topics, CanAnnounce heap topic := by
  constructor
  · rintro ⟨bytes, h⟩
    have hitems := h
    rw [DDSPacket.createDiscoverPacket, Result.bind_eq_ok] at hitems
    obtain ⟨items, hitems, -⟩ := hitems
    obtain ⟨ptrs, rfl⟩ := exists_map_some_of_nameItems heap hitems
    have hcreate : createPacket .discover heap (ptrs.map some) = .ok bytes := h
    obtain ⟨-, hpack⟩ := pack_of_createPacket hcreate
    obtain ⟨payload, hpayload, -⟩ := DDSPacket.pack_ok hpack
    have hloop : packLoop TopicName.pack ((ptrs.map heap.topics).map nameItem) [] = .ok payload :=
      hpayload
    intro topic htopic
    obtain ⟨t, ht, rfl⟩ := List.mem_map.mp htopic
    obtain ⟨packed, hpacked, -⟩ := (packLoop_ok hloop).2 _
      (List.mem_map_of_mem (List.mem_map_of_mem ht))
    exact ⟨t, rfl, (packField_ok_iff.mp hpacked).1⟩
  · intro h
    obtain ⟨ptrs, rfl⟩ : topics ∈ Set.range (List.map some) := by
      rw [Set.range_list_map]
      exact fun topic htopic => ⟨_, (h topic htopic).choose_spec.1.symm⟩
    have hloop : ∃ payload, packLoop TopicName.pack ((ptrs.map heap.topics).map nameItem) []
        = .ok payload := by
      refine packLoop_of_ok [] fun item hitem => ?_
      obtain ⟨topic, htopic, rfl⟩ := List.mem_map.mp hitem
      obtain ⟨t, ht, rfl⟩ := List.mem_map.mp htopic
      obtain ⟨_, ⟨⟩, hle⟩ := h _ (List.mem_map_of_mem ht)
      exact ⟨_, packField_ok_iff.mpr ⟨hle, rfl⟩⟩
    obtain ⟨payload, hpayload⟩ := hloop
    refine ⟨CommunicationType.discover.toByte :: payload, ?_⟩
    have hnopublish : CommunicationType.discover ≠ .publish := by decide
    exact (createPacket_eq_pack .discover heap fun hk => absurd hk hnopublish).trans
      (Result.bind_eq_ok.mpr ⟨payload, hpayload, rfl⟩)

end Mydds
