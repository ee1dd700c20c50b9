import Mydds.Packet.Encode

/-!
# What the encoders refuse

The size of a string is narrowed to 32 bits when the item is built, and `pack_length` compares
what is left of it with `MAX_LENGTH`.  So an encoder throws on strings whose size modulo
`2 ^ 32` is too large (`Refused`), and on missing data, while the strings that it cannot frame
are all that are too large (`Framable`).

`ThrowsIff` is the exact outcome of a call that throws under a condition and returns otherwise;
`ThrowsIff.bind` and `packLoop_throwsIff` carry it from the fields to the packet,
`createPacket_throwsIff`.  `refuses_iff` compares the two conditions: a list of topics is
treated as it should be iff one of them is refused, or all of them can be framed.  A string of
`2 ^ 32` bytes is neither.
-/

namespace Mydds

/-! ### Exceptions -/

/-- The call ends with one of the two exceptions that the encoders throw. -/
def Throws {α : Type} (result : Result α) : Prop :=
  ∃ what, result = .error (.invalidArgument what) ∨ result = .error (.runtimeError what)

theorem not_throws_ok {α : Type} (a : α) : ¬ Throws (.ok a : Result α) := by
  intro h
  obtain ⟨what, h | h⟩ := h
  · cases h
  · cases h

/-- The call throws if `P`, and returns otherwise. -/
structure ThrowsIff {α : Type} (result : Result α) (P : Prop) : Prop where
  throws : P → Throws result
  returns : ¬ P → ∃ a, result = .ok a

namespace ThrowsIff

variable {α β : Type} {result : Result α} {P Q : Prop}

theorem of_ok (a : α) (h : ¬ P) : ThrowsIff (.ok a : Result α) P :=
  ⟨fun hP => absurd hP h, fun _ => ⟨a, rfl⟩⟩

theorem of_throws (h : Throws result) (hP : P) : ThrowsIff result P :=
  ⟨fun _ => h, fun hno => absurd hP hno⟩

theorem iff (h : ThrowsIff result P) : Throws result ↔ P := by
  refine ⟨fun hthrows => ?_, h.throws⟩
  by_contra hno
  obtain ⟨a, rfl⟩ := h.returns hno
  exact not_throws_ok a hthrows

theorem of_error (h : ThrowsIff result P) {fault : Fault} (herror : result = .error fault) :
    P ∧ Throws result := by
  by_cases hP : P
  · exact ⟨hP, h.throws hP⟩
  · obtain ⟨a, ha⟩ := h.returns hP
    rw [herror] at ha
    cases ha

theorem congr (h : ThrowsIff result P) (hPQ : P ↔ Q) : ThrowsIff result Q :=
  ⟨fun hQ => h.throws (hPQ.mpr hQ), fun hQ => h.returns fun hP => hQ (hPQ.mp hP)⟩

theorem bind (h : ThrowsIff result P) {f : α → Result β}
    (hf : ∀ a, result = .ok a → ThrowsIff (f a) Q) : ThrowsIff (result >>= f) (P ∨ Q) := by
  by_cases hP : P
  · refine of_throws ?_ (Or.inl hP)
    obtain ⟨what, rfl | rfl⟩ := h.throws hP
    · exact ⟨what, Or.inl rfl⟩
    · exact ⟨what, Or.inr rfl⟩
  · obtain ⟨a, rfl⟩ := h.returns hP
    exact (hf a rfl).congr (or_iff_right hP).symm

theorem bind_ok (h : ThrowsIff result P) (f : α → β) :
    ThrowsIff (result >>= fun a => .ok (f a)) P :=
  (h.bind (Q := False) fun a _ => of_ok (f a) id).congr (iff_of_eq (or_false P))

end ThrowsIff

/-! ### Items -/

/-- What is left of the size in 32 bits is too large. -/
def Overlong (text : Bytes) : Prop := 268435455 < text.length % 2 ^ 32

theorem not_le_of_overlong {text : Bytes} (h : Overlong text) : ¬ text.length ≤ 268435455 := by
  unfold Overlong at h
  omega

theorem packField_throwsIff (text : Bytes) :
    ThrowsIff (packField (UInt32.ofNat text.length) text) (Overlong text) := by
  have hfield : (UInt32.ofNat text.length).toNat = text.length % 2 ^ 32 := UInt32.toNat_ofNat'
  by_cases h : Overlong text
  · rw [packField, Util.packLength_error (by rw [hfield]; exact h)]
    exact .of_throws ⟨_, Or.inl rfl⟩ h
  · rw [packField, Util.packLength_eq (by rw [hfield]; exact Nat.not_lt.mp h)]
    exact .of_ok _ h

theorem packLoop_throwsIff {β ι : Type} {pack : ι → Result Bytes} {obj : β → ι} {P : β → Prop} :
    ∀ {bs : List β}, (∀ b ∈ bs, ThrowsIff (pack (obj b)) (P b)) → ∀ ret : Bytes,
    ThrowsIff (packLoop pack (bs.map obj) ret) (∃ b ∈ bs, P b) := by
  intro bs
  induction bs with
  | nil =>
    intro _ ret
    exact .of_ok ret (by simp)
  | cons b bs ih =>
    intro h ret
    rw [List.map_cons, packLoop, List.exists_mem_cons_iff]
    apply (h b List.mem_cons_self).bind
    intro packed _
    exact ih (fun c hc => h c (List.mem_cons_of_mem _ hc)) (ret ++ packed)

theorem nameItem_throwsIff (topic : Topic) :
    ThrowsIff (nameItem topic).pack (Overlong topic.getName) := packField_throwsIff topic.getName

theorem dataItem_throwsIff {topic : Topic} {data : Bytes} (h : topic.storage 0 = some data) :
    ThrowsIff (dataItem topic).pack (Overlong topic.getName ∨ Overlong data) := by
  have hdata : (dataItem topic).data = ⟨UInt32.ofNat data.length, data⟩ := by
    rw [dataItem, h]
    rfl
  rw [TopicPacket.pack, hdata]
  apply (nameItem_throwsIff topic).bind
  intro ret _
  exact (packField_throwsIff data).bind_ok fun dataBytes => ret ++ dataBytes

theorem publishItems_throwsIff (heap : Heap) : ∀ (topics : List TopicPtr) (data : List TopicPacket),
    ThrowsIff (DDSPacket.publishItems heap (topics.map some) data)
      (∃ p ∈ topics, (heap.topics p).storage 0 = none) := by
  intro topics
  induction topics with
  | nil =>
    intro data
    exact .of_ok data (by simp)
  | cons p topics ih =>
    intro data
    have hget : ThrowsIff ((heap.topics p).getData 0) ((heap.topics p).storage 0 = none) := by
      unfold Topic.getData
      cases hstorage : (heap.topics p).storage 0 with
      | none => exact .of_throws ⟨_, Or.inr rfl⟩ rfl
      | some text => exact .of_ok text (Option.some_ne_none text)
    rw [List.map_cons, List.exists_mem_cons_iff]
    apply hget.bind
    intro text _
    exact ih _

/-! ### Packets -/

/-- A size modulo `2 ^ 32` is too large, or there are no data. -/
def Refused (kind : CommunicationType) (topic : Topic) : Prop :=
  Overlong topic.getName ∨ (kind = .publish ∧
    (topic.storage 0 = none ∨ ∃ data, topic.storage 0 = some data ∧ Overlong data))

theorem refused_publish_iff (topic : Topic) : Refused .publish topic ↔ topic.storage 0 = none ∨
    ∃ data, topic.storage 0 = some data ∧ (Overlong topic.getName ∨ Overlong data) := by
  unfold Refused
  cases hstorage : topic.storage 0 with
  | none => simp
  | some data => simp

theorem Refused.not_framable {kind : CommunicationType} {topic : Topic} (h : Refused kind topic) :
    ¬ Framable kind topic := by
  intro hframable
  obtain ⟨hname, hdata⟩ := hframable
  rcases h with h | ⟨hk, h⟩
  · exact not_le_of_overlong h hname
  · obtain ⟨data, hsome, hlen⟩ := hdata hk
    rcases h with hnone | ⟨data', hsome', hover⟩
    · rw [hnone] at hsome
      cases hsome
    · obtain rfl := Option.some.inj (hsome.symm.trans hsome')
      exact not_le_of_overlong hover hlen

/-- **An encoder throws iff a topic is refused.** -/
theorem createPacket_throwsIff (kind : CommunicationType) (heap : Heap) (topics : List TopicPtr) :
    ThrowsIff (createPacket kind heap (topics.map some))
      (∃ p ∈ topics, Refused kind (heap.topics p)) := by
  have hnames : ThrowsIff (packLoop TopicName.pack ((topics.map heap.topics).map nameItem) [])
      (∃ p ∈ topics, Overlong (heap.topics p).getName) := by
    rw [List.map_map]
    exact packLoop_throwsIff (fun p _ => nameItem_throwsIff (heap.topics p)) []
  cases kind with
  | discover =>
    have hpack := hnames.bind_ok fun payload => CommunicationType.discover.toByte :: payload
    rw [createPacket_eq_pack .discover heap fun hk => absurd hk (by decide)]
    exact hpack.congr (by simp [Refused])
  | subscribe =>
    have hpack := hnames.bind_ok fun payload => CommunicationType.subscribe.toByte :: payload
    rw [createPacket_eq_pack .subscribe heap fun hk => absurd hk (by decide)]
    exact hpack.congr (by simp [Refused])
  | publish =>
    have hsplit : ((∃ p ∈ topics, (heap.topics p).storage 0 = none) ∨ ∃ p ∈ topics, ∃ data,
        (heap.topics p).storage 0 = some data ∧
          (Overlong (heap.topics p).getName ∨ Overlong data)) ↔
        ∃ p ∈ topics, Refused .publish (heap.topics p) := by
      simp only [refused_publish_iff, and_or_left, exists_or]
    refine ((publishItems_throwsIff heap topics []).bind fun items h => ?_).congr hsplit
    -- the items have been built, so every topic has data
    have hdata := storage_of_publishItems heap h
    obtain rfl := Except.ok.inj (h.symm.trans (DDSPacket.publishItems_eq heap topics [] hdata))
    have hloop : ThrowsIff (packLoop TopicPacket.pack (topics.map (dataItem ∘ heap.topics)) []) _ :=
      packLoop_throwsIff (P := fun p => ∃ data, (heap.topics p).storage 0 = some data ∧
        (Overlong (heap.topics p).getName ∨ Overlong data)) (fun p hp => ?_) []
    · rw [← List.map_map] at hloop
      exact hloop.bind_ok fun payload => CommunicationType.publish.toByte :: payload
    · obtain ⟨data, hsome⟩ := Option.ne_none_iff_exists'.mp (hdata p hp)
      refine (dataItem_throwsIff hsome).congr ⟨fun hover => ⟨data, hsome, hover⟩, fun hover => ?_⟩
      obtain ⟨data', hsome', hover⟩ := hover
      obtain rfl := Option.some.inj (hsome.symm.trans hsome')
      exact hover

/-- What is expected of an encoder: it throws on exactly the lists with a topic that cannot be
framed, and else writes the frames of what it sends. -/
structure Refuses (kind : CommunicationType) (heap : Heap) (topics : List TopicPtr) : Prop where
  throws : Throws (createPacket kind heap (topics.map some)) ↔
    ∃ p ∈ topics, ¬ Framable kind (heap.topics p)
  framed : ∀ bytes, createPacket kind heap (topics.map some) = .ok bytes →
    ∃ rest frames, bytes = kind.toByte :: rest ∧ IsPayload kind rest frames ∧
      payloadOf kind frames = sentData kind (topics.map heap.topics)

/-- **Encoders refuse what they cannot frame iff** one of the topics is refused, or all of them
can be framed. -/
theorem refuses_iff (kind : CommunicationType) (heap : Heap) (topics : List TopicPtr) :
    Refuses kind heap topics ↔ (∃ p ∈ topics, Refused kind (heap.topics p)) ∨
      ∀ p ∈ topics, Framable kind (heap.topics p) := by
  have hthrows := (createPacket_throwsIff kind heap topics).iff
  constructor
  · intro h
    have hiff := hthrows.symm.trans h.throws
    by_cases hrefused : ∃ p ∈ topics, Refused kind (heap.topics p)
    · exact Or.inl hrefused
    · refine Or.inr fun p hp => ?_
      by_contra hno
      exact hrefused (hiff.mpr ⟨p, hp, hno⟩)
  · intro h
    rcases h with hrefused | hframable
    · have herr := hthrows.mpr hrefused
      obtain ⟨p, hp, hp'⟩ := hrefused
      refine ⟨iff_of_true herr ⟨p, hp, hp'.not_framable⟩, fun bytes hok => ?_⟩
      rw [hok] at herr
      exact absurd herr (not_throws_ok bytes)
    · obtain ⟨rest, frames, hcreate, hrest, hpayload⟩ := createPacket_eq kind heap hframable
      refine ⟨?_, fun bytes hok => ?_⟩
      · rw [hcreate]
        refine iff_of_false (not_throws_ok _) fun hno => ?_
        obtain ⟨p, hp, hno⟩ := hno
        exact hno (hframable p hp)
      · exact ⟨rest, frames, Except.ok.inj (hok.symm.trans hcreate), hrest, hpayload⟩

/-- A name of `2 ^ 32` bytes, the size of which is zero in 32 bits. -/
def hugeName : Bytes := List.replicate (2 ^ 32) 97

theorem length_hugeName : hugeName.length = 2 ^ 32 := List.length_replicate

/-- It is announced behind the length of the empty name. -/
theorem refuses_fails : ¬ Refuses .discover ⟨fun _ => Topic.ofName hugeName, 1⟩ [0] := by
  intro h
  have hlong : ¬ Framable .discover (Topic.ofName hugeName) := by
    intro hframable
    have hle : hugeName.length ≤ 268435455 := hframable.1
    rw [length_hugeName] at hle
    exact absurd hle (by decide)
  have hthrows := h.throws.mpr ⟨0, List.mem_singleton_self 0, hlong⟩
  obtain ⟨p, -, hover | ⟨hk, -⟩⟩ := (createPacket_throwsIff _ _ _).iff.mp hthrows
  · have hsize : 268435455 < hugeName.length % 2 ^ 32 := hover
    rw [length_hugeName] at hsize
    exact absurd hsize (by decide)
  · cases hk

end Mydds
