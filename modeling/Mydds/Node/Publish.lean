import Mydds.Node.Handler
import Mydds.Packet.Encode
import Mydds.Trie.Split

/-!
# Publishing, from one node to another

`publish` looks its topic up by the name it is given, and sends the topic it is given under
the name that this topic bears; the receiver reads the name of the packet as a pattern.
`EndToEnd` is what a publication is for: afterwards the sender finds the published topic
under the name, the packet carries the name and the data, and every receiver that handles it
sets the topic stored under the name, and no other.

`publishItem_topics` is the exact effect of an item on a receiver.
`publish_endToEnd_iff` says when a publication that reports success is `EndToEnd`: the
name has no wildcards, the sender stores this very topic under it (for `ret[0] = topic`
writes to a copy), the topic bears the name, and neither string is too long for a packet.
-/

namespace Mydds

open Lib

namespace Node

/-! ### The receiver -/

theorem publishItem_eq (m : TopicManager) (item : TopicPacket) :
    publishItem m item = { m with
      heap := (m.getTopics item.name.name).foldl
        (fun heap topic => heap.modify topic (·.setData 0 item.data.data)) m.heap } := by
  rw [publishItem]
  split
  · rename_i hnil
    rw [List.eq_nil_of_length_eq_zero hnil]
    rfl
  · rfl

/-- **What an item does to a receiver**: the data under key 0 of every topic that is found. -/
theorem publishItem_topics (m : TopicManager) (item : TopicPacket) (p : TopicPtr) :
    (publishItem m item).heap.topics p
      = if p ∈ m.getTopics item.name.name then (m.heap.topics p).setData 0 item.data.data
        else m.heap.topics p := by
  have hloop := Heap.foldl_modify_topics (·.setData 0 item.data.data)
    (m.getTopics item.name.name) m.heap p
  rw [publishItem_eq, hloop, Topic.iterate_setData]
  by_cases hp : p ∈ m.getTopics item.name.name
  · rw [if_pos hp, if_neg (Nat.ne_of_gt (List.count_pos_iff.mpr hp))]
  · rw [if_neg hp, if_pos (List.count_eq_zero_of_not_mem hp)]

/-- After the packet the topic stored under the name has the data under key 0, and every
other topic has the data it had. -/
structure Delivered (topicName data : Bytes) (m m' : TopicManager) : Prop where
  stored : ∀ t, m.topics.get (Trie.split topicName slash) = some t →
    (m'.heap.topics t).storage 0 = some data
  others : ∀ t, m.topics.get (Trie.split topicName slash) ≠ some t →
    (m'.heap.topics t).storage = (m.heap.topics t).storage

/-- No token of the name is a wildcard. -/
def Literal (topicName : Bytes) : Prop :=
  ∀ t ∈ Trie.split topicName slash, t ≠ plus ∧ t ≠ hash

theorem mem_getTopics_of_literal {topicName : Bytes} (h : Literal topicName) (m : TopicManager)
    (t : TopicPtr) :
    t ∈ m.getTopics topicName ↔ m.topics.get (Trie.split topicName slash) = some t := by
  rw [m.mem_getTopics_iff]
  constructor
  · rintro ⟨key, hget, hmatch⟩
    rwa [(wildMatch_literal plus hash h key).mp hmatch]
  · exact fun hget => ⟨_, hget, wildMatch_self _ _ _⟩

theorem delivered_of_literal {topicName : Bytes} (h : Literal topicName) {item : TopicPacket}
    (hname : item.name.name = topicName) (m : TopicManager) :
    Delivered topicName item.data.data m (publishItem m item) := by
  subst hname
  refine ⟨fun t hget => ?_, fun t hget => ?_⟩
  · rw [publishItem_topics, if_pos ((mem_getTopics_of_literal h m t).mpr hget),
      Topic.storage_setData_self]
  · rw [publishItem_topics, if_neg fun hmem => hget ((mem_getTopics_of_literal h m t).mp hmem)]

/-- **A name with a wildcard reaches a topic under another name**, in a receiver that has one. -/
theorem exists_not_delivered {item : TopicPacket} (h : ¬ Literal item.name.name) :
    ∃ m : TopicManager, ¬ Delivered item.name.name item.data.data m (publishItem m item) := by
  have hwild : ∃ t ∈ Trie.split item.name.name slash, t = plus ∨ t = hash := by
    by_contra hno
    refine h fun t ht => ⟨fun hp => hno ⟨t, ht, Or.inl hp⟩, fun hh => hno ⟨t, ht, Or.inr hh⟩⟩
  obtain ⟨key, hne, hmatch, htokens⟩ := exists_wildMatch_ne plus hash [97]
    (by decide) (by decide) hwild
  have hsplit : Trie.split (Trie.pathOf slash key) slash = key := by
    refine Trie.split_pathOf fun t ht => ?_
    rcases htokens t ht with rfl | hmem
    · decide
    · exact Trie.not_mem_of_mem_split hmem
  -- a receiver with one topic, at the other key
  let m0 := TopicManager.init ⟨fun _ => Topic.ofName [], 1⟩
  let m := (m0.insertTopic (Trie.pathOf slash key) (some 0)).2
  have hnil : m0.getTopics (Trie.pathOf slash key) = [] := TopicManager.getTopics_init _ _
  have hget : ∀ k, m.topics.get k = if k = key then some 0 else none := by
    intro k
    show (m0.insertTopic _ _).2.topics.get k = _
    rw [TopicManager.insertTopic_of_absent hnil, Trie.get_insert, hsplit]
    exact if_congr Iff.rfl rfl (Trie.get_empty k)
  have hfound : (0 : TopicPtr) ∈ m.getTopics item.name.name :=
    (m.mem_getTopics_iff _ 0).mpr ⟨key, (hget key).trans (if_pos rfl), hmatch⟩
  refine ⟨m, fun hdelivered => ?_⟩
  have hsame := hdelivered.others 0 (by rw [hget, if_neg (Ne.symm hne)]; exact nofun)
  rw [publishItem_topics, if_pos hfound] at hsame
  have hbefore : (m.heap.topics 0).storage 0 = none := by
    show ((m0.insertTopic _ _).2.heap.topics 0).storage 0 = none
    rw [TopicManager.insertTopic_of_absent hnil]
    rfl
  have hafter := Topic.storage_setData_self (m.heap.topics 0) 0 item.data.data
  rw [hsame, hbefore] at hafter
  cases hafter

/-! ### The packet -/

theorem createPublishPacket_ok {heap : Heap} {topic : TopicPtr} {data bytes : Bytes}
    (hdata : (heap.topics topic).storage 0 = some data)
    (h : DDSPacket.createPublishPacket heap [some topic] = .ok bytes) :
    (UInt32.ofNat (heap.topics topic).getName.length).toNat ≤ 268435455 ∧
    (UInt32.ofNat data.length).toNat ≤ 268435455 ∧
    bytes = CommunicationType.publish.toByte ::
      (Util.lengthPrefix (UInt32.ofNat (heap.topics topic).getName.length).toNat
        ++ (heap.topics topic).getName
      ++ (Util.lengthPrefix (UInt32.ofNat data.length).toNat ++ data)) := by
  have hcreate : createPacket .publish heap ([topic].map some) = .ok bytes := h
  obtain ⟨-, hpack⟩ := pack_of_createPacket hcreate
  obtain ⟨payload, hpayload, rfl⟩ := DDSPacket.pack_ok hpack
  have hitem : dataItem (heap.topics topic)
      = ⟨⟨UInt32.ofNat (heap.topics topic).getName.length, (heap.topics topic).getName⟩,
        ⟨UInt32.ofNat data.length, data⟩⟩ := by
    rw [dataItem, hdata]
    rfl
  have hloop : packLoop TopicPacket.pack [dataItem (heap.topics topic)] [] = .ok payload := hpayload
  rw [hitem, packLoop, Result.bind_eq_ok] at hloop
  obtain ⟨packed, hpacked, hret⟩ := hloop
  cases hret
  obtain ⟨name, text, hname, htext, rfl⟩ := TopicPacket.pack_ok hpacked
  obtain ⟨hnamele, rfl⟩ := packField_ok_iff.mp hname
  obtain ⟨htextle, rfl⟩ := packField_ok_iff.mp htext
  exact ⟨hnamele, htextle, rfl⟩

/-- The packet is read as one item with this name and these data. -/
def CarriesItem (bytes topicName data : Bytes) : Prop :=
  ∃ n item, (DDSPacket.fresh 0).unpack bytes
      = (.ok n, ⟨⟨CommunicationType.publish.toByte⟩, .publishData ⟨[item]⟩⟩) ∧
    item.name.name = topicName ∧ item.data.data = data

theorem exists_frames_of_carriesItem {rest topicName data : Bytes}
    (h : CarriesItem (CommunicationType.publish.toByte :: rest) topicName data) :
    ∃ f g : Frame, rest = f.bytes ++ g.bytes ∧ f.content = topicName ∧ g.content = data := by
  obtain ⟨n, item, hunpack, hname, htext⟩ := h
  obtain ⟨frames, hframes⟩ := ((DDSPacket.fresh 0).unpack_ok_iff .publish rest).mp
    ⟨n, by rw [hunpack]⟩
  rw [DDSPacket.unpack_payload _ hframes] at hunpack
  have hitems : (pairUp frames).map pairPacket = [item] := by
    have hpacket := congrArg DDSPacket.ddsData (Prod.mk.inj hunpack).2
    exact PublishData.mk.inj (DDSData.publishData.inj hpacket)
  obtain ⟨⟨f, g⟩, hpair, hitem⟩ := List.map_eq_singleton_iff.mp hitems
  subst hitem
  refine ⟨f, g, ?_, hname, htext⟩
  rw [hframes.1, ← flatMap_pairUp frames (hframes.2 rfl), hpair, List.flatMap_singleton]
  rfl

theorem carriesItem_iff {heap : Heap} {topic : TopicPtr} {topicName data bytes : Bytes}
    (hdata : (heap.topics topic).storage 0 = some data)
    (h : DDSPacket.createPublishPacket heap [some topic] = .ok bytes) :
    CarriesItem bytes topicName data ↔ (heap.topics topic).getName = topicName ∧
      topicName.length ≤ 268435455 ∧ data.length ≤ 268435455 := by
  constructor
  · intro hcarries
    obtain ⟨hnamele, hdatale, rfl⟩ := createPublishPacket_ok hdata h
    obtain ⟨f, g, hrest, hname, htext⟩ := exists_frames_of_carriesItem hcarries
    have hdatalen : data.length ≤ 268435455 := htext ▸ g.content_length_le
    rw [Frame.bytes, List.append_assoc, List.append_assoc] at hrest
    -- the first prefix is the one that was written, so the first frame is as long as it says
    obtain ⟨hfirst, hbehind⟩ := (Util.isLengthPrefix_lengthPrefix hnamele).cancel
      f.isLengthPrefix hrest
    have hvalue : f.content.length = (heap.topics topic).getName.length % 2 ^ 32 := by
      rw [← f.length_eq, ← hfirst, Util.prefixValue_lengthPrefix]
      exact UInt32.toNat_ofNat'
    have hsizes := congrArg List.length hbehind
    have hg := g.isLengthPrefix.length_le
    have hpos := (Util.isLengthPrefix_lengthPrefix hdatale).length_pos
    simp only [List.length_append, Frame.length_bytes, htext] at hsizes
    have hlen : (heap.topics topic).getName.length = f.content.length := by omega
    have hcontent := List.append_inj_left hbehind hlen
    exact ⟨hcontent.trans hname, hname ▸ f.content_length_le, hdatalen⟩
  · rintro ⟨hname, hnamelen, hdatalen⟩
    have hframable : ∀ p ∈ [topic], Framable .publish (heap.topics p) := by
      intro p hp
      rw [List.mem_singleton.mp hp]
      exact ⟨by rw [hname]; exact hnamelen, fun _ => ⟨data, hdata, hdatalen⟩⟩
    obtain ⟨rest, frames, hcreate, hrest, hpayload⟩ := createPacket_eq .publish heap hframable
    obtain rfl : bytes = CommunicationType.publish.toByte :: rest :=
      Except.ok.inj (h.symm.trans hcreate)
    refine ⟨UInt32.ofNat (rest.length + 1), dataItem (heap.topics topic), ?_, hname, ?_⟩
    · rw [DDSPacket.unpack_payload _ hrest, hpayload]
      rfl
    · rw [dataItem, hdata]
      rfl

/-! ### From one node to another -/

theorem publish_ok {node node' : Node} {topicName : Bytes} {topic : Option TopicPtr}
    (h : node.publish topicName topic = .ok (true, node')) :
    (node.topicManager.getTopics topicName).length = 1 ∧
    ∃ bytes, DDSPacket.createPublishPacket node.topicManager.heap [topic] = .ok bytes ∧
      node' = node.multiacast bytes := by
  rw [publish] at h
  split at h
  · cases h
  · rename_i hone
    obtain ⟨bytes, hbytes, hnode⟩ := Result.bind_eq_ok.mp h
    cases hnode
    exact ⟨Decidable.not_not.mp hone, bytes, hbytes, rfl⟩

/-- What a publication is for. -/
structure EndToEnd (node' : Node) (topicName : Bytes) (topic : TopicPtr) (data : Bytes) : Prop where
  /-- the sender finds the topic under the name -/
  found : node'.topicManager.getTopics topicName = [topic]
  /-- the last request is a multicast of the name and the data -/
  sent : ∃ ptr bytes, node'.requests.getLast? = some (ptr, multicastInfo bytes) ∧
    CarriesItem bytes topicName data
  /-- every receiver sets the topic under the name, and no other -/
  delivered : ∀ ptr info n packet, node'.requests.getLast? = some (ptr, info) →
    (DDSPacket.fresh 0).unpack info.bytes = (.ok n, packet) →
    ∀ receive m, ∃ m', handlePacket receive packet m = .ok m' ∧ Delivered topicName data m m'

/-- The sender stores the topic under its name, which has no wildcards, and neither the name
nor the data are too long for a packet. -/
structure Publishable (node : Node) (topicName : Bytes) (topic : TopicPtr) (data : Bytes) :
    Prop where
  stored : node.topicManager.topics.get (Trie.split topicName slash) = some topic
  named : (node.topicManager.heap.topics topic).getName = topicName
  literal : Literal topicName
  name_length : topicName.length ≤ 268435455
  data_length : data.length ≤ 268435455

/-- **End-to-end publish.**  A publication that reports success is found at the sender, is
sent, and is delivered to every receiver, iff the topic is publishable. -/
theorem publish_endToEnd_iff {node node' : Node} {topicName data : Bytes} {topic : TopicPtr}
    (hdata : (node.topicManager.heap.topics topic).storage 0 = some data)
    (hpublish : node.publish topicName (some topic) = .ok (true, node')) :
    EndToEnd node' topicName topic data ↔ Publishable node topicName topic data := by
  obtain ⟨hone, bytes, hcreate, rfl⟩ := publish_ok hpublish
  have hlast : (node.multiacast bytes).requests.getLast?
      = some (node.nextInfo, multicastInfo bytes) := List.getLast?_concat
  have hcarries : CarriesItem bytes topicName data ↔ _ := carriesItem_iff hdata hcreate
  have hhandle : ∀ receive item m, handlePacket receive
      ⟨⟨CommunicationType.publish.toByte⟩, .publishData ⟨[item]⟩⟩ m = .ok (publishItem m item) :=
    fun _ _ _ => rfl
  constructor
  · rintro ⟨hfound, ⟨ptr, bytes', hsent, n, item, hunpack, hname, htext⟩, hdelivered⟩
    rw [hlast] at hsent
    cases hsent
    obtain ⟨hnamed, hnamelen, hdatalen⟩ := hcarries.mp ⟨n, item, hunpack, hname, htext⟩
    have hliteral : Literal topicName := by
      by_contra hwild
      have hwild' : ¬ Literal item.name.name := by rwa [hname]
      obtain ⟨m, hm⟩ := exists_not_delivered hwild'
      obtain ⟨m', hm', hd⟩ := hdelivered _ _ n _ hlast hunpack receiveInfo m
      obtain rfl : publishItem m item = m' := Except.ok.inj ((hhandle _ item m).symm.trans hm')
      rw [hname, htext] at hm
      exact hm hd
    have hmem : topic ∈ node.topicManager.getTopics topicName := by
      have hfound' : node.topicManager.getTopics topicName = [topic] := hfound
      rw [hfound']
      exact List.mem_singleton_self topic
    exact ⟨(mem_getTopics_of_literal hliteral _ _).mp hmem, hnamed, hliteral, hnamelen, hdatalen⟩
  · rintro ⟨hstored, hnamed, hliteral, hnamelen, hdatalen⟩
    obtain ⟨n, item, hunpack, hname, htext⟩ := hcarries.mpr ⟨hnamed, hnamelen, hdatalen⟩
    refine ⟨?_, ⟨_, bytes, hlast, n, item, hunpack, hname, htext⟩, ?_⟩
    · obtain ⟨t, ht⟩ := List.length_eq_one_iff.mp hone
      have hmem := (mem_getTopics_of_literal hliteral node.topicManager topic).mpr hstored
      rw [ht] at hmem
      rw [List.mem_singleton.mp hmem]
      exact ht
    · intro ptr info n' packet hlast' hunpack' receive m
      rw [hlast] at hlast'
      cases hlast'
      obtain ⟨-, rfl⟩ := Prod.mk.inj (hunpack.symm.trans hunpack')
      refine ⟨_, hhandle receive item m, ?_⟩
      rw [← htext]
      exact delivered_of_literal hliteral hname m

/-- A node that stores topic 0 as `"a"`; all of its topics bear this name. -/
def nodeA : Node :=
  ((construct ⟨fun _ => (Topic.ofName [97]).setData 0 [1], 2⟩).createTopic [97] (some 0)).2

/-- The stored topic. -/
theorem publish_endToEnd_iff_stored : EndToEnd (nodeA.multiacast [1, 1, 97, 1, 1]) [97] 0 [1] := by
  have hdata : (nodeA.topicManager.heap.topics 0).storage 0 = some [1] :=
    Topic.storage_setData_self (Topic.ofName [97]) 0 [1]
  have hpublish : nodeA.publish [97] (some 0)
      = .ok (true, nodeA.multiacast [1, 1, 97, 1, 1]) := rfl
  refine (publish_endToEnd_iff hdata hpublish).mpr ⟨rfl, rfl, ?_, by decide, by decide⟩
  unfold Literal
  decide

/-- Another topic of the same name: the sender goes on to find the one it had. -/
theorem publish_endToEnd_fails : ¬ ∀ (node node' : Node) (topicName data : Bytes)
    (topic : TopicPtr),
    (node.topicManager.heap.topics topic).storage 0 = some data →
    node.publish topicName (some topic) = .ok (true, node') →
    EndToEnd node' topicName topic data := by
  intro h
  have hdata : (nodeA.topicManager.heap.topics 1).storage 0 = some [1] :=
    Topic.storage_setData_self (Topic.ofName [97]) 0 [1]
  have hfound := (h nodeA (nodeA.multiacast [1, 1, 97, 1, 1]) [97] [1] 1 hdata rfl).found
  exact absurd hfound (by decide)

end Node

end Mydds
