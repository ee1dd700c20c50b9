import Mydds.Domain.Discovery
import Mydds.Domain.Invariant
import Mydds.Trie.Order

/-!
# Discovery comes to rest

Announcements go on forever, and so do the ones that are still under way, in any order and any
number.  `discovery_settles` says that they stop mattering: once every node knows every name that
is announced, nothing that any node stores or publishes changes any more, as long as no application
registers or renames a topic.

An announcement of a known name only makes an object that nobody sees (`unchanged_discover`).  The
names that are sent are those of published topics, which are known, and the empty name of the blank
items has to be known as well.
-/

namespace Mydds

open Lib

namespace Domain

variable {ι : Type} {setting : Setting ι} {Names : Bytes → Prop}

/-! ### Nothing is forgotten -/

theorem topicsOf_receive {node : Node} {consumed : List InfoPtr}
    (hs : InOrder (.running node consumed)) {request : InfoPtr × IoInfo}
    (htype : request.2.type = .read) {res : Int} (hres : 0 ≤ res) {bytes : Bytes}
    (hlt : bytes.length < 2 ^ 32) {message : Message} (hencodes : Encodes bytes message)
    {received : List Topic} (harrives : Arrives message.kind message.topics received)
    {addr : SockaddrIn} {s' : Node.Process} (hstep : Node.LoopStep (.running node consumed)
      (.complete request res bytes addr) s') :
    ∃ m', topicsOf s' = some m' ∧
      (node.topicManager.after (arrival message.kind addr received)).Reorder m' := by
  obtain ⟨mid, hnext, hreorder⟩ := hstep
  generalize hevent : Node.Event.complete request res bytes addr = event at hnext
  cases hnext with
  | @complete _ _ request' res' bytes' addr' hrequest =>
    cases hevent
    have hinfo : Node.completed request.2 bytes addr = Node.receiveInfo.received bytes addr := by
      rw [Node.completed, if_pos htype, hs.2 request hrequest htype]
    have hhandle : (node.take request).handleEvent (Node.receiveInfo.received bytes addr)
        = (node.take request).handlerRead (Node.receiveInfo.received bytes addr) := rfl
    have hgood : ¬ (res < 0 ∧ res ≠ -etime) := by omega
    rw [Node.processCqe, if_neg hgood, hinfo, hhandle,
      handlerRead_arrives hencodes hlt addr harrives] at hreorder
    cases hreorder with
    | running hm => exact ⟨_, rfl, hm⟩
  | call _ | throw _ _ | crash _ _ => cases hevent

theorem known_kept (setting : Setting ι) (j : ι) (names : List Bytes) :
    Kept setting (fun _ => True) (fun _ i m => i = j → ∀ name ∈ names, m.Known name) where
  mono h _ := h
  reorder h hr hi name hname := (h hi name hname).reorder hr
  discover h _ _ _ _ hi name hname := (h hi name hname).announce _ _
  publish {_ _ _ _ _ topic} h _ _ _ _ hi name hname :=
    (h hi name hname).after (.publish ⟨(0, 0, 0, 0), (0, 0)⟩ [dataItem topic])
  subscribe {_ _ _ sender _ topic} h _ _ _ _ hi name hname :=
    (h hi name hname).after (.subscribe (setting.address sender) [nameItem topic])
  createTopic h _ hi name hname := (h hi name hname).after (.createTopic _ _)
  createPublishTopic h _ hi name hname := (h hi name hname).after (.createPublishTopic _ _)
  write h _ hi name hname := (h hi name hname).after (.write _)
  sends _ _ := trivial

/-- **What has been announced to a node is never forgotten.**  In every run of a domain, a node that
has once received an announcement, and still runs, knows every name that arrived with it, whatever
has happened since. -/
theorem heard_forever [DecidableEq ι] {heaps : ι → Heap}
    {trace : List (Network ι Node.Process Bytes × (ι × Node.Event))}
    {net before : Network ι Node.Process Bytes}
    (r : Run (Network.Step (Acts setting)) (start heaps) trace net) {j : ι}
    {request : InfoPtr × IoInfo} {res : Int} {bytes : Bytes} {addr : SockaddrIn}
    (hx : (before, (j, .complete request res bytes addr)) ∈ trace)
    (htype : request.2.type = .read) (hres : 0 ≤ res) {topics received : List Topic}
    (hencodes : Encodes bytes ⟨.discover, topics⟩) (harrives : Arrives .discover topics received)
    {m : TopicManager} (hj : topicsOf (net.states j) = some m) :
    ∀ topic ∈ received, m.Known topic.getName := by
  obtain ⟨trace₁, trace₂, heard, r₁, hstep, r₂⟩ := r.exists_split hx
  have r₁' := r₁.snoc hstep
  obtain ⟨s', out, ⟨hloop, hgroup, -, -⟩, hheard⟩ := hstep
  have hlt : bytes.length < 2 ^ 32 := by
    rcases hgroup htype with ⟨-, hmax, -⟩ | ⟨hneg, -⟩
    · rw [maxDatagram] at hmax
      omega
    · omega
  have hbefore := inOrder_run r₁ j
  have hreceived : ∃ m', topicsOf (heard.states j) = some m' ∧
      ∀ topic ∈ received, m'.Known topic.getName := by
    rw [hheard, Network.move_states_self]
    cases hs : before.states j with
    | terminated fault =>
      rw [hs] at hloop
      obtain ⟨_, hnext, -⟩ := hloop
      cases hnext
    | running node consumed =>
      rw [hs] at hloop hbefore
      obtain ⟨m', hm', hr⟩ := topicsOf_receive hbefore htype hres hlt hencodes harrives hloop
      refine ⟨m', hm', fun topic htopic => TopicManager.Known.reorder ?_ hr⟩
      exact TopicManager.known_discover addr node.topicManager (nameItem topic)
        (List.mem_map_of_mem htopic)
  obtain ⟨m₁, hm₁, hknown⟩ := hreceived
  obtain ⟨-, net₁, -, hnet, -⟩ :=
    exists_protocolRun (inOrder_start heaps) (abstracts_start heaps) r₁'
  obtain ⟨-, -, -, hend⟩ := (known_kept setting j (received.map Topic.getName)).run_of
    (inOrder_run r₁') hnet.sent (fun _ _ => trivial) (fun i m' hm' hi name hname => by
      subst hi
      obtain rfl := Option.some.inj (hm₁.symm.trans hm')
      obtain ⟨topic, htopic, rfl⟩ := List.mem_map.mp hname
      exact hknown topic htopic) r₂
  exact fun topic htopic => hend j m hj rfl topic.getName (List.mem_map_of_mem htopic)

/-- The second node of a pair has been told of `"a"`. -/
theorem heard_forever_pair : ∃ trace net m,
    Run (Network.Step (Acts (pair fun _ _ => True))) (start heapsA) trace net ∧
      topicsOf (net.states true) = some m ∧ m.Known [97] := by
  obtain ⟨request, s, r, htype, -, htopics⟩ := @exists_run_heard (fun _ _ => True) trivial
  have hj : topicsOf ((announcedPair.move true s []).states true) = _ :=
    (congrArg topicsOf (Network.move_states_self ..)).trans htopics
  have hknown := heard_forever r
    (List.mem_cons_of_mem _ (List.mem_cons_of_mem _ List.mem_cons_self)) htype (by decide) encodes_a
    arrives_a hj (Topic.ofName [97]) mem_heardA
  exact ⟨_, _, _, r, hj, hknown⟩

/-! ### Rest -/

/-- The call registers nothing, and renames no object. -/
def Keeps (m : TopicManager) : Node.Call → Prop
  | .createTopic _ _ | .createPublishTopic _ _ => False
  | .publish _ _ | .subscribe _ => True
  | .write heap => m.heap.next ≤ heap.next ∧
    ∀ p, (heap.topics p).getName = (m.heap.topics p).getName

/-- The names are known, and the published topics are objects that bear some of them. -/
structure Informed (Names : Bytes → Prop) (m : TopicManager) : Prop where
  known : ∀ name, Names name → m.Known name
  old : PublishedOld m
  names : ∀ t, some t ∈ m.getAllPublishTopics → Names (m.heap.topics t).getName

/-- The same topics are stored and published. -/
structure SameTopics (m m' : TopicManager) : Prop where
  topics : m.topics.Reorder m'.topics
  publishingTopics : m.publishingTopics.Reorder m'.publishingTopics
  subscribingTopics : m.subscribingTopics.Reorder m'.subscribingTopics

theorem SameTopics.refl (m : TopicManager) : SameTopics m m :=
  ⟨.refl _, .refl _, .refl _⟩

theorem SameTopics.reorder {m m' m'' : TopicManager} (h : SameTopics m m') (hr : m'.Reorder m'') :
    SameTopics m m'' where
  topics := h.topics.trans hr.topics
  publishingTopics := List.Perm.trans h.publishingTopics hr.publishingTopics
  subscribingTopics := List.Perm.trans h.subscribingTopics hr.subscribingTopics

/-- Nothing but the objects has been written, and none has another name. -/
structure Quiet (m m' : TopicManager) : Prop where
  topics : m'.topics = m.topics
  publishingTopics : m'.publishingTopics = m.publishingTopics
  subscribingTopics : m'.subscribingTopics = m.subscribingTopics
  next : m.heap.next ≤ m'.heap.next
  names : ∀ p, p < m.heap.next → (m'.heap.topics p).getName = (m.heap.topics p).getName

theorem SameTopics.quiet {m m' m'' : TopicManager} (h : SameTopics m m') (hq : Quiet m' m'') :
    SameTopics m m'' where
  topics := hq.topics ▸ h.topics
  publishingTopics := hq.publishingTopics ▸ h.publishingTopics
  subscribingTopics := hq.subscribingTopics ▸ h.subscribingTopics

theorem Informed.quiet {m m' : TopicManager} (h : Informed Names m) (hq : Quiet m m') :
    Informed Names m' where
  known name hname := by
    unfold TopicManager.Known
    rw [hq.publishingTopics, TopicManager.getTopics_congr hq.topics]
    exact h.known name hname
  old t ht := by
    rw [TopicManager.getAllPublishTopics, hq.publishingTopics] at ht
    exact Nat.lt_of_lt_of_le (h.old t ht) hq.next
  names t ht := by
    rw [TopicManager.getAllPublishTopics, hq.publishingTopics] at ht
    rw [hq.names t (h.old t ht)]
    exact h.names t ht

theorem Informed.reorder {m m' : TopicManager} (h : Informed Names m) (hr : m.Reorder m') :
    Informed Names m' := by
  have hpublished : ∀ t, some t ∈ m'.getAllPublishTopics → some t ∈ m.getAllPublishTopics := by
    intro t ht
    have hperm : m.getAllPublishTopics.Perm m'.getAllPublishTopics :=
      List.Perm.map Prod.snd hr.publishingTopics
    exact hperm.mem_iff.mpr ht
  exact ⟨fun name hname => (h.known name hname).reorder hr,
    fun t ht => hr.heap ▸ h.old t (hpublished t ht),
    fun t ht => hr.heap ▸ h.names t (hpublished t ht)⟩

/-! ### What the handlers leave alone -/

theorem quiet_announce (addr : SockaddrIn) {m : TopicManager} {item : TopicName}
    (h : m.Known item.name) : Quiet m (Node.announce addr m item) := by
  have hsame := TopicManager.unchanged_of_known addr h
  exact ⟨hsame.topics, hsame.publishingTopics, hsame.subscribingTopics, hsame.next,
    fun p hp => by rw [hsame.heap p hp]⟩

theorem quiet_publishItem (m : TopicManager) (item : TopicPacket) :
    Quiet m (Node.publishItem m item) := by
  have hnames : ∀ p, ((Node.publishItem m item).heap.topics p).getName
      = (m.heap.topics p).getName := by
    intro p
    rw [Node.publishItem_topics]
    split <;> rfl
  rw [Node.publishItem_eq] at hnames ⊢
  exact ⟨rfl, rfl, rfl, by simp [Heap.foldl_modify_next], fun p _ => hnames p⟩

theorem quiet_subscribeFrom (addr : SockaddrIn) (m : TopicManager) (item : TopicName) :
    Quiet m (Node.subscribeFrom addr m item) :=
  ⟨rfl, rfl, rfl, Nat.le_of_eq (Node.subscribeFrom_next addr m item).symm,
    fun p _ => by rw [Node.subscribeFrom_topics]; rfl⟩

/-! ### A domain -/

/-- The same nodes, of which no application registers or renames anything any more. -/
def resting (setting : Setting ι) : Setting ι :=
  { setting with allowed := fun i m c => setting.allowed i m c ∧ Keeps m c }

theorem settled_kept (setting : Setting ι) (hempty : Names []) (rest : ι → TopicManager) :
    Kept (resting setting)
      (fun x => x.2.kind = .discover → ∀ topic ∈ x.2.topics, Names topic.getName)
      (fun _ i m => Informed Names m ∧ SameTopics (rest i) m) := by
  have hquiet : ∀ {i : ι} {m m' : TopicManager}, Informed Names m ∧ SameTopics (rest i) m →
      Quiet m m' → Informed Names m' ∧ SameTopics (rest i) m' :=
    fun h hq => ⟨h.1.quiet hq, h.2.quiet hq⟩
  refine ⟨fun h _ => h, fun h hr => ⟨h.1.reorder hr, h.2.reorder hr⟩,
    fun h _ hM hkind hholds => hquiet h (quiet_announce _ (h.1.known _ ?_)),
    fun h _ _ _ _ => hquiet h (quiet_publishItem _ _),
    fun h _ _ _ _ => hquiet h (quiet_subscribeFrom _ _ _), fun _ ha => ha.2.elim,
    fun _ ha => ha.2.elim, fun h ha => ?_, fun h hsends hkind => ?_⟩
  · rcases hholds with hmem | ⟨rfl, -⟩
    · exact hM hkind _ hmem
    · exact hempty
  · obtain ⟨-, hnext, hnames⟩ := ha
    exact hquiet h ⟨rfl, rfl, rfl, hnext, fun p _ => hnames p⟩
  · obtain ⟨ptrs, htopics, -, hpublished⟩ := hsends
    intro topic htopic
    rw [show _ = _ from htopics] at htopic
    obtain ⟨t, ht, rfl⟩ := List.mem_map.mp htopic
    exact h.1.names t (hpublished hkind t ht)

/-- **Discovery comes to rest.**  Let every name that has been announced in a domain or is that of a
published topic be in `Names`, the empty name too, and let every node know all of `Names`.  Then
in every run from there in which no application registers or renames anything, whatever is sent,
received again or for the first time, every node stores the same topics under the same paths,
has the same registries, and still knows all names. -/
theorem discovery_settles [DecidableEq ι] {heaps : ι → Heap}
    {trace trace' : List (Network ι Node.Process Bytes × (ι × Node.Event))}
    {net net' : Network ι Node.Process Bytes}
    (r : Run (Network.Step (Acts setting)) (start heaps) trace net) (hempty : Names [])
    (hsent : ∀ i bytes, (i, bytes) ∈ net.sent → ∀ message, Encodes bytes message →
      message.kind = .discover → ∀ topic ∈ message.topics, Names topic.getName)
    (hinformed : ∀ i m, topicsOf (net.states i) = some m → Informed Names m)
    (r' : Run (Network.Step (Acts (resting setting))) net trace' net') {i : ι}
    {m m' : TopicManager} (hi : topicsOf (net.states i) = some m)
    (hi' : topicsOf (net'.states i) = some m') :
    SameTopics m m' ∧ Informed Names m' ∧ ∀ name, (m.getTopics name).Perm (m'.getTopics name) := by
  obtain ⟨-, net₁, -, hnet, -⟩ := exists_protocolRun (inOrder_start heaps) (abstracts_start heaps) r
  have hM : ∀ x ∈ net₁.sent, x.2.kind = .discover → ∀ topic ∈ x.2.topics, Names topic.getName := by
    intro x hx hkind
    obtain ⟨⟨j, bytes⟩, hbytes, -, hencodes⟩ := (Network.exists_of_forall₂ hnet.sent).2 x hx
    exact hsent j bytes hbytes x.2 hencodes hkind
  have hI : ∀ i m, topicsOf (net.states i) = some m → Informed Names m ∧
      SameTopics ((topicsOf (net.states i)).getD (TopicManager.init (heaps i))) m := by
    intro i m hm
    rw [hm]
    exact ⟨hinformed i m hm, .refl m⟩
  obtain ⟨-, -, -, hend⟩ :=
    (settled_kept setting hempty _).run_of (inOrder_run r) hnet.sent hM hI r'
  obtain ⟨hinformed', hsame⟩ := hend i m' hi'
  rw [hi, Option.getD_some] at hsame
  refine ⟨hsame, hinformed', fun name => ?_⟩
  rw [TopicManager.getTopics_eq, TopicManager.getTopics_eq]
  exact Trie.Reorder.find_perm hsame.topics _

/-- The name that is announced, and that of the blank items. -/
def NamesA (name : Bytes) : Prop := name = [97] ∨ name = []

theorem informed_after {m : TopicManager} (hold : PublishedOld m)
    (hnames : ∀ t, some t ∈ m.getAllPublishTopics → NamesA (m.heap.topics t).getName)
    (addr : SockaddrIn) : Informed NamesA (m.after (.discover addr (heardA.map nameItem))) := by
  have hgrown := grown_discover addr (heardA.map nameItem) m
  have hblank : blank ∈ heardA :=
    List.mem_append_right _ (List.mem_replicate.mpr ⟨by decide, rfl⟩)
  refine ⟨fun name hname => ?_, fun t ht => ?_, fun t ht => ?_⟩
  · rcases hname with rfl | rfl
    · exact TopicManager.known_discover addr m (nameItem (Topic.ofName [97]))
        (List.mem_map_of_mem mem_heardA)
    · exact TopicManager.known_discover addr m (nameItem blank) (List.mem_map_of_mem hblank)
  · rw [hgrown.getAllPublishTopics] at ht
    exact Nat.lt_of_lt_of_le (hold t ht) hgrown.next
  · rw [hgrown.getAllPublishTopics] at ht
    rw [hgrown.objects t (hold t ht)]
    exact hnames t ht

theorem names_of_encodes_a {topics : List Topic} (h : Encodes [0, 1, 97] ⟨.discover, topics⟩) :
    ∀ topic ∈ topics, NamesA topic.getName := by
  have hunpack : (DDSPacket.fresh 0).unpack [0, 1, 97]
      = (.ok 3, ⟨⟨0⟩, .discoverData ⟨[⟨1, [97]⟩]⟩⟩) := by decide
  have hsame := (h.unpack (by decide) (DDSPacket.fresh 0)).1
  rw [hunpack] at hsame
  simp only [sentData, Prod.mk.injEq, DDSPacket.mk.injEq, DDSData.discoverData.injEq,
    DiscoverData.mk.injEq] at hsame
  intro topic htopic
  have hitem := List.mem_map_of_mem (f := nameItem) htopic
  rw [← hsame.2.2, List.mem_singleton] at hitem
  exact Or.inl (congrArg TopicName.name hitem)

/-- Both nodes of a pair hear of `"a"`, the first one too, and then the second one receives the
same announcement again. -/
theorem discovery_settles_pair : ∃ trace net net' request m m',
    Run (Network.Step (Acts (pair fun _ _ => True))) (start heapsA) trace net ∧
      trace.length = 4 ∧ Run (Network.Step (Acts (resting (pair fun _ _ => True)))) net
        [(net, (true, .complete request 3 [0, 1, 97] ⟨(10, 0, 0, 1), (0, 80)⟩))] net' ∧
      topicsOf (net.states true) = some m ∧ topicsOf (net'.states true) = some m' ∧
      SameTopics m m' ∧ m'.Known [97] := by
  obtain ⟨request, s, r, -, hlistening, hs⟩ := @exists_run_heard (fun _ _ => True) trivial
  have hfirst : Listening ((announcedPair.move true s []).states false) :=
    listening_announcedPair false
  have hfalse : topicsOf ((announcedPair.move true s []).states false)
      = some publisher.topicManager := rfl
  have hsent : (false, [0, 1, 97]) ∈ (announcedPair.move true s []).sent :=
    List.mem_append_left _ sent_announcedPair
  obtain ⟨request1, s1, -, hstep1, -, hs1⟩ := @exists_received _ (pair fun _ _ => True) _ _ _
    false false _ _ _ hfirst hfalse hsent (by decide) encodes_a arrives_a
  have hsecond : Listening (((announcedPair.move true s []).move false s1 []).states true) :=
    hlistening
  have htrue : topicsOf (((announcedPair.move true s []).move false s1 []).states true)
      = some _ := hs
  have hsent1 : (false, [0, 1, 97]) ∈ ((announcedPair.move true s []).move false s1 []).sent :=
    List.mem_append_left _ hsent
  obtain ⟨request2, s2, -, hstep2, -, hs2⟩ :=
    @exists_received _ (resting (pair fun _ _ => True)) _ _ _ false true _ _ _ hsecond htrue
      hsent1 (by decide) encodes_a arrives_a
  have hinformed : ∀ i m, topicsOf (((announcedPair.move true s []).move false s1 []).states i)
      = some m → Informed NamesA m := by
    intro i m hm
    cases i with
    | false =>
      obtain rfl := Option.some.inj (hs1.symm.trans hm)
      have hall : publisher.topicManager.getAllPublishTopics = [some 0] := by decide
      refine informed_after (fun t ht => ?_) (fun t ht => ?_) _
      · rw [hall] at ht
        obtain rfl : t = 0 := by simpa using ht
        decide
      · rw [hall] at ht
        obtain rfl : t = 0 := by simpa using ht
        exact Or.inl rfl
    | true =>
      obtain rfl := Option.some.inj (hs.symm.trans hm)
      exact informed_after (fun _ ht => absurd ht List.not_mem_nil)
        (fun _ ht => absurd ht List.not_mem_nil) _
  have hnames : ∀ i bytes, (i, bytes) ∈ ((announcedPair.move true s []).move false s1 []).sent →
      ∀ message, Encodes bytes message → message.kind = .discover →
        ∀ topic ∈ message.topics, NamesA topic.getName := by
    rintro i bytes hmem ⟨kind, topics⟩ hencodes rfl
    have hbytes : (i, bytes) = (false, [0, 1, 97]) := List.mem_singleton.mp hmem
    cases hbytes
    exact names_of_encodes_a hencodes
  have r' := Run.single hstep2
  obtain ⟨hsame, hinformed', -⟩ := discovery_settles (r.snoc hstep1) (Or.inr rfl) hnames hinformed
    r' htrue hs2
  exact ⟨_, _, _, request2, _, _, r.snoc hstep1, rfl, r', htrue, hs2, hsame,
    hinformed'.known _ (Or.inl rfl)⟩

end Domain

end Mydds
