import Mydds.Domain.Alive
import Mydds.Domain.Progress
import Mathlib.Data.Fintype.Prod

/-!
# Discovery can always complete

Datagrams get lost, and nothing is acknowledged.  What there is instead is that every node announces
its topics again whenever its timer expires.  So from every state that a domain can be in, as long
as its nodes run and their announcements fit into a buffer, discovery can still complete, without a
call of any application: `discovery_completes`.

A timer that expires announces (`exists_tick`), a receive request may be completed by what has been
announced (`exists_receive`), and neither of them loses what is known elsewhere (`Grown`).
-/

namespace Mydds

open Lib

/-- The same nodes, of which no application calls anything any more. -/
def Setting.silent {ι : Type} (setting : Setting ι) : Setting ι :=
  { setting with allowed := fun _ _ _ => False }

namespace Domain

variable {ι : Type} {setting : Setting ι} {i : ι}

/-! ### What stays -/

/-- The published topics are objects that exist. -/
def PublishedOld (m : TopicManager) : Prop := ∀ t, some t ∈ m.getAllPublishTopics → t < m.heap.next

/-- The published topics exist, can be announced, and fit into the buffer of a receiver. -/
structure Announceable (m : TopicManager) : Prop where
  old : PublishedOld m
  canTick : CanTick m
  fits : ∀ message ∈ announcement m, ∀ bytes, Encodes bytes message →
    bytes.length ≤ IoInfo.bufferSize

/-- The same topics are published under the same names, and no name is lost. -/
structure Grown (m m' : TopicManager) : Prop where
  published : m'.publishingTopics = m.publishingTopics
  next : m.heap.next ≤ m'.heap.next
  objects : ∀ p, p < m.heap.next → m'.heap.topics p = m.heap.topics p
  known : ∀ name, m.Known name → m'.Known name

theorem Grown.refl (m : TopicManager) : Grown m m :=
  ⟨rfl, Nat.le_refl _, fun _ _ => rfl, fun _ h => h⟩

theorem Grown.trans {a b c : TopicManager} (h : Grown a b) (h' : Grown b c) : Grown a c where
  published := h'.published.trans h.published
  next := Nat.le_trans h.next h'.next
  objects p hp := (h'.objects p (Nat.lt_of_lt_of_le hp h.next)).trans (h.objects p hp)
  known name hname := h'.known name (h.known name hname)

theorem grown_announce (addr : SockaddrIn) (m : TopicManager) (item : TopicName) :
    Grown m (Node.announce addr m item) := by
  obtain ⟨hnext, hobjects, -⟩ := Node.announce_heap addr m item
  exact ⟨(Node.announce_registries addr m item).1, hnext ▸ Nat.le_succ _, hobjects,
    fun name h => h.announce addr item⟩

theorem grown_discover (addr : SockaddrIn) (items : List TopicName) (m : TopicManager) :
    Grown m (m.after (.discover addr items)) :=
  foldl_invariant (I := Grown m) (fun m' item h => h.trans (grown_announce addr m' item))
    items m (.refl m)

theorem Grown.getAllPublishTopics {m m' : TopicManager} (h : Grown m m') :
    m'.getAllPublishTopics = m.getAllPublishTopics := by
  rw [TopicManager.getAllPublishTopics, h.published, ← TopicManager.getAllPublishTopics]

theorem Grown.announcement {m m' : TopicManager} (h : Grown m m') (hold : PublishedOld m) :
    announcement m' = announcement m := by
  have hnames : m.getAllPublishTopics.reduceOption.map m'.heap.topics
      = m.getAllPublishTopics.reduceOption.map m.heap.topics := by
    refine List.map_congr_left fun t ht => h.objects t (hold t ?_)
    exact List.reduceOption_mem_iff.mp ht
  rw [Domain.announcement, Domain.announcement, h.getAllPublishTopics, hnames]

theorem Announceable.grown {m m' : TopicManager} (ha : Announceable m) (h : Grown m m') :
    Announceable m' where
  old t ht := by
    rw [h.getAllPublishTopics] at ht
    exact Nat.lt_of_lt_of_le (ha.old t ht) h.next
  canTick topic htopic := by
    rw [h.getAllPublishTopics] at htopic
    obtain ⟨t, rfl, hsize⟩ := ha.canTick topic htopic
    exact ⟨t, rfl, by rw [h.objects t (ha.old t htopic)]; exact hsize⟩
  fits := by
    rw [h.announcement ha.old]
    exact ha.fits

/-! ### Two events -/

/-- Its topics can be announced, too. -/
def Ready : Node.Process → Prop
  | .running node consumed => Listening (.running node consumed) ∧ Announceable node.topicManager
  | .terminated _ => False

/-- **The timer expires**, and what is published is announced. -/
theorem exists_tick {node : Node} {consumed : List InfoPtr} (h : Ready (.running node consumed))
    (log : List (ι × Bytes)) : ∃ event node' consumed' out,
      Acts setting log i (.running node consumed) event (.running node' consumed') out ∧
      Ready (.running node' consumed') ∧ node'.topicManager = node.topicManager ∧
      List.Forall₂ Encodes out (announcement node.topicManager) := by
  obtain ⟨request, hrequest, htype⟩ := exists_request h.1.2.2.1
  have hnext := @Node.Next.complete node consumed request (-62) [] ⟨(0, 0, 0, 0), (0, 0)⟩ hrequest
  have hevent : Node.KeepsArmed (.running node consumed)
      (.complete request (-62) [] ⟨(0, 0, 0, 0), (0, 0)⟩) := ⟨Or.inr rfl, fun _ => h.2.canTick⟩
  have hreturns : Node.HandlerReturns (.running node consumed)
      (.complete request (-62) [] ⟨(0, 0, 0, 0), (0, 0)⟩) := by
    intro hread
    rw [htype] at hread
    cases hread
  have hgroup : FromGroup setting log (.complete request (-62) [] ⟨(0, 0, 0, 0), (0, 0)⟩) := by
    intro hread
    rw [htype] at hread
    cases hread
  have hhandle : (node.take request).handleEvent
      (Node.completed request.2 [] ⟨(0, 0, 0, 0), (0, 0)⟩) = (node.take request).tick := by
    rw [Node.handleEvent, Node.completed_type, htype]
  rw [Node.processCqe, if_neg (by decide), hhandle] at hnext
  have htick : CanTick (node.take request).topicManager := h.2.canTick
  rcases tick_announces htick with ⟨hnone, hok⟩ | ⟨bytes, message, hone, hencodes, hok⟩
  · rw [hok] at hnext
    have hstep := loopStep_of_next hnext
    have hout : submitted (.running node consumed) (.running { (node.take request).setTimer with
        deleted := node.deleted ++ [request.1] } (consumed ++ [request.1])) = [] :=
      submitted_take h.1.1.1 request [(node.nextInfo, Node.timerInfo)] rfl (by simp)
    refine ⟨_, _, _, [], ⟨hstep, hgroup, trivial, hout.symm⟩,
      ⟨listening_of_step h.1 hreturns hevent hstep, h.2⟩, rfl, ?_⟩
    rw [show announcement node.topicManager = [] from hnone]
    exact .nil
  · rw [hok] at hnext
    have hstep := loopStep_of_next hnext
    have hout : submitted (.running node consumed) (.running { ((node.take request).multiacast
        bytes).setTimer with deleted := node.deleted ++ [request.1] } (consumed ++ [request.1]))
        = [bytes] :=
      submitted_take h.1.1.1 request [(node.nextInfo, Node.multicastInfo bytes),
        (node.nextInfo + 1, Node.timerInfo)] (List.append_assoc ..) (by simp)
    refine ⟨_, _, _, [bytes], ⟨hstep, hgroup, trivial, hout.symm⟩,
      ⟨listening_of_step h.1 hreturns hevent hstep, h.2⟩, rfl, ?_⟩
    rw [show announcement node.topicManager = [message] from hone]
    exact .cons hencodes .nil

/-! ### A domain -/

section Networks

variable {net net' : Network ι Node.Process Bytes}

/-- Every node goes on, and its topics have grown. -/
def Learns (net net' : Network ι Node.Process Bytes) : Prop :=
  ∀ i m, topicsOf (net.states i) = some m → ∃ m', topicsOf (net'.states i) = some m' ∧ Grown m m'

/-- The second node knows what the first one publishes. -/
def Told (x : ι × ι) (net : Network ι Node.Process Bytes) : Prop :=
  ∀ m m', topicsOf (net.states x.1) = some m → topicsOf (net.states x.2) = some m' →
    ∀ t, some t ∈ m.getAllPublishTopics → m'.Known (m.heap.topics t).getName

theorem Learns.refl (net : Network ι Node.Process Bytes) : Learns net net :=
  fun _ m hm => ⟨m, hm, .refl m⟩

theorem Learns.trans {net'' : Network ι Node.Process Bytes} (h : Learns net net')
    (h' : Learns net' net'') : Learns net net'' := by
  intro i m hm
  obtain ⟨m', hm', hgrown⟩ := h i m hm
  obtain ⟨m'', hm'', hgrown'⟩ := h' i m' hm'
  exact ⟨m'', hm'', hgrown.trans hgrown'⟩

theorem Ready.exists_running {s : Node.Process} (h : Ready s) :
    ∃ node consumed, s = .running node consumed := by
  cases s with
  | running node consumed => exact ⟨node, consumed, rfl⟩
  | terminated fault => exact h.elim

theorem Ready.listening {s : Node.Process} (h : Ready s) : Listening s := by
  cases s with
  | running node consumed => exact h.1
  | terminated fault => exact h.elim

theorem Told.learns {x : ι × ι} (h : Told x net) (hready : ∀ i, Ready (net.states i))
    (hlearns : Learns net net') : Told x net' := by
  intro m1 m2 hm1 hm2 t ht
  obtain ⟨node1, consumed1, he1⟩ := (hready x.1).exists_running
  obtain ⟨node2, consumed2, he2⟩ := (hready x.2).exists_running
  have ht1 : topicsOf (net.states x.1) = some node1.topicManager := by rw [he1]; rfl
  have ht2 : topicsOf (net.states x.2) = some node2.topicManager := by rw [he2]; rfl
  obtain ⟨m1', hm1', hgrown1⟩ := hlearns x.1 _ ht1
  obtain ⟨m2', hm2', hgrown2⟩ := hlearns x.2 _ ht2
  obtain rfl := Option.some.inj (hm1.symm.trans hm1')
  obtain rfl := Option.some.inj (hm2.symm.trans hm2')
  rw [hgrown1.getAllPublishTopics] at ht
  have hold : Announceable node1.topicManager := by
    have hready1 := hready x.1
    rw [he1] at hready1
    exact hready1.2
  rw [hgrown1.objects t (hold.old t ht)]
  exact hgrown2.known _ (h _ _ ht1 ht2 t ht)

variable [DecidableEq ι]

theorem learns_move {i : ι} {m m' : TopicManager} {s' : Node.Process} (out : List Bytes)
    (hm : topicsOf (net.states i) = some m) (hm' : topicsOf s' = some m') (h : Grown m m') :
    Learns net (net.move i s' out) := by
  intro k mk hk
  by_cases hki : k = i
  · subst hki
    obtain rfl := Option.some.inj (hm.symm.trans hk)
    exact ⟨m', by rw [Network.move_states_self]; exact hm', h⟩
  · exact ⟨mk, by rw [Network.move_states_of_ne _ hki]; exact hk, .refl mk⟩

theorem ready_move {i : ι} {s' : Node.Process} {out : List Bytes}
    (hready : ∀ k, Ready (net.states k)) (hs' : Ready s') (k : ι) :
    Ready ((net.move i s' out).states k) := by
  by_cases hki : k = i
  · rw [hki, Network.move_states_self]
    exact hs'
  · rw [Network.move_states_of_ne _ hki]
    exact hready k

theorem arrives_of_fits {bytes : Bytes} {topics : List Topic}
    (hencodes : Encodes bytes ⟨.discover, topics⟩) (hfits : bytes.length ≤ IoInfo.bufferSize) :
    ∃ n, Arrives .discover topics (topics ++ List.replicate n blank) := by
  obtain ⟨heap, ptrs, hcreate, htopics⟩ := hencodes
  obtain rfl : topics = ptrs.map heap.topics := htopics
  have hbuffer : IoInfo.bufferSize = 2048 := rfl
  have hlength := length_createPacket hcreate (by omega)
  refine ⟨IoInfo.bufferSize - bytes.length, .whole ?_⟩
  rw [← hlength, CommunicationType.fields]
  omega

theorem exists_announced (hready : ∀ k, Ready (net.states k)) {i : ι} {m : TopicManager}
    (hi : topicsOf (net.states i) = some m) : ∃ event s' out,
      Network.Step (Acts setting) net (i, event) (net.move i s' out) ∧ Ready s' ∧
      topicsOf s' = some m ∧ List.Forall₂ Encodes out (announcement m) := by
  obtain ⟨node, consumed, hnode, rfl⟩ := exists_running_of_topicsOf hi
  obtain ⟨event, node', consumed', out, hact, hready', hsame, hout⟩ :=
    @exists_tick _ setting i _ _ (hnode ▸ hready i) net.sent
  exact ⟨event, _, out, ⟨_, _, hnode ▸ hact, rfl⟩, hready', congrArg some hsame, hout⟩

theorem exists_heard (hready : ∀ k, Ready (net.states k)) {i j : ι} {bytes : Bytes}
    {topics : List Topic} {m : TopicManager} (hj : topicsOf (net.states j) = some m)
    (hsent : (i, bytes) ∈ net.sent) (hfits : bytes.length ≤ IoInfo.bufferSize)
    (hencodes : Encodes bytes ⟨.discover, topics⟩) : ∃ event s' m',
      Network.Step (Acts setting) net (j, event) (net.move j s' []) ∧ Ready s' ∧
      topicsOf s' = some m' ∧ Grown m m' ∧ ∀ topic ∈ topics, m'.Known topic.getName := by
  obtain ⟨n, harrives⟩ := arrives_of_fits hencodes hfits
  have hlistening : Listening (net.states j) := (hready j).listening
  obtain ⟨request, s', -, hstep, hlistening', hm'⟩ := @exists_received _ setting _ _ _ _ _ _ _ _
    hlistening hj hsent (Nat.le_trans hfits (by decide)) hencodes harrives
  have hgrown := grown_discover (setting.address i)
    ((topics ++ List.replicate n blank).map nameItem) m
  refine ⟨_, s', _, hstep, ?_, hm', hgrown, fun topic htopic => ?_⟩
  · obtain ⟨node', consumed', rfl, hsame⟩ := exists_running_of_topicsOf hm'
    obtain ⟨node, consumed, hnode, rfl⟩ := exists_running_of_topicsOf hj
    have hreadyj := hready j
    rw [hnode] at hreadyj
    exact ⟨hlistening', hsame ▸ hreadyj.2.grown hgrown⟩
  · exact TopicManager.known_discover (setting.address i) m (nameItem topic)
      (List.mem_map_of_mem (List.mem_append_left _ htopic))

/-- **One node can be told what another one publishes**: the timer of the one expires, and the
other one receives the announcement. -/
theorem exists_told (hready : ∀ k, Ready (net.states k)) (i j : ι) :
    ∃ trace net', Run (Network.Step (Acts setting.silent)) net trace net' ∧
      (∀ k, Ready (net'.states k)) ∧ Told (i, j) net' ∧ Learns net net' := by
  obtain ⟨node, consumed, hnode⟩ := (hready i).exists_running
  have hi : topicsOf (net.states i) = some node.topicManager := by rw [hnode]; rfl
  have hannounce : Announceable node.topicManager := by
    have hreadyi := hready i
    rw [hnode] at hreadyi
    exact hreadyi.2
  by_cases hnil : node.topicManager.getAllPublishTopics.length = 0
  · -- there is nothing to tell
    refine ⟨[], net, .nil, hready, fun m m' hm _ t ht => ?_, .refl net⟩
    obtain rfl := Option.some.inj (hi.symm.trans hm)
    rw [List.eq_nil_of_length_eq_zero hnil] at ht
    exact absurd ht List.not_mem_nil
  obtain ⟨event, s1, out, hstep1, hready1, hsame, hout⟩ :=
    @exists_announced _ setting.silent _ _ hready _ _ hi
  rw [announcement, if_neg hnil] at hout
  obtain ⟨bytes, rest, hencodes, hrest, rfl⟩ := List.forall₂_cons_right_iff.mp hout
  obtain rfl := List.forall₂_nil_right_iff.mp hrest
  have hfits := hannounce.fits _ (by rw [announcement, if_neg hnil]; simp) bytes hencodes
  have hready' : ∀ k, Ready ((net.move i s1 [bytes]).states k) := ready_move hready hready1
  have hlearns1 : Learns net (net.move i s1 [bytes]) := learns_move [bytes] hi hsame (.refl _)
  have hsent : (i, bytes) ∈ (net.move i s1 [bytes]).sent := by
    rw [Network.move_sent]
    simp
  -- the receiver may be the sender
  generalize net.move i s1 [bytes] = net1 at *
  obtain ⟨node2, consumed2, hnode2⟩ := (hready' j).exists_running
  have hj : topicsOf (net1.states j) = some node2.topicManager := by rw [hnode2]; rfl
  obtain ⟨event2, s2, m2, hstep2, hready2, hm2, hgrown, hknown⟩ :=
    @exists_heard _ setting.silent _ _ hready' _ _ _ _ _ hj hsent hfits hencodes
  have hlearns2 : Learns net1 (net1.move j s2 []) := learns_move [] hj hm2 hgrown
  refine ⟨_, _, (Run.single hstep1).snoc hstep2, ready_move hready' hready2, ?_,
    hlearns1.trans hlearns2⟩
  intro m m' hm hm' t ht
  rw [Network.move_states_self] at hm'
  obtain rfl := Option.some.inj (hm2.symm.trans hm')
  obtain ⟨m1, hm1, hgrown1⟩ := hlearns1.trans hlearns2 i _ hi
  obtain rfl := Option.some.inj (hm1.symm.trans hm)
  rw [hgrown1.getAllPublishTopics] at ht
  rw [hgrown1.objects t (hannounce.old t ht)]
  exact hknown _ (List.mem_map_of_mem (f := node.topicManager.heap.topics)
    (List.reduceOption_mem_iff.mpr ht))

/-- **Discovery can always complete.**  From every state of a domain in which its nodes run, are
armed and publish what fits into a buffer, there is a way on, without any call, after which every
node knows the names of all topics that any node publishes; they still run, are armed, and publish
what they did. -/
theorem discovery_completes [Fintype ι] {heaps : ι → Heap}
    {trace : List (Network ι Node.Process Bytes × (ι × Node.Event))}
    (r : Run (Network.Step (Acts setting)) (start heaps) trace net)
    (hrunning : ∀ i, ∃ node consumed, net.states i = .running node consumed ∧
      node.Armed consumed ∧ Announceable node.topicManager) :
    ∃ trace' net', Run (Network.Step (Acts setting.silent)) net trace' net' ∧
      (∀ i, (net'.states i).Armed) ∧ Learns net net' ∧
      ∀ i m, topicsOf (net.states i) = some m → ∀ t, some t ∈ m.getAllPublishTopics →
        ∀ j m', topicsOf (net'.states j) = some m' → m'.Known (m.heap.topics t).getName := by
  have hready : ∀ i, Ready (net.states i) := by
    intro i
    obtain ⟨node, consumed, hi, harmed, hannounce⟩ := hrunning i
    rw [hi]
    exact ⟨⟨hi ▸ inOrder_run r i, harmed⟩, hannounce⟩
  have hreach : ∀ (x : ι × ι) (n : Network ι Node.Process Bytes),
      ((∀ i, Ready (n.states i)) ∧ Learns net n) → ∃ trace n',
        Run (Network.Step (Acts setting.silent)) n trace n' ∧
        ((∀ i, Ready (n'.states i)) ∧ Learns net n') ∧ Told x n' ∧ ∀ y, Told y n → Told y n' := by
    rintro x n ⟨hn, hlearns⟩
    obtain ⟨trace1, n1, r1, hn1, htold, hlearns1⟩ := exists_told hn x.1 x.2
    exact ⟨trace1, n1, r1, ⟨hn1, hlearns.trans hlearns1⟩, htold,
      fun y hy => hy.learns hn hlearns1⟩
  obtain ⟨trace', net', r', ⟨hready', hlearns⟩, htold, -⟩ :=
    Run.exists_all hreach (Finset.univ : Finset (ι × ι)).toList ⟨hready, .refl net⟩
  refine ⟨trace', net', r', fun i => ?_, hlearns, fun i m hm t ht j m' hm' => ?_⟩
  · obtain ⟨node, consumed, hi⟩ := (hready' i).exists_running
    have hreadyi := hready' i
    rw [hi] at hreadyi ⊢
    exact hreadyi.1.2
  · obtain ⟨m1, hm1, hgrown⟩ := hlearns i m hm
    have hname := htold (i, j) (Finset.mem_toList.mpr (Finset.mem_univ _)) m1 m' hm1 hm' t
      (by rw [hgrown.getAllPublishTopics]; exact ht)
    obtain ⟨node, consumed, hi, -, hannounce⟩ := hrunning i
    obtain rfl : m = node.topicManager := by
      rw [hi] at hm
      exact (Option.some.inj hm).symm
    rwa [hgrown.objects t (hannounce.old t ht)] at hname

end Networks

theorem announceable_publisher : Announceable publisher.topicManager := by
  have hall : publisher.topicManager.getAllPublishTopics = [some 0] := by decide
  have hname : publisher.topicManager.heap.topics 0 = Topic.ofName [97] := rfl
  refine ⟨fun t ht => ?_, canTick_publisher, fun message hmessage bytes hencodes => ?_⟩
  · rw [hall] at ht
    simp only [List.mem_singleton, Option.some.injEq] at ht
    rw [ht]
    decide
  · rw [announcement, hall] at hmessage
    obtain rfl : message = ⟨.discover, [Topic.ofName [97]]⟩ := List.mem_singleton.mp hmessage
    have hpack : DDSPacket.pack ⟨⟨0⟩, sentData .discover [Topic.ofName [97]]⟩ = .ok [0, 1, 97] := by
      decide
    obtain rfl := Except.ok.inj (hpack.symm.trans hencodes.pack)
    decide

theorem announceable_init (heap : Heap) : Announceable (TopicManager.init heap) :=
  ⟨fun _ ht => absurd ht List.not_mem_nil, fun _ ht => absurd ht List.not_mem_nil,
    fun _ hmessage => absurd hmessage List.not_mem_nil⟩

theorem discovery_completes_pair : ∃ trace net m, Run (Network.Step (Acts
      (pair fun _ _ => False))) ((start heapsA).move false (.running publisher []) []) trace net ∧
    topicsOf (net.states true) = some m ∧ m.Known [97] := by
  have r := @run_pair (fun _ _ => True) trivial
  have hrunning : ∀ i, ∃ node consumed,
      ((start heapsA).move false (.running publisher []) []).states i = .running node consumed ∧
      node.Armed consumed ∧ Announceable node.topicManager := by
    intro i
    cases i with
    | false => exact ⟨publisher, [], rfl, ⟨rfl, rfl, by simp⟩, announceable_publisher⟩
    | true =>
      exact ⟨(Node.construct (heapsA true)).setTimer.submitReceiveRequest, [], rfl,
        ⟨rfl, rfl, by simp⟩, announceable_init _⟩
  obtain ⟨trace, net, r', -, hlearns, hknown⟩ := discovery_completes r hrunning
  obtain ⟨m, hm, -⟩ := hlearns true _ rfl
  exact ⟨trace, net, m, r', hm, hknown false _ rfl 0 (by decide) true m hm⟩

end Domain

end Mydds
