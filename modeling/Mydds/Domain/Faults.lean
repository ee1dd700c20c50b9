import Mydds.Domain.Protocol
import Mydds.Node.Directory
import Mydds.Node.Ring

/-!
# How a node can end

The worker thread of a node catches nothing, so an exception on it ends the node; the application
may catch what its own calls throw, but not a null pointer that one of them dereferences.
`ends_with` says which faults there are, whatever the network delivers, malformed datagrams from
anyone included: `std::invalid_argument`; a null pointer that is dereferenced, after the application
has published a null topic or data of one; and a submission that gets no entry of the queue, after
the application has put 1021 of its own there.  There is nothing else: a node reads outside of no
buffer, takes no wrong alternative of a variant, and does not loop.

The null pointer of `create_publish_topic` stays in the registry of published topics, and the timer
meets it there.  Nothing else puts one there: `none_published`.
-/

namespace Mydds

open Lib

namespace Domain

/-! ### What the decoder and the encoders throw -/

/-- A receive request that has been completed is a datagram. -/
def received (bytes : Bytes) (addr : SockaddrIn) : Datagram :=
  ⟨(Node.receiveInfo.received bytes addr).recvBuffer, addr, by
    rw [recvBuffer_eq_take bytes addr (Nat.le_refl _), List.length_take, List.length_append,
      List.length_replicate]
    omega⟩

theorem pack_names_error {items : List TopicName} {ret : Bytes} {fault : Fault}
    (h : packLoop TopicName.pack items ret = .error fault) :
    ∃ what, fault = .invalidArgument what := by
  induction items generalizing ret with
  | nil => cases h
  | cons item items ih =>
    rw [packLoop, TopicName.pack, packField] at h
    by_cases hle : item.length.toNat ≤ 268435455
    · rw [Util.packLength_eq hle] at h
      exact ih h
    · rw [Util.packLength_error (Nat.not_le.mp hle)] at h
      exact ⟨_, (Except.error.inj h).symm⟩

theorem createDiscoverPacket_error {heap : Heap} {topics : List (Option TopicPtr)} {fault : Fault}
    (h : DDSPacket.createDiscoverPacket heap topics = .error fault) :
    (∃ what, fault = .invalidArgument what) ∨ (fault = .nullDereference ∧ none ∈ topics) := by
  rw [DDSPacket.createDiscoverPacket] at h
  by_cases hnull : none ∈ topics
  · rw [TopicManager.nameItems_of_null heap hnull] at h
    exact Or.inr ⟨(Except.error.inj h).symm, hnull⟩
  · rw [TopicManager.eq_map_some hnull, DDSPacket.nameItems_eq] at h
    have hpack : (packLoop TopicName.pack ([] ++ (topics.reduceOption.map heap.topics).map nameItem)
        [] >>= fun payload => .ok (DDSHeader.pack ⟨CommunicationType.discover.toByte⟩ ++ payload))
        = .error fault := h
    cases hitems : packLoop TopicName.pack
        ([] ++ (topics.reduceOption.map heap.topics).map nameItem) [] with
    | ok payload =>
      rw [hitems] at hpack
      cases hpack
    | error fault' =>
      rw [hitems] at hpack
      cases hpack
      exact Or.inl (pack_names_error hitems)

theorem tick_error {node : Node} {fault : Fault} (h : node.tick = .error fault) :
    (∃ what, fault = .invalidArgument what) ∨
      (fault = .nullDereference ∧ none ∈ node.topicManager.getAllPublishTopics) := by
  rw [Node.tick, Node.discovery] at h
  split at h
  · cases h
  · cases hcreate : DDSPacket.createDiscoverPacket node.topicManager.heap
        node.topicManager.getAllPublishTopics with
    | ok bytes =>
      rw [hcreate] at h
      cases h
    | error fault' =>
      rw [hcreate] at h
      cases h
      exact createDiscoverPacket_error hcreate

/-! ### The registry -/

theorem deliver_publishingTopics (kind : CommunicationType) (addr : SockaddrIn)
    (frames : List Frame) (m : TopicManager) :
    (Node.deliver kind addr frames m).publishingTopics = m.publishingTopics := by
  cases kind with
  | discover =>
    exact foldl_invariant (I := fun m' : TopicManager => m'.publishingTopics = m.publishingTopics)
      (fun m' item h => (Node.announce_registries addr m' item).1.trans h) _ m rfl
  | publish =>
    exact foldl_invariant (I := fun m' : TopicManager => m'.publishingTopics = m.publishingTopics)
      (fun m' item h => by rw [Node.publishItem_eq]; exact h) _ m rfl
  | subscribe =>
    have hkeep : ∀ (m' : TopicManager) (item : TopicName),
        m'.publishingTopics = m.publishingTopics →
        (Node.subscribeFrom addr m' item).publishingTopics = m.publishingTopics := fun _ _ h => h
    exact foldl_invariant hkeep (frames.map Frame.topicName) m rfl

theorem handlerRead_publishingTopics {node node' : Node} {d : Datagram}
    (h : node.handlerRead d.info = .ok node') :
    node'.topicManager.publishingTopics = node.topicManager.publishingTopics := by
  have hread := Node.readable_of_handlerRead h
  obtain ⟨type, rest, hbuffer⟩ : ∃ type rest, d.buffer = type :: rest :=
    List.exists_cons_of_length_pos (by rw [d.length_eq]; decide)
  cases htype : CommunicationType.ofByte type with
  | none =>
    have hlong : 10 ≤ d.info.recvBuffer.length := by
      rw [show d.info.recvBuffer = d.buffer from rfl, d.length_eq]
      decide
    rw [Node.handlerRead_unknown d.info hbuffer hlong htype] at h
    cases h
    rfl
  | some kind =>
    obtain rfl := CommunicationType.toByte_of_ofByte htype
    obtain ⟨frames, hframes⟩ := hread kind rest hbuffer
    have haddr : d.info.destAddr = some d.addr := rfl
    rw [Node.handlerRead_payload kind haddr hbuffer hframes] at h
    cases h
    exact deliver_publishingTopics kind d.addr frames node.topicManager

/-- **Nothing but a call publishes a null topic.** -/
theorem none_published {node node' : Node} {c : Node.Call} (h : node.call c = .ok node')
    (hnone : none ∈ node'.topicManager.getAllPublishTopics) :
    none ∈ node.topicManager.getAllPublishTopics ∨ ∃ name, c = .createPublishTopic name none := by
  have hafter : node'.topicManager = (answer node.topicManager c).1 := by
    rcases call_answers h with ⟨m, hm, -, rfl⟩ | ⟨bytes, message, hm, -, -, rfl⟩
    · exact hm.symm
    · exact hm.symm
  rw [hafter] at hnone
  cases c with
  | createTopic name topic =>
    refine Or.inl ?_
    rcases node.topicManager.createTopic_topics name topic with he | he
    · rwa [answer, he] at hnone
    · rwa [answer, he, TopicManager.getAllPublishTopics,
        TopicManager.insertTopic_publishingTopics] at hnone
  | createPublishTopic name topic =>
    obtain ⟨name', hfind⟩ := (TopicManager.mem_getAllPublishTopics_iff _ none).mp hnone
    rw [answer, TopicManager.createPublishTopic] at hfind
    split at hfind
    · exact Or.inl ((TopicManager.mem_getAllPublishTopics_iff _ none).mpr ⟨name', hfind⟩)
    · rw [UnorderedMap.find_assign, TopicManager.insertTopic_publishingTopics] at hfind
      split at hfind
      · exact Or.inr ⟨name, by rw [Option.some.inj hfind]⟩
      · exact Or.inl ((TopicManager.mem_getAllPublishTopics_iff _ none).mpr ⟨name', hfind⟩)
  | publish _ _ | subscribe _ | write _ => exact Or.inl hnone

/-! ### One event -/

section Events

variable {node node' : Node} {info : IoInfo} {fault : Fault}

theorem handleEvent_error (hinfo : info.type = .read → ∃ d : Datagram, info = d.info)
    (h : node.handleEvent info = .error fault) : (∃ what, fault = .invalidArgument what) ∨
      (fault = .nullDereference ∧ none ∈ node.topicManager.getAllPublishTopics) := by
  rw [Node.handleEvent] at h
  split at h
  · cases h
  · cases h
  · rename_i hread
    obtain ⟨d, rfl⟩ := hinfo hread
    exact Or.inl (node.handlerRead_error h)
  · exact tick_error h

theorem handleEvent_publishingTopics (hinfo : info.type = .read → ∃ d : Datagram, info = d.info)
    (h : node.handleEvent info = .ok node') :
    node'.topicManager.publishingTopics = node.topicManager.publishingTopics := by
  rw [Node.handleEvent] at h
  split at h
  · cases h
    rfl
  · cases h
    rfl
  · rename_i hread
    obtain ⟨d, rfl⟩ := hinfo hread
    exact handlerRead_publishingTopics h
  · rcases Node.tick_ok h with rfl | ⟨bytes, rfl⟩
    · rfl
    · rfl

end Events

/-! ### The ring -/

section Rings

variable {m : TopicManager} {trace : List (Ring × Ring.Event)} {ring ring' : Ring}
  {event : Ring.Event}

/-- A null topic was published before, or the application has published one. -/
def NullPublished (m : TopicManager) (trace : List (Ring × Ring.Event)) : Prop :=
  none ∈ m.getAllPublishTopics ∨
    ∃ x ∈ trace, ∃ name, x.2 = .loop (.call (.createPublishTopic name none))

/-- The application has published data of a null topic. -/
def NullPassed (trace : List (Ring × Ring.Event)) : Prop :=
  ∃ x ∈ trace, ∃ name, x.2 = .loop (.call (.publish name none))

/-- The application has filled the queue, but for three entries. -/
def QueueFilled (trace : List (Ring × Ring.Event)) : Prop :=
  ∃ x ∈ trace, 1021 ≤ x.1.queuedCalls.length

/-- The ways in which a node ends. -/
def EndsWith (m : TopicManager) (trace : List (Ring × Ring.Event)) (fault : Fault) : Prop :=
  (∃ what, fault = .invalidArgument what) ∨
    (fault = .nullDereference ∧ (NullPublished m trace ∨ NullPassed trace)) ∨
    (fault = Ring.noEntry ∧ QueueFilled trace)

/-- What is known of a node that has come so far. -/
def Ends (m : TopicManager) (trace : List (Ring × Ring.Event)) : Node.Process → Prop
  | .running node _ => none ∈ node.topicManager.getAllPublishTopics → NullPublished m trace
  | .terminated fault => EndsWith m trace fault

theorem NullPublished.append (h : NullPublished m trace) (more : List (Ring × Ring.Event)) :
    NullPublished m (trace ++ more) := by
  rcases h with hbefore | ⟨x, hx, hname⟩
  · exact Or.inl hbefore
  · exact Or.inr ⟨x, List.mem_append_left _ hx, hname⟩

theorem EndsWith.append {fault : Fault} (h : EndsWith m trace fault)
    (more : List (Ring × Ring.Event)) : EndsWith m (trace ++ more) fault := by
  rcases h with hwhat | ⟨hfault, hnull⟩ | ⟨hfault, x, hx, hfilled⟩
  · exact Or.inl hwhat
  · refine Or.inr (Or.inl ⟨hfault, ?_⟩)
    rcases hnull with hpublished | ⟨x, hx, hname⟩
    · exact Or.inl (hpublished.append more)
    · exact Or.inr ⟨x, List.mem_append_left _ hx, hname⟩
  · exact Or.inr (Or.inr ⟨hfault, x, List.mem_append_left _ hx, hfilled⟩)

theorem Ends.append {s : Node.Process} (h : Ends m trace s) (more : List (Ring × Ring.Event)) :
    Ends m (trace ++ more) s := by
  cases s with
  | running node consumed => exact fun hnone => (h hnone).append more
  | terminated fault => exact EndsWith.append h more

theorem Ends.next {s s' : Node.Process} {e : Node.Event} (hs : InOrder s) (h : Ends m trace s)
    (hnext : Node.Next s e s') : Ends m (trace ++ [(ring, .loop e)]) s' := by
  cases hnext with
  | @complete node consumed request res bytes addr hrequest =>
    have hinfo : (Node.completed request.2 bytes addr).type = .read →
        ∃ d : Datagram, Node.completed request.2 bytes addr = d.info := by
      intro htype
      rw [Node.completed_type] at htype
      refine ⟨received bytes addr, ?_⟩
      rw [Node.completed, if_pos htype, hs.2 request hrequest htype]
      rfl
    have hnull : none ∈ node.topicManager.getAllPublishTopics → NullPublished m (trace ++
        [(ring, .loop (.complete request res bytes addr))]) := fun hnone => (h hnone).append _
    rw [Node.processCqe]
    split
    · exact hnull
    · cases hresult : (node.take request).handleEvent (Node.completed request.2 bytes addr) with
      | error fault =>
        rcases handleEvent_error hinfo hresult with hwhat | ⟨hfault, hnone⟩
        · exact Or.inl hwhat
        · exact Or.inr (Or.inl ⟨hfault, Or.inl (hnull hnone)⟩)
      | ok node' =>
        intro hnone
        have hafter : none ∈ node'.topicManager.getAllPublishTopics := hnone
        rw [TopicManager.getAllPublishTopics, handleEvent_publishingTopics hinfo hresult] at hafter
        exact hnull hafter
  | @call node node' consumed c hcall =>
    intro hnone
    rcases none_published hcall hnone with hbefore | ⟨name, rfl⟩
    · exact (h hbefore).append _
    · exact Or.inr ⟨_, List.mem_append_right _ List.mem_cons_self, name, rfl⟩
  | throw => exact fun hnone => (h hnone).append _
  | @crash node consumed c fault hcall hexception =>
    rcases Node.call_error hcall with ⟨hyes, -⟩ | ⟨rfl, hnull⟩
    · rw [hyes] at hexception
      cases hexception
    · cases c with
      | publish name topic =>
        obtain rfl := hnull.1
        exact Or.inr (Or.inl ⟨rfl, Or.inr ⟨_, List.mem_append_right _ List.mem_cons_self, name,
          rfl⟩⟩)
      | createTopic _ _ | createPublishTopic _ _ | subscribe _ | write _ => exact hnull.elim

theorem Ends.reorder {s s' : Node.Process} (h : Ends m trace s) (hr : s.Reorder s') :
    Ends m trace s' := by
  cases hr with
  | terminated => exact h
  | @running node m' consumed hm =>
    intro hnone
    have hperm : node.topicManager.getAllPublishTopics.Perm m'.getAllPublishTopics :=
      List.Perm.map Prod.snd hm.publishingTopics
    exact h (hperm.mem_iff.mpr hnone)

/-- What is kept by every step of the queue. -/
structure Sound (m : TopicManager) (trace : List (Ring × Ring.Event)) (ring : Ring) : Prop where
  ok : ring.Ok
  inOrder : InOrder ring.process
  ends : Ends m trace ring.process

theorem Sound.step (h : Sound m trace ring) (hstep : Ring.QueueStep ring event ring') :
    Sound m (trace ++ [(ring, event)]) ring' := by
  refine ⟨hstep.ok h.ok, ?_, ?_⟩
  · cases hstep with
    | full _ _ => exact trivial
    | fits hstep _ =>
      rcases hstep.loop with ⟨-, hsame⟩ | ⟨e, -, hloop⟩
      · exact hsame ▸ h.inOrder
      · exact h.inOrder.step hloop
  · cases hstep with
    | full hstep hfull =>
      exact Or.inr (Or.inr ⟨rfl, _, List.mem_append_right _ List.mem_cons_self,
        hstep.queuedCalls_of_full h.ok hfull⟩)
    | fits hstep _ =>
      rcases hstep.loop with ⟨-, hsame⟩ | ⟨e, hevent, mid, hnext, hreorder⟩
      · exact hsame ▸ h.ends.append _
      · cases event with
        | submit | take _ => cases hevent
        | loop event =>
          cases hevent
          exact (h.ends.next h.inOrder hnext).reorder hreorder

end Rings

/-! ### Runs -/

/-- The ring of a node that has gone through `init`. -/
def initialised (heap : Heap) (m : TopicManager) : Ring :=
  ⟨Node.outcome [] ({ Node.construct heap with topicManager := m }).init, 0, 0, []⟩

theorem sound_initialised (heap : Heap) (m : TopicManager) : Sound m [] (initialised heap m) := by
  cases hinit : ({ Node.construct heap with topicManager := m }).init with
  | ok node =>
    have hstart : initialised heap m = ⟨.running node [], 0, 0, []⟩ := by
      rw [initialised, hinit]
      rfl
    rw [hstart]
    refine ⟨Ring.ok_init hinit, inOrder_init hinit, fun hnone => Or.inl ?_⟩
    obtain ⟨node1, htick, hnode⟩ := Result.bind_eq_ok.mp hinit
    cases hnode
    rcases Node.tick_ok htick with rfl | ⟨bytes, rfl⟩
    · exact hnone
    · exact hnone
  | error fault =>
    have hstart : initialised heap m = ⟨.terminated fault, 0, 0, []⟩ := by
      rw [initialised, hinit]
      rfl
    rw [hstart]
    refine ⟨trivial, trivial, ?_⟩
    have htick : ({ Node.construct heap with topicManager := m }).tick = .error fault := by
      cases htick : ({ Node.construct heap with topicManager := m }).tick with
      | error fault' =>
        rw [Node.init, htick] at hinit
        cases hinit
        rfl
      | ok node =>
        rw [Node.init, htick] at hinit
        cases hinit
    rcases tick_error htick with hwhat | ⟨hfault, hnone⟩
    · exact Or.inl hwhat
    · exact Or.inr (Or.inl ⟨hfault, Or.inl (Or.inl hnone)⟩)

/-- **How a node can end.**  Whatever completes, with whatever results and bytes, and whatever the
application calls: a node that comes to an end has ended with `std::invalid_argument`; or by
dereferencing a null pointer, after the application has published a null topic or data of one; or
for want of an entry of the queue, after the application has filled it with 1021 of its own. -/
theorem ends_with {heap : Heap} {m : TopicManager} {trace : List (Ring × Ring.Event)} {ring : Ring}
    {fault : Fault} (r : Run Ring.QueueStep (initialised heap m) trace ring)
    (hended : ring.process = .terminated fault) : EndsWith m trace fault := by
  have hsound : Sound m trace ring := by
    clear hended
    induction r with
    | nil => exact sound_initialised heap m
    | snoc _ hstep ih => exact ih.step hstep
  have hends := hsound.ends
  rw [hended] at hends
  exact hends

/-- The application publishes a null topic, and the timer expires. -/
theorem ends_with_null : ∃ heap m trace ring, Run Ring.QueueStep (initialised heap m) trace ring ∧
    trace.length = 4 ∧ ring.process = .terminated .nullDereference ∧
    EndsWith m trace .nullDereference := by
  let heap : Heap := ⟨fun _ => Topic.ofName [97], 1⟩
  let m := TopicManager.init heap
  let node : Node := ⟨m, [(0, Node.timerInfo), (1, Node.receiveInfo)], 2, []⟩
  let published : Node := (node.createPublishTopic [97] none).2
  have hsubmit : Ring.QueueStep ⟨.running node [], 0, 0, []⟩ .submit
      ⟨.running node [], 0, 2, []⟩ := .fits .submit (by decide)
  have htake : Ring.QueueStep ⟨.running node [], 0, 2, []⟩ (.take 2)
      ⟨.running node [], 2, 2, []⟩ :=
    .fits (.take (Nat.zero_le 2) (Nat.le_refl 2)) (by decide)
  have hcall : Ring.QueueStep ⟨.running node [], 2, 2, []⟩
      (.loop (.call (.createPublishTopic [97] none))) ⟨.running published [], 2, 2, []⟩ :=
    .fits (.call ⟨.running published [], .call rfl, Node.Process.Reorder.refl _⟩) (by decide)
  have htick : Ring.QueueStep ⟨.running published [], 2, 2, []⟩
      (.loop (.complete (0, Node.timerInfo) (-62) [] ⟨(0, 0, 0, 0), (0, 0)⟩))
      ⟨.terminated .nullDereference, 2, 2, []⟩ :=
    .fits (.complete (by decide) ⟨.terminated .nullDereference,
      .complete (-62) [] ⟨(0, 0, 0, 0), (0, 0)⟩ List.mem_cons_self, .terminated⟩) (by decide)
  have r := (((Run.single hsubmit).snoc htake).snoc hcall).snoc htick
  exact ⟨heap, m, _, _, r, rfl, rfl, @ends_with heap m _ _ _ r rfl⟩

end Domain

end Mydds
