import Mydds.Domain.Progress

/-!
# A domain follows the protocol

Every event of a node is an action of its peer, on the messages that the datagrams encode:
`Acts.simulates`, by cases on what has completed.  So a run of a domain is a run of the protocol,
`refines_protocol`, in which the peers have the topics of the nodes, and a peer has ended where its
node has terminated.
-/

namespace Mydds

open Lib

namespace Domain

variable {ι : Type} {setting : Setting ι} {i : ι}

/-! ### One event -/

section Events

variable {node : Node} {consumed : List InfoPtr} {log : List (ι × Bytes)}
  {log' : List (ι × Message)}

/-- The action of the peer that an event is. -/
def Simulated (setting : Setting ι) (log' : List (ι × Message)) (i : ι) (s : Node.Process)
    (event : Node.Event) (s' : Node.Process) : Prop :=
  ∃ input out', Protocol setting log' i (topicsOf s) input (topicsOf s') out' ∧
    SeenAs setting event input ∧ List.Forall₂ Encodes (submitted s s') out'

theorem encodes_none (hout : submitted (.running node consumed) s' = []) {out' : List Message}
    (hout' : out' = []) : List.Forall₂ Encodes (submitted (.running node consumed) s') out' := by
  rw [hout, hout']
  exact .nil

theorem simulated_read (hs : InOrder (.running node consumed))
    (hlog : List.Forall₂ (fun x y => x.1 = y.1 ∧ Encodes x.2 y.2) log log')
    {request : InfoPtr × IoInfo} (hrequest : request ∈ node.requests)
    (htype : request.2.type = .read) {res : Int} (hres : 0 ≤ res ∨ res = -etime) {bytes : Bytes}
    (hmax : bytes.length ≤ maxDatagram) {sender : ι} (hsent : (sender, bytes) ∈ log)
    {s' : Node.Process}
    (hreorder : (Node.outcome (consumed ++ [request.1]) (do
      let node' ← (node.take request).handleEvent
        (Node.completed request.2 bytes (setting.address sender))
      .ok { node' with deleted := node'.deleted ++ [request.1] })).Reorder s') :
    Simulated setting log' i (.running node consumed)
      (.complete request res bytes (setting.address sender)) s' := by
  obtain ⟨⟨sender', message⟩, hmessage, hsame, hencodes⟩ :=
    (Network.exists_of_forall₂ hlog).1 _ hsent
  obtain rfl : sender = sender' := hsame
  have hlt : bytes.length < 2 ^ 32 := by
    rw [maxDatagram] at hmax
    omega
  have hinfo : Node.completed request.2 bytes (setting.address sender)
      = Node.receiveInfo.received bytes (setting.address sender) := by
    rw [Node.completed, if_pos htype, hs.2 request hrequest htype]
  have hhandle : (node.take request).handleEvent
      (Node.receiveInfo.received bytes (setting.address sender)) = (node.take request).handlerRead
      (Node.receiveInfo.received bytes (setting.address sender)) := rfl
  rw [hinfo, hhandle] at hreorder
  by_cases harrives : ∃ received, Arrives message.kind message.topics received
  · obtain ⟨received, harrives⟩ := harrives
    rw [handlerRead_arrives hencodes hlt _ harrives] at hreorder
    cases hreorder with
    | running hm =>
      refine ⟨_, _, .receive hmessage harrives hm, ⟨htype, hres, rfl, hencodes⟩,
        encodes_none ?_ rfl⟩
      exact submitted_take hs.1 request [(node.nextInfo, Node.receiveInfo)] rfl (by simp)
  · obtain ⟨what, hfault⟩ := handlerRead_cut hencodes hlt (setting.address sender) harrives
      (node.take request)
    rw [hfault] at hreorder
    cases hreorder
    exact ⟨_, _, .cut hmessage harrives, ⟨htype, hres, rfl, hencodes⟩, .nil⟩

theorem simulated_timer (hs : InOrder (.running node consumed)) {request : InfoPtr × IoInfo}
    (htype : request.2.type = .timer) {res : Int} (hres : 0 ≤ res ∨ res = -etime) (bytes : Bytes)
    (addr : SockaddrIn) {s' : Node.Process} (hreorder : (Node.outcome (consumed ++ [request.1]) (do
      let node' ← (node.take request).tick
      .ok { node' with deleted := node'.deleted ++ [request.1] })).Reorder s') :
    Simulated setting log' i (.running node consumed) (.complete request res bytes addr) s' := by
  by_cases htick : CanTick node.topicManager
  · have htick' : CanTick (node.take request).topicManager := htick
    rcases tick_announces htick' with ⟨hnone, hok⟩ | ⟨datagram, message, hone, hencodes, hok⟩
    · rw [hok] at hreorder
      cases hreorder with
      | running hm =>
        refine ⟨_, _, .announce htick hm, ⟨htype, hres⟩, encodes_none ?_ hnone⟩
        exact submitted_take hs.1 request [(node.nextInfo, Node.timerInfo)] rfl (by simp)
    · rw [hok] at hreorder
      cases hreorder with
      | @running _ m' _ hm =>
        have hout : submitted (.running node consumed) (.running { ((node.take request).multiacast
            datagram).setTimer with deleted := node.deleted ++ [request.1], topicManager := m' }
            (consumed ++ [request.1])) = [datagram] :=
          submitted_take hs.1 request [(node.nextInfo, Node.multicastInfo datagram),
            (node.nextInfo + 1, Node.timerInfo)] (List.append_assoc ..) (by simp)
        refine ⟨_, _, .announce htick hm, ⟨htype, hres⟩, ?_⟩
        show List.Forall₂ Encodes (submitted (.running node consumed) (.running _ _))
          (announcement node.topicManager)
        rw [show announcement node.topicManager = [message] from hone]
        exact hout ▸ .cons hencodes .nil
  · have htick' : ¬ CanTick (node.take request).topicManager := htick
    obtain ⟨fault, hfault⟩ := tick_fails htick'
    rw [hfault] at hreorder
    cases hreorder
    exact ⟨_, _, .fail htick, ⟨htype, hres⟩, .nil⟩

theorem simulated_complete (hs : InOrder (.running node consumed))
    (hlog : List.Forall₂ (fun x y => x.1 = y.1 ∧ Encodes x.2 y.2) log log')
    {request : InfoPtr × IoInfo} (hrequest : request ∈ node.requests) {res : Int} {bytes : Bytes}
    {addr : SockaddrIn} (hgroup : FromGroup setting log (.complete request res bytes addr))
    {s' : Node.Process} (hreorder : (Node.outcome (consumed ++ [request.1])
      ((node.take request).processCqe (request.1, Node.completed request.2 bytes addr) res)).Reorder
        s') : Simulated setting log' i (.running node consumed)
      (.complete request res bytes addr) s' := by
  rw [Node.processCqe] at hreorder
  by_cases hbad : res < 0 ∧ res ≠ -etime
  · rw [if_pos hbad] at hreorder
    cases hreorder with
    | running hm =>
      refine ⟨_, _, .idle hm, Or.inl hbad, encodes_none ?_ rfl⟩
      exact submitted_take hs.1 request [] (List.append_nil _).symm (by simp)
  have hres := (Node.etime_or_iff res).mp hbad
  rw [if_neg hbad] at hreorder
  have htype := Node.completed_type request.2 bytes addr
  cases hkind : request.2.type with
  | multicast | unicast =>
    rw [hkind] at htype
    rw [Node.handleEvent, htype] at hreorder
    cases hreorder with
    | running hm =>
      refine ⟨_, _, .idle hm, Or.inr (by simp [hkind]), encodes_none ?_ rfl⟩
      exact submitted_take hs.1 request [] (List.append_nil _).symm (by simp)
  | read =>
    rcases hgroup hkind with ⟨-, hmax, sender, hsent, rfl⟩ | hfailed
    · exact simulated_read hs hlog hrequest hkind hres hmax hsent hreorder
    · exact absurd hfailed hbad
  | timer =>
    rw [hkind] at htype
    rw [Node.handleEvent, htype] at hreorder
    exact simulated_timer hs hkind hres bytes addr hreorder

theorem simulated_call (hs : InOrder (.running node consumed)) {c : Node.Call}
    (hallowed : setting.allowed i node.topicManager c) {node' : Node}
    (hcall : node.call c = .ok node') {s' : Node.Process}
    (hreorder : (Node.Process.running node' consumed).Reorder s') :
    Simulated setting log' i (.running node consumed) (.call c) s' := by
  have hsome := Node.not_publishesNull_of_ok hcall
  rcases call_answers hcall with ⟨m, hm, hnone, rfl⟩ | ⟨bytes, message, hsame, hone, hencodes, rfl⟩
  · have hsent : ∀ message ∈ (answer node.topicManager c).2, ¬ message.Refused := by simp [hnone]
    cases hreorder with
    | running hm' =>
      refine ⟨_, _, .call hallowed hsome hsent (hm ▸ hm'), rfl, encodes_none ?_ hnone⟩
      exact submitted_eq hs.1 (List.append_nil _).symm (fun _ hmem => hmem) (by simp)
  · have hsent : ∀ message ∈ (answer node.topicManager c).2, ¬ message.Refused := by
      rw [hone]
      intro message' hmem
      rw [List.mem_singleton.mp hmem]
      exact hencodes.not_refused
    cases hreorder with
    | @running _ m' _ hm' =>
      have hrequests : { node.multiacast bytes with topicManager := m' }.requests
          = node.requests ++ [(node.nextInfo, Node.multicastInfo bytes)] := rfl
      have hout : submitted (.running node consumed) (.running { node.multiacast bytes with
          topicManager := m' } consumed) = [bytes] :=
        submitted_eq hs.1 hrequests (fun _ hmem => hmem) (by simp)
      refine ⟨_, _, .call hallowed hsome hsent (hsame.symm ▸ hm'), rfl, ?_⟩
      rw [hone]
      exact hout ▸ .cons hencodes .nil

/-- A call that throws: nothing has happened, or the peer has refused to send something. -/
theorem simulated_throw (hs : InOrder (.running node consumed)) {c : Node.Call}
    (hallowed : setting.allowed i node.topicManager c) {fault : Fault}
    (hcall : node.call c = .error fault) (hsome : ¬ Node.PublishesNull node.topicManager c)
    {s' : Node.Process} (hreorder : (Node.Process.running node consumed).Reorder s') :
    Simulated setting log' i (.running node consumed) (.call c) s' := by
  obtain ⟨hsame, hout⟩ := call_refused hcall hsome
  cases hreorder with
  | running hm =>
    have hnone : submitted (.running node consumed) (.running _ consumed) = [] :=
      submitted_eq hs.1 (List.append_nil _).symm (fun _ hmem => hmem) (by simp)
    rcases hout with hnil | ⟨message, hmessage, hrefused⟩
    · refine ⟨_, _, .call hallowed hsome (by simp [hnil]) (hsame.symm ▸ hm), rfl,
        encodes_none hnone hnil⟩
    · exact ⟨_, _, .refuse hallowed hmessage hrefused hm, rfl, encodes_none hnone rfl⟩

end Events

/-- **Every event of a node is an action of its peer.** -/
theorem Acts.simulates {log : List (ι × Bytes)} {log' : List (ι × Message)}
    (hlog : List.Forall₂ (fun x y => x.1 = y.1 ∧ Encodes x.2 y.2) log log') {s s' : Node.Process}
    {event : Node.Event} {out : List Bytes} (hs : InOrder s)
    (h : Acts setting log i s event s' out) :
    ∃ input out', Protocol setting log' i (topicsOf s) input (topicsOf s') out' ∧
      SeenAs setting event input ∧ List.Forall₂ Encodes out out' := by
  obtain ⟨⟨mid, hnext, hreorder⟩, hgroup, hallowed, rfl⟩ := h
  cases hnext with
  | complete res bytes addr hrequest => exact simulated_complete hs hlog hrequest hgroup hreorder
  | call hcall => exact simulated_call hs hallowed hcall hreorder
  | throw hcall hexception =>
    rcases Node.call_error hcall with ⟨-, hsome⟩ | ⟨rfl, -⟩
    · exact simulated_throw hs hallowed hcall hsome hreorder
    · cases hexception
  | crash hcall hexception =>
    rcases Node.call_error hcall with ⟨hyes, -⟩ | ⟨rfl, hnull⟩
    · rw [hyes] at hexception
      cases hexception
    · cases hreorder
      exact ⟨_, _, .crash hallowed hnull, rfl, .nil⟩

/-! ### Runs -/

/-- The peers of nodes that have not been told anything. -/
def quiet (heaps : ι → Heap) : Network ι (Option TopicManager) Message :=
  ⟨fun i => some (TopicManager.init (heaps i)), []⟩

theorem abstracts_start (heaps : ι → Heap) :
    Network.Abstracts topicsOf Encodes (start heaps) (quiet heaps) := ⟨fun _ => rfl, .nil⟩

variable [DecidableEq ι]

/-- The states that a domain and its peers go through correspond, and so do their inputs. -/
def Follows (setting : Setting ι) (trace : List (Network ι Node.Process Bytes × (ι × Node.Event)))
    (trace' : List (Network ι (Option TopicManager) Message × (ι × Input ι))) : Prop :=
  List.Forall₂ (fun x y => Network.Abstracts topicsOf Encodes x.1 y.1 ∧ x.2.1 = y.2.1 ∧
    SeenAs setting x.2.2 y.2.2) trace trace'

theorem exists_protocolRun {net net' : Network ι Node.Process Bytes}
    {trace : List (Network ι Node.Process Bytes × (ι × Node.Event))}
    (hinOrder : ∀ i, InOrder (net.states i)) {net₁ : Network ι (Option TopicManager) Message}
    (hnet : Network.Abstracts topicsOf Encodes net net₁)
    (r : Run (Network.Step (Acts setting)) net trace net') :
    ∃ trace' net₁', Run (Network.Step (Protocol setting)) net₁ trace' net₁' ∧
      Network.Abstracts topicsOf Encodes net' net₁' ∧ Follows setting trace trace' :=
  Network.simulates (fun _ _ _ _ _ _ hs h => InOrder.step hs h.1)
    (fun _ _ _ _ _ _ _ hlog hs h => h.simulates hlog hs) hinOrder hnet r

/-- **A domain of nodes follows the protocol.**  For every run of a domain there is a run of the
protocol with the same parties acting in the same order, each on what the event of its node is for
it.  Before every action and at the end each peer has the topics of its node, or has ended if the
node has terminated, and the messages that were sent are those that the datagrams encode. -/
theorem refines_protocol {heaps : ι → Heap}
    {trace : List (Network ι Node.Process Bytes × (ι × Node.Event))}
    {net : Network ι Node.Process Bytes}
    (r : Run (Network.Step (Acts setting)) (start heaps) trace net) :
    ∃ trace' net', Run (Network.Step (Protocol setting)) (quiet heaps) trace' net' ∧
      Network.Abstracts topicsOf Encodes net net' ∧ Follows setting trace trace' :=
  exists_protocolRun (inOrder_start heaps) (abstracts_start heaps) r

/-- The second peer of a pair hears of what the first one publishes, as its node does. -/
theorem refines_protocol_pair : ∃ trace' net' m,
    Run (Network.Step (Protocol (pair fun _ _ => True))) (quiet heapsA) trace' net' ∧
      trace'.length = 3 ∧ net'.states true = some m ∧ m.Known [97] := by
  obtain ⟨request, s, r, -, -, htopics⟩ := @exists_run_heard (fun _ _ => True) trivial
  obtain ⟨trace', net', r', hnet, hfollows⟩ := refines_protocol r
  have hknown := TopicManager.known_discover ⟨(10, 0, 0, 1), (0, 80)⟩
    (TopicManager.init (heapsA true)) (nameItem (Topic.ofName [97]))
    (List.mem_map_of_mem mem_heardA)
  refine ⟨trace', net', _, r', hfollows.length_eq.symm, (hnet.states true).trans ?_, hknown⟩
  rw [Network.move_states_self]
  exact htopics

end Domain

end Mydds
