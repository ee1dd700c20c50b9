import Mydds.Lib.Network
import Mydds.Node.EventLoop

/-!
# A domain of nodes

Nodes that have joined the same multicast group.  Each of them runs its event loop, `Node.LoopStep`,
and an event of one node comes between any two events of another.

A datagram is what a multicast request holds, from its submission on.  It is received where it
completes a receive request: by any node, the sender included, once, several times or never, and in
any order; a datagram that is larger than UDP allows is never received.  `submitted` is what an
event has handed to the ring.  Every submission gets an entry there; `Domain.Rings` shows that this
is so as long as no application has more than 1020 entries in its queue.

`InOrder` is what the loop keeps: addresses are fresh, and a receive request that is outstanding has
a blank buffer.  `appends_handleEvent` and `appends_call` say what can be submitted.
-/

namespace Mydds

open Lib

/-- The addresses of the nodes, and what their applications may call. -/
structure Setting (ι : Type) where
  address : ι → SockaddrIn
  allowed : ι → TopicManager → Node.Call → Prop

namespace Domain

variable {ι : Type}

/-- The payload of the largest datagram. -/
def maxDatagram : Nat := 65507

/-- What `recvmsg` returns: as much of the datagram as the buffer takes. -/
def receivedSize (bytes : Bytes) : Int := (min bytes.length IoInfo.bufferSize : Nat)

theorem receivedSize_nonneg (bytes : Bytes) : 0 ≤ receivedSize bytes := Int.natCast_nonneg _

/-- A receive request is completed by a datagram that a node has sent, or by an error. -/
def FromGroup (setting : Setting ι) (log : List (ι × Bytes)) : Node.Event → Prop
  | .complete request res bytes addr => request.2.type = .read →
    (res = receivedSize bytes ∧ bytes.length ≤ maxDatagram ∧
      ∃ sender, (sender, bytes) ∈ log ∧ addr = setting.address sender) ∨
    (res < 0 ∧ res ≠ -etime)
  | .call _ => True

theorem FromGroup.length_lt {setting : Setting ι} {log : List (ι × Bytes)}
    {request : InfoPtr × IoInfo} {res : Int} {bytes : Bytes} {addr : SockaddrIn}
    (h : FromGroup setting log (.complete request res bytes addr)) (htype : request.2.type = .read)
    (hres : 0 ≤ res ∨ res = -etime) : bytes.length < 2 ^ 32 := by
  rcases h htype with ⟨-, hmax, -⟩ | ⟨hneg, hne⟩
  · exact Nat.lt_of_le_of_lt hmax (by decide)
  · exact absurd hres (by omega)

/-- The application may call this. -/
def Allowed (setting : Setting ι) (i : ι) : Node.Process → Node.Event → Prop
  | .running node _, .call c => setting.allowed i node.topicManager c
  | _, _ => True

/-- The datagrams of the multicast requests. -/
def multicasts (requests : List (InfoPtr × IoInfo)) : List Bytes :=
  (requests.filter fun request => decide (request.2.type = .multicast)).map (·.2.bytes)

/-- The datagrams that have been handed to the ring between two states of a node. -/
def submitted : Node.Process → Node.Process → List Bytes
  | .running node _, .running node' _ =>
    multicasts (node'.requests.filter fun request => decide (node.nextInfo ≤ request.1))
  | _, _ => []

/-- An event of node `i`. -/
def Acts (setting : Setting ι) (log : List (ι × Bytes)) (i : ι) (s : Node.Process)
    (event : Node.Event) (s' : Node.Process) (out : List Bytes) : Prop :=
  Node.LoopStep s event s' ∧ FromGroup setting log event ∧ Allowed setting i s event ∧
    out = submitted s s'

/-- Every node has returned from `init`.  Without topics there is nothing to announce. -/
def start (heaps : ι → Heap) : Network ι Node.Process Bytes :=
  ⟨fun i => Node.outcome [] (Node.construct (heaps i)).init, []⟩

/-! ### What is submitted -/

/-- The `IoInfo` of a request that the code makes. -/
def Made (info : IoInfo) : Prop :=
  info = Node.receiveInfo ∨ info = Node.timerInfo ∨ ∃ bytes, info = Node.multicastInfo bytes

/-- New requests are appended, at addresses of their own. -/
def Appends (node node' : Node) : Prop :=
  ∃ new, node'.requests = node.requests ++ new ∧
    ∀ request ∈ new, node.nextInfo ≤ request.1 ∧ Made request.2

theorem Appends.refl (node : Node) : Appends node node := ⟨[], by simp, by simp⟩

theorem appends_submit (node : Node) {info : IoInfo} (h : Made info) :
    Appends node (node.submit info) := by
  refine ⟨[(node.nextInfo, info)], rfl, fun request hrequest => ?_⟩
  rw [List.mem_singleton.mp hrequest]
  exact ⟨Nat.le_refl _, h⟩

theorem Appends.trans {a b c : Node} (h : Appends a b) (hnext : a.nextInfo ≤ b.nextInfo)
    (h' : Appends b c) : Appends a c := by
  obtain ⟨new, hrequests, hnew⟩ := h
  obtain ⟨new', hrequests', hnew'⟩ := h'
  refine ⟨new ++ new', by rw [hrequests', hrequests, List.append_assoc], fun request hrequest => ?_⟩
  rcases List.mem_append.mp hrequest with hmem | hmem
  · exact hnew request hmem
  · exact ⟨Nat.le_trans hnext (hnew' request hmem).1, (hnew' request hmem).2⟩

theorem appends_multiacast (node : Node) (bytes : Bytes) : Appends node (node.multiacast bytes) :=
  appends_submit node (Or.inr (Or.inr ⟨bytes, rfl⟩))

theorem appends_handleEvent {node node' : Node} {info : IoInfo}
    (h : node.handleEvent info = .ok node') : Appends node node' := by
  rw [Node.handleEvent] at h
  split at h
  · cases h
    exact .refl node
  · cases h
    exact .refl node
  · obtain ⟨m, rfl⟩ := Node.handlerRead_ok h
    exact appends_submit { node with topicManager := m } (Or.inl rfl)
  · rcases Node.tick_ok h with rfl | ⟨bytes, rfl⟩
    · exact appends_submit node (Or.inr (Or.inl rfl))
    · exact (appends_multiacast node bytes).trans (Nat.le_succ _)
        (appends_submit _ (Or.inr (Or.inl rfl)))

theorem appends_call {node node' : Node} {c : Node.Call} (h : node.call c = .ok node') :
    Appends node node' := by
  rcases Node.call_ok h with ⟨m, rfl⟩ | ⟨bytes, rfl⟩
  · exact .refl node
  · exact appends_multiacast node bytes

/-! ### The invariant of the loop -/

/-- Addresses are fresh, and receive requests have blank buffers. -/
def InOrder : Node.Process → Prop
  | .running node consumed => node.Fresh consumed ∧
    ∀ request ∈ node.requests, request.2.type = .read → request.2 = Node.receiveInfo
  | .terminated _ => True

theorem inOrder_init {heap : Heap} {m : TopicManager} {node : Node}
    (h : ({ Node.construct heap with topicManager := m }).init = .ok node) :
    InOrder (.running node []) := by
  refine ⟨(Node.init_ok h).1, ?_⟩
  obtain ⟨node1, htick, hnode⟩ := Result.bind_eq_ok.mp h
  cases hnode
  rcases Node.tick_ok htick with rfl | ⟨bytes, rfl⟩
  · simp [Node.submitReceiveRequest, Node.setTimer, Node.submit, Node.construct, Node.timerInfo]
  · simp [Node.submitReceiveRequest, Node.setTimer, Node.multiacast, Node.submit, Node.construct,
      Node.timerInfo, Node.multicastInfo]

theorem inOrder_start (heaps : ι → Heap) (i : ι) : InOrder ((start heaps).states i) :=
  @inOrder_init (heaps i) (TopicManager.init (heaps i)) _ rfl

theorem requests_of_step {node node' : Node} {consumed consumed' : List InfoPtr}
    {event : Node.Event}
    (h : Node.LoopStep (.running node consumed) event (.running node' consumed')) :
    ∃ old new, node'.requests = old ++ new ∧ old ⊆ node.requests ∧
      ∀ request ∈ new, node.nextInfo ≤ request.1 ∧ Made request.2 := by
  obtain ⟨mid, hnext, hreorder⟩ := h
  cases hreorder with
  | @running node1 m _ _ =>
    generalize hmid : Node.Process.running node1 consumed' = mid at hnext
    cases hnext with
    | @complete _ _ request res bytes addr hrequest =>
      have herase : (node.take request).requests ⊆ node.requests := List.erase_subset
      rw [Node.processCqe] at hmid
      split at hmid
      · cases hmid
        exact ⟨(node.take request).requests, [], by simp, herase, by simp⟩
      · cases hresult : (node.take request).handleEvent
            (Node.completed request.2 bytes addr) with
        | error fault => rw [hresult] at hmid; cases hmid
        | ok node2 =>
          rw [hresult] at hmid
          cases hmid
          obtain ⟨new, hrequests, hnew⟩ := appends_handleEvent hresult
          exact ⟨(node.take request).requests, new, hrequests, herase, hnew⟩
    | call hcall =>
      cases hmid
      obtain ⟨new, hrequests, hnew⟩ := appends_call hcall
      exact ⟨node.requests, new, hrequests, fun _ hmem => hmem, hnew⟩
    | throw =>
      cases hmid
      exact ⟨node.requests, [], (List.append_nil _).symm, fun _ hmem => hmem, by simp⟩
    | crash => cases hmid

/-- **Every event keeps the loop in order.** -/
theorem InOrder.step {s s' : Node.Process} {event : Node.Event} (h : InOrder s)
    (hstep : Node.LoopStep s event s') : InOrder s' := by
  cases s' with
  | terminated fault => exact trivial
  | running node' consumed' =>
    cases s with
    | terminated fault =>
      obtain ⟨mid, hnext, -⟩ := hstep
      cases hnext
    | running node consumed =>
      have hfresh : (Node.Process.running node' consumed').Fresh :=
        hstep.fresh (s := .running node consumed) h.1
      refine ⟨hfresh, fun request hrequest htype => ?_⟩
      obtain ⟨old, new, hrequests, hold, hnew⟩ := requests_of_step hstep
      rw [hrequests, List.mem_append] at hrequest
      rcases hrequest with hmem | hmem
      · exact h.2 request (hold hmem) htype
      · rcases (hnew request hmem).2 with he | he | ⟨bytes, he⟩
        · exact he
        · rw [he] at htype
          cases htype
        · rw [he] at htype
          cases htype

theorem submitted_eq {node node' : Node} {consumed consumed' : List InfoPtr}
    {old new : List (InfoPtr × IoInfo)} (hfresh : node.Fresh consumed)
    (hrequests : node'.requests = old ++ new) (hold : old ⊆ node.requests)
    (hnew : ∀ request ∈ new, node.nextInfo ≤ request.1) :
    submitted (.running node consumed) (.running node' consumed') = multicasts new := by
  have hnone : old.filter (fun request => decide (node.nextInfo ≤ request.1)) = [] := by
    refine List.filter_eq_nil_iff.mpr fun request hrequest => ?_
    have hlt := hfresh.lt request (hold hrequest)
    simpa using hlt
  have hall : new.filter (fun request => decide (node.nextInfo ≤ request.1)) = new :=
    List.filter_eq_self.mpr fun request hrequest => by simpa using hnew request hrequest
  rw [submitted, hrequests, List.filter_append, hnone, hall, List.nil_append]

theorem submitted_take {node : Node} {consumed : List InfoPtr} (hfresh : node.Fresh consumed)
    (request : InfoPtr × IoInfo) (new : List (InfoPtr × IoInfo)) {node' : Node}
    {consumed' : List InfoPtr}
    (hrequests : node'.requests = (node.take request).requests ++ new)
    (hnew : ∀ r ∈ new, node.nextInfo ≤ r.1) :
    submitted (.running node consumed) (.running node' consumed') = multicasts new :=
  submitted_eq hfresh hrequests List.erase_subset hnew

end Domain

end Mydds
