import Mydds.Node.Handler
import Mydds.Node.Receive
import Mydds.Packet.Refuse
import Mydds.Lib.Run

/-!
# The event loop

`Node::run` takes one completion after another, with the result that the kernel gives it.
A node is armed if one receive request and one timer are outstanding, and the `IoInfo` of
each completion that was consumed has been deleted once.

The handlers rearm the loop, and `delete` follows them.  A result below zero other than
`-ETIME` skips both.  `armed_complete_iff` is the exact condition for one completion, and
`armed_run_iff` for a run from `init`, with the completions in any order and the calls of
the application in between.  `Fresh` is the invariant below it: addresses are not used twice.
-/

namespace Mydds

open Lib

/-- `ETIME`: the timer has expired. -/
def etime : Int := 62

/-- An exception: who calls may catch it. -/
def Fault.isException : Fault → Bool
  | .invalidArgument _ | .runtimeError _ | .badVariantAccess => true
  | .outOfRange | .nullDereference | .diverges => false

namespace Node

/-! ### The loop -/

/-- The `switch` over the type of the request. -/
def handleEvent (node : Node) (info : IoInfo) : Result Node :=
  match info.type with
  | .multicast => .ok node
  | .unicast => .ok node
  | .read => node.handlerRead info
  | .timer => node.tick

/-- The body of `io_uring_for_each_cqe`, for a completion of `request` with result `res`. -/
def processCqe (node : Node) (request : InfoPtr × IoInfo) (res : Int) : Result Node :=
  -- `continue`, past the handler and the `delete`
  if res < 0 ∧ res ≠ -etime then .ok node
  else do
    let node ← node.handleEvent request.2
    .ok { node with deleted := node.deleted ++ [request.1] }

/-- A call of the application, or a write to one of its topics. -/
inductive Call where
  | createTopic (topicName : Bytes) (topic : Option TopicPtr)
  | createPublishTopic (topicName : Bytes) (topic : Option TopicPtr)
  | publish (topicName : Bytes) (topic : Option TopicPtr)
  | subscribe (topicName : Bytes)
  | write (heap : Heap)

def call (node : Node) : Call → Result Node
  | .createTopic topicName topic => .ok (node.createTopic topicName topic).2
  | .createPublishTopic topicName topic => .ok (node.createPublishTopic topicName topic).2
  | .publish topicName topic => (node.publish topicName topic).map Prod.snd
  | .subscribe topicName => (node.subscribe topicName).map Prod.snd
  | .write heap => .ok { node with topicManager := { node.topicManager with heap } }

/-- The process: it runs, and has consumed these completions, or a fault has ended it. -/
inductive Process where
  | running (node : Node) (consumed : List InfoPtr)
  | terminated (fault : Fault)

inductive Event where
  /-- a request completes with this result; a receive request, with these bytes -/
  | complete (request : InfoPtr × IoInfo) (res : Int) (bytes : Bytes) (addr : SockaddrIn)
  | call (call : Call)

/-- The `IoInfo` of a request that has completed. -/
def completed (info : IoInfo) (bytes : Bytes) (addr : SockaddrIn) : IoInfo :=
  if info.type = .read then info.received bytes addr else info

@[simp] theorem completed_type (info : IoInfo) (bytes : Bytes) (addr : SockaddrIn) :
    (completed info bytes addr).type = info.type := by
  rw [completed]
  split <;> rfl

/-- The node without a request that has completed. -/
def take (node : Node) (request : InfoPtr × IoInfo) : Node :=
  { node with requests := node.requests.erase request }

def outcome (consumed : List InfoPtr) : Result Node → Process
  | .ok node => .running node consumed
  | .error fault => .terminated fault

/-- One event. -/
inductive Next : Process → Event → Process → Prop
  | complete {node : Node} {consumed : List InfoPtr} {request : InfoPtr × IoInfo} (res : Int)
      (bytes : Bytes) (addr : SockaddrIn) : request ∈ node.requests →
      Next (.running node consumed) (.complete request res bytes addr)
        (outcome (consumed ++ [request.1])
          ((node.take request).processCqe (request.1, completed request.2 bytes addr) res))
  | call {node node' : Node} {consumed : List InfoPtr} {call : Call} :
      node.call call = .ok node' →
      Next (.running node consumed) (.call call) (.running node' consumed)
  /-- the application catches what its call throws, before anything has been written -/
  | throw {node : Node} {consumed : List InfoPtr} {call : Call} {fault : Fault} :
      node.call call = .error fault → fault.isException = true →
      Next (.running node consumed) (.call call) (.running node consumed)
  /-- nobody catches a null pointer -/
  | crash {node : Node} {consumed : List InfoPtr} {call : Call} {fault : Fault} :
      node.call call = .error fault → fault.isException = false →
      Next (.running node consumed) (.call call) (.terminated fault)

/-- The same process with its unordered maps in another order. -/
inductive Process.Reorder : Process → Process → Prop
  | running {node : Node} {m : TopicManager} {consumed : List InfoPtr} :
      node.topicManager.Reorder m →
      Reorder (.running node consumed) (.running { node with topicManager := m } consumed)
  | terminated {fault : Fault} : Reorder (.terminated fault) (.terminated fault)

/-- One event, after which the unordered maps are in any order. -/
def LoopStep (s : Process) (event : Event) (s' : Process) : Prop :=
  ∃ mid, Next s event mid ∧ mid.Reorder s'

/-! ### The property and its condition -/

/-- The number of outstanding requests of a type. -/
def outstanding (node : Node) (type : EventType) : Nat :=
  node.requests.countP (fun request => decide (request.2.type = type))

/-- One receive request and one timer are outstanding, and what was consumed has been deleted
once. -/
def Armed (node : Node) (consumed : List InfoPtr) : Prop :=
  node.outstanding .read = 1 ∧ node.outstanding .timer = 1 ∧
    ∀ ptr ∈ consumed, node.deleted.count ptr = 1

def Process.Armed : Process → Prop
  | running node consumed => node.Armed consumed
  | terminated _ => False

/-- The application publishes data of a null pointer, under a name that finds one topic. -/
def PublishesNull (m : TopicManager) : Call → Prop
  | .publish topicName topic => topic = none ∧ (m.getTopics topicName).length = 1
  | _ => False

/-- The result is not an error, and if a timer has expired, the published topics can be
announced; a call does not publish data of a null pointer. -/
def KeepsArmed : Process → Event → Prop
  | .running node _, .complete request res _ _ => (0 ≤ res ∨ res = -etime) ∧
    (request.2.type = .timer →
      ∀ topic ∈ node.topicManager.getAllPublishTopics, CanAnnounce node.topicManager.heap topic)
  | .running node _, .call c => ¬ PublishesNull node.topicManager c
  | .terminated _, _ => True

/-- `handler_read` returns when it is called. -/
def HandlerReturns : Process → Event → Prop
  | .running node _, .complete request res bytes addr => request.2.type = .read →
    (0 ≤ res ∨ res = -etime) →
      ∃ node', (node.take request).handlerRead (completed request.2 bytes addr) = .ok node'
  | _, _ => True

/-! ### What the handlers submit -/

theorem handlerRead_ok {node node' : Node} {info : IoInfo} (h : node.handlerRead info = .ok node') :
    ∃ m, node' = { node with topicManager := m }.submitReceiveRequest := by
  rw [handlerRead] at h
  split at h
  · cases h
  · obtain ⟨m, -, hnode⟩ := Result.bind_eq_ok.mp h
    cases hnode
    exact ⟨m, rfl⟩

/-- **A tick** submits a timer, behind the announcement if there is one. -/
theorem tick_ok {node node' : Node} (h : node.tick = .ok node') :
    node' = node.setTimer ∨ ∃ bytes, node' = (node.multiacast bytes).setTimer := by
  obtain ⟨⟨ret, node1⟩, hdiscovery, hnode⟩ := Result.bind_eq_ok.mp h
  cases hnode
  rw [discovery] at hdiscovery
  split at hdiscovery
  · cases hdiscovery
    exact Or.inl rfl
  · obtain ⟨bytes, -, hsent⟩ := Result.bind_eq_ok.mp hdiscovery
    cases hsent
    exact Or.inr ⟨bytes, rfl⟩

theorem tick_ok_iff (node : Node) : (∃ node', node.tick = .ok node') ↔
    ∀ topic ∈ node.topicManager.getAllPublishTopics, CanAnnounce node.topicManager.heap topic := by
  rw [← createDiscoverPacket_ok_iff]
  constructor
  · rintro ⟨node', h⟩
    obtain ⟨⟨ret, node1⟩, hdiscovery, -⟩ := Result.bind_eq_ok.mp h
    rw [discovery] at hdiscovery
    split at hdiscovery
    · rename_i hnil
      rw [List.eq_nil_of_length_eq_zero hnil]
      exact ⟨_, rfl⟩
    · obtain ⟨bytes, hbytes, -⟩ := Result.bind_eq_ok.mp hdiscovery
      exact ⟨bytes, hbytes⟩
  · rintro ⟨bytes, hbytes⟩
    by_cases hnil : node.topicManager.getAllPublishTopics.length = 0
    · refine ⟨node.setTimer, Result.bind_eq_ok.mpr ⟨(false, node), ?_, rfl⟩⟩
      rw [discovery, if_pos hnil]
    · refine ⟨(node.multiacast bytes).setTimer,
        Result.bind_eq_ok.mpr ⟨(true, node.multiacast bytes), ?_, rfl⟩⟩
      rw [discovery, if_neg hnil, hbytes]
      rfl

theorem call_publish (node : Node) (topicName : Bytes) (topic : Option TopicPtr) :
    node.call (.publish topicName topic) =
      if (node.topicManager.getTopics topicName).length ≠ 1 then .ok node
      else (createPacket .publish node.topicManager.heap [topic]).map node.multiacast := by
  rw [call, publish]
  split
  · rfl
  · show _ = (DDSPacket.createPublishPacket node.topicManager.heap [topic]).map _
    cases DDSPacket.createPublishPacket node.topicManager.heap [topic] <;> rfl

theorem call_subscribe (node : Node) (topicName : Bytes) :
    node.call (.subscribe topicName) =
      if (node.topicManager.getTopics topicName).length = 0 then .ok node
      else (createPacket .subscribe node.topicManager.heap
        ((node.topicManager.getTopics topicName).map some)).map node.multiacast := by
  rw [call, subscribe]
  split
  · rfl
  · show _ = (DDSPacket.createSubscribePacket node.topicManager.heap
      ((node.topicManager.getTopics topicName).map some)).map _
    cases DDSPacket.createSubscribePacket node.topicManager.heap
      ((node.topicManager.getTopics topicName).map some) <;> rfl

theorem call_ok {node node' : Node} {c : Call} (h : node.call c = .ok node') :
    (∃ m, node' = { node with topicManager := m }) ∨ ∃ bytes, node' = node.multiacast bytes := by
  cases c with
  | createTopic topicName topic | createPublishTopic topicName topic | write heap =>
    cases h
    exact Or.inl ⟨_, rfl⟩
  | publish topicName topic =>
    rw [call_publish] at h
    split at h
    · cases h
      exact Or.inl ⟨_, rfl⟩
    · obtain ⟨bytes, -, rfl⟩ := Result.map_eq_ok.mp h
      exact Or.inr ⟨bytes, rfl⟩
  | subscribe topicName =>
    rw [call_subscribe] at h
    split at h
    · cases h
      exact Or.inl ⟨_, rfl⟩
    · obtain ⟨bytes, -, rfl⟩ := Result.map_eq_ok.mp h
      exact Or.inr ⟨bytes, rfl⟩

theorem isException_of_createPacket {kind : CommunicationType} {heap : Heap}
    {ptrs : List TopicPtr} {fault : Fault}
    (h : createPacket kind heap (ptrs.map some) = .error fault) : fault.isException = true := by
  obtain ⟨-, what, he | he⟩ := (createPacket_throwsIff kind heap ptrs).of_error h
  · rw [Except.error.inj (h.symm.trans he)]
    rfl
  · rw [Except.error.inj (h.symm.trans he)]
    rfl

/-- **A call that does not return** has thrown in an encoder, or met a null pointer. -/
theorem call_error {node : Node} {c : Call} {fault : Fault} (h : node.call c = .error fault) :
    (fault.isException = true ∧ ¬ PublishesNull node.topicManager c) ∨
      (fault = .nullDereference ∧ PublishesNull node.topicManager c) := by
  cases c with
  | createTopic _ _ | createPublishTopic _ _ | write _ => cases h
  | publish topicName topic =>
    rw [call_publish] at h
    split at h
    · cases h
    · rename_i hone
      rw [Result.map_eq_error] at h
      cases topic with
      | none =>
        cases h
        exact Or.inr ⟨rfl, rfl, not_not.mp hone⟩
      | some t =>
        have hthrows : createPacket .publish node.topicManager.heap ([t].map some)
            = .error fault := h
        refine Or.inl ⟨isException_of_createPacket hthrows, ?_⟩
        rintro ⟨hnull, -⟩
        cases hnull
  | subscribe topicName =>
    rw [call_subscribe] at h
    split at h
    · cases h
    · exact Or.inl ⟨isException_of_createPacket (Result.map_eq_error.mp h), id⟩

theorem not_publishesNull_of_ok {node node' : Node} {c : Call} (h : node.call c = .ok node') :
    ¬ PublishesNull node.topicManager c := by
  cases c with
  | createTopic _ _ | createPublishTopic _ _ | write _ | subscribe _ => exact id
  | publish topicName topic =>
    rintro ⟨rfl, hone⟩
    rw [call, publish, if_neg (by rw [hone]; decide)] at h
    cases h

theorem outstanding_submit (node : Node) (info : IoInfo) (type : EventType) :
    (node.submit info).outstanding type
      = node.outstanding type + if info.type = type then 1 else 0 := by
  rw [outstanding, submit, List.countP_append, List.countP_singleton]
  simp only [decide_eq_true_eq]
  rfl

theorem outstanding_take {node : Node} {request : InfoPtr × IoInfo} (h : request ∈ node.requests)
    (type : EventType) : (node.take request).outstanding type
      + (if request.2.type = type then 1 else 0) = node.outstanding type := by
  rw [outstanding, outstanding, (List.perm_cons_erase h).countP_eq, List.countP_cons]
  simp only [decide_eq_true_eq]
  rfl

/-- **A handler rearms what has completed**: it submits one receive request after a receive
request, one timer after a timer, and neither of them otherwise. -/
theorem outstanding_handleEvent {node node' : Node} {info : IoInfo}
    (h : node.handleEvent info = .ok node') {type : EventType} (htype : type ≠ .multicast)
    (htype' : type ≠ .unicast) :
    node'.outstanding type = node.outstanding type + if info.type = type then 1 else 0 := by
  rw [handleEvent] at h
  split at h
  · rename_i hinfo
    cases h
    rw [hinfo, if_neg (Ne.symm htype), Nat.add_zero]
  · rename_i hinfo
    cases h
    rw [hinfo, if_neg (Ne.symm htype'), Nat.add_zero]
  · rename_i hinfo
    obtain ⟨m, rfl⟩ := handlerRead_ok h
    rw [hinfo]
    exact outstanding_submit { node with topicManager := m } receiveInfo type
  · rename_i hinfo
    rw [hinfo]
    rcases tick_ok h with rfl | ⟨bytes, rfl⟩
    · exact outstanding_submit node timerInfo type
    · have hsent := outstanding_submit node (multicastInfo bytes) type
      rw [show (multicastInfo bytes).type = .multicast from rfl, if_neg (Ne.symm htype)] at hsent
      rw [setTimer, multiacast, outstanding_submit, hsent]
      rfl

theorem deleted_handleEvent {node node' : Node} {info : IoInfo}
    (h : node.handleEvent info = .ok node') : node'.deleted = node.deleted := by
  rw [handleEvent] at h
  split at h
  · cases h
    rfl
  · cases h
    rfl
  · obtain ⟨m, rfl⟩ := handlerRead_ok h
    rfl
  · rcases tick_ok h with rfl | ⟨bytes, rfl⟩ <;> rfl

/-! ### Fresh addresses -/

/-- Outstanding requests have addresses of their own, which are not among those that were
consumed, and only what was consumed has been deleted. -/
structure Fresh (node : Node) (consumed : List InfoPtr) : Prop where
  lt : ∀ request ∈ node.requests, request.1 < node.nextInfo
  nodup : (node.requests.map Prod.fst).Nodup
  consumed_lt : ∀ ptr ∈ consumed, ptr < node.nextInfo
  disjoint : ∀ request ∈ node.requests, request.1 ∉ consumed
  deleted : ∀ ptr ∈ node.deleted, ptr ∈ consumed

theorem Fresh.submit {node : Node} {consumed : List InfoPtr} (h : node.Fresh consumed)
    (info : IoInfo) : (node.submit info).Fresh consumed where
  lt request hrequest := by
    rcases List.mem_append.mp hrequest with hold | hnew
    · exact Nat.lt_succ_of_lt (h.lt request hold)
    · rw [List.mem_singleton.mp hnew]
      exact Nat.lt_succ_self _
  nodup := by
    rw [Node.submit, List.map_append, List.nodup_append]
    refine ⟨h.nodup, List.nodup_singleton _, ?_⟩
    rintro ptr hptr _ hnew rfl
    obtain ⟨request, hrequest, rfl⟩ := List.mem_map.mp hptr
    exact Nat.ne_of_lt (h.lt request hrequest) (List.mem_singleton.mp hnew)
  consumed_lt ptr hptr := Nat.lt_succ_of_lt (h.consumed_lt ptr hptr)
  disjoint request hrequest := by
    rcases List.mem_append.mp hrequest with hold | hnew
    · exact h.disjoint request hold
    · rw [List.mem_singleton.mp hnew]
      exact fun hmem => Nat.lt_irrefl _ (h.consumed_lt _ hmem)
  deleted := h.deleted

theorem Fresh.topics {node : Node} {consumed : List InfoPtr} (h : node.Fresh consumed)
    (m : TopicManager) : { node with topicManager := m }.Fresh consumed :=
  ⟨h.lt, h.nodup, h.consumed_lt, h.disjoint, h.deleted⟩

theorem Fresh.take {node : Node} {consumed : List InfoPtr} (h : node.Fresh consumed)
    {request : InfoPtr × IoInfo} (hrequest : request ∈ node.requests) :
    (node.take request).Fresh (consumed ++ [request.1]) where
  lt r hr := h.lt r (List.mem_of_mem_erase hr)
  nodup := h.nodup.sublist (List.erase_sublist.map Prod.fst)
  consumed_lt ptr hptr := by
    rcases List.mem_append.mp hptr with hold | hnew
    · exact h.consumed_lt ptr hold
    · rw [List.mem_singleton.mp hnew]
      exact h.lt request hrequest
  disjoint r hr hmem := by
    rcases List.mem_append.mp hmem with hold | hnew
    · exact h.disjoint r (List.mem_of_mem_erase hr) hold
    · -- the address of the request would be there twice
      have hperm := (List.perm_cons_erase hrequest).map Prod.fst
      have hnodup := hperm.nodup_iff.mp h.nodup
      rw [List.map_cons, List.nodup_cons] at hnodup
      exact hnodup.1 (List.mem_singleton.mp hnew ▸ List.mem_map_of_mem hr)
  deleted ptr hptr := List.mem_append_left _ (h.deleted ptr hptr)

theorem Fresh.delete {node : Node} {consumed : List InfoPtr} (h : node.Fresh consumed)
    {ptr : InfoPtr} (hptr : ptr ∈ consumed) :
    { node with deleted := node.deleted ++ [ptr] }.Fresh consumed :=
  ⟨h.lt, h.nodup, h.consumed_lt, h.disjoint, fun p hp => by
    rcases List.mem_append.mp hp with hold | hnew
    · exact h.deleted p hold
    · rw [List.mem_singleton.mp hnew]
      exact hptr⟩

theorem Fresh.handleEvent {node node' : Node} {consumed : List InfoPtr} (h : node.Fresh consumed)
    {info : IoInfo} (hok : node.handleEvent info = .ok node') : node'.Fresh consumed := by
  rw [Node.handleEvent] at hok
  split at hok
  · cases hok
    exact h
  · cases hok
    exact h
  · obtain ⟨m, rfl⟩ := handlerRead_ok hok
    exact (h.topics m).submit _
  · rcases tick_ok hok with rfl | ⟨bytes, rfl⟩
    · exact h.submit _
    · exact (h.submit _).submit _

def Process.Fresh : Process → Prop
  | running node consumed => node.Fresh consumed
  | terminated _ => True

/-- **Whatever a completion leads to, addresses stay fresh.** -/
theorem Fresh.processCqe {node node' : Node} {consumed : List InfoPtr} (h : node.Fresh consumed)
    {ptr : InfoPtr} (hptr : ptr ∈ consumed) {info : IoInfo} {res : Int}
    (hprocess : node.processCqe (ptr, info) res = .ok node') : node'.Fresh consumed := by
  rw [Node.processCqe] at hprocess
  split at hprocess
  · cases hprocess
    exact h
  · obtain ⟨node1, hok, hdone⟩ := Result.bind_eq_ok.mp hprocess
    cases hdone
    exact (h.handleEvent hok).delete hptr

theorem LoopStep.fresh {s s' : Process} {event : Event} (hs : s.Fresh) (h : LoopStep s event s') :
    s'.Fresh := by
  obtain ⟨mid, hnext, hreorder⟩ := h
  have hmid : mid.Fresh := by
    cases hnext with
    | @complete node consumed request res bytes addr hrequest =>
      cases hprocess : (node.take request).processCqe
          (request.1, completed request.2 bytes addr) res with
      | error fault => exact trivial
      | ok node' =>
        have hconsumed : request.1 ∈ consumed ++ [request.1] :=
          List.mem_append_right _ (List.mem_singleton_self _)
        exact (Fresh.take hs hrequest).processCqe hconsumed hprocess
    | @call node node' consumed c hcall =>
      rcases call_ok hcall with ⟨m, rfl⟩ | ⟨bytes, rfl⟩
      · exact Fresh.topics hs m
      · exact Fresh.submit hs _
    | throw => exact hs
    | crash => exact trivial
  cases hreorder with
  | running _ => exact Fresh.topics hmid _
  | terminated => exact trivial

/-! ### One event -/

theorem Fresh.count_deleted {node : Node} {consumed : List InfoPtr} (h : node.Fresh consumed)
    {request : InfoPtr × IoInfo} (hrequest : request ∈ node.requests) :
    node.deleted.count request.1 = 0 :=
  List.count_eq_zero_of_not_mem fun hmem => h.disjoint request hrequest (h.deleted _ hmem)

theorem count_delete {node : Node} {consumed : List InfoPtr} (h : node.Fresh consumed)
    (hdeleted : ∀ ptr ∈ consumed, node.deleted.count ptr = 1) {request : InfoPtr × IoInfo}
    (hrequest : request ∈ node.requests) :
    ∀ ptr ∈ consumed ++ [request.1], (node.deleted ++ [request.1]).count ptr = 1 := by
  intro ptr hptr
  rw [List.count_append]
  rcases List.mem_append.mp hptr with hold | hnew
  · have hne : request.1 ≠ ptr := fun he => h.disjoint request hrequest (he ▸ hold)
    rw [hdeleted ptr hold, List.count_singleton]
    simp [hne]
  · rw [List.mem_singleton.mp hnew, h.count_deleted hrequest, List.count_singleton_self]

theorem etime_or_iff (res : Int) : ¬ (res < 0 ∧ res ≠ -etime) ↔ 0 ≤ res ∨ res = -etime := by
  omega

theorem handleEvent_ok_iff {node : Node} {info : IoInfo}
    (hreturns : info.type = .read → ∃ node', node.handlerRead info = .ok node') :
    (∃ node', node.handleEvent info = .ok node') ↔ (info.type = .timer →
      ∀ topic ∈ node.topicManager.getAllPublishTopics,
        CanAnnounce node.topicManager.heap topic) := by
  rw [handleEvent]
  cases htype : info.type with
  | multicast | unicast => exact iff_of_true ⟨node, rfl⟩ nofun
  | read => exact iff_of_true (hreturns htype) nofun
  | timer => exact (tick_ok_iff node).trans ⟨fun h _ => h, fun h => h rfl⟩

/-- **A completion keeps an armed node armed iff** its result is not an error and, for a
timer, the published topics can be announced. -/
theorem armed_complete_iff {node : Node} {consumed : List InfoPtr} (h : node.Fresh consumed)
    (harmed : node.Armed consumed) {request : InfoPtr × IoInfo} (hrequest : request ∈ node.requests)
    (res : Int) (bytes : Bytes) (addr : SockaddrIn)
    (hreturns : HandlerReturns (.running node consumed) (.complete request res bytes addr)) :
    (outcome (consumed ++ [request.1])
      ((node.take request).processCqe (request.1, completed request.2 bytes addr) res)).Armed ↔
    KeepsArmed (.running node consumed) (.complete request res bytes addr) := by
  rw [processCqe]
  by_cases hbad : res < 0 ∧ res ≠ -etime
  · -- nobody deletes the `IoInfo`
    rw [if_pos hbad]
    refine iff_of_false (fun hnot => ?_) (fun hkeeps => (etime_or_iff res).mpr hkeeps.1 hbad)
    have hcount := hnot.2.2 request.1 (List.mem_append_right _ (List.mem_singleton_self _))
    have hzero : (node.take request).deleted.count request.1 = 0 := h.count_deleted hrequest
    rw [hzero] at hcount
    cases hcount
  have hgood := (etime_or_iff res).mp hbad
  have hread : (completed request.2 bytes addr).type = .read →
      ∃ node', (node.take request).handlerRead (completed request.2 bytes addr) = .ok node' :=
    fun htype => hreturns ((completed_type request.2 bytes addr).symm.trans htype) hgood
  have hiff := handleEvent_ok_iff hread
  rw [completed_type] at hiff
  rw [if_neg hbad, KeepsArmed, and_iff_right hgood]
  refine Iff.trans ?_ hiff
  constructor
  · intro hout
    cases hresult : (node.take request).handleEvent (completed request.2 bytes addr) with
    | error fault => rw [hresult] at hout; exact hout.elim
    | ok node1 => exact ⟨node1, rfl⟩
  · rintro ⟨node1, hok⟩
    have hrearmed : ∀ type, type ≠ EventType.multicast → type ≠ .unicast →
        node1.outstanding type = node.outstanding type := by
      intro type htype htype'
      rw [outstanding_handleEvent hok htype htype', completed_type, outstanding_take hrequest]
    have hdeleted : node1.deleted = (node.take request).deleted := deleted_handleEvent hok
    rw [hok]
    refine ⟨(hrearmed .read nofun nofun).trans harmed.1,
      (hrearmed .timer nofun nofun).trans harmed.2.1, ?_⟩
    show ∀ ptr ∈ consumed ++ [request.1], (node1.deleted ++ [request.1]).count ptr = 1
    rw [hdeleted]
    exact count_delete h harmed.2.2 hrequest

theorem LoopStep.armed_iff {s s' : Process} {event : Event} (hs : s.Fresh) (harmed : s.Armed)
    (hreturns : HandlerReturns s event) (h : LoopStep s event s') :
    s'.Armed ↔ KeepsArmed s event := by
  obtain ⟨mid, hnext, hreorder⟩ := h
  have hsame : s'.Armed ↔ mid.Armed := by
    cases hreorder with
    | running _ => exact Iff.rfl
    | terminated => exact Iff.rfl
  rw [hsame]
  cases hnext with
  | complete res bytes addr hrequest =>
    exact armed_complete_iff hs harmed hrequest res bytes addr hreturns
  | throw hcall hexception =>
    refine iff_of_true harmed ?_
    rcases call_error hcall with ⟨-, hno⟩ | ⟨rfl, -⟩
    · exact hno
    · cases hexception
  | crash hcall hexception =>
    refine iff_of_false id fun hno => ?_
    rcases call_error hcall with ⟨hyes, -⟩ | ⟨-, hnull⟩
    · rw [hyes] at hexception
      cases hexception
    · exact hno hnull
  | @call node node' consumed c hcall =>
    refine iff_of_true ?_ (not_publishesNull_of_ok hcall)
    obtain ⟨hread, htimer, hdeleted⟩ := harmed
    rcases call_ok hcall with ⟨m, rfl⟩ | ⟨sent, rfl⟩
    · exact ⟨hread, htimer, hdeleted⟩
    · exact ⟨(outstanding_submit _ (multicastInfo sent) .read).trans hread,
        (outstanding_submit _ (multicastInfo sent) .timer).trans htimer, hdeleted⟩

/-! ### Runs -/

theorem init_ok {m : TopicManager} {node : Node} {heap : Heap}
    (h : ({ construct heap with topicManager := m }).init = .ok node) :
    (Process.running node []).Fresh ∧ (Process.running node []).Armed := by
  have hnew : ({ construct heap with topicManager := m }).Fresh [] :=
    ⟨by simp [construct], by simp [construct], by simp, by simp, by simp [construct]⟩
  obtain ⟨node1, htick, hnode⟩ := Result.bind_eq_ok.mp h
  cases hnode
  have htimer : { construct heap with topicManager := m }.handleEvent timerInfo = .ok node1 := htick
  have hread := @outstanding_handleEvent _ _ _ htimer .read nofun nofun
  have htimers := @outstanding_handleEvent _ _ _ htimer .timer nofun nofun
  refine ⟨(hnew.handleEvent htimer).submit _, ?_, ?_, by simp⟩
  · rw [submitReceiveRequest, outstanding_submit, hread]
    rfl
  · rw [submitReceiveRequest, outstanding_submit, htimers]
    rfl

/-- **The event loop keeps itself armed iff no completion is an error**, the published topics can be
announced whenever a timer expires, and no call publishes data of a null pointer: for every run from
`init`, with the completions in any order and with any results. -/
theorem armed_run_iff {heap : Heap} {m : TopicManager} {node : Node}
    (hinit : ({ construct heap with topicManager := m }).init = .ok node)
    {trace : List (Process × Event)} {s : Process} (r : Run LoopStep (.running node []) trace s)
    (hreturns : ∀ x ∈ trace, HandlerReturns x.1 x.2) :
    ((∀ x ∈ trace, x.1.Armed) ∧ s.Armed) ↔ ∀ x ∈ trace, KeepsArmed x.1 x.2 := by
  obtain ⟨hfresh, harmed⟩ := init_ok hinit
  exact (r.restrict hreturns).always_iff (fun _ _ _ hs h => h.2.fresh hs)
    (fun _ _ _ hs ha h => h.2.armed_iff hs ha h.1) hfresh harmed

theorem Process.Reorder.refl (s : Process) : s.Reorder s := by
  cases s with
  | running node consumed => exact .running (TopicManager.Reorder.refl _)
  | terminated fault => exact .terminated

/-- A node without topics, after `init`. -/
def started : Node :=
  (construct ⟨fun _ => Topic.ofName [], 0⟩).setTimer.submitReceiveRequest

theorem init_started : ({ construct ⟨fun _ => Topic.ofName [], 0⟩ with
    topicManager := TopicManager.init ⟨fun _ => Topic.ofName [], 0⟩ }).init = .ok started := rfl

theorem exists_loopStep {request : InfoPtr × IoInfo} (h : request ∈ started.requests) (res : Int) :
    ∃ s, LoopStep (.running started []) (.complete request res [] ⟨(10, 0, 0, 1), (0, 80)⟩) s :=
  ⟨_, _, .complete res [] ⟨(10, 0, 0, 1), (0, 80)⟩ h, Process.Reorder.refl _⟩

/-- The timer expires. -/
theorem armed_run_iff_timer : ∃ s, Run LoopStep (.running started [])
    [(.running started [], .complete (0, timerInfo) (-62) [] ⟨(10, 0, 0, 1), (0, 80)⟩)] s ∧
    s.Armed := by
  have hrequest : (0, timerInfo) ∈ started.requests := List.mem_cons_self
  obtain ⟨s, hstep⟩ := exists_loopStep hrequest (-62)
  have r := Run.single hstep
  refine ⟨s, r, ((armed_run_iff init_started r fun x hx => ?_).mpr fun x hx => ?_).2⟩
  · rw [List.mem_singleton.mp hx]
    exact nofun
  · rw [List.mem_singleton.mp hx]
    exact ⟨Or.inr rfl, fun _ topic htopic => absurd htopic List.not_mem_nil⟩

/-- The receive request fails with `EINTR`. -/
theorem armed_run_fails : ¬ ∀ (heap : Heap) (m : TopicManager) (node : Node)
    (trace : List (Process × Event)) (s : Process),
    ({ construct heap with topicManager := m }).init = .ok node →
    Run LoopStep (.running node []) trace s → (∀ x ∈ trace, HandlerReturns x.1 x.2) → s.Armed := by
  intro h
  have hrequest : (1, receiveInfo) ∈ started.requests := List.mem_cons_of_mem _ List.mem_cons_self
  obtain ⟨s, hstep⟩ := exists_loopStep hrequest (-4)
  have hreturns : HandlerReturns (.running started [])
      (.complete (1, receiveInfo) (-4) [] ⟨(10, 0, 0, 1), (0, 80)⟩) := by
    intro _ hgood
    exact absurd hgood (by decide)
  have harmed := h _ _ _ _ s init_started (Run.single hstep) fun x hx => by
    rw [List.mem_singleton.mp hx]
    exact hreturns
  obtain ⟨hfresh, hstart⟩ := init_ok init_started
  obtain ⟨hgood, -⟩ := (hstep.armed_iff hfresh hstart hreturns).mp harmed
  exact absurd hgood (by decide)

end Node

end Mydds
