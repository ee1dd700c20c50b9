import Mydds.Node.EventLoop
import Mathlib.Data.Finset.Card
import Mathlib.Order.Interval.Finset.Nat

/-!
# The submission queue

A submission takes the next entry of the queue that `io_uring_queue_init_params` made, and
`io_uring_get_sqe` returns a null pointer if the queue is full; the node then throws, on the thread
of the loop.  The loop publishes its entries once in a round, `io_uring_submit_and_wait`, and the
kernel takes them in order, at any time after that; only what has been taken can complete.

`InfoPtr` counts the entries: those from `head` to `nextInfo` are in the queue.  A tick puts its
timer behind its announcement, so if the announcement is still in the queue then so is the timer.
There is one timer and one receive request at most, and so three entries are all that the loop
itself has in the queue, `occupied_le`; the rest are those of the application.

`Step` lets the queue grow, and `QueueStep` ends the node where it is full.  That needs 1021
entries of the application, `Step.queuedCalls_of_full`; and as long as it does not happen a run of
the queue is one of the loop, `loopRun`.
-/

namespace Mydds

open Lib

/-- `QUEUE_DEPTH` -/
def queueDepth : Nat := 1024

/-- The process with its ring: the kernel has taken the entries before `head`, and may take those
before `tail`.  The entries of `called` were made by calls of the application. -/
structure Ring where
  process : Node.Process
  head : InfoPtr
  tail : InfoPtr
  called : List InfoPtr

namespace Ring

open Node

inductive Event where
  /-- `io_uring_submit_and_wait` publishes the entries that are there -/
  | submit
  /-- the kernel takes the entries before `head` -/
  | take (head : InfoPtr)
  | loop (event : Node.Event)

/-- The entries that an event has made. -/
def made (node : Node) : Process → List InfoPtr
  | .running node' _ => List.range' node.nextInfo (node'.nextInfo - node.nextInfo)
  | .terminated _ => []

/-- A step of a queue that never is full. -/
inductive Step : Ring → Ring.Event → Ring → Prop
  | submit {node : Node} {consumed called : List InfoPtr} {head tail : InfoPtr} :
      Step ⟨.running node consumed, head, tail, called⟩ .submit
        ⟨.running node consumed, head, node.nextInfo, called⟩
  | take {process : Process} {called : List InfoPtr} {head head' tail : InfoPtr} :
      head ≤ head' → head' ≤ tail →
      Step ⟨process, head, tail, called⟩ (.take head') ⟨process, head', tail, called⟩
  /-- only an entry that has been taken completes -/
  | complete {node : Node} {consumed called : List InfoPtr} {head tail : InfoPtr}
      {request : InfoPtr × IoInfo} {res : Int} {bytes : Bytes} {addr : SockaddrIn}
      {process : Process} : request.1 < head →
      LoopStep (.running node consumed) (.complete request res bytes addr) process →
      Step ⟨.running node consumed, head, tail, called⟩
        (.loop (.complete request res bytes addr)) ⟨process, head, tail, called⟩
  | call {node : Node} {consumed called : List InfoPtr} {head tail : InfoPtr} {c : Call}
      {process : Process} : LoopStep (.running node consumed) (.call c) process →
      Step ⟨.running node consumed, head, tail, called⟩ (.loop (.call c))
        ⟨process, head, tail, called ++ made node process⟩

/-- The count of entries in the queue, which `io_uring_get_sqe` compares with its depth. -/
def occupied (ring : Ring) : Nat :=
  match ring.process with
  | .running node _ => node.nextInfo - ring.head
  | .terminated _ => 0

/-- The entries in the queue that the application has made. -/
def queuedCalls (ring : Ring) : List InfoPtr :=
  ring.called.filter fun ptr => decide (ring.head ≤ ptr)

/-! ### The entries of a type -/

/-- The addresses of the outstanding requests of a type. -/
def addresses (node : Node) (type : EventType) : List InfoPtr :=
  (node.requests.filter fun request => decide (request.2.type = type)).map Prod.fst

theorem length_addresses (node : Node) (type : EventType) :
    (addresses node type).length = node.outstanding type := by
  rw [addresses, List.length_map, outstanding, List.countP_eq_length_filter]

theorem mem_addresses {node : Node} {type : EventType} {ptr : InfoPtr} :
    ptr ∈ addresses node type ↔ ∃ info, (ptr, info) ∈ node.requests ∧ info.type = type := by
  simp [addresses]

theorem mem_addresses_submit {node : Node} {type : EventType} {ptr : InfoPtr} (info : IoInfo)
    (h : ptr ∈ addresses node type) : ptr ∈ addresses (node.submit info) type := by
  obtain ⟨old, hold, htype⟩ := mem_addresses.mp h
  exact mem_addresses.mpr ⟨old, List.mem_append_left _ hold, htype⟩

theorem nextInfo_mem_addresses (node : Node) (info : IoInfo) :
    node.nextInfo ∈ addresses (node.submit info) info.type :=
  mem_addresses.mpr ⟨info, List.mem_append_right _ (List.mem_singleton_self _), rfl⟩

theorem mem_addresses_take {node : Node} {type : EventType} {ptr : InfoPtr}
    (h : ptr ∈ addresses node type) {request : InfoPtr × IoInfo} (hne : ptr ≠ request.1) :
    ptr ∈ addresses (node.take request) type := by
  obtain ⟨info, hmem, htype⟩ := mem_addresses.mp h
  refine mem_addresses.mpr ⟨info, ?_, htype⟩
  exact (List.mem_erase_of_ne fun he => hne (congrArg Prod.fst he)).mpr hmem

/-! ### The invariant -/

/-- The entry is a receive request, or a timer, or the announcement in front of one. -/
def Own (node : Node) (ptr : InfoPtr) : Prop :=
  ptr ∈ addresses node .read ∨ ptr ∈ addresses node .timer ∨ ptr + 1 ∈ addresses node .timer

theorem Own.mono {node node' : Node} {ptr : InfoPtr} (h : Own node ptr)
    (hmem : ∀ type, ∀ p, ptr ≤ p → p ∈ addresses node type → p ∈ addresses node' type) :
    Own node' ptr := by
  rcases h with h | h | h
  · exact Or.inl (hmem .read ptr (Nat.le_refl _) h)
  · exact Or.inr (Or.inl (hmem .timer ptr (Nat.le_refl _) h))
  · exact Or.inr (Or.inr (hmem .timer (ptr + 1) (Nat.le_succ _) h))

/-- What is in the queue is the loop's own, of which there is little, or the application's. -/
structure Queued (node : Node) (head tail : InfoPtr) (called : List InfoPtr) : Prop where
  head_le : head ≤ tail
  tail_le : tail ≤ node.nextInfo
  read_le : node.outstanding .read ≤ 1
  timer_le : node.outstanding .timer ≤ 1
  entry : ∀ ptr, head ≤ ptr → ptr < node.nextInfo → Own node ptr ∨ ptr ∈ called

theorem handleEvent_own {node node' : Node} {info : IoInfo}
    (h : node.handleEvent info = .ok node') :
    (∀ type, ∀ ptr ∈ addresses node type, ptr ∈ addresses node' type) ∧
    node.nextInfo ≤ node'.nextInfo ∧
    ∀ ptr, node.nextInfo ≤ ptr → ptr < node'.nextInfo → Own node' ptr := by
  have hsame : (∀ type, ∀ ptr ∈ addresses node type, ptr ∈ addresses node type) ∧
      node.nextInfo ≤ node.nextInfo ∧
      ∀ ptr, node.nextInfo ≤ ptr → ptr < node.nextInfo → Own node ptr :=
    ⟨fun _ _ hmem => hmem, Nat.le_refl _, fun ptr hle hlt => absurd hlt (Nat.not_lt.mpr hle)⟩
  rw [handleEvent] at h
  split at h
  · cases h
    exact hsame
  · cases h
    exact hsame
  · obtain ⟨m, rfl⟩ := handlerRead_ok h
    refine ⟨fun type ptr hmem => ?_, Nat.le_succ _, fun ptr hle hlt => Or.inl ?_⟩
    · have hmem' : ptr ∈ addresses { node with topicManager := m } type := hmem
      exact mem_addresses_submit receiveInfo hmem'
    · obtain rfl : ptr = node.nextInfo := Nat.le_antisymm (Nat.le_of_lt_succ hlt) hle
      exact nextInfo_mem_addresses { node with topicManager := m } receiveInfo
  · rcases tick_ok h with rfl | ⟨bytes, rfl⟩
    · refine ⟨fun type ptr hmem => mem_addresses_submit timerInfo hmem, Nat.le_succ _,
        fun ptr hle hlt => Or.inr (Or.inl ?_)⟩
      obtain rfl : ptr = node.nextInfo := Nat.le_antisymm (Nat.le_of_lt_succ hlt) hle
      exact nextInfo_mem_addresses node timerInfo
    · have htimer := nextInfo_mem_addresses (node.multiacast bytes) timerInfo
      refine ⟨fun type ptr hmem => mem_addresses_submit timerInfo
        (mem_addresses_submit (multicastInfo bytes) hmem), Nat.le_add_right _ 2,
        fun ptr hle hlt => Or.inr ?_⟩
      -- the announcement, and the timer behind it
      rcases Nat.lt_or_ge ptr (node.nextInfo + 1) with hfirst | hsecond
      · obtain rfl : ptr = node.nextInfo := Nat.le_antisymm (Nat.le_of_lt_succ hfirst) hle
        exact Or.inr htimer
      · obtain rfl : ptr = node.nextInfo + 1 := Nat.le_antisymm (Nat.le_of_lt_succ hlt) hsecond
        exact Or.inl htimer

section Steps

variable {node node' : Node} {head tail : InfoPtr} {called : List InfoPtr}

theorem Queued.topics (h : Queued node head tail called) (m : TopicManager) :
    Queued { node with topicManager := m } head tail called :=
  ⟨h.head_le, h.tail_le, h.read_le, h.timer_le, h.entry⟩

theorem Queued.complete (h : Queued node head tail called) {request : InfoPtr × IoInfo}
    (hrequest : request ∈ node.requests) (hhead : request.1 < head) (bytes : Bytes)
    (addr : SockaddrIn) (res : Int)
    (hok : (node.take request).processCqe (request.1, completed request.2 bytes addr) res
      = .ok node') : Queued node' head tail called := by
  have hcount : ∀ type, (node.take request).outstanding type
      + (if request.2.type = type then 1 else 0) = node.outstanding type :=
    fun type => outstanding_take hrequest type
  have hkept : ∀ ptr, head ≤ ptr → Own node ptr → Own (node.take request) ptr := by
    intro ptr hptr hown
    exact hown.mono fun type p hp hmem => mem_addresses_take hmem
      (Nat.ne_of_gt (Nat.lt_of_lt_of_le hhead (Nat.le_trans hptr hp)))
  rw [processCqe] at hok
  split at hok
  · cases hok
    have hread := hcount .read
    have htimer := hcount .timer
    refine ⟨h.head_le, h.tail_le, ?_, ?_, fun ptr hptr hlt => ?_⟩
    · exact Nat.le_trans (by omega) h.read_le
    · exact Nat.le_trans (by omega) h.timer_le
    · exact (h.entry ptr hptr hlt).imp_left (hkept ptr hptr)
  · obtain ⟨node1, hhandle, hdone⟩ := Result.bind_eq_ok.mp hok
    cases hdone
    obtain ⟨hmono, hnext, hnew⟩ := handleEvent_own hhandle
    have hrearmed : ∀ type, type ≠ EventType.multicast → type ≠ .unicast →
        node1.outstanding type = node.outstanding type := by
      intro type htype htype'
      rw [outstanding_handleEvent hhandle htype htype', completed_type, hcount]
    have hentry : ∀ ptr, head ≤ ptr → ptr < node1.nextInfo → Own node1 ptr ∨ ptr ∈ called := by
      intro ptr hptr hlt
      rcases Nat.lt_or_ge ptr node.nextInfo with hold | hlate
      · refine (h.entry ptr hptr hold).imp_left fun hown => ?_
        exact (hkept ptr hptr hown).mono fun type p _ hmem => hmono type p hmem
      · exact Or.inl (hnew ptr hlate hlt)
    exact ⟨h.head_le, Nat.le_trans h.tail_le hnext,
      Nat.le_trans (Nat.le_of_eq (hrearmed .read (by decide) (by decide))) h.read_le,
      Nat.le_trans (Nat.le_of_eq (hrearmed .timer (by decide) (by decide))) h.timer_le, hentry⟩

theorem Queued.call (h : Queued node head tail called) {c : Call}
    (hcall : node.call c = .ok node') : Queued node' head tail
      (called ++ List.range' node.nextInfo (node'.nextInfo - node.nextInfo)) := by
  rcases call_ok hcall with ⟨m, rfl⟩ | ⟨bytes, rfl⟩
  · rw [Nat.sub_self, List.range'_zero, List.append_nil]
    exact h.topics m
  · have hone : List.range' node.nextInfo ((node.multiacast bytes).nextInfo - node.nextInfo)
        = [node.nextInfo] := by
      rw [multiacast, submit, Nat.add_sub_cancel_left]
      rfl
    have hread := outstanding_submit node (multicastInfo bytes) .read
    have htimer := outstanding_submit node (multicastInfo bytes) .timer
    rw [hone]
    refine ⟨h.head_le, Nat.le_succ_of_le h.tail_le, Nat.le_trans (Nat.le_of_eq hread) h.read_le,
      Nat.le_trans (Nat.le_of_eq htimer) h.timer_le, fun ptr hptr hlt => ?_⟩
    rcases Nat.lt_or_ge ptr node.nextInfo with hold | hlate
    · refine (h.entry ptr hptr hold).imp (fun hown => ?_) (List.mem_append_left _)
      exact hown.mono fun type p _ hmem => mem_addresses_submit _ hmem
    · obtain rfl : ptr = node.nextInfo := Nat.le_antisymm (Nat.le_of_lt_succ hlt) hlate
      exact Or.inr (List.mem_append_right _ (List.mem_singleton_self _))

/-- **Three entries of the queue are enough for the loop.** -/
theorem Queued.length_le (h : Queued node head tail called) :
    node.nextInfo - head ≤ 3 + (called.filter fun ptr => decide (head ≤ ptr)).length := by
  have hsub : Finset.Ico head node.nextInfo ⊆ (addresses node .read
      ++ addresses node .timer ++ (addresses node .timer).map Nat.pred
      ++ called.filter fun ptr => decide (head ≤ ptr)).toFinset := by
    intro ptr hptr
    obtain ⟨hle, hlt⟩ := Finset.mem_Ico.mp hptr
    rw [List.mem_toFinset]
    rcases h.entry ptr hle hlt with (hread | htimer | hnext) | hcalled
    · simp [hread]
    · simp [htimer]
    · have hpred : ptr ∈ (addresses node .timer).map Nat.pred :=
        List.mem_map.mpr ⟨ptr + 1, hnext, rfl⟩
      simp only [List.mem_append]
      exact Or.inl (Or.inr hpred)
    · simp [hcalled, hle]
  have hcard := (Finset.card_le_card hsub).trans (List.toFinset_card_le _)
  have hread := h.read_le
  have htimer := h.timer_le
  simp only [Nat.card_Ico, List.length_append, List.length_map, length_addresses] at hcard
  exact Nat.le_trans hcard (by omega)

end Steps

/-- The invariant of a ring whose process runs. -/
def Ok (ring : Ring) : Prop :=
  match ring.process with
  | .running node _ => Queued node ring.head ring.tail ring.called
  | .terminated _ => True

theorem Step.ok {ring ring' : Ring} {event : Ring.Event} (h : ring.Ok)
    (hstep : Step ring event ring') : ring'.Ok := by
  cases hstep with
  | submit =>
    exact ⟨Nat.le_trans h.head_le h.tail_le, Nat.le_refl _, h.read_le, h.timer_le, h.entry⟩
  | @take process called head head' tail hle hle' =>
    cases process with
    | running node consumed =>
      exact ⟨hle', h.tail_le, h.read_le, h.timer_le,
        fun ptr hptr hlt => h.entry ptr (Nat.le_trans hle hptr) hlt⟩
    | terminated fault => exact trivial
  | @complete node consumed called head tail request res bytes addr process hhead hloop =>
    obtain ⟨mid, hnext, hreorder⟩ := hloop
    cases hnext with
    | complete _ _ _ hrequest =>
      cases hprocess : (node.take request).processCqe
          (request.1, completed request.2 bytes addr) res with
      | error fault =>
        rw [hprocess] at hreorder
        cases hreorder
        exact trivial
      | ok node1 =>
        rw [hprocess] at hreorder
        cases hreorder
        exact (Queued.complete h hrequest hhead bytes addr res hprocess).topics _
  | @call node consumed called head tail c process hloop =>
    obtain ⟨mid, hnext, hreorder⟩ := hloop
    cases hnext with
    | call hcall =>
      cases hreorder
      exact (Queued.call h hcall).topics _
    | throw =>
      cases hreorder
      show Queued _ head tail (called ++ List.range' node.nextInfo (node.nextInfo - node.nextInfo))
      rw [Nat.sub_self, List.range'_zero, List.append_nil]
      exact Queued.topics h _
    | crash =>
      cases hreorder
      exact trivial

theorem Ok.occupied_bound {ring : Ring} (h : ring.Ok) :
    ring.occupied ≤ 3 + ring.queuedCalls.length := by
  obtain ⟨process, head, tail, called⟩ := ring
  cases process with
  | running node consumed => exact Queued.length_le h
  | terminated fault => exact Nat.zero_le _

theorem ok_init {heap : Heap} {m : TopicManager} {node : Node}
    (h : ({ construct heap with topicManager := m }).init = .ok node) :
    (⟨.running node [], 0, 0, []⟩ : Ring).Ok := by
  obtain ⟨-, hread, htimer, -⟩ := init_ok h
  obtain ⟨node1, htick, hnode⟩ := Result.bind_eq_ok.mp h
  cases hnode
  have hhandle : { construct heap with topicManager := m }.handleEvent timerInfo = .ok node1 :=
    htick
  obtain ⟨-, -, hnew⟩ := handleEvent_own hhandle
  refine ⟨Nat.le_refl _, Nat.zero_le _, Nat.le_of_eq hread, Nat.le_of_eq htimer,
    fun ptr _ hlt => Or.inl ?_⟩
  rcases Nat.lt_or_ge ptr node1.nextInfo with hold | hlate
  · exact (hnew ptr (Nat.zero_le _) hold).mono fun type p _ hmem => mem_addresses_submit _ hmem
  · obtain rfl : ptr = node1.nextInfo := Nat.le_antisymm (Nat.le_of_lt_succ hlt) hlate
    exact Or.inl (nextInfo_mem_addresses node1 receiveInfo)

/-- **The submission queue does not overflow.**  In every run from `init`, with the completions in
any order and with any results, and however late the kernel takes the entries, there are three
entries in the queue besides those of the application.  So every submission finds an entry as long
as the application has made no more than 1021 of them. -/
theorem occupied_le {heap : Heap} {m : TopicManager} {node : Node}
    (hinit : ({ construct heap with topicManager := m }).init = .ok node)
    {trace : List (Ring × Ring.Event)} {ring : Ring}
    (r : Run Step ⟨.running node [], 0, 0, []⟩ trace ring) :
    ring.occupied ≤ 3 + ring.queuedCalls.length ∧
    (ring.queuedCalls.length ≤ 1021 → ring.occupied ≤ queueDepth) := by
  have hok : ring.Ok := r.invariant (fun _ _ _ h hstep => hstep.ok h) (ok_init hinit)
  refine ⟨hok.occupied_bound, fun hcalls => ?_⟩
  have hle := hok.occupied_bound
  have hdepth : queueDepth = 1024 := rfl
  omega

/-- A node that publishes `"a"`. -/
def announcing : Node :=
  { construct ⟨fun _ => Topic.ofName [97], 1⟩ with
    topicManager := ((TopicManager.init ⟨fun _ => Topic.ofName [97], 1⟩).createPublishTopic [97]
      (some 0)).2 }

/-- It has returned from `init`. -/
def announced : Node := (announcing.multiacast [0, 1, 97]).setTimer.submitReceiveRequest

/-- The kernel takes its entries; then the timer expires, and the application subscribes: the queue
holds an announcement, a timer and a subscription. -/
theorem occupied_le_two : ∃ trace ring, Run Step ⟨.running announced [], 0, 0, []⟩ trace ring ∧
    ring.occupied = 3 ∧ ring.queuedCalls = [5] ∧ ring.occupied ≤ queueDepth := by
  have hinit : announcing.init = .ok announced := rfl
  have hsubmit : Step ⟨.running announced [], 0, 0, []⟩ .submit ⟨.running announced [], 0, 3, []⟩ :=
    .submit
  have htake : Step ⟨.running announced [], 0, 3, []⟩ (.take 3) ⟨.running announced [], 3, 3, []⟩ :=
    .take (Nat.zero_le 3) (Nat.le_refl 3)
  have htimer : (1, timerInfo) ∈ announced.requests :=
    List.mem_cons_of_mem _ List.mem_cons_self
  have htick : Step ⟨.running announced [], 3, 3, []⟩
      (.loop (.complete (1, timerInfo) (-62) [] ⟨(0, 0, 0, 0), (0, 0)⟩)) _ :=
    .complete (by decide) ⟨_, .complete (-62) [] ⟨(0, 0, 0, 0), (0, 0)⟩ htimer,
      Process.Reorder.refl (.running { ((announced.take (1, timerInfo)).multiacast
        [0, 1, 97]).setTimer with deleted := [1] } [1])⟩
  have hcall : Step ⟨.running { ((announced.take (1, timerInfo)).multiacast [0, 1, 97]).setTimer
      with deleted := [1] } [1], 3, 3, []⟩ (.loop (.call (.subscribe [97]))) _ :=
    .call ⟨.running ({ ((announced.take (1, timerInfo)).multiacast [0, 1, 97]).setTimer with
      deleted := [1] }.multiacast [2, 1, 97]) [1], .call rfl, Process.Reorder.refl _⟩
  have r := (((Run.single hsubmit).snoc htake).snoc htick).snoc hcall
  exact ⟨_, _, r, rfl, by decide, (occupied_le hinit r).2 (by decide)⟩

/-! ### A queue that is full -/

/-- What a submission throws if it gets no entry. -/
def noEntry : Fault := .runtimeError "Failed to get SQE"

/-- A step of the queue that `init` has made.  Where there are not as many entries left as an event
needs, a submission throws; the loop does not catch it, and in a call the ring has been closed. -/
inductive QueueStep : Ring → Ring.Event → Ring → Prop
  | fits {ring ring' : Ring} {event : Ring.Event} : Step ring event ring' →
      ring'.occupied ≤ queueDepth → QueueStep ring event ring'
  | full {ring ring' : Ring} {event : Ring.Event} : Step ring event ring' →
      queueDepth < ring'.occupied →
      QueueStep ring event { ring' with process := .terminated noEntry }

/-- Every submission has got its entry. -/
def Granted (ring : Ring) : Prop := ring.process ≠ .terminated noEntry

/-- What the loop notices of an event. -/
def noticed : Ring.Event → Option Node.Event
  | .submit | .take _ => none
  | .loop event => some event

variable {ring ring' : Ring} {event : Ring.Event}

/-- **A step of the queue is one of the loop**, or the loop does not notice it. -/
theorem Step.loop (h : Step ring event ring') :
    (noticed event = none ∧ ring'.process = ring.process) ∨
      ∃ e, noticed event = some e ∧ LoopStep ring.process e ring'.process := by
  cases h with
  | submit | take _ _ => exact Or.inl ⟨rfl, rfl⟩
  | complete _ hloop | call hloop => exact Or.inr ⟨_, rfl, hloop⟩

theorem QueueStep.granted (h : QueueStep ring event ring') (hgranted : ring'.Granted) :
    ring.Granted ∧ Step ring event ring' := by
  cases h with
  | full _ _ => exact absurd rfl hgranted
  | fits hstep _ =>
    refine ⟨fun hended => ?_, hstep⟩
    rcases hstep.loop with ⟨-, hsame⟩ | ⟨e, -, mid, hnext, -⟩
    · exact hgranted (hsame.trans hended)
    · rw [hended] at hnext
      cases hnext

/-- **A run of the queue is one of the loop**, if every submission gets its entry. -/
theorem loopRun {trace : List (Ring × Ring.Event)} (r : Run QueueStep ring trace ring')
    (hgranted : ring'.Granted) : ∃ trace', Run LoopStep ring.process trace' ring'.process :=
  ⟨_, r.project (fun _ _ _ h hm => (h.granted hm).1) (fun _ _ _ h hm => (h.granted hm).2.loop)
    hgranted⟩

theorem length_made_le {node : Node} {consumed : List InfoPtr} {c : Call} {process : Process}
    (h : LoopStep (.running node consumed) (.call c) process) : (made node process).length ≤ 1 := by
  have hnone : node.nextInfo - node.nextInfo ≤ 1 := by rw [Nat.sub_self]; exact Nat.zero_le 1
  obtain ⟨mid, hnext, hreorder⟩ := h
  cases hreorder with
  | terminated => exact Nat.zero_le 1
  | @running node' m consumed' hm =>
    rw [made, List.length_range']
    generalize hmid : Process.running node' consumed' = mid at hnext
    cases hnext with
    | call hcall =>
      cases hmid
      rcases call_ok hcall with ⟨m, rfl⟩ | ⟨bytes, rfl⟩
      · exact hnone
      · exact Nat.le_of_eq (Nat.add_sub_cancel_left _ 1)
    | throw =>
      cases hmid
      exact hnone
    | crash => cases hmid

theorem Step.queuedCalls_le (h : Step ring event ring') :
    ring'.queuedCalls.length ≤ ring.queuedCalls.length + 1 := by
  cases h with
  | submit | complete _ _ => exact Nat.le_succ _
  | @take process called head head' tail hle hle' =>
    refine Nat.le_succ_of_le ?_
    rw [queuedCalls, queuedCalls, ← List.countP_eq_length_filter, ← List.countP_eq_length_filter]
    exact List.countP_mono_left fun ptr _ hptr => by
      rw [decide_eq_true_eq] at hptr ⊢
      exact Nat.le_trans hle hptr
  | @call node consumed called head tail c process hloop =>
    have hsplit : (⟨process, head, tail, called ++ made node process⟩ : Ring).queuedCalls
        = called.filter (fun ptr => decide (head ≤ ptr))
          ++ (made node process).filter (fun ptr => decide (head ≤ ptr)) := List.filter_append ..
    rw [hsplit, List.length_append]
    exact Nat.add_le_add_left
      (Nat.le_trans (List.length_filter_le ..) (length_made_le hloop)) _

/-- **A queue is full only of the entries of the application.** -/
theorem Step.queuedCalls_of_full (h : Step ring event ring') (hok : ring.Ok)
    (hfull : queueDepth < ring'.occupied) : 1021 ≤ ring.queuedCalls.length := by
  have hcalls := (h.ok hok).occupied_bound
  have hone := h.queuedCalls_le
  have hdepth : queueDepth = 1024 := rfl
  omega

theorem QueueStep.ok (hok : ring.Ok) (h : QueueStep ring event ring') : ring'.Ok := by
  cases h with
  | fits hstep _ => exact hstep.ok hok
  | full _ _ => exact trivial

end Ring

end Mydds
