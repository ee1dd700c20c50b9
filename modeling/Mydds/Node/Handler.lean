import Mydds.Node
import Mydds.Packet.Grammar

/-!
# What `handler_read` does

Behind the decoder nothing can throw: the alternative in the packet is the one that its type
byte names, the address of the sender can be printed, and no stored topic is null.
`handlerRead_payload` is the effect on a buffer in the grammar: the items are handled in
order, each as a function of the state (`announce`, `publishItem`, `subscribeFrom`), and one
receive request is submitted.

The decoder does throw, on every other buffer of a known kind.  `Readable` is the condition
that it does not, and `receives_iff` says that the node goes on receiving exactly as long
as every buffer is readable.
-/

namespace Mydds

/-- The sender as it is printed. -/
def peer (addr : SockaddrIn) : Bytes × Int := (dotted addr.sinAddr, ntohs addr.sinPort)

def publisherAt (addr : SockaddrIn) : PublisherInfo := ⟨(peer addr).1, (peer addr).2⟩

def subscriberAt (addr : SockaddrIn) : SubscriberInfo := ⟨(peer addr).1, (peer addr).2⟩

namespace Node

variable {info : IoInfo} {addr : SockaddrIn}

theorem senderOf_eq (h : info.destAddr = some addr) : senderOf info = .ok (peer addr) := by
  rw [senderOf, h]
  exact Util.sockaddrToIpPort_eq addr

/-! ### Items -/

/-- The heap with the topic that an announcement makes. -/
def announceHeap (addr : SockaddrIn) (heap : Heap) (name : Bytes) : Heap :=
  (heap.makeShared (Topic.ofName name)).2.modify heap.next (·.pushPublisherinfo (publisherAt addr))

/-- An item of a `Discover` packet from `addr`. -/
def announce (addr : SockaddrIn) (m : TopicManager) (topicname : TopicName) : TopicManager :=
  ({ m with heap := announceHeap addr m.heap topicname.name }.createTopic topicname.name
    (some m.heap.next)).2

/-- An item of a `Subscribe` packet from `addr`. -/
def subscribeFrom (addr : SockaddrIn) (m : TopicManager) (topicpacket : TopicName) : TopicManager :=
  let heap := (m.getTopics topicpacket.name).foldl (fun heap topic =>
    heap.modify topic (·.pushSubscriberinfo (subscriberAt addr))) m.heap
  { m with heap }

theorem discoverItem_eq (h : info.destAddr = some addr) (m : TopicManager) (item : TopicName) :
    discoverItem info m item = .ok (announce addr m item) := by
  rw [discoverItem, senderOf_eq h]
  rfl

theorem subscribeItem_eq (h : info.destAddr = some addr) (m : TopicManager) (item : TopicName) :
    subscribeItem info m item = .ok (subscribeFrom addr m item) := by
  rw [subscribeItem]
  split
  · rename_i hnil
    rw [subscribeFrom, List.eq_nil_of_length_eq_zero hnil]
    rfl
  · rw [senderOf_eq h]
    exact Result.bind_eq_ok.mpr ⟨_, List.foldlM_pure (f := fun (heap : Heap) topic =>
      heap.modify topic (·.pushSubscriberinfo (subscriberAt addr))), rfl⟩

/-! ### Packets -/

/-- The items of a payload, one after the other. -/
def deliver (kind : CommunicationType) (addr : SockaddrIn) (frames : List Frame)
    (m : TopicManager) : TopicManager :=
  match kind with
  | .discover => (frames.map Frame.topicName).foldl (announce addr) m
  | .publish => ((pairUp frames).map pairPacket).foldl publishItem m
  | .subscribe => (frames.map Frame.topicName).foldl (subscribeFrom addr) m

theorem handlePacket_discover (h : info.destAddr = some addr) (items : List TopicName)
    (m : TopicManager) :
    handlePacket info ⟨⟨CommunicationType.discover.toByte⟩, .discoverData ⟨items⟩⟩ m
      = .ok (items.foldl (announce addr) m) := by
  have hitem : discoverItem info = fun m item => pure (announce addr m item) :=
    funext fun m => funext fun item => discoverItem_eq h m item
  show items.foldlM (discoverItem info) m = _
  rw [hitem, List.foldlM_pure]
  rfl

theorem handlePacket_subscribe (h : info.destAddr = some addr) (items : List TopicName)
    (m : TopicManager) :
    handlePacket info ⟨⟨CommunicationType.subscribe.toByte⟩, .subscribeData ⟨items⟩⟩ m
      = .ok (items.foldl (subscribeFrom addr) m) := by
  have hitem : subscribeItem info = fun m item => pure (subscribeFrom addr m item) :=
    funext fun m => funext fun item => subscribeItem_eq h m item
  show items.foldlM (subscribeItem info) m = _
  rw [hitem, List.foldlM_pure]
  rfl

theorem handlePacket_eq (h : info.destAddr = some addr) (kind : CommunicationType)
    (frames : List Frame) (m : TopicManager) :
    handlePacket info ⟨⟨kind.toByte⟩, payloadOf kind frames⟩ m
      = .ok (deliver kind addr frames m) := by
  cases kind with
  | discover => exact handlePacket_discover h _ m
  | publish => rfl
  | subscribe => exact handlePacket_subscribe h _ m

/-- **A buffer in the grammar**: its items are handled, and a receive request is submitted. -/
theorem handlerRead_payload (kind : CommunicationType) (h : info.destAddr = some addr)
    {rest : Bytes} (hbuffer : info.recvBuffer = kind.toByte :: rest) {frames : List Frame}
    (hrest : IsPayload kind rest frames) (node : Node) :
    node.handlerRead info = .ok { node with
      topicManager := deliver kind addr frames node.topicManager }.submitReceiveRequest := by
  rw [handlerRead, hbuffer, DDSPacket.unpack_payload _ hrest]
  show (handlePacket info ⟨⟨kind.toByte⟩, payloadOf kind frames⟩ node.topicManager >>= _) = _
  rw [handlePacket_eq h]
  rfl

/-- A type byte that names no kind is only logged, when there are ten bytes to log. -/
theorem handlerRead_unknown (info : IoInfo) {type : UInt8} {rest : Bytes}
    (hbuffer : info.recvBuffer = type :: rest) (hlong : 10 ≤ info.recvBuffer.length)
    (htype : CommunicationType.ofByte type = none) (node : Node) :
    node.handlerRead info = .ok node.submitReceiveRequest := by
  rw [hbuffer] at hlong
  rw [handlerRead, hbuffer, DDSPacket.unpack_cons, htype, slice_zero, if_pos hlong]
  show (handlePacket info ⟨⟨type⟩, _⟩ node.topicManager >>= _) = _
  rw [handlePacket, htype]
  rfl

theorem handlerRead_reject (info : IoInfo) (kind : CommunicationType) {rest : Bytes}
    (hbuffer : info.recvBuffer = kind.toByte :: rest)
    (hrest : ∀ frames, ¬ IsPayload kind rest frames) (node : Node) :
    ∃ what, node.handlerRead info = .error (.invalidArgument what) := by
  obtain ⟨what, hwhat⟩ := (DDSPacket.fresh 0).unpack_reject hrest
  exact ⟨what, by rw [handlerRead, hbuffer, hwhat]⟩

end Node

/-! ### Datagrams -/

/-- What a receive request has been filled in with. -/
structure Datagram where
  buffer : Bytes
  addr : SockaddrIn
  length_eq : buffer.length = IoInfo.bufferSize

def Datagram.info (d : Datagram) : IoInfo := ⟨.read, some d.addr, [], d.buffer⟩

/-- If the first byte is that of a kind, the others are in its grammar. -/
def Datagram.Readable (d : Datagram) : Prop :=
  ∀ kind rest, d.buffer = CommunicationType.toByte kind :: rest →
    ∃ frames, IsPayload kind rest frames

namespace Node

/-- **The handler returns iff the buffer is readable**, and then it has submitted one receive
request. -/
theorem handlerRead_iff (node : Node) (d : Datagram) :
    (d.Readable → ∃ m,
      node.handlerRead d.info = .ok { node with topicManager := m }.submitReceiveRequest)
    ∧ (¬ d.Readable → ∃ what, node.handlerRead d.info = .error (.invalidArgument what)) := by
  obtain ⟨type, rest, hbuffer⟩ : ∃ type rest, d.buffer = type :: rest :=
    List.exists_cons_of_length_pos (by rw [d.length_eq]; decide)
  constructor
  · intro hread
    cases htype : CommunicationType.ofByte type with
    | none =>
      exact ⟨node.topicManager, handlerRead_unknown d.info hbuffer
        (by rw [show d.info.recvBuffer = d.buffer from rfl, d.length_eq]; decide) htype node⟩
    | some kind =>
      obtain rfl := CommunicationType.toByte_of_ofByte htype
      obtain ⟨frames, hframes⟩ := hread kind rest hbuffer
      have haddr : d.info.destAddr = some d.addr := rfl
      exact ⟨_, handlerRead_payload kind haddr hbuffer hframes node⟩
  · intro hread
    simp only [Datagram.Readable, not_forall] at hread
    obtain ⟨kind, rest', hbuffer', hno⟩ := hread
    exact handlerRead_reject d.info kind hbuffer' (fun frames h => hno ⟨frames, h⟩) node

theorem readable_of_handlerRead {node node' : Node} {d : Datagram}
    (h : node.handlerRead d.info = .ok node') : d.Readable := by
  by_contra hno
  obtain ⟨what, hwhat⟩ := (node.handlerRead_iff d).2 hno
  rw [hwhat] at h
  cases h

theorem handlerRead_error (node : Node) {d : Datagram} {fault : Fault}
    (h : node.handlerRead d.info = .error fault) : ∃ what, fault = .invalidArgument what := by
  by_cases hread : d.Readable
  · obtain ⟨m, hm⟩ := (node.handlerRead_iff d).1 hread
    rw [hm] at h
    cases h
  · obtain ⟨what, hwhat⟩ := (node.handlerRead_iff d).2 hread
    rw [hwhat] at h
    exact ⟨what, (Except.error.inj h).symm⟩

/-- A datagram, and what the application has done to the topics before it arrives. -/
structure Arrival where
  application : TopicManager → TopicManager
  datagram : Datagram

/-- The node handles a sequence of datagrams. -/
def receiveAll (node : Node) (arrivals : List Arrival) : Result Node :=
  arrivals.foldlM (fun node arrival =>
    { node with topicManager := arrival.application node.topicManager }.handlerRead
      arrival.datagram.info) node

theorem receiveAll_cons (node : Node) (arrival : Arrival) (arrivals : List Arrival) :
    node.receiveAll (arrival :: arrivals)
      = { node with topicManager := arrival.application node.topicManager }.handlerRead
          arrival.datagram.info >>= fun node => node.receiveAll arrivals := rfl

/-- The node has handled the datagrams and submitted one receive request for each of them. -/
def Receives (node : Node) (arrivals : List Arrival) : Prop :=
  ∃ node' submitted, node.receiveAll arrivals = .ok node' ∧
    node'.requests = node.requests ++ submitted ∧ submitted.length = arrivals.length ∧
    ∀ request ∈ submitted, request.2 = receiveInfo

theorem receives_of_readable : ∀ {arrivals : List Arrival} (node : Node),
    (∀ arrival ∈ arrivals, arrival.datagram.Readable) → node.Receives arrivals := by
  intro arrivals
  induction arrivals with
  | nil => exact fun node _ => ⟨node, [], rfl, (List.append_nil _).symm, rfl, by simp⟩
  | cons arrival arrivals ih =>
    intro node h
    obtain ⟨m, hm⟩ := (handlerRead_iff { node with
      topicManager := arrival.application node.topicManager } arrival.datagram).1
      (h arrival List.mem_cons_self)
    obtain ⟨node', submitted, hok, hrequests, hlength, hsubmitted⟩ :=
      ih { node with topicManager := m }.submitReceiveRequest
        fun a ha => h a (List.mem_cons_of_mem _ ha)
    refine ⟨node', (node.nextInfo, receiveInfo) :: submitted, ?_, ?_, ?_, ?_⟩
    · rw [receiveAll_cons, hm]
      exact hok
    · rw [hrequests]
      exact List.append_assoc ..
    · rw [List.length_cons, hlength, List.length_cons]
    · rintro request (_ | ⟨_, hmem⟩)
      · rfl
      · exact hsubmitted request hmem

theorem readable_of_receiveAll : ∀ {arrivals : List Arrival} {node node' : Node},
    node.receiveAll arrivals = .ok node' → ∀ arrival ∈ arrivals, arrival.datagram.Readable := by
  intro arrivals
  induction arrivals with
  | nil => exact fun _ arrival h => absurd h List.not_mem_nil
  | cons arrival arrivals ih =>
    intro node node' h
    rw [receiveAll_cons, Result.bind_eq_ok] at h
    obtain ⟨node1, h1, h⟩ := h
    rintro arrival' (_ | ⟨_, hmem⟩)
    · exact readable_of_handlerRead h1
    · exact ih h arrival' hmem

/-- **A node goes on receiving iff every datagram is readable**: whatever the application
does to the topics in between, the handler returns each time and queues one receive request,
exactly if no buffer of a known kind breaks the grammar of the kind. -/
theorem receives_iff (node : Node) (arrivals : List Arrival) :
    node.Receives arrivals ↔ ∀ arrival ∈ arrivals, arrival.datagram.Readable :=
  ⟨fun ⟨_, _, hok, _⟩ => readable_of_receiveAll hok, receives_of_readable node⟩

/-- A `Discover` packet of bytes that all ask for another one. -/
theorem handlerRead_fails : ¬ ∀ (node : Node) (d : Datagram),
    ∃ node', node.handlerRead d.info = .ok node' := by
  intro h
  let d : Datagram := ⟨0 :: List.replicate 2047 255, ⟨(10, 0, 0, 1), (0, 80)⟩,
    by rw [List.length_cons, List.length_replicate]; rfl⟩
  let node := construct ⟨fun _ => Topic.ofName [], 0⟩
  have hno : ∀ frames, ¬ IsPayload .discover (List.replicate 2047 255) frames := by
    rintro frames ⟨hrest, -⟩
    cases frames with
    | nil => exact absurd (congrArg List.length hrest) (by rw [List.length_replicate]; decide)
    | cons f frames =>
      -- the last byte of the first length prefix
      obtain ⟨more, last, hprefix, -, -, hlast⟩ := f.isLengthPrefix
      have hmem : last ∈ List.replicate 2047 255 := by
        rw [hrest, List.flatMap_cons, Frame.bytes, hprefix]
        simp
      rw [List.eq_of_mem_replicate hmem] at hlast
      exact absurd hlast (by decide)
  obtain ⟨what, hwhat⟩ := handlerRead_reject d.info .discover rfl hno node
  obtain ⟨node', hok⟩ := h node d
  rw [hwhat] at hok
  cases hok

end Node

end Mydds
