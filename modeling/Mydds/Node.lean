import Mydds.TopicManager
import Mydds.Packet

/-!
# The class `Node`

`include/node.h` and `include/ioinfo.h`: the handlers of a node, and the requests it submits
to its `io_uring`.

A submission takes an `IoInfo` from `new` and hands its address to the ring as
`user_data`; the request is then in `requests` until it completes.  Addresses count up from
`nextInfo`, so two objects never share one, and `deleted` lists those that went through
`delete`.  Here every submission gets its entry from `io_uring_get_sqe`; the queue itself, and what
is thrown where it is full, is that of `Node.Ring`.  `inet_pton` accepts the multicast group, and a
submission returns 0, which no caller reads.
-/

namespace Mydds

inductive EventType where
  | multicast
  | unicast
  | read
  | timer
  deriving DecidableEq, Repr

/-- The address of an `IoInfo`. -/
abbrev InfoPtr := Nat

structure IoInfo where
  type : EventType
  destAddr : Option SockaddrIn
  bytes : Bytes
  recvBuffer : Bytes
  deriving DecidableEq, Repr

def IoInfo.bufferSize : Nat := 2048

structure Node where
  topicManager : TopicManager
  requests : List (InfoPtr × IoInfo)
  nextInfo : InfoPtr
  deleted : List InfoPtr

/-! ### `std::get` -/

namespace DDSData

def getDiscoverData : DDSData → Result DiscoverData
  | discoverData data => .ok data
  | _ => .error .badVariantAccess

def getPublishData : DDSData → Result PublishData
  | publishData data => .ok data
  | _ => .error .badVariantAccess

def getSubscribeData : DDSData → Result SubscribeData
  | subscribeData data => .ok data
  | _ => .error .badVariantAccess

end DDSData

namespace Node

/-- The constructor, in a process with these `Topic` objects. -/
def construct (heap : Heap) : Node := ⟨TopicManager.init heap, [], 0, []⟩

/-! ### Submissions -/

/-- `new IoInfo`, and a request with it as its `user_data`. -/
def submit (node : Node) (info : IoInfo) : Node :=
  { node with
    requests := node.requests ++ [(node.nextInfo, info)]
    nextInfo := node.nextInfo + 1 }

/-- The `IoInfo` of a receive request: a zeroed buffer, and an address to be filled in. -/
def receiveInfo : IoInfo :=
  ⟨.read, some ⟨(0, 0, 0, 0), (0, 0)⟩, [], List.replicate IoInfo.bufferSize 0⟩

def submitReceiveRequest (node : Node) : Node := node.submit receiveInfo

def timerInfo : IoInfo := ⟨.timer, none, [], []⟩

def setTimer (node : Node) : Node := node.submit timerInfo

/-- A message to port 5007 of the group 224.1.1.1. -/
def multicastInfo (bytes : Bytes) : IoInfo :=
  ⟨.multicast, some ⟨(224, 1, 1, 1), (19, 143)⟩, bytes, []⟩

def multiacast (node : Node) (bytes : Bytes) : Node := node.submit (multicastInfo bytes)

/-! ### What the application calls -/

def createTopic (node : Node) (topicName : Bytes) (topic : Option TopicPtr) : Bool × Node :=
  let (ret, topicManager) := node.topicManager.createTopic topicName topic
  (ret, { node with topicManager })

def createPublishTopic (node : Node) (topicName : Bytes) (topic : Option TopicPtr) : Bool × Node :=
  let (ret, topicManager) := node.topicManager.createPublishTopic topicName topic
  (ret, { node with topicManager })

def publish (node : Node) (topicName : Bytes) (topic : Option TopicPtr) : Result (Bool × Node) :=
  let ret := node.topicManager.getTopics topicName
  if ret.length ≠ 1 then .ok (false, node)
  else do
    -- the vector is a copy, and nothing reads it after this
    let _ret := (ret.map some).set 0 topic
    let data ← DDSPacket.createPublishPacket node.topicManager.heap [topic]
    .ok (true, node.multiacast data)

def subscribe (node : Node) (topicName : Bytes) : Result (Bool × Node) :=
  let topics := node.topicManager.getTopics topicName
  if topics.length = 0 then .ok (false, node)
  else do
    let subscribedata ← DDSPacket.createSubscribePacket node.topicManager.heap (topics.map some)
    .ok (true, node.multiacast subscribedata)

def discovery (node : Node) : Result (Bool × Node) :=
  let topics := node.topicManager.getAllPublishTopics
  if topics.length = 0 then .ok (false, node)
  else do
    let data ← DDSPacket.createDiscoverPacket node.topicManager.heap topics
    .ok (true, node.multiacast data)

def tick (node : Node) : Result Node := do
  let (_, node) ← node.discovery
  .ok node.setTimer

/-- From `tick` on: the ring and the socket have been set up. -/
def init (node : Node) : Result Node := do
  let node ← node.tick
  .ok node.submitReceiveRequest

/-! ### `handler_read` -/

/-- `*info->dest_addr`, as text and number. -/
def senderOf (info : IoInfo) : Result (Bytes × Int) :=
  match info.destAddr with
  | none => .error .nullDereference
  | some addr => Util.sockaddrToIpPort addr

/-- The `Discover` branch, for one item. -/
def discoverItem (info : IoInfo) (m : TopicManager) (topicname : TopicName) :
    Result TopicManager := do
  let (topicPtr, heap) := m.heap.makeShared (Topic.ofName topicname.name)
  let (ip, port) ← senderOf info
  let heap := heap.modify topicPtr (·.pushPublisherinfo ⟨ip, port⟩)
  .ok ({ m with heap }.createTopic topicname.name (some topicPtr)).2

/-- The `Publish` branch, for one item. -/
def publishItem (m : TopicManager) (topicpacket : TopicPacket) : TopicManager :=
  let topics := m.getTopics topicpacket.name.name
  if topics.length = 0 then m
  else
    let heap := topics.foldl
      (fun heap topic => heap.modify topic (·.setData 0 topicpacket.data.data)) m.heap
    { m with heap }

/-- The `Subscribe` branch, for one item. -/
def subscribeItem (info : IoInfo) (m : TopicManager) (topicpacket : TopicName) :
    Result TopicManager :=
  let topics := m.getTopics topicpacket.name
  if topics.length = 0 then .ok m
  else do
    let heap ← topics.foldlM (fun heap topic => do
      let (ip, port) ← senderOf info
      .ok (heap.modify topic (·.pushSubscriberinfo ⟨ip, port⟩))) m.heap
    .ok { m with heap }

/-- The `switch` of `handler_read`, for a packet that has been decoded. -/
def handlePacket (info : IoInfo) (packet : DDSPacket) (m : TopicManager) : Result TopicManager :=
  match CommunicationType.ofByte packet.header.type with
  | some .discover => do
    let discoverData ← packet.ddsData.getDiscoverData
    discoverData.data.foldlM (discoverItem info) m
  | some .publish => do
    let publishData ← packet.ddsData.getPublishData
    .ok (publishData.data.foldl publishItem m)
  | some .subscribe => do
    let subscribeData ← packet.ddsData.getSubscribeData
    subscribeData.data.foldlM (subscribeItem info) m
  | none => .ok m

/-- The header of a new packet is not initialised; decoding writes it or throws. -/
def handlerRead (node : Node) (info : IoInfo) : Result Node :=
  match (DDSPacket.fresh 0).unpack info.recvBuffer with
  | (.error fault, _) => .error fault
  | (.ok _, packet) => do
    let topicManager ← handlePacket info packet node.topicManager
    .ok { node with topicManager }.submitReceiveRequest

end Node

end Mydds
