import Mydds.Topic

/-!
# Packets

`include/packet.h`: a packet is a type byte and a payload, a sequence of items that
each carry their own length.  `pack` may throw, and so may `unpack`; the `unpack` of an
item returns the count of bytes it consumed and the object it filled in.

The three payload classes run the same two loops over items of different types,
`packLoop` and `unpackLoop`, and the name and the data of a topic are the same field
under two names, `packField` and `unpackField`.

`DDSPacket.unpack` writes the header before it reads the payload, so it returns the
object it leaves next to how the call ended.
-/

namespace Mydds

inductive CommunicationType where
  | discover
  | publish
  | subscribe
  deriving DecidableEq, Repr

namespace CommunicationType

def toByte : CommunicationType → UInt8
  | discover => 0
  | publish => 1
  | subscribe => 2

/-- `static_cast<CommunicationType>`, `none` for a value that no case of a `switch`
names. -/
def ofByte (type : UInt8) : Option CommunicationType :=
  if type = 0 then some discover
  else if type = 1 then some publish
  else if type = 2 then some subscribe
  else none

@[simp] theorem ofByte_toByte (kind : CommunicationType) : ofByte kind.toByte = some kind := by
  cases kind <;> rfl

end CommunicationType

/-! ### Header -/

structure DDSHeader where
  type : UInt8
  deriving DecidableEq, Repr

namespace DDSHeader

def pack (header : DDSHeader) : Bytes := [header.type]

def unpack : Range → Result (UInt32 × DDSHeader)
  | [] => .error (.invalidArgument "DDSHeader: insufficient bytes for unpacking.")
  | type :: _ => .ok (1, ⟨type⟩)

end DDSHeader

/-! ### Items -/

/-- `Pack` of a length and a string. -/
def packField (length : UInt32) (text : Bytes) : Result Bytes := do
  let ret ← Util.packLength length
  .ok (ret ++ text)

/-- `Unpack` of a length and a string, in the class `who`. -/
def unpackField (who : String) (range : Range) : Result (UInt32 × UInt32 × Bytes) :=
  if range = [] then
    .error (.invalidArgument (who ++ ": insufficient bytes for unpacking."))
  else do
    let (processedLen, length) ← Util.unpackLength range
    -- the sum of an unsigned and a signed 32-bit number is unsigned, and is compared as 64 bits
    if (range.length : Int) < (processedLen + length).toNat then
      .error (.invalidArgument (who ++ ": unpack length exceeds byte size."))
    else
      let text ← slice range processedLen.toNat length.toNat
      .ok (processedLen + length, length, text)

structure TopicName where
  length : UInt32
  name : Bytes
  deriving DecidableEq, Repr

namespace TopicName

def pack (topicName : TopicName) : Result Bytes := packField topicName.length topicName.name

def unpack (range : Range) : Result (UInt32 × TopicName) := do
  let (processed, length, name) ← unpackField "TopicName" range
  .ok (processed, ⟨length, name⟩)

end TopicName

structure TopicData where
  length : UInt32
  data : Bytes
  deriving DecidableEq, Repr

namespace TopicData

def pack (topicData : TopicData) : Result Bytes := packField topicData.length topicData.data

def unpack (range : Range) : Result (UInt32 × TopicData) := do
  let (processed, length, data) ← unpackField "TopicData" range
  .ok (processed, ⟨length, data⟩)

end TopicData

structure TopicPacket where
  name : TopicName
  data : TopicData
  deriving DecidableEq, Repr

namespace TopicPacket

def pack (topicPacket : TopicPacket) : Result Bytes := do
  let ret ← topicPacket.name.pack
  let dataBytes ← topicPacket.data.pack
  .ok (ret ++ dataBytes)

def unpack (range : Range) : Result (UInt32 × TopicPacket) := do
  let (namelen, name) ← TopicName.unpack range
  let rest ← advance range namelen.toNat
  let (datalen, data) ← TopicData.unpack rest
  .ok (namelen + datalen, ⟨name, data⟩)

end TopicPacket

/-! ### Payloads -/

section Loops

variable {ι : Type}

/-- The `for` loop of `Pack` over the items that are left. -/
def packLoop (pack : ι → Result Bytes) : List ι → Bytes → Result Bytes
  | [], ret => .ok ret
  | item :: items, ret => do
    let packed ← pack item
    packLoop pack items (ret ++ packed)

/-- The loop `while (begin != end)` of `Unpack`, for at most `fuel` rounds. -/
def unpackLoop (unpack : Range → Result (UInt32 × ι)) :
    Nat → Range → List ι → UInt32 → Result (UInt32 × List ι)
  | _, [], data, totalProcessed => .ok (totalProcessed, data)
  | 0, _ :: _, _, _ => .error .diverges
  | fuel + 1, b :: bs, data, totalProcessed => do
    let (processed, item) ← unpack (b :: bs)
    let begin' ← advance (b :: bs) processed.toNat
    unpackLoop unpack fuel begin' (data ++ [item]) (totalProcessed + processed)

end Loops

structure PublishData where
  data : List TopicPacket
  deriving DecidableEq, Repr

namespace PublishData

def pack (publishData : PublishData) : Result Bytes := packLoop TopicPacket.pack publishData.data []

def unpack (publishData : PublishData) (range : Range) : Result (UInt32 × PublishData) := do
  let (total, data) ← unpackLoop TopicPacket.unpack range.length range publishData.data 0
  .ok (total, ⟨data⟩)

end PublishData

structure SubscribeData where
  data : List TopicName
  deriving DecidableEq, Repr

namespace SubscribeData

def pack (subscribeData : SubscribeData) : Result Bytes :=
  packLoop TopicName.pack subscribeData.data []

def unpack (subscribeData : SubscribeData) (range : Range) : Result (UInt32 × SubscribeData) := do
  let (total, data) ← unpackLoop TopicName.unpack range.length range subscribeData.data 0
  .ok (total, ⟨data⟩)

end SubscribeData

structure DiscoverData where
  data : List TopicName
  deriving DecidableEq, Repr

namespace DiscoverData

def pack (discoverData : DiscoverData) : Result Bytes :=
  packLoop TopicName.pack discoverData.data []

def unpack (discoverData : DiscoverData) (range : Range) : Result (UInt32 × DiscoverData) := do
  let (total, data) ← unpackLoop TopicName.unpack range.length range discoverData.data 0
  .ok (total, ⟨data⟩)

end DiscoverData

/-- `std::variant<DiscoverData, PublishData, SubscribeData>` -/
inductive DDSData where
  | discoverData (data : DiscoverData)
  | publishData (data : PublishData)
  | subscribeData (data : SubscribeData)
  deriving DecidableEq, Repr

/-! ### Packets -/

structure DDSPacket where
  header : DDSHeader
  ddsData : DDSData
  deriving DecidableEq, Repr

namespace DDSPacket

/-- `DDSPacket packet;`, with `type` for the indeterminate byte of the header. -/
def fresh (type : UInt8) : DDSPacket := ⟨⟨type⟩, .discoverData ⟨[]⟩⟩

def pack (packet : DDSPacket) : Result Bytes := do
  let payload ← match packet.ddsData with
    | .discoverData data => data.pack
    | .publishData data => data.pack
    | .subscribeData data => data.pack
  .ok (packet.header.pack ++ payload)

/-- `DDSData = data;` when the payload could be read. -/
def assign {δ : Type} (packet : DDSPacket) (range : Range) (unpacked : Result (UInt32 × δ))
    (alternative : δ → DDSData) : Result UInt32 × DDSPacket :=
  match unpacked with
  | .error fault => (.error fault, packet)
  | .ok (_, data) => (.ok (UInt32.ofNat range.length), { packet with ddsData := alternative data })

/-- How the call ends, and the packet it leaves. -/
def unpack (packet : DDSPacket) (range : Range) : Result UInt32 × DDSPacket :=
  match DDSHeader.unpack range with
  | .error fault => (.error fault, packet)
  | .ok (headerLen, header) =>
    let packet := { packet with header }
    match advance range headerLen.toNat with
    | .error fault => (.error fault, packet)
    | .ok payload =>
      match CommunicationType.ofByte header.type with
      | some .discover => packet.assign range (DiscoverData.unpack ⟨[]⟩ payload) .discoverData
      | some .publish => packet.assign range (PublishData.unpack ⟨[]⟩ payload) .publishData
      | some .subscribe => packet.assign range (SubscribeData.unpack ⟨[]⟩ payload) .subscribeData
      | none =>
        -- only logged: the first ten bytes, whether or not there are as many
        match slice range 0 10 with
        | .error fault => (.error fault, packet)
        | .ok _ => (.ok (UInt32.ofNat range.length), packet)

/-- The loop of `create_publish_packet` over the topics that are left. -/
def publishItems (heap : Heap) : List (Option TopicPtr) → List TopicPacket →
    Result (List TopicPacket)
  | [], data => .ok data
  | topicPtr :: topics, data => do
    let topic ← heap.deref topicPtr
    let text ← topic.getData 0
    publishItems heap topics (data ++
      [⟨⟨UInt32.ofNat topic.getName.length, topic.getName⟩, ⟨UInt32.ofNat text.length, text⟩⟩])

def createPublishPacket (heap : Heap) (topics : List (Option TopicPtr)) : Result Bytes := do
  let data ← publishItems heap topics []
  pack ⟨⟨CommunicationType.publish.toByte⟩, .publishData ⟨data⟩⟩

/-- The loop of `create_subscribe_packet` and of `create_discover_packet` over the topics
that are left. -/
def nameItems (heap : Heap) : List (Option TopicPtr) → List TopicName → Result (List TopicName)
  | [], data => .ok data
  | topicPtr :: topics, data => do
    let topic ← heap.deref topicPtr
    nameItems heap topics (data ++ [⟨UInt32.ofNat topic.getName.length, topic.getName⟩])

def createSubscribePacket (heap : Heap) (topics : List (Option TopicPtr)) : Result Bytes := do
  let data ← nameItems heap topics []
  pack ⟨⟨CommunicationType.subscribe.toByte⟩, .subscribeData ⟨data⟩⟩

def createDiscoverPacket (heap : Heap) (topics : List (Option TopicPtr)) : Result Bytes := do
  let data ← nameItems heap topics []
  pack ⟨⟨CommunicationType.discover.toByte⟩, .discoverData ⟨data⟩⟩

end DDSPacket

end Mydds
