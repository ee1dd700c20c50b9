import Mydds.Node.Accounts
import Mydds.Node.Agree
import Mydds.Node.Arrival
import Mydds.Node.Delivery
import Mydds.Node.EventLoop
import Mydds.Node.LastWriter
import Mydds.Node.Peers
import Mydds.Node.Ring
import Mydds.Packet.Bounds
import Mydds.Packet.Canonical
import Mydds.Packet.Refuse
import Mydds.Packet.Truncate
import Mydds.TopicManager.Creation
import Mydds.Trie.Names
import Mydds.Trie.Scan
import Mydds.Trie.Shape
import Mydds.Util.Exact
import Mydds.Trie.Order
import Mydds.Domain
import Mydds.Node.Order
import Mydds.Domain.Protocol
import Mydds.Domain.Refine
import Mydds.Domain.Alive
import Mydds.Domain.Invariant
import Mydds.Domain.Names
import Mydds.Domain.Sources
import Mydds.Domain.Discovery
import Mydds.Domain.Settled
import Mydds.Node.Directory
import Mydds.Domain.Faults
import Mydds.Domain.Sent
import Mydds.Domain.Broadcast
import Mydds.Domain.Rings
