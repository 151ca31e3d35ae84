import Hapartition.Lib.Bytes
import Hapartition.Lib.Newest
import Hapartition.Lib.Dict
import Hapartition.Lib.Decimal
import Hapartition.Lib.Sorting
import Hapartition.Lib.Circle
import Hapartition.Lib.Utf8
import Hapartition.Lib.Transition
import Hapartition.Lib.HostPort
import Hapartition.Lib.Wire
import Hapartition.Lib.XXHash
import Hapartition.Lib.Digest
import Hapartition.Lib.Slices
import Hapartition.Lib.Heap
import Hapartition.Lib.Bits
import Hapartition.Lib.Mailbox
import Hapartition.Lib.BoundedLog
import Hapartition.Lib.Buffered
import Hapartition.Lib.BufWriter
import Hapartition.Lib.Linearizable
import Hapartition.Lib.Hex
import Hapartition.Lib.Text
import Hapartition.Store.Entry
import Hapartition.Store.Store
import Hapartition.Store.Absorb
import Hapartition.Store.Delete
import Hapartition.Store.DelEach
import Hapartition.Store.History
import Hapartition.Store.Merge
import Hapartition.Store.Iterate
import Hapartition.Store.Live
import Hapartition.Merkle.Tree
import Hapartition.Merkle.RoundUp
import Hapartition.Merkle.Build
import Hapartition.Merkle.Safety
import Hapartition.Merkle.Compare
import Hapartition.Merkle.Leaves
import Hapartition.Merkle.Sync
import Hapartition.Ring.Hashring
import Hapartition.Ring.Lookup
import Hapartition.Ring.Membership
import Hapartition.Ring.Disruption
import Hapartition.Ring.Replicas
import Hapartition.Resp.Value
import Hapartition.Resp.Reader
import Hapartition.Resp.Wire
import Hapartition.Resp.RoundTrip
import Hapartition.Gossip.Membership
import Hapartition.Gossip.Events
import Hapartition.Gossip.Message
import Hapartition.Gossip.Proto
import Hapartition.Gossip.Handler
import Hapartition.Gossip.AntiEntropy
import Hapartition.Gossip.Join
import Hapartition.Gossip.Request
import Hapartition.Gossip.Subscribers
import Hapartition.Gossip.Meta
import Hapartition.Gossip.Tls
import Hapartition.Resp.Framing
import Hapartition.Resp.Accepted
import Hapartition.Resp.Segments
import Hapartition.Server.Server
import Hapartition.Server.Dispatch
import Hapartition.Server.Failure
import Hapartition.Server.ReadBack
import Hapartition.Server.PlainMap
import Hapartition.Server.Connection
import Hapartition.Server.PlainWire
import Hapartition.Server.Linearizable
import Hapartition.Server.Lifecycle
import Hapartition.Server.Reply
import Hapartition.Server.Auth
import Hapartition.Server.Routing
import Hapartition.Server.Shipping
import Hapartition.Server.SlotMap
import Hapartition.Server.NodesText
import Hapartition.Cluster.Call
import Hapartition.Cluster.Acks
import Hapartition.Cluster.AckRuns
import Hapartition.Cluster.Provenance
import Hapartition.Cluster.Placement
import Hapartition.Cluster.Identity
import Hapartition.Cluster.Convergence
import Hapartition.Cluster.Failover
import Hapartition.Cluster.RealTime
import Hapartition.Cluster.Locks
import Hapartition.Cluster.Pending
import Hapartition.Cluster.Schedule
import Hapartition.Cluster.History
import Hapartition.Mgmt.Server
import Hapartition.Mgmt.Stream
