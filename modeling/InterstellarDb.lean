import InterstellarDb.Foundations.Atomic.Pool
import InterstellarDb.Foundations.GreatestWins
import InterstellarDb.Foundations.SetFold
import InterstellarDb.Index.Key
import InterstellarDb.Index.Cell
import InterstellarDb.Merkle.Digest
import InterstellarDb.Merkle.Tree
import InterstellarDb.Foundations.MapList
import InterstellarDb.Merkle.Forest
import InterstellarDb.Merkle.Record
import InterstellarDb.Index.Morton
import InterstellarDb.Index.Ranges
import InterstellarDb.Store.Kv
import InterstellarDb.Store.Open
import InterstellarDb.Store.Ops
import InterstellarDb.Store.Code
import InterstellarDb.Store.Alone
import InterstellarDb.Store.Reopen
import InterstellarDb.Store.Calls
import InterstellarDb.Store.Trust
import InterstellarDb.Store.Lockstep
import InterstellarDb.Store.Accepted
import InterstellarDb.Store.Depths
import InterstellarDb.Store.Query
import InterstellarDb.Store.SealProtocol
import InterstellarDb.Store.SealSafety
import InterstellarDb.Store.IngestRace
import InterstellarDb.Sync.Pull
import InterstellarDb.Sync.Merge
import InterstellarDb.Sync.Peers
import InterstellarDb.Sync.Safety
import InterstellarDb.Sync.Converge
import InterstellarDb.Sync.Mesh
import InterstellarDb.Merkle.Diff
import InterstellarDb.Foundations.Checked
import InterstellarDb.Index.Codec
import InterstellarDb.Server.Handlers
import InterstellarDb.Index.Window
import InterstellarDb.Sync.Delivery
import InterstellarDb.Foundations.Atomic.Trace
import InterstellarDb.Sync.Wire
import InterstellarDb.Sync.AnyPeer
import InterstellarDb.Store.Cancel
import InterstellarDb.Index.Cover
import InterstellarDb.Index.Fanout
import InterstellarDb.Index.RangeOrder
import InterstellarDb.Merkle.Canonical
import InterstellarDb.Merkle.Load
import InterstellarDb.Store.Scan
import InterstellarDb.Store.Batch
import InterstellarDb.Store.Failure
import InterstellarDb.Store.Settled
import InterstellarDb.Index.Hierarchy
import InterstellarDb.Index.KeyOrder
import InterstellarDb.Store.ScanRanges
import InterstellarDb.Store.InFlight
import InterstellarDb.Store.Publish
import InterstellarDb.Foundations.BoundedQueue
import InterstellarDb.Hub.SubscriptionHub
import InterstellarDb.Hub.Delivery
import InterstellarDb.Foundations.Atomic.Interference
import InterstellarDb.Foundations.Gossip
import InterstellarDb.Server.SyncTask
import InterstellarDb.Server.Eventual
import InterstellarDb.Foundations.Atomic.Interleaving
import InterstellarDb.Store.Commits
import InterstellarDb.Sync.Cost
import InterstellarDb.Sync.Plan
import InterstellarDb.Foundations.Broadcast
import InterstellarDb.Foundations.Relay
import InterstellarDb.Server.Streams
import InterstellarDb.Server.Live
import InterstellarDb.Server.Node
import InterstellarDb.Store.Crashes
import InterstellarDb.Store.Lives
import InterstellarDb.Foundations.Atomic.Stop
import InterstellarDb.Store.Restart
