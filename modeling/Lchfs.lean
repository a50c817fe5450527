import Lchfs.Library.Machine
import Lchfs.Library.Table
import Lchfs.Library.Fold
import Lchfs.Format.Objects
import Lchfs.Store.Segment
import Lchfs.Store.RecordStore
import Lchfs.Store.Locations
import Lchfs.Store.Evolution
import Lchfs.Store.DeltaLog
import Lchfs.Store.Namespace
import Lchfs.Store.State
import Lchfs.Store.Write
import Lchfs.Store.Checkpoint
import Lchfs.Store.Mount
import Lchfs.Store.Pool
import Lchfs.Store.Steps
import Lchfs.Recovery.Tree
import Lchfs.Recovery.Located
import Lchfs.Recovery.InodeNumbers
import Lchfs.Recovery.ReplayOrder
import Lchfs.Reclaim.State
import Lchfs.Reclaim.Steps
import Lchfs.Reclaim.Coalesce
import Lchfs.Reclaim.Machine
import Lchfs.Reclaim.Copies
import Lchfs.Reclaim.Environment
import Lchfs.Reclaim.Repack
import Lchfs.Reclaim.DurableRoot
import Lchfs.Reclaim.CacheTags
import Lchfs.Reclaim.References
import Lchfs.Reclaim.Bookkeeping
import Lchfs.Reclaim.Coverage
import Lchfs.Reclaim.Handshake
import Lchfs.Reclaim.Retained
import Lchfs.Devices.Members
import Lchfs.Devices.SegmentIds
import Lchfs.Index.Machine
import Lchfs.Index.State
import Lchfs.Index.Records
import Lchfs.Index.Soundness
import Lchfs.Index.Coalescing
import Lchfs.Index.Locations
import Lchfs.Index.Completeness
import Lchfs.Library.Layout
import Lchfs.File.State
import Lchfs.File.Machine
import Lchfs.File.Chunks
import Lchfs.File.Contents
import Lchfs.File.FailedCommits
import Lchfs.File.Limits
import Lchfs.Library.Simulation
import Lchfs.File.Refusals
import Lchfs.File.Published
import Lchfs.File.Readers
import Lchfs.File.AppendReads
import Lchfs.File.Streaming
import Lchfs.File.Ranges
import Lchfs.Library.References
import Lchfs.Store.Links
import Lchfs.Library.Forest
import Lchfs.Store.Calls
import Lchfs.Store.Hierarchy
import Lchfs.Recovery.Captured
import Lchfs.Recovery.Window
import Lchfs.Recovery.PublishedNames
import Lchfs.Devices.VdevSet
import Lchfs.Devices.SlotInvariant
import Lchfs.Index.Replicas
import Lchfs.Index.WriterSteps
import Lchfs.Index.Barriers
import Lchfs.Index.Redundancy
import Lchfs.Index.ReplicaOrder
import Lchfs.Index.Detach
import Lchfs.Index.DetachSafety
import Lchfs.Index.Promotion
import Lchfs.Index.PromotionSafety
import Lchfs.Library.Refcount
import Lchfs.Pins.Machine
import Lchfs.Pins.Conservation
import Lchfs.Recovery.Attempts
import Lchfs.Recovery.FailedCheckpoints
import Lchfs.Library.Faults
import Lchfs.Library.WriteCache
import Lchfs.Zones.Device
import Lchfs.Zones.Ownership
import Lchfs.Zones.Scan
import Lchfs.Zones.Isolation
import Lchfs.Delta.Copies
import Lchfs.Delta.Replay
import Lchfs.Delta.Truncation
import Lchfs.Devices.Ring
import Lchfs.Devices.VerifiedReads
import Lchfs.Index.Conversion
import Lchfs.Reclaim.DagWalk
import Lchfs.Devices.DedupScanner
import Lchfs.Store.Listing
import Lchfs.Format.Padme
import Lchfs.Recovery.Mounts
