import Fusey.GoLib.Map
import Fusey.GoLib.Machine
import Fusey.GoLib.Fmt
import Fusey.GoLib.InPlace
import Fusey.GoLib.Overlay
import Fusey.GoLib.Interleaving
import Fusey.GoLib.Acyclic
import Fusey.Index.Types
import Fusey.Index.Extents
import Fusey.Index.Index
import Fusey.Chunks.Store
import Fusey.Chunks.ChunkStore
import Fusey.Chunks.Cache
import Fusey.PyLib.Text
import Fusey.Chunks.Broker
import Fusey.Chunks.Network
import Fusey.Chunks.AppendLaw
import Fusey.Index.Persist
import Fusey.Index.Mutation
import Fusey.Index.Layout
import Fusey.Index.Namespace
import Fusey.Index.Rename
import Fusey.Fuse.Daemon
import Fusey.Fuse.Calls
import Fusey.Fuse.FailedWrites
import Fusey.Fuse.FileContent
import Fusey.Fuse.Assembly
import Fusey.Fuse.Contents
import Fusey.Compaction.Compactor
import Fusey.Chunks.BrokerRefinement
import Fusey.Fuse.Runs
import Fusey.Fuse.NamespaceRuns
import Fusey.Fuse.Renames
import Fusey.Fuse.Creations
import Fusey.Fuse.OpenFiles
import Fusey.Fuse.SnapshotCodec
import Fusey.Fuse.Capacity
import Fusey.Compaction.Encoding
import Fusey.Compaction.Stages
import Fusey.Compaction.Preservation
import Fusey.Compaction.Tiling
import Fusey.Compaction.RemapKeys
import Fusey.Compaction.Cycle
import Fusey.Compaction.Relocation
import Fusey.Compaction.Fixpoint
import Fusey.Cmd.Main
import Fusey.Cmd.Isolation
import Fusey.Fuse.Ledger
import Fusey.Fuse.RemoteConsistency
import Fusey.Fuse.Provenance
import Fusey.Fuse.Reading
import Fusey.Fuse.Atomicity
import Fusey.Fuse.Saving
import Fusey.Fuse.DirtyFlags
import Fusey.Fuse.LatestWrites
import Fusey.Fuse.Durability
import Fusey.Cmd.SharedStore
import Fusey.Cmd.Mounting
import Fusey.Cmd.ChunkIdentity
import Fusey.Cmd.Restarts
import Fusey.Cmd.CleanRestarts
import Fusey.Cmd.Recovery
import Fusey.Cmd.IndexFreshness
import Fusey.Cmd.Unmounting
import Fusey.Fuse.Attributes
import Fusey.Config.Load
import Fusey.Fuse.Statfs
import Fusey.Index.Truncation
import Fusey.Chunks.Sequence
import Fusey.Chunks.Retries
import Fusey.Chunks.RangeReads
import Fusey.Chunks.CacheReads
import Fusey.GoLib.Observation
import Fusey.GoLib.Terminated
import Fusey.GoLib.Simulation
import Fusey.Index.SideTables
import Fusey.Fuse.Queries
import Fusey.Fuse.Listing
import Fusey.Fuse.Xattrs
import Fusey.Fuse.Symlinks
import Fusey.Chunks.Specification
import Fusey.Cmd.Readiness
import Fusey.Cmd.MountSpecification
