import SkegRigging.Rigging.Mock
import SkegRigging.Library.Replay
import SkegRigging.Library.TopK
import SkegRigging.Library.PrefixCodec
import SkegRigging.Adapter.Engine
import SkegRigging.Adapter.Sidecar
import SkegRigging.Adapter.Tenant
import SkegRigging.Adapter.TenantSpec
import SkegRigging.Adapter.Session
import SkegRigging.Adapter.Recovery
import SkegRigging.Adapter.Coherence
import SkegRigging.Adapter.Sync
import SkegRigging.Adapter.Completeness
import SkegRigging.Reference.Json
import SkegRigging.Adapter.EventOrder
import SkegRigging.Adapter.SidecarWrite
import SkegRigging.Adapter.Snapshot
import SkegRigging.Ingest.Updates
import SkegRigging.Ingest.RecordIds
import SkegRigging.Adapter.ReadOnly
import SkegRigging.Adapter.Identity
import SkegRigging.Adapter.Interchange
import SkegRigging.Rigging.Broadcast
import SkegRigging.Ingest.Tree
import SkegRigging.Ingest.Retry
import SkegRigging.Adapter.Overlap
import SkegRigging.Adapter.FullCopy
import SkegRigging.Reference.Files
import SkegRigging.Adapter.Roundtrip
import SkegRigging.Adapter.Restore
import SkegRigging.Adapter.Remains
import SkegRigging.Adapter.Termination
import SkegRigging.Adapter.Selection
import SkegRigging.Adapter.Vectors
import SkegRigging.Adapter.Failures
import SkegRigging.Rigging.MockSearch
import SkegRigging.Rigging.Quota
import SkegRigging.Rigging.Stream
import SkegRigging.Rigging.Deadline
import SkegRigging.Ingest.Progress
import SkegRigging.Ingest.Paragraphs
import SkegRigging.Ingest.Windows
import SkegRigging.Ingest.Attempts
import SkegRigging.Ingest.Paths
import SkegRigging.Ingest.Collect
import SkegRigging.Ingest.SrcTag
import SkegRigging.Ingest.WatchPaths
import SkegRigging.Ingest.Links
import SkegRigging.Rigging.Ranking
import SkegRigging.Rigging.VectorLengths
import SkegRigging.Adapter.DiskBytes
import SkegRigging.Ingest.Ollama
import SkegRigging.Ingest.StubEmbed
import SkegRigging.Adapter.Locks
import SkegRigging.Adapter.Crashes
import SkegRigging.Library.Upserts
import SkegRigging.Ingest.TenantWriter
import SkegRigging.Ingest.Durable
import SkegRigging.Ingest.Provenance
import SkegRigging.Adapter.TwinSearch
import SkegRigging.Ingest.WatchDurable
import SkegRigging.Ingest.Appends
import SkegRigging.Ingest.Mismatch
