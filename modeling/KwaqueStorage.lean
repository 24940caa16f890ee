import KwaqueStorage.Lib.Runs
import KwaqueStorage.Lib.Count
import KwaqueStorage.Append.Verdict
import KwaqueStorage.Append.Retry
import KwaqueStorage.Append.Rows
import KwaqueStorage.Append.ResultsRun
import KwaqueStorage.Index.Rebuild
import KwaqueStorage.WalScan.Exact
import KwaqueStorage.Extent.Parts
import KwaqueStorage.SegmentRun.Published
import KwaqueStorage.SegmentRead.Stop
import KwaqueStorage.SegmentRead.Parts
import KwaqueStorage.Checkpoint.Crash
import KwaqueStorage.Pins.Run
import KwaqueStorage.Spares.Turns
import KwaqueStorage.Publication.Outcomes
import KwaqueStorage.Control.Run
import KwaqueStorage.GroupCommit.Run
import KwaqueStorage.Ids.Unique
import KwaqueStorage.Decisions.Run
import KwaqueStorage.Layout.Envelope
import KwaqueStorage.RetryPages.Search
import KwaqueStorage.Capacity.Bound
import KwaqueStorage.Capacity.Left
import KwaqueStorage.Records.Sequential
import KwaqueStorage.Keyspace.Coverage
import KwaqueStorage.Bytes.Cursor
import KwaqueStorage.Bytes.Refine
import KwaqueStorage.Collection.Arranged
import KwaqueStorage.Recovery.Copies
import KwaqueStorage.Index.Capacity
import KwaqueStorage.Recovery.TailWrite
import KwaqueStorage.Recovery.Resume
import KwaqueStorage.Recovery.Planned
import KwaqueStorage.PageCache.Lead
import KwaqueStorage.Manifest.Paging
import KwaqueStorage.Retention.Select
import KwaqueStorage.WalQueue.Run
import KwaqueStorage.Workload.Run
import KwaqueStorage.CachePolicy.Effort
import KwaqueStorage.Index.Scrub
import KwaqueStorage.SegmentRun.Checked
import KwaqueStorage.Scan.Whole
import KwaqueStorage.Records.Timestamps
import KwaqueStorage.Checkpoint.Folding
import KwaqueStorage.Runtime.Gcra
import KwaqueStorage.Records.Varints
import KwaqueStorage.Codec.Work
import KwaqueStorage.Records.Compare
import KwaqueStorage.Codec.Extensions
import KwaqueStorage.Codec.OrderedMap
