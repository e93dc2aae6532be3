import HeapStore.Library.Image
import HeapStore.Library.LittleEndian
import HeapStore.Library.ShiftRegister
import HeapStore.Library.Effect
import HeapStore.Library.Runs
import HeapStore.Format.Crc32
import HeapStore.Format.Layout
import HeapStore.Format.Codec
import HeapStore.Storage.BlockIo
import HeapStore.Storage.PagedFile
import HeapStore.Storage.Requests
import HeapStore.Storage.Overlay
import HeapStore.Storage.Flush
import HeapStore.Storage.Stage
import HeapStore.Storage.FlatCache
import HeapStore.Placement.Contract
import HeapStore.Placement.BucketAlloc
import HeapStore.Storage.DataFile
import HeapStore.Storage.IndexFile
import HeapStore.Recovery.Walk
import HeapStore.Recovery.Restore
import HeapStore.Recovery.Rebuild
import HeapStore.Placement.Append
import HeapStore.Placement.Bucket
import HeapStore.Heap.Heap
import HeapStore.Heap.Guarded
import HeapStore.Placement.Published
import HeapStore.Placement.Search
import HeapStore.Placement.Grants
import HeapStore.Placement.NoPanic
import HeapStore.Placement.AllocCalls
import HeapStore.Placement.VictimBound
import HeapStore.Recovery.Scan
import HeapStore.Recovery.WalkScan
import HeapStore.Recovery.Records
import HeapStore.Placement.Geometry
import HeapStore.Placement.Numbering
import HeapStore.Placement.Replay
import HeapStore.Storage.Space
import HeapStore.Placement.Registry
import HeapStore.Placement.Allotment
import HeapStore.Storage.Slots
import HeapStore.Storage.RecordReads
import HeapStore.Placement.Lawful
import HeapStore.Heap.Ledger
import HeapStore.Heap.Steps
import HeapStore.Storage.FlushFailure
import HeapStore.Storage.Guarded
import HeapStore.Heap.Operations
import HeapStore.Recovery.Supersede
import HeapStore.Placement.AppendOpen
import HeapStore.Recovery.Newest
import HeapStore.Placement.AppendTail
import HeapStore.BlockIo.Requests
import HeapStore.BlockIo.SyncIo
import HeapStore.BlockIo.UringIo
import HeapStore.BlockIo.Transfer
import HeapStore.BlockIo.Segments
import HeapStore.BlockIo.Flight
import HeapStore.BlockIo.Parity
import HeapStore.Heap.Create
import HeapStore.Heap.History
import HeapStore.Heap.Run
import HeapStore.Placement.AppendScan
import HeapStore.Heap.Answers
import HeapStore.Heap.AppendRuns
import HeapStore.Heap.CatchUp
import HeapStore.Heap.Progress
import HeapStore.Storage.Codecs
import HeapStore.Format.BitSerial
import HeapStore.Format.Bursts
import HeapStore.Storage.DamagedReads
import HeapStore.Recovery.PlainScan
import HeapStore.Storage.SlotBatch
import HeapStore.Storage.RecordBatch
import HeapStore.Storage.Shape
import HeapStore.Heap.Batch
import HeapStore.Placement.BucketOpen
import HeapStore.Placement.BucketReopen
import HeapStore.Placement.Resumed
import HeapStore.Heap.Reopen
import HeapStore.Heap.ClosedAppend
import HeapStore.Heap.ClosedBucket
import HeapStore.Heap.Lifetime
import HeapStore.Placement.Transfer
import HeapStore.Heap.BucketRuns
import HeapStore.Heap.Allocations
import HeapStore.Heap.Reproduction
import HeapStore.Recovery.RebuildScan
import HeapStore.Heap.Rebuilt
import HeapStore.Heap.Damage
import HeapStore.Heap.MetadataLoss
import HeapStore.Heap.PowerFailure
import HeapStore.Heap.Commits
import HeapStore.Heap.BoundedLoss
import HeapStore.Heap.MixedPages
import HeapStore.Storage.Discipline
import HeapStore.Storage.Untouched
import HeapStore.Heap.Process
import HeapStore.Library.Allocation
import HeapStore.Memory.AlignedBuf
import HeapStore.Memory.Pool
import HeapStore.Placement.Faults
import HeapStore.Heap.FailedCalls
import HeapStore.Placement.BucketCatchUp
import HeapStore.Heap.BucketCatchUp
import HeapStore.Heap.OtherLayout
import HeapStore.Heap.RebuildTotal
import HeapStore.Heap.BucketPowerFailure
import HeapStore.Heap.UsedBytes
