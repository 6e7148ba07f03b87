import AppendStore.Library.Bytes
import AppendStore.Library.Stream
import AppendStore.Library.Crc32
import AppendStore.Library.FiniteMap
import AppendStore.Library.Journal
import AppendStore.Library.Program
import AppendStore.Library.FileSystem
import AppendStore.Format.Header
import AppendStore.Format.Attributes
import AppendStore.Format.Record
import AppendStore.Format.RecordCodec
import AppendStore.Format.Legacy
import AppendStore.Log.AppendLog
import AppendStore.Log.Rec
import AppendStore.Log.Scan
import AppendStore.Log.Spec
import AppendStore.Log.Artifacts
import AppendStore.Store.Index
import AppendStore.Store.Cache
import AppendStore.Store.Store
import AppendStore.Store.Replay
import AppendStore.Store.Invariant
import AppendStore.Store.Reading
import AppendStore.Store.Compaction
import AppendStore.Store.Opening
import AppendStore.Library.Machine
import AppendStore.Store.Refinement
import AppendStore.Store.CrashPrefix
import AppendStore.Store.Outcomes
import AppendStore.Store.FailedAppend
import AppendStore.Store.TornTail
import AppendStore.Store.PointReads
import AppendStore.Library.InvertedIndex
import AppendStore.Store.LiveIndex
import AppendStore.Store.Secondary
import AppendStore.Store.Lossless
import AppendStore.Library.Threads
import AppendStore.Store.SortCache
import AppendStore.Store.Concurrent
import AppendStore.Store.CacheCoherence
import AppendStore.Store.ClosedStore
import AppendStore.Format.Corruption
import AppendStore.Store.Corruption
import AppendStore.Store.Migration
import AppendStore.Format.V3Record
import AppendStore.Library.BufferedWriter
import AppendStore.Store.Downgrade
import AppendStore.Store.NormalForm
import AppendStore.Store.DowngradeRoundTrip
import AppendStore.Library.FaultyRuns
import AppendStore.Log.Calls
import AppendStore.Store.DowngradeAtomic
import AppendStore.Store.DowngradeSource
import AppendStore.Store.MigrationBackup
import AppendStore.Store.ReadOnly
import AppendStore.Store.Space
import AppendStore.Log.Faults
import AppendStore.Store.CompactionFaults
import AppendStore.Store.InstallFaults
import AppendStore.Format.Extensions
import AppendStore.Format.AttributeGrammar
import AppendStore.Library.Recency
import AppendStore.Store.CacheReference
import AppendStore.Log.CheckedScan
import AppendStore.Store.Calls
import AppendStore.Store.FailedCompaction
import AppendStore.Store.CompactionLoss
import AppendStore.Store.Scanning
import AppendStore.Library.Crashes
import AppendStore.Log.Interruption
import AppendStore.Store.CompactionCrash
import AppendStore.Store.OpeningCrash
import AppendStore.Store.CompactionAtomic
import AppendStore.Store.Acknowledged
import AppendStore.Library.Linearizability
import AppendStore.Store.Linearizable
import AppendStore.Store.Background
import AppendStore.Library.FileLocks
import AppendStore.Store.Processes
import AppendStore.Store.DelayedSync
import AppendStore.Library.Publication
import AppendStore.Store.DowngradeCrash
