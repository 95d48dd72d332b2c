import CoreDB.Lib.Bytes
import CoreDB.Lib.Text
import CoreDB.Lib.Runs
import CoreDB.Lib.ShiftRegister
import CoreDB.Lib.Keyed
import CoreDB.Lib.VersionChain
import CoreDB.Lib.Lanes
import CoreDB.Lib.Readers
import CoreDB.Lib.Damage
import CoreDB.Lib.RunningBounds
import CoreDB.Lib.SharedCounter
import CoreDB.Lib.Ir
import CoreDB.Lib.LockOrder
import CoreDB.Lib.Allocation
import CoreDB.Util.Crc32c
import CoreDB.Util.Bitmap
import CoreDB.Util.Memory
import CoreDB.Storage.Types
import CoreDB.Storage.Segment
import CoreDB.Storage.SegmentFile
import CoreDB.Storage.SegmentRoundTrip
import CoreDB.Storage.SegmentLayout
import CoreDB.Storage.SegmentMemory
import CoreDB.Storage.SegmentSafety
import CoreDB.Storage.Widening
import CoreDB.Storage.Int64Column
import CoreDB.Storage.SkipSoundness
import CoreDB.Storage.BitFlips
import CoreDB.Simd.Kernels
import CoreDB.Jit.QueryJit
import CoreDB.Jit.Codegen
import CoreDB.Exec.Query
import CoreDB.Exec.Pruning
import CoreDB.Exec.CommittedQueries
import CoreDB.Mvcc.Transaction
import CoreDB.Mvcc.Delta
import CoreDB.Mvcc.Visibility
import CoreDB.Mvcc.Watermark
import CoreDB.Mvcc.RowHistory
import CoreDB.Mvcc.RacingReads
import CoreDB.Table.Table
import CoreDB.Table.RowCompaction
import CoreDB.Table.RowView
import CoreDB.Table.Scan
import CoreDB.Table.Compaction
import CoreDB.Table.World
import CoreDB.Table.WordIds
import CoreDB.Table.CapturedScan
import CoreDB.Table.Isolation
import CoreDB.Table.CompactionSafety
import CoreDB.Table.WriteOutcome
import CoreDB.Table.SnapshotProtection
import CoreDB.Table.Quiescent
import CoreDB.Table.AcceptedRows
import CoreDB.Table.RepeatedCompaction
import CoreDB.Table.Committed
import CoreDB.Table.Callers
import CoreDB.Table.FreshIds
import CoreDB.Table.LockLevel
import CoreDB.Table.LockLevelRefinement
import CoreDB.Table.LockLevelScan
import CoreDB.Wal.Record
import CoreDB.Wal.Log
import CoreDB.Wal.LogMemory
import CoreDB.Wal.RoundTrip
import CoreDB.Wal.BurstErrors
import CoreDB.Wal.Grammar
import CoreDB.Wal.Durability
import CoreDB.Wal.LongestParse
import CoreDB.Recovery.Checkpoint
import CoreDB.Recovery.RecoveryManager
import CoreDB.Recovery.Replay
import CoreDB.Recovery.RowSlots
import CoreDB.Recovery.ParallelRedo
import CoreDB.Recovery.LegalReplay
import CoreDB.Db.Database
import CoreDB.Db.History
import CoreDB.Db.LogSequence
import CoreDB.Db.TornTail
import CoreDB.Db.SessionReplay
import CoreDB.Db.CrashRecovery
import CoreDB.Db.CheckpointTransparency
import CoreDB.Db.CheckpointCrash
import CoreDB.Db.Threads
import CoreDB.Db.LogOrder
import CoreDB.Db.ConcurrentRecovery
import CoreDB.Db.Durability
import CoreDB.Db.Locking
import CoreDB.Db.LockLevel
import CoreDB.Db.FreeTurns
import CoreDB.Db.LockLevelRefinement
