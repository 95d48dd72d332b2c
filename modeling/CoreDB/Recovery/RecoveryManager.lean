import CoreDB.Recovery.Checkpoint
import CoreDB.Wal.Log

/-!
# Recovery (`recovery/recovery_manager.h`, `recovery/recovery_manager.cpp`)

`Recover` loads the checkpoint, if there is one, and replays from the log the data
records behind its LSN whose transaction id occurs in a COMMIT record.  Each record
is replayed in a transaction of its own.  This is recovery with one worker, as a
database opens its table.
-/

namespace CoreDB

structure RecoveryConfig where
  checkpointManifestPath : String
  segmentDir : String
deriving DecidableEq, Repr

structure RecoveryStats where
  checkpointFound : Bool := false
  checkpointLsn : Nat := 0
  recordsRead : Nat := 0
  committedTransactions : Nat := 0
  operationsReplayed : Nat := 0
  truncatedTail : Bool := false
  corruptTail : Bool := false
  lastWalLsn : Nat := 0
  numWorkers : Nat := 1
  checksumVerificationPassed : Bool := true
  error : String := ""
deriving DecidableEq, Repr

namespace Table

/-- The call that `ApplyOp` makes: its result, and the table after it. -/
def redo (t : Table) (txn : Transaction) (op : WalRecord) : Bool × Table :=
  match op.type with
  | .insert => (true, t.insertWithRowId txn op.rowId op.row)
  | .update => t.update txn op.rowId op.row
  | .delete => t.delete txn op.rowId
  | _ => (true, t)

/-- The table once the transaction of the replay has begun. -/
def begun (t : Table) : Table := { t with txnMgr := t.txnMgr.begin.2 }

def applyOp (t : Table) (op : WalRecord) : Table :=
  let t' := (t.begun.redo t.txnMgr.begin.1 op).2
  { t' with txnMgr := (t'.txnMgr.commit t.txnMgr.begin.1).2 }

/-- The replayed call finds its row. -/
def opSucceeds (t : Table) (op : WalRecord) : Bool := (t.begun.redo t.txnMgr.begin.1 op).1

end Table

def committedTxnIds (records : List WalRecord) : List Nat :=
  (records.filter fun rec => rec.type == .commit).map (·.txnId)

/-- The records to replay. -/
def redoOps (checkpointLsn : Nat) (records : List WalRecord) : List WalRecord :=
  records.filter fun rec =>
    decide (checkpointLsn < rec.lsn) && rec.type.isData && (committedTxnIds records).contains rec.txnId

/-- The integrity check over the base segments: the last failure is reported. -/
def RecoveryStats.verify (stats : RecoveryStats) (segments : List Segment) : RecoveryStats :=
  segments.foldl (fun stats seg =>
    match seg.verifyIntegrity with
    | .ok _ => stats
    | .error e => { stats with checksumVerificationPassed := false, error := e }) stats

/-- A log that does not exist yet is empty. -/
def Disk.readWal (disk : Disk) : WalReadResult :=
  match disk.wal with
  | none => {}
  | some bs => readAll bs

/-- The replay, once the checkpoint is in the table. -/
def replay (disk : Disk) (stats : RecoveryStats) (t : Table) : RecoveryStats × Table :=
  let wal := disk.readWal
  let ops := redoOps stats.checkpointLsn wal.records
  let t := ops.foldl Table.applyOp t
  let stats :=
    { stats with
      recordsRead := wal.records.length
      truncatedTail := wal.truncatedTail
      corruptTail := wal.corruptRecord
      lastWalLsn := max wal.lastValidLsn stats.checkpointLsn
      committedTransactions := (committedTxnIds wal.records).dedup.length
      operationsReplayed := ops.length }
  (stats.verify t.baseSegments, t)

def recover (config : RecoveryConfig) (disk : Disk) (t : Table) : RecoveryStats × Table :=
  match loadManifest config.checkpointManifestPath disk.manifest with
  | .error _ => replay disk {} t  -- no checkpoint: replay everything
  | .ok manifest =>
    let stats : RecoveryStats := { checkpointFound := true, checkpointLsn := manifest.lastLsn }
    match loadSegments config.segmentDir t.fullSchema disk.segments manifest.segmentFiles with
    | .error e => ({ stats with error := "checkpoint segment load failed: " ++ e }, t)
    | .ok segments => replay disk stats (t.loadBaseSegments segments)

/-! ## What the replay is given -/

theorem verify_lastWalLsn (stats : RecoveryStats) (segments : List Segment) :
    (stats.verify segments).lastWalLsn = stats.lastWalLsn := by
  unfold RecoveryStats.verify
  induction segments generalizing stats with
  | nil => rfl
  | cons seg segments ih =>
    rw [List.foldl_cons, ih]
    split <;> rfl

theorem replay_lastWalLsn (disk : Disk) (stats : RecoveryStats) (t : Table) :
    (replay disk stats t).1.lastWalLsn = max disk.readWal.lastValidLsn stats.checkpointLsn :=
  verify_lastWalLsn _ _

theorem mem_committedTxnIds {records : List WalRecord} {t : Nat} :
    t ∈ committedTxnIds records ↔ ∃ rec ∈ records, rec.type = .commit ∧ rec.txnId = t := by
  unfold committedTxnIds
  simp only [List.mem_map, List.mem_filter, beq_iff_eq]
  constructor
  · rintro ⟨rec, ⟨hrec, hty⟩, rfl⟩
    exact ⟨rec, hrec, hty, rfl⟩
  · rintro ⟨rec, hrec, hty, rfl⟩
    exact ⟨rec, ⟨hrec, hty⟩, rfl⟩

theorem mem_redoOps {lsn : Nat} {records : List WalRecord} {op : WalRecord} :
    op ∈ redoOps lsn records ↔ op ∈ records ∧ lsn < op.lsn ∧ op.type.isData = true ∧
      op.txnId ∈ committedTxnIds records := by
  unfold redoOps
  simp only [List.mem_filter, Bool.and_eq_true, decide_eq_true_iff, List.contains_iff_mem, and_assoc]

end CoreDB
