import CoreDB.Mvcc.Delta
import CoreDB.Storage.Segment
import CoreDB.Lib.Keyed
import CoreDB.Lib.SharedCounter

/-!
# Tables (`table/table.h`, `table/table.cpp`)

A table is a list of base segments, a delta layer over them and a transaction
manager.  Every full row starts with a hidden row id.

`Compact` holds the table lock, but `Begin`, `Commit` and `Abort` do not take it:
they can run between any two of its reads of a transaction's status.
`compactUnder obs` is `Compact` with its `k`-th `GetStatus` call answered by the
manager `obs k`; `compact` is the call nobody interferes with.  Exceptions of
`Segment::Build` and of reading a cell are `none`.

Hash maps and hash sets are lists here; nothing below depends on their order
except the order of the rows that come out, which the callers treat as a multiset.

`next_row_id_` and `next_segment_id_` are 64-bit atomics in the source.  `insert`, `raise` and
`loadBaseSegments` count without a bound: a table that starts empty, or whose ids all come
out of a log it has written, would have to give out 2⁶⁴ ids before that makes a difference.
`insert64`, `insertWithRowId64` and `loadBaseSegments64` have the counters as the source has
them, and are used where a table starts from segments with any ids (`World.step64`,
`TableThreads.step`, `Callers.step`).
-/

namespace CoreDB

open Keyed (put)
open SharedCounter (fetchAdd)

structure CompactionMetrics where
  runs : Nat := 0
  rowsPromoted : Nat := 0
  rowsRetired : Nat := 0
deriving DecidableEq, Repr

structure Table where
  userSchema : Schema
  txnMgr : TransactionManager := {}
  delta : DeltaLayer := []
  baseSegments : List Segment := []
  /-- The next row id, below 2⁶⁴ in the source. -/
  nextRowId : Nat := 1
  nextSegmentId : Nat := 1
  metrics : CompactionMetrics := {}

def kRowIdColumnName : String := "__row_id__"

/-- The user's columns behind the hidden row-id column. -/
def fullSchemaOf (userSchema : Schema) : Schema := { name := kRowIdColumnName, type := .int64 } :: userSchema

/-! ## Row ids in the base -/

namespace Segment

/-- `static_cast<uint64_t>(ids[r])` of the row-id column. -/
def rowIdAt (seg : Segment) (r : Nat) : Nat := ((seg.columns.headD {}).int64Data.getD r 0#64).toNat

def rowIds (seg : Segment) : List Nat := (List.range seg.numRows).map seg.rowIdAt

/-- The rows `rs` of a segment that are not suppressed, without the row-id cell. -/
def rowsExcept (seg : Segment) (suppressed : List Nat) : List Nat → Option (List (Nat × Row))
  | [] => some []
  | r :: rs =>
    if suppressed.contains (seg.rowIdAt r) then seg.rowsExcept suppressed rs
    else
      match seg.extractFullRow r with
      | none => none
      | some full => (seg.rowsExcept suppressed rs).map ((seg.rowIdAt r, full.drop 1) :: ·)

/-- The full rows `rs` of a segment whose row id is not purged. -/
def fullRowsExcept (seg : Segment) (purged : List Nat) : List Nat → Option (List Row)
  | [] => some []
  | r :: rs =>
    if purged.contains (seg.rowIdAt r) then seg.fullRowsExcept purged rs
    else
      match seg.extractFullRow r with
      | none => none
      | some full => (seg.fullRowsExcept purged rs).map (full :: ·)

end Segment

/-- Concatenate what each segment gives, if all of them give something. -/
def collect {α : Type} (f : Segment → Option (List α)) : List Segment → Option (List α)
  | [] => some []
  | seg :: segs =>
    match f seg with
    | none => none
    | some rows => (collect f segs).map (rows ++ ·)

namespace Table

def fullSchema (t : Table) : Schema := fullSchemaOf t.userSchema

def rowIdExistsInBase (t : Table) (rowId : Nat) : Bool :=
  t.baseSegments.any fun seg => seg.rowIds.any (· == rowId)

/-! ## Writes -/

def insert (t : Table) (txn : Transaction) (userRow : Row) : Nat × Table :=
  (t.nextRowId,
    { t with nextRowId := t.nextRowId + 1, delta := t.delta.insert t.nextRowId txn.txnId userRow })

/-- The retrying compare-exchange: an allocator ends above the id it is given. -/
def raise (next id : Nat) : Nat := if next ≤ id then id + 1 else next

def insertWithRowId (t : Table) (txn : Transaction) (rowId : Nat) (userRow : Row) : Table :=
  { t with
    delta := t.delta.insert rowId txn.txnId userRow
    nextRowId := raise t.nextRowId rowId }

/-- `Insert` with its 64-bit counter. -/
def insert64 (t : Table) (txn : Transaction) (userRow : Row) : Nat × Table :=
  let p := fetchAdd 64 t.nextRowId
  (p.1, { t with nextRowId := p.2, delta := t.delta.insert p.1 txn.txnId userRow })

/-- `raise` on a 64-bit allocator. -/
def raise64 (next id : Nat) : Nat := if next ≤ id then (id + 1) % 2 ^ 64 else next

def insertWithRowId64 (t : Table) (txn : Transaction) (rowId : Nat) (userRow : Row) : Table :=
  { t with
    delta := t.delta.insert rowId txn.txnId userRow
    nextRowId := raise64 t.nextRowId rowId }

def update (t : Table) (txn : Transaction) (rowId : Nat) (newUserRow : Row) : Bool × Table :=
  let r := t.delta.claimOrInsertBaseTombstone rowId txn t.txnMgr (t.rowIdExistsInBase rowId)
  if r.1 = .ok then (true, { t with delta := r.2.insert rowId txn.txnId newUserRow })
  else (false, { t with delta := r.2 })

def delete (t : Table) (txn : Transaction) (rowId : Nat) : Bool × Table :=
  let r := t.delta.claimOrInsertBaseTombstone rowId txn t.txnMgr (t.rowIdExistsInBase rowId)
  (r.1 == .ok, { t with delta := r.2 })

/-! ## Reads -/

end Table

structure ScanSnapshot where
  segments : List Segment
  deltaRecords : List DeltaRecord
  reader : Transaction

def Table.snapshotForScan (t : Table) (reader : Transaction) : ScanSnapshot :=
  { segments := t.baseSegments, deltaRecords := t.delta, reader }

structure Merge where
  fromDelta : List (Nat × Row) := []
  suppressBase : List Nat := []

/-- The delta loop of `MaterializeVisibleRows`. -/
def Merge.record (txm : TransactionManager) (reader : Transaction) (m : Merge) (rec : DeltaRecord) : Merge :=
  if rec.isBaseTombstone then
    let deleteVisible :=
      if rec.deletedTxn = reader.txnId then true
      else (txm.getStatus rec.deletedTxn).committedBy reader.snapshotTs
    if deleteVisible then { m with suppressBase := rec.rowId :: m.suppressBase } else m
  else if isVisible rec reader txm then
    { fromDelta := put m.fromDelta rec.rowId rec.row, suppressBase := rec.rowId :: m.suppressBase }
  else m

def mergeDelta (txm : TransactionManager) (reader : Transaction) (records : List DeltaRecord) : Merge :=
  records.foldl (Merge.record txm reader) {}

/-- `MaterializeVisibleRows`, each row still with the row id it stems from. -/
def materializeKeyed (txm : TransactionManager) (s : ScanSnapshot) : Option (List (Nat × Row)) :=
  let m := mergeDelta txm s.reader s.deltaRecords
  (collect (fun seg => seg.rowsExcept m.suppressBase (List.range seg.numRows)) s.segments).map
    (m.fromDelta ++ ·)

def materializeVisibleRows (txm : TransactionManager) (s : ScanSnapshot) : Option (List Row) :=
  (materializeKeyed txm s).map (·.map (·.2))

/-! ## Compaction -/

/-- What `Compact` does with one delta record. -/
inductive Action where
  | drop
  | retain
  | promote
  | purge
deriving DecidableEq, Repr

/-- The classification of one record; `k` counts the `GetStatus` calls made
before it, three being reserved for each record. -/
def classify (obs : Nat → TransactionManager) (oldestActive : Nat) (isHead : Bool) (k : Nat)
    (rec : DeltaRecord) : Action :=
  if !rec.isBaseTombstone && ((obs k).getStatus rec.createdTxn).state == .aborted then
    .drop  -- never became visible to anyone
  else if !isHead then
    if rec.deletedTxn ≠ 0 ∧ ((obs (k + 1)).getStatus rec.deletedTxn).committedBy oldestActive then
      .drop  -- stably superseded
    else .retain
  else if rec.isBaseTombstone then
    let deleter := (obs (k + 1)).getStatus rec.deletedTxn
    if deleter.committedBy oldestActive then .purge
    else if deleter.state == .aborted then .drop
    else .retain
  else if !((obs (k + 1)).getStatus rec.createdTxn).committedBy oldestActive then .retain
  else if rec.deletedTxn = 0 then .promote
  else if ((obs (k + 2)).getStatus rec.deletedTxn).committedBy oldestActive then .drop
  else .retain

/-- `head_index`: the position of the last record of each row. -/
def headIndex (snapshot : List DeltaRecord) : Nat → Nat :=
  snapshot.zipIdx.foldl (fun m p => Function.update m p.1.rowId p.2) fun _ => 0

structure CompactState where
  liveStableRows : List (Nat × Row) := []
  stablyDeletedRowIds : List Nat := []
  retained : List DeltaRecord := []

def CompactState.record (st : CompactState) (rec : DeltaRecord) : Action → CompactState
  | .drop => st
  | .retain => { st with retained := st.retained ++ [rec] }
  | .promote => { st with liveStableRows := put st.liveStableRows rec.rowId rec.row }
  | .purge => { st with stablyDeletedRowIds := rec.rowId :: st.stablyDeletedRowIds }

/-- Every record of the delta with what is done with it. -/
def classified (obs : Nat → TransactionManager) (oldestActive : Nat) (snapshot : List DeltaRecord) :
    List (DeltaRecord × Action) :=
  snapshot.zipIdx.map fun p =>
    (p.1, classify obs oldestActive (headIndex snapshot p.1.rowId == p.2) (3 * p.2) p.1)

def compactLoop (obs : Nat → TransactionManager) (oldestActive : Nat) (snapshot : List DeltaRecord) :
    CompactState :=
  (classified obs oldestActive snapshot).foldl (fun st p => st.record p.1 p.2) {}

namespace Table

/-- The rewritten base: the rows that were not purged, then the promoted ones. -/
def mergedRows (t : Table) (st : CompactState) : Option (List Row) :=
  (collect (fun seg => seg.fullRowsExcept st.stablyDeletedRowIds (List.range seg.numRows))
    t.baseSegments).map (· ++ st.liveStableRows.map fun p => .int64 (BitVec.ofNat 64 p.1) :: p.2)

def compactUnder (t : Table) (obs : Nat → TransactionManager) : Option Table :=
  let st := compactLoop obs t.txnMgr.oldestActiveSnapshot t.delta
  let metrics : CompactionMetrics :=
    { runs := t.metrics.runs + 1
      rowsPromoted := t.metrics.rowsPromoted + st.liveStableRows.length
      rowsRetired := t.metrics.rowsRetired +
        (t.delta.length - st.retained.length - st.liveStableRows.length) }
  if st.liveStableRows ≠ [] ∨ st.stablyDeletedRowIds ≠ [] then
    match t.mergedRows st with
    | none => none
    | some rows =>
      (Segment.build t.nextSegmentId t.fullSchema rows).map fun seg =>
        { t with
          baseSegments := [seg]
          nextSegmentId := t.nextSegmentId + 1
          delta := st.retained
          metrics }
  else some { t with delta := st.retained, metrics }

def compact (t : Table) : Option Table := t.compactUnder fun _ => t.txnMgr

/-- What a `Compact` that returns has done: it keeps the base, or leaves one segment with
a new id. -/
theorem compactUnder_cases {t t' : Table} {obs : Nat → TransactionManager} {st : CompactState}
    (hst : compactLoop obs t.txnMgr.oldestActiveSnapshot t.delta = st) (h : t.compactUnder obs = some t') :
    (t'.delta = st.retained ∧ t'.txnMgr = t.txnMgr ∧ t'.nextRowId = t.nextRowId) ∧
      ((¬ (st.liveStableRows ≠ [] ∨ st.stablyDeletedRowIds ≠ []) ∧ t'.baseSegments = t.baseSegments ∧
          t'.nextSegmentId = t.nextSegmentId) ∨
        ((st.liveStableRows ≠ [] ∨ st.stablyDeletedRowIds ≠ []) ∧ ∃ rows seg, t.mergedRows st = some rows ∧
          Segment.build t.nextSegmentId t.fullSchema rows = some seg ∧ t'.baseSegments = [seg] ∧
          t'.nextSegmentId = t.nextSegmentId + 1)) := by
  unfold compactUnder at h
  simp only [hst] at h
  split at h
  · next hre =>
    split at h
    · cases h
    · next rows hrows =>
      obtain ⟨seg, hseg, rfl⟩ := Option.map_eq_some_iff.mp h
      exact ⟨⟨rfl, rfl, rfl⟩, Or.inr ⟨hre, rows, seg, hrows, hseg, rfl, rfl⟩⟩
  · next hre =>
    cases h
    exact ⟨⟨rfl, rfl, rfl⟩, Or.inl ⟨hre, rfl, rfl⟩⟩

/-! ## Loading a checkpoint's segments -/

def loadBaseSegments (t : Table) (segments : List Segment) : Table :=
  { t with
    baseSegments := segments
    nextRowId := (segments.flatMap Segment.rowIds).foldl raise t.nextRowId
    nextSegmentId := (segments.map (·.segmentId)).foldl raise t.nextSegmentId }

def loadBaseSegments64 (t : Table) (segments : List Segment) : Table :=
  { t with
    baseSegments := segments
    nextRowId := (segments.flatMap Segment.rowIds).foldl raise64 t.nextRowId
    nextSegmentId := (segments.map (·.segmentId)).foldl raise64 t.nextSegmentId }

/-! ## While no counter wraps -/

theorem insert64_eq {t : Table} (hroom : t.nextRowId + 1 < 2 ^ 64) (txn : Transaction) (row : Row) :
    t.insert64 txn row = t.insert txn row := by
  simp only [insert64, fetchAdd, Nat.mod_eq_of_lt hroom, insert]

theorem raise64_eq {id : Nat} (hid : id + 1 < 2 ^ 64) (next : Nat) : raise64 next id = raise next id := by
  unfold raise64 raise
  rw [Nat.mod_eq_of_lt hid]

theorem foldl_raise64_eq {ids : List Nat} (hids : ∀ id ∈ ids, id + 1 < 2 ^ 64) (next : Nat) :
    ids.foldl raise64 next = ids.foldl raise next :=
  List.foldl_ext _ _ next fun n id hid => raise64_eq (hids id hid) n

end Table

end CoreDB
