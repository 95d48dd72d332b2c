import CoreDB.Recovery.RecoveryManager
import CoreDB.Table.World

/-!
# Databases and their sessions (`db/database.h`, `db/database.cpp`)

Opening a database recovers its table from the data directory and sets the log
writer behind the last LSN that recovery saw.  Every call writes its record to the
log; a call that fails writes none.

`Session` is an open database with the handles of its users and the log of what has
succeeded; runs of `Session.step` are all interleavings.  A step is taken only if
the record it logs fits the fields of the log, and a checkpoint only while no
transaction is active and sizes fit the segment file.  `step_world`: a session is a
run of the table under it.  `Appended`: what a session adds to the log file.
-/

namespace CoreDB

open ByteCodec

namespace Disk

def checkpointDir (disk : Disk) : String := disk.dataDir ++ "/checkpoint"

def manifestPath (disk : Disk) : String := disk.checkpointDir ++ "/manifest.txt"

/-- The bytes of the log. -/
def walBytes (disk : Disk) : Bytes := disk.wal.getD []

end Disk

structure Database where
  table : Table
  walWriter : WalWriter := {}
  recoveryStats : RecoveryStats := {}
  disk : Disk := {}

namespace Database

/-- The constructor: recovery, then a log writer that appends. -/
def openOn (disk : Disk) (userSchema : Schema) : Database :=
  let p := recover { checkpointManifestPath := disk.manifestPath, segmentDir := disk.checkpointDir } disk { userSchema }
  { table := p.2
    walWriter := { nextLsn := p.1.lastWalLsn + 1 }
    recoveryStats := p.1
    disk := { disk with wal := some disk.walBytes } }

def append (d : Database) (txnId : Nat) (type : WalRecordType) (rowId : Nat := 0) (row : Row := []) : Database :=
  let p := d.walWriter.append d.disk.walBytes txnId type rowId row
  { d with walWriter := p.1, disk := { d.disk with wal := some p.2 } }

def withMgr (d : Database) (m : TransactionManager) : Database := { d with table := { d.table with txnMgr := m } }

def begin (d : Database) : Transaction × Database :=
  let p := d.table.txnMgr.begin
  (p.1, (d.withMgr p.2).append p.1.txnId .begin)

def insert (d : Database) (txn : Transaction) (row : Row) : Nat × Database :=
  let p := d.table.insert txn row
  (p.1, { d with table := p.2 }.append txn.txnId .insert p.1 row)

def update (d : Database) (txn : Transaction) (rowId : Nat) (newRow : Row) : Bool × Database :=
  let p := d.table.update txn rowId newRow
  if p.1 then (true, { d with table := p.2 }.append txn.txnId .update rowId newRow)
  else (false, { d with table := p.2 })

def delete (d : Database) (txn : Transaction) (rowId : Nat) : Bool × Database :=
  let p := d.table.delete txn rowId
  if p.1 then (true, { d with table := p.2 }.append txn.txnId .delete rowId)
  else (false, { d with table := p.2 })

def commit (d : Database) (txn : Transaction) : Transaction × Database :=
  let d := d.append txn.txnId .commit
  let p := d.table.txnMgr.commit txn
  (p.1, d.withMgr p.2)

def abort (d : Database) (txn : Transaction) : Transaction × Database :=
  let d := d.append txn.txnId .abort
  let p := d.table.txnMgr.abort txn
  (p.1, d.withMgr p.2)

def checkpoint (d : Database) : Option Database :=
  (writeCheckpoint d.table d.disk d.walWriter.lastLsn).map fun p => { d with table := p.1, disk := p.2 }

end Database

/-! ## What opening does -/

namespace Disk

/-- The checkpoint that recovery starts from: LSN 0 and no segments if there is no
manifest, an error if a segment does not load. -/
def checkpoint (disk : Disk) (userSchema : Schema) : Except String (Nat × List Segment) :=
  match loadManifest disk.manifestPath disk.manifest with
  | .error _ => .ok (0, [])
  | .ok manifest =>
    (loadSegments disk.checkpointDir (fullSchemaOf userSchema) disk.segments manifest.segmentFiles).map
      fun segments => (manifest.lastLsn, segments)

/-- The records that recovery replays. -/
def replayed (disk : Disk) (userSchema : Schema) : List WalRecord :=
  match disk.checkpoint userSchema with
  | .error _ => []
  | .ok p => redoOps p.1 disk.readWal.records

theorem readWal_eq (disk : Disk) : disk.readWal = readAll disk.walBytes := by
  unfold readWal walBytes
  cases disk.wal <;> rfl

/-- The checkpoint of a manifest that a checkpoint wrote. -/
theorem checkpoint_of_manifest (disk : Disk) (userSchema : Schema) {lsn : Nat} (hlsn : lsn < 2 ^ 64)
    {segs : List Segment}
    (h : disk.manifest = some (manifestText lsn (segs.map fun seg => segmentFileName seg.segmentId))) :
    disk.checkpoint userSchema =
      (loadSegments disk.checkpointDir (fullSchemaOf userSchema) disk.segments
        (segs.map fun seg => segmentFileName seg.segmentId)).map fun segments => (lsn, segments) := by
  unfold checkpoint
  rw [h, loadManifest_write disk.manifestPath lsn hlsn segs]

theorem replayed_of_checkpoint {disk : Disk} {userSchema : Schema} {p : Nat × List Segment}
    (h : disk.checkpoint userSchema = .ok p) :
    disk.replayed userSchema = redoOps p.1 (readAll disk.walBytes).records := by
  unfold replayed
  rw [h, readWal_eq]

end Disk

namespace Database

theorem openOn_of_checkpoint {disk : Disk} {userSchema : Schema} {lsn : Nat} {segments : List Segment}
    (h : disk.checkpoint userSchema = .ok (lsn, segments)) :
    (openOn disk userSchema).table =
        (disk.replayed userSchema).foldl Table.applyOp (({ userSchema } : Table).loadBaseSegments segments) ∧
      (openOn disk userSchema).walWriter.nextLsn = max disk.readWal.lastValidLsn lsn + 1 := by
  have hrep : disk.replayed userSchema = redoOps lsn disk.readWal.records := by
    unfold Disk.replayed
    rw [h]
  unfold Disk.checkpoint at h
  unfold openOn recover
  rw [hrep]
  split at h
  · next e he =>
    cases h
    simp only [he]
    exact ⟨rfl, congrArg (· + 1) (replay_lastWalLsn ..)⟩
  · next m hm =>
    simp only [hm, Table.fullSchema]
    cases hl : loadSegments disk.checkpointDir (fullSchemaOf userSchema) disk.segments m.segmentFiles with
    | error e => rw [hl] at h; cases h
    | ok segs =>
      rw [hl] at h
      cases h
      exact ⟨rfl, congrArg (· + 1) (replay_lastWalLsn ..)⟩

end Database

/-! ## Sessions -/

inductive DbOp where
  | txn (op : TxnOp)
  | insert (t : Nat) (row : Row)
  | update (t x : Nat) (row : Row)
  | delete (t x : Nat)
  | checkpoint
deriving DecidableEq, Repr

/-- The call on the table underneath. -/
def DbOp.onTable : DbOp → Op
  | .txn op => .txn op
  | .insert t row => .insert t row
  | .update t x row => .update t x row
  | .delete t x => .delete t x
  | .checkpoint => .compact []

/-- The record that logs an event. -/
def Event.record (lsn : Nat) : Event → WalRecord
  | .begin t => { lsn, txnId := t, type := .begin }
  | .write t x (.insert row) => { lsn, txnId := t, type := .insert, rowId := x, row }
  | .write t x (.update row) => { lsn, txnId := t, type := .update, rowId := x, row }
  | .write t x .delete => { lsn, txnId := t, type := .delete, rowId := x }
  | .commit t _ => { lsn, txnId := t, type := .commit }
  | .abort t => { lsn, txnId := t, type := .abort }

/-- The event is of the kind that `op` logs. -/
def Event.loggedBy : Event → DbOp → Prop
  | .begin _, op => op = .txn .begin
  | .write t _ (.insert row), op => op = .insert t row
  | .write t x (.update row), op => op = .update t x row
  | .write t x .delete, op => op = .delete t x
  | .commit t _, op => op = .txn (.commit t)
  | .abort t, op => op = .txn (.abort t)

/-- The records of some events, with LSNs from `lsn` on. -/
def recordsFrom : Nat → List Event → List WalRecord
  | _, [] => []
  | lsn, e :: es => e.record lsn :: recordsFrom (lsn + 1) es

/-- The data records of the transactions that commit among `records`. -/
def committedWrites (records : List WalRecord) : List WalRecord :=
  records.filter fun rec =>
    rec.type.isData && records.any fun c => c.type == .commit && c.txnId == rec.txnId

structure Session where
  db : Database
  handle : Nat → Option Transaction := fun _ => none
  log : List Event := []

namespace Session

def openOn (disk : Disk) (userSchema : Schema) : Session := { db := .openOn disk userSchema }

def world (s : Session) : World := { table := s.db.table, handle := s.handle, log := s.log }

/-- The session after `e` has been logged, if its record fits. -/
def logged (s : Session) (e : Event) (db : Database) (handle : Nat → Option Transaction) : Option Session :=
  if (e.record s.db.walWriter.nextLsn).writable then some { db, handle, log := s.log ++ [e] } else none

def step (s : Session) : DbOp → Option Session
  | .txn .begin =>
    let p := s.db.begin
    s.logged (.begin p.1.txnId) p.2 (Function.update s.handle p.1.txnId (some p.1))
  | .txn (.commit t) =>
    match s.world.clients.active t with
    | none => none
    | some txn =>
      let p := s.db.commit txn
      s.logged (.commit txn.txnId p.1.commitTs) p.2 (Function.update s.handle p.1.txnId (some p.1))
  | .txn (.abort t) =>
    match s.world.clients.active t with
    | none => none
    | some txn =>
      let p := s.db.abort txn
      s.logged (.abort txn.txnId) p.2 (Function.update s.handle p.1.txnId (some p.1))
  | .insert t row =>
    match s.world.clients.active t with
    | none => none
    | some txn =>
      let p := s.db.insert txn row
      s.logged (.write txn.txnId p.1 (.insert row)) p.2 s.handle
  | .update t x row =>
    match s.world.clients.active t with
    | none => none
    | some txn =>
      let p := s.db.update txn x row
      if p.1 then s.logged (.write txn.txnId x (.update row)) p.2 s.handle else some { s with db := p.2 }
  | .delete t x =>
    match s.world.clients.active t with
    | none => none
    | some txn =>
      let p := s.db.delete txn x
      if p.1 then s.logged (.write txn.txnId x .delete) p.2 s.handle else some { s with db := p.2 }
  | .checkpoint =>
    if s.world.fits && s.db.table.txnMgr.activeTransactionCount == 0 &&
        decide (s.db.walWriter.nextLsn ≤ 2 ^ 64) then
      match s.db.checkpoint with
      | none => none
      | some db => if db.table.baseSegments.all Segment.fitsFile then some { s with db } else none
    else none

/-- What a checkpoint does. -/
theorem step_checkpoint {s s' : Session} (hs : s.step .checkpoint = some s') :
    ∃ t files, s.db.table.compact = some t ∧ saveSegments t.baseSegments s.db.disk.segments = some files ∧
      s.world.fits = true ∧ s.db.table.txnMgr.activeTransactionCount = 0 ∧ s.db.walWriter.nextLsn ≤ 2 ^ 64 ∧
      (∀ seg ∈ t.baseSegments, seg.fitsFile = true) ∧
      s' = { s with db := { s.db with
        table := t
        disk := { s.db.disk with
          segments := files
          manifest := some (manifestText s.db.walWriter.lastLsn
            (t.baseSegments.map fun seg => segmentFileName seg.segmentId)) } } } := by
  simp only [step] at hs
  split at hs
  · next hguard =>
    simp only [Bool.and_eq_true, decide_eq_true_iff, beq_iff_eq] at hguard
    split at hs
    · cases hs
    · next db hdb =>
      split at hs
      · next hfits =>
        cases hs
        unfold Database.checkpoint writeCheckpoint at hdb
        obtain ⟨p, hp, rfl⟩ := Option.map_eq_some_iff.mp hdb
        split at hp
        · cases hp
        · next t ht =>
          obtain ⟨files, hfiles, rfl⟩ := Option.map_eq_some_iff.mp hp
          exact ⟨t, files, ht, hfiles, hguard.1.1, hguard.1.2, hguard.2, List.all_eq_true.mp hfits, rfl⟩
      · cases hs
  · cases hs

/-! ## What a step adds to the log file -/

/-- From `s` to `s'` the events `es` were logged. -/
structure Appended (s s' : Session) (es : List Event) : Prop where
  log : s'.log = s.log ++ es
  wal : s'.db.disk.walBytes = s.db.disk.walBytes ++ logOf (recordsFrom s.db.walWriter.nextLsn es)
  nextLsn : s'.db.walWriter.nextLsn = s.db.walWriter.nextLsn + es.length
  writable : ∀ r ∈ recordsFrom s.db.walWriter.nextLsn es, r.writable = true

end Session

theorem recordsFrom_append (a b : List Event) : ∀ lsn,
    recordsFrom lsn (a ++ b) = recordsFrom lsn a ++ recordsFrom (lsn + a.length) b := by
  induction a with
  | nil => intro lsn; rfl
  | cons e a ih =>
    intro lsn
    rw [List.cons_append, recordsFrom, ih, recordsFrom, List.cons_append, List.length_cons, Nat.add_right_comm,
      Nat.add_assoc]

theorem mem_recordsFrom {es : List Event} : ∀ {lsn : Nat} {r : WalRecord}, r ∈ recordsFrom lsn es →
    ∃ e ∈ es, ∃ n, r = e.record n := by
  induction es with
  | nil => intro lsn r hr; cases hr
  | cons e es ih =>
    intro lsn r hr
    rcases List.mem_cons.mp hr with rfl | hr
    · exact ⟨e, List.mem_cons_self, lsn, rfl⟩
    · obtain ⟨e', he', n, rfl⟩ := ih hr
      exact ⟨e', List.mem_cons_of_mem _ he', n, rfl⟩

theorem committedWrites_eq (records : List WalRecord) : committedWrites records =
    records.filter fun rec => rec.type.isData && (committedTxnIds records).contains rec.txnId := by
  unfold committedWrites
  congr 1
  funext rec
  have hids : (records.any fun c => c.type == .commit && c.txnId == rec.txnId) =
      (committedTxnIds records).contains rec.txnId := by
    rw [Bool.eq_iff_iff, List.contains_iff_mem, mem_committedTxnIds]
    simp
  rw [hids]

theorem mem_committedWrites {records : List WalRecord} {q : WalRecord} :
    q ∈ committedWrites records ↔ q ∈ records ∧ q.type.isData = true ∧ q.txnId ∈ committedTxnIds records := by
  rw [committedWrites_eq]
  simp [List.mem_filter]

theorem Event.record_stored (lsn : Nat) (e : Event) : (e.record lsn).stored = e.record lsn := by
  cases e with
  | write t x w => cases w <;> rfl
  | _ => rfl

theorem Event.record_lsn (lsn : Nat) (e : Event) : (e.record lsn).lsn = lsn := by
  cases e with
  | write t x w => cases w <;> rfl
  | _ => rfl

/-- The log keeps all of a session's records. -/
theorem stored_recordsFrom (es : List Event) : ∀ lsn,
    (recordsFrom lsn es).map WalRecord.stored = recordsFrom lsn es := by
  induction es with
  | nil => intro lsn; rfl
  | cons e es ih => intro lsn; rw [recordsFrom, List.map_cons, ih, Event.record_stored]

theorem lsn_recordsFrom (es : List Event) : ∀ lsn, ∀ r ∈ recordsFrom lsn es, lsn ≤ r.lsn ∧ r.lsn < lsn + es.length := by
  induction es with
  | nil => intro lsn r hr; cases hr
  | cons e es ih =>
    intro lsn r hr
    rw [List.length_cons]
    rcases List.mem_cons.mp hr with rfl | hr
    · rw [Event.record_lsn]
      omega
    · have := ih (lsn + 1) r hr
      omega

theorem increasing_recordsFrom (es : List Event) : ∀ lsn,
    (recordsFrom lsn es).Pairwise fun a b => a.lsn < b.lsn := by
  induction es with
  | nil => intro lsn; exact List.Pairwise.nil
  | cons e es ih =>
    intro lsn
    rw [recordsFrom, List.pairwise_cons]
    refine ⟨fun r hr => ?_, ih _⟩
    rw [Event.record_lsn]
    exact (lsn_recordsFrom es (lsn + 1) r hr).1

namespace Session

theorem appended_nil {s s' : Session} (hlog : s'.log = s.log) (hdisk : s'.db.disk.walBytes = s.db.disk.walBytes)
    (hlsn : s'.db.walWriter = s.db.walWriter) : Appended s s' [] where
  log := by rw [hlog, List.append_nil]
  wal := by simp [recordsFrom, logOf, hdisk]
  nextLsn := by rw [hlsn]; rfl
  writable := by simp [recordsFrom]

/-- The database after a call that logs `e`. -/
structure Logs (s : Session) (e : Event) (db : Database) : Prop where
  writable : (e.record s.db.walWriter.nextLsn).writable = true
  disk : db.disk = { s.db.disk with wal := some (s.db.disk.walBytes ++ frame (e.record s.db.walWriter.nextLsn)) }
  nextLsn : db.walWriter.nextLsn = s.db.walWriter.nextLsn + 1
  recoveryStats : db.recoveryStats = s.db.recoveryStats

theorem Logs.appended {s : Session} {e : Event} {db : Database} (h : s.Logs e db) (handle : Nat → Option Transaction) :
    Appended s { db, handle, log := s.log ++ [e] } [e] where
  log := rfl
  wal := by
    rw [h.disk]
    simp [recordsFrom, logOf, Disk.walBytes]
  nextLsn := h.nextLsn
  writable := by simp [recordsFrom, h.writable]

theorem Appended.trans {s s' s'' : Session} {a b : List Event} (h : Appended s s' a) (h' : Appended s' s'' b) :
    Appended s s'' (a ++ b) where
  log := by rw [h'.log, h.log, List.append_assoc]
  wal := by
    rw [h'.wal, h.wal, h.nextLsn, recordsFrom_append]
    simp [logOf]
  nextLsn := by rw [h'.nextLsn, h.nextLsn, List.length_append, Nat.add_assoc]
  writable := by
    intro r hr
    rw [recordsFrom_append, List.mem_append, ← h.nextLsn] at hr
    exact hr.elim (h.writable r) (h'.writable r)

/-- Handles are kept under their ids. -/
def IdOk (s : Session) : Prop := ∀ t txn, s.handle t = some txn → txn.txnId = t

theorem IdOk.active {s : Session} (h : s.IdOk) {t : Nat} {txn : Transaction}
    (ht : s.world.clients.active t = some txn) : txn.txnId = t :=
  h t txn (Clients.active_eq_some.mp ht).1

theorem logged_eq_some {s s' : Session} {e : Event} {db : Database} {handle : Nat → Option Transaction}
    (h : s.logged e db handle = some s') :
    (e.record s.db.walWriter.nextLsn).writable = true ∧ s' = { db, handle, log := s.log ++ [e] } := by
  unfold logged at h
  split at h
  · next hw => exact ⟨hw, (Option.some.inj h).symm⟩
  · cases h

/-- **What a call can do.**  It writes a checkpoint; or it logs one event; or it is a write that fails
and logs nothing.  But for a checkpoint, the table takes the step of its own that the call is. -/
theorem step_cases {s s' : Session} {op : DbOp} (hs : s.step op = some s') :
    op = .checkpoint ∨
    (∃ e db handle, s' = { db, handle, log := s.log ++ [e] } ∧ s.Logs e db ∧
      (s.IdOk → s.world.step op.onTable = some s'.world)) ∨
    ∃ table, s' = { s with db := { s.db with table } } ∧ s.world.step op.onTable = some s'.world := by
  have htable : s.world.table = s.db.table := rfl
  cases op with
  | txn top =>
    cases top with
    | begin =>
      obtain ⟨hw, rfl⟩ := logged_eq_some hs
      exact Or.inr (Or.inl ⟨_, _, _, rfl, ⟨hw, rfl, rfl, rfl⟩, fun _ => rfl⟩)
    | commit t =>
      simp only [step] at hs
      split at hs
      · cases hs
      · next txn hact =>
        obtain ⟨hw, rfl⟩ := logged_eq_some hs
        refine Or.inr (Or.inl ⟨_, _, _, rfl, ⟨hw, rfl, rfl, rfl⟩, fun hid => ?_⟩)
        simp only [DbOp.onTable, World.step, World.txnStep, Clients.step, hact, Option.map_some]
        rw [hid.active hact]
        rfl
    | abort t =>
      simp only [step] at hs
      split at hs
      · cases hs
      · next txn hact =>
        obtain ⟨hw, rfl⟩ := logged_eq_some hs
        refine Or.inr (Or.inl ⟨_, _, _, rfl, ⟨hw, rfl, rfl, rfl⟩, fun hid => ?_⟩)
        simp only [DbOp.onTable, World.step, World.txnStep, Clients.step, hact, Option.map_some]
        rw [hid.active hact]
        rfl
  | insert t row =>
    simp only [step] at hs
    split at hs
    · cases hs
    · next txn hact =>
      obtain ⟨hw, rfl⟩ := logged_eq_some hs
      refine Or.inr (Or.inl ⟨_, _, _, rfl, ⟨hw, rfl, rfl, rfl⟩, fun hid => ?_⟩)
      simp only [DbOp.onTable, World.step, hact]
      rw [hid.active hact]
      rfl
  | update t x row =>
    simp only [step] at hs
    split at hs
    · cases hs
    · next txn hact =>
      unfold Database.update at hs
      simp only [DbOp.onTable, World.step, hact, htable]
      cases hok : (s.db.table.update txn x row).1 with
      | true =>
        simp only [hok, if_true] at hs
        obtain ⟨hw, rfl⟩ := logged_eq_some hs
        refine Or.inr (Or.inl ⟨_, _, _, rfl, ⟨hw, rfl, rfl, rfl⟩, fun hid => ?_⟩)
        rw [hid.active hact]
        rfl
      | false =>
        simp only [hok, Bool.false_eq_true, if_false, Option.some.injEq] at hs
        subst hs
        exact Or.inr (Or.inr ⟨_, rfl, rfl⟩)
  | delete t x =>
    simp only [step] at hs
    split at hs
    · cases hs
    · next txn hact =>
      unfold Database.delete at hs
      simp only [DbOp.onTable, World.step, hact, htable]
      cases hok : (s.db.table.delete txn x).1 with
      | true =>
        simp only [hok, if_true] at hs
        obtain ⟨hw, rfl⟩ := logged_eq_some hs
        refine Or.inr (Or.inl ⟨_, _, _, rfl, ⟨hw, rfl, rfl, rfl⟩, fun hid => ?_⟩)
        rw [hid.active hact]
        rfl
      | false =>
        simp only [hok, Bool.false_eq_true, if_false, Option.some.injEq] at hs
        subst hs
        exact Or.inr (Or.inr ⟨_, rfl, rfl⟩)
  | checkpoint => exact Or.inl rfl

/-- Who has not begun a transaction can only begin one, or checkpoint. -/
theorem step_of_no_handle {s s' : Session} {op : DbOp} (h : ∀ t, s.handle t = none) (hs : s.step op = some s') :
    op = .txn .begin ∨ op = .checkpoint := by
  have hact : ∀ t, s.world.clients.active t = none := by
    intro t
    cases ht : s.world.clients.active t with
    | none => rfl
    | some txn =>
      have hsome : s.handle t = some txn := (Clients.active_eq_some.mp ht).1
      rw [h t] at hsome
      cases hsome
  cases op with
  | txn top =>
    cases top with
    | begin => exact Or.inl rfl
    | commit t => simp [step, hact] at hs
    | abort t => simp [step, hact] at hs
  | checkpoint => exact Or.inr rfl
  | insert t row => simp [step, hact] at hs
  | update t x row => simp [step, hact] at hs
  | delete t x => simp [step, hact] at hs

/-- **A step logs at most one event**, and only a checkpoint changes the other files. -/
theorem step_appended {s s' : Session} {op : DbOp} (hs : s.step op = some s') :
    ∃ es, es.length ≤ 1 ∧ Appended s s' es ∧
      (op ≠ .checkpoint → s'.db.disk = { s.db.disk with wal := s'.db.disk.wal }) := by
  rcases step_cases hs with rfl | ⟨e, db, handle, rfl, hlogs, -⟩ | ⟨table, rfl, -⟩
  · obtain ⟨t, files, -, -, -, -, -, -, rfl⟩ := step_checkpoint hs
    exact ⟨[], by simp, appended_nil rfl rfl rfl, fun hne => absurd rfl hne⟩
  · refine ⟨[e], Nat.le_refl 1, hlogs.appended handle, fun _ => ?_⟩
    simp only [hlogs.disk]
  · exact ⟨[], by simp, appended_nil rfl rfl rfl, fun _ => rfl⟩

/-- **What a session logs.** -/
theorem run_appended {ops : List DbOp} : ∀ {s s' : Session}, Runs.run step s ops = some s' →
    ∃ es, Appended s s' es ∧
      (.checkpoint ∉ ops → s'.db.disk = { s.db.disk with wal := s'.db.disk.wal }) := by
  induction ops with
  | nil =>
    intro s s' h
    cases h
    exact ⟨[], appended_nil rfl rfl rfl, fun _ => rfl⟩
  | cons op ops ih =>
    intro s s' h
    obtain ⟨s1, hs, hrest⟩ := Runs.run_cons_eq_some.mp h
    obtain ⟨a, -, ha, hfiles⟩ := step_appended hs
    obtain ⟨b, hb, hfiles'⟩ := ih hrest
    refine ⟨a ++ b, ha.trans hb, fun hno => ?_⟩
    rw [List.mem_cons, not_or] at hno
    rw [hfiles' hno.2, hfiles (Ne.symm hno.1)]

/-! ## The table under a session -/

/-- **A step of a session is a step of its table.** -/
theorem step_world {s s' : Session} {op : DbOp} (hid : s.IdOk) (hs : s.step op = some s') :
    s.world.step op.onTable = some s'.world := by
  rcases step_cases hs with rfl | ⟨e, db, handle, -, -, hworld⟩ | ⟨table, -, hworld⟩
  · obtain ⟨t, files, ht, -, hfits, -, -, -, rfl⟩ := step_checkpoint hs
    have hobs : s.world.table.compactUnder (s.world.observed []) = some t := ht
    simp only [DbOp.onTable, World.step, hfits, if_true, List.flatten_nil, Runs.run_nil, hobs, Option.map_some]
    rw [show s.world.table.txnMgr = t.txnMgr from (Table.compactUnder_cases rfl ht).1.2.1.symm]
    rfl
  · exact hworld hid
  · exact hworld

/-- The statistics of recovery stay. -/
theorem step_recoveryStats {s s' : Session} {op : DbOp} (hs : s.step op = some s') :
    s'.db.recoveryStats = s.db.recoveryStats := by
  rcases step_cases hs with rfl | ⟨e, db, handle, rfl, hlogs, -⟩ | ⟨table, rfl, -⟩
  · obtain ⟨t, files, -, -, -, -, -, -, rfl⟩ := step_checkpoint hs
    rfl
  · exact hlogs.recoveryStats
  · rfl

theorem onTable_eq_txn {op : DbOp} {top : TxnOp} (h : op.onTable = .txn top) : op = .txn top := by
  cases op <;> cases h
  rfl

/-- What a step of the table does to handles and log, for a call of a session. -/
theorem step_kept {w w' : World} {op : DbOp} {o : Op} (ho : op.onTable = o)
    (hid : ∀ t txn, w.handle t = some txn → txn.txnId = t) (hst : World.Step w o w') :
    (∀ t txn, w'.handle t = some txn → txn.txnId = t) ∧
      ∃ es, w'.log = w.log ++ es ∧ ∀ e ∈ es, e.loggedBy op := by
  cases hst with
  | txn top c hc =>
    have hput : ∀ p : Transaction × TransactionManager, ∀ t txn, (w.clients.put p).handle t = some txn →
        txn.txnId = t := by
      intro p t txn ht
      simp only [Clients.put, Function.update_apply] at ht
      split at ht
      · next heq => rw [← Option.some.inj ht, heq]
      · exact hid t txn ht
    obtain rfl := onTable_eq_txn ho
    refine ⟨?_, [_], rfl, ?_⟩
    · rcases Clients.step_cases hc with ⟨-, rfl⟩ | ⟨t, txn, -, -, rfl⟩ | ⟨t, txn, -, -, rfl⟩ <;> exact hput _
    · intro e he
      rw [List.mem_singleton.mp he]
      cases top <;> rfl
  | insert t x txn row hop hact hnew =>
    refine ⟨hid, [_], rfl, fun e he => ?_⟩
    rw [List.mem_singleton.mp he]
    rcases hop with ⟨rfl, -⟩ | rfl
    · cases op <;> cases ho
      rfl
    · cases op <;> cases ho
  | write t x txn delta wr hop hcl =>
    refine ⟨hid, [_], rfl, fun e he => ?_⟩
    rw [List.mem_singleton.mp he]
    rcases hop with ⟨row, rfl, rfl⟩ | ⟨rfl, rfl⟩
    · cases op <;> cases ho
      rfl
    · cases op <;> cases ho
      rfl
  | fail t x txn hop hact href => exact ⟨hid, [], by simp, by simp⟩
  | compact during w1 t hfits hran ht =>
    have hnil : during = [] := by
      cases op <;> cases ho
      rfl
    rw [hnil] at hran
    obtain rfl := Option.some.inj hran
    exact ⟨hid, [], by simp, by simp⟩

/-- A step keeps handles under their ids and logs events of its kind. -/
theorem IdOk.step {s s' : Session} {op : DbOp} (h : s.IdOk) (hs : s.step op = some s') :
    s'.IdOk ∧ ∃ es, s'.log = s.log ++ es ∧ ∀ e ∈ es, e.loggedBy op :=
  step_kept (w := s.world) rfl h (World.step_cases (fun _ _ ht => h.active ht) (step_world h hs))

end Session

end CoreDB
