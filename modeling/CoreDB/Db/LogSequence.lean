import CoreDB.Db.History
import CoreDB.Storage.SegmentLayout

/-!
# Log sequence numbers over the life of a log

The writer of a session starts behind the last LSN that recovery reports.  When a
segment file of the checkpoint does not load, `Recover` returns before it has read the
log, and reports 0.  The error is kept in the statistics; a session that is used all
the same numbers its records from 1 again.

`LogLife` is a directory whose segment files may be damaged while it is closed, with
the checkpoints made so far.  `lsns_increase_iff`: the LSNs of the log increase, and stay
behind every checkpoint, if and only if no session that was opened with an error begins a
transaction.
-/

namespace CoreDB

open ByteCodec
open TextFile

structure LogLife where
  history : History
  /-- Of each checkpoint its `last_lsn` and how many records the log had. -/
  checkpoints : List (Nat × Nat) := []

/-- A call, or a segment file that changes or is lost while the directory is closed. -/
inductive LifeOp where
  | call (op : HistoryOp)
  | damage (name : Text) (content : Option Bytes)
deriving DecidableEq, Repr

namespace LogLife

def create (dataDir : String) (userSchema : Schema) : LogLife := { history := .create dataDir userSchema }

/-- The records of the log, as they are read. -/
def records (l : LogLife) : List WalRecord := (readAll l.history.disk.walBytes).records

/-- The checkpoint that the call makes. -/
def marks (l : LogLife) : HistoryOp → List (Nat × Nat)
  | .op .checkpoint => l.history.session.toList.map fun s => (s.db.walWriter.lastLsn, l.records.length)
  | _ => []

def step (l : LogLife) : LifeOp → Option LogLife
  | .call op => (l.history.step op).map fun h => { history := h, checkpoints := l.checkpoints ++ l.marks op }
  | .damage name content =>
    match l.history.session with
    | some _ => none
    | none =>
      let disk := l.history.disk
      some { l with history := { l.history with
        disk := { disk with segments := Function.update disk.segments name content } } }

/-- The LSNs of the log increase, and what was logged after a checkpoint is behind it. -/
def LsnsIncrease (l : LogLife) : Prop :=
  (l.records.Pairwise fun a b => a.lsn < b.lsn) ∧
    ∀ p ∈ l.checkpoints, ∀ r ∈ l.records.drop p.2, p.1 < r.lsn

/-- No transaction is begun after recovery has reported an error. -/
def beginsRecovered (l : LogLife) : LifeOp → Bool
  | .call (.op (.txn .begin)) => l.history.session.all fun s => s.db.recoveryStats.error == ""
  | _ => true

end LogLife

/-! ## Opening with an error -/

/-- What was loaded passes the integrity check. -/
theorem Segment.verifyIntegrity_of_load {path : String} {schema : Schema} {file : Option Bytes} {seg : Segment}
    (h : loadFromFile path schema file = .ok seg) : seg.verifyIntegrity = .ok () := by
  cases file with
  | none => cases h
  | some bs =>
    obtain ⟨images, rest, -, hcols⟩ := (load_eq_ok_iff.mp h).parts
    refine forM_eq_ok fun p hp => ?_
    obtain ⟨s, -, image, hl⟩ := mem_columnsLayout hcols p.1 (List.fst_mem_of_mem_zipIdx hp)
    rw [if_pos hl.checksum.symm]

theorem verifyIntegrity_of_loadSegments {dir : String} {schema : Schema} {files : Text → Option Bytes} :
    ∀ {names : List Text} {segs : List Segment}, loadSegments dir schema files names = .ok segs →
      ∀ seg ∈ segs, seg.verifyIntegrity = .ok () := by
  intro names
  induction names with
  | nil =>
    intro segs h seg hseg
    cases h
    cases hseg
  | cons name names ih =>
    intro segs h seg hseg
    obtain ⟨first, hfirst, h⟩ := bind_eq_ok.mp h
    obtain ⟨more, hmore, heq⟩ := bind_eq_ok.mp h
    cases heq
    rcases List.mem_cons.mp hseg with rfl | hseg
    · exact Segment.verifyIntegrity_of_load hfirst
    · exact ih hmore seg hseg

theorem RecoveryStats.verify_of_ok (stats : RecoveryStats) {segs : List Segment}
    (h : ∀ seg ∈ segs, seg.verifyIntegrity = .ok ()) : stats.verify segs = stats := by
  unfold RecoveryStats.verify
  induction segs with
  | nil => rfl
  | cons seg segs ih =>
    rw [List.foldl_cons, h seg List.mem_cons_self]
    exact ih fun q hq => h q (List.mem_cons_of_mem _ hq)

theorem Table.redo_baseSegments (t : Table) (txn : Transaction) (op : WalRecord) :
    (t.redo txn op).2.baseSegments = t.baseSegments := by
  unfold redo
  cases op.type with
  | update =>
    unfold update
    dsimp only
    split <;> rfl
  | _ => rfl

theorem Table.foldl_applyOp_baseSegments (ops : List WalRecord) : ∀ t : Table,
    (ops.foldl applyOp t).baseSegments = t.baseSegments := by
  induction ops with
  | nil => intro t; rfl
  | cons op ops ih =>
    intro t
    rw [List.foldl_cons, ih]
    exact redo_baseSegments ..

theorem replay_error (disk : Disk) (stats : RecoveryStats) {t : Table}
    (h : ∀ seg ∈ t.baseSegments, seg.verifyIntegrity = .ok ()) : (replay disk stats t).1.error = stats.error := by
  unfold replay
  dsimp only
  rw [RecoveryStats.verify_of_ok]
  rw [Table.foldl_applyOp_baseSegments]
  exact h

namespace Database

/-- Recovery that gets through has no error. -/
theorem openOn_of_loads {disk : Disk} {userSchema : Schema} (h : disk.loads userSchema = true) :
    (openOn disk userSchema).recoveryStats.error = "" := by
  unfold Disk.loads Disk.checkpoint at h
  unfold openOn recover
  cases hm : loadManifest disk.manifestPath disk.manifest with
  | error e => exact replay_error disk {} (by simp)
  | ok m =>
    cases hl : loadSegments disk.checkpointDir (fullSchemaOf userSchema) disk.segments m.segmentFiles with
    | error e => simp [hm, hl, Except.map] at h
    | ok segs =>
      simp only [Table.fullSchema, hl]
      exact replay_error disk _ (verifyIntegrity_of_loadSegments hl)

/-- Recovery that returns early says so, and reports LSN 0. -/
theorem openOn_of_not_loads {disk : Disk} {userSchema : Schema} (h : disk.loads userSchema = false) :
    (openOn disk userSchema).recoveryStats.error ≠ "" ∧ (openOn disk userSchema).walWriter.nextLsn = 1 ∧
      ∃ m, loadManifest disk.manifestPath disk.manifest = .ok m ∧ m.segmentFiles ≠ [] := by
  unfold Disk.loads Disk.checkpoint at h
  cases hm : loadManifest disk.manifestPath disk.manifest with
  | error e => simp [hm] at h
  | ok m =>
    cases hl : loadSegments disk.checkpointDir (fullSchemaOf userSchema) disk.segments m.segmentFiles with
    | ok segs => simp [hm, hl, Except.map] at h
    | error e =>
      have hopen : openOn disk userSchema =
          { table := { userSchema }
            walWriter := { nextLsn := 1 }
            recoveryStats := {
              checkpointFound := true
              checkpointLsn := m.lastLsn
              error := "checkpoint segment load failed: " ++ e }
            disk := { disk with wal := some disk.walBytes } } := by
        unfold openOn recover
        simp only [hm, Table.fullSchema, hl]
      rw [hopen]
      refine ⟨?_, rfl, m, rfl, ?_⟩
      · intro hempty
        have hlen := congrArg String.length hempty
        simp at hlen
      · intro hnil
        rw [hnil] at hl
        cases hl

end Database

/-- The LSN of a checkpoint that loads is the manifest's. -/
theorem Disk.lsn_of_checkpoint {disk : Disk} {userSchema : Schema} {p : Nat × List Segment}
    (h : disk.checkpoint userSchema = .ok p) :
    p.1 = 0 ∨ ∃ m, loadManifest disk.manifestPath disk.manifest = .ok m ∧ p.1 = m.lastLsn := by
  unfold checkpoint at h
  split at h
  · cases h
    exact Or.inl rfl
  · next m hm =>
    refine Or.inr ⟨m, hm, ?_⟩
    cases hl : loadSegments disk.checkpointDir (fullSchemaOf userSchema) disk.segments m.segmentFiles with
    | error e => rw [hl] at h; cases h
    | ok segs => rw [hl] at h; cases h; rfl

/-! ## The invariant -/

/-- Nothing, or the LSN of a record of the log or less. -/
def Reached (records : List WalRecord) (lsn : Nat) : Prop := lsn = 0 ∨ ∃ r ∈ records, lsn ≤ r.lsn

theorem Reached.mono {records more : List WalRecord} {lsn : Nat} (h : Reached records lsn) :
    Reached (records ++ more) lsn := by
  rcases h with h | ⟨r, hr, hle⟩
  · exact Or.inl h
  · exact Or.inr ⟨r, List.mem_append_left _ hr, hle⟩

theorem Reached.lt {records : List WalRecord} {lsn next : Nat} (h : Reached records lsn) (hpos : 0 < next)
    (hlt : ∀ r ∈ records, r.lsn < next) : lsn < next := by
  rcases h with rfl | ⟨r, hr, hle⟩
  · exact hpos
  · exact Nat.lt_of_le_of_lt hle (hlt r hr)

theorem Reached.max {records : List WalRecord} {a b : Nat} (ha : Reached records a) (hb : Reached records b) :
    Reached records (max a b) := by
  rcases Nat.le_total a b with h | h
  · rw [Nat.max_eq_right h]; exact hb
  · rw [Nat.max_eq_left h]; exact ha

theorem reached_lastValidLsn (records : List WalRecord) : Reached records (readOf records).lastValidLsn := by
  unfold readOf
  cases hlast : records.getLast? with
  | none => exact Or.inl rfl
  | some r => exact Or.inr ⟨r, List.mem_of_getLast? hlast, Nat.le_refl _⟩

/-- The last record of some that are appended. -/
theorem reached_recordsFrom {records : List WalRecord} {lsn : Nat} (h : Reached records (lsn - 1)) (es : List Event) :
    Reached (records ++ recordsFrom lsn es) (lsn + es.length - 1) := by
  rcases List.eq_nil_or_concat es with rfl | ⟨es, e, rfl⟩
  · exact h.mono
  · refine Or.inr ⟨e.record (lsn + es.length), ?_, ?_⟩
    · rw [List.concat_eq_append, recordsFrom_append]
      simp [recordsFrom]
    · rw [Event.record_lsn]
      simp only [List.length_concat]
      omega

namespace LogLife

/-- What an open session is to the log and the checkpoints. -/
structure SessionInv (l : LogLife) (s : Session) : Prop where
  disk : s.db.disk = l.history.disk
  idOk : s.IdOk
  positive : 0 < s.db.walWriter.nextLsn
  reached : Reached l.history.records s.db.walWriter.lastLsn
  behind : s.db.recoveryStats.error = "" → (∀ r ∈ l.history.records, r.lsn < s.db.walWriter.nextLsn) ∧
    ∀ p ∈ l.checkpoints, p.1 < s.db.walWriter.nextLsn
  failed : s.db.recoveryStats.error ≠ "" → s.db.walWriter.nextLsn = 1 ∧ l.history.records ≠ [] ∧
    ∀ t, s.handle t = none
  fresh : l.history.records = [] → (∀ t, s.handle t = none) ∧ s.db.table.delta = [] ∧ s.db.table.baseSegments = []

structure Inv (l : LogLife) : Prop where
  log : l.history.LogInv
  increasing : l.history.records.Pairwise fun a b => a.lsn < b.lsn
  positive : ∀ r ∈ l.history.records, 0 < r.lsn
  manifest : ∀ m, loadManifest l.history.disk.manifestPath l.history.disk.manifest = .ok m →
    Reached l.history.records m.lastLsn ∧ (l.history.records = [] → m.segmentFiles = [])
  checkpoints : ∀ p ∈ l.checkpoints, Reached l.history.records p.1 ∧ p.2 ≤ l.history.records.length ∧
    ∀ r ∈ l.history.records.drop p.2, p.1 < r.lsn
  session : ∀ s, l.history.session = some s → l.SessionInv s

theorem Inv.records_eq {l : LogLife} (hi : l.Inv) : l.records = l.history.records := hi.log.readAll_disk

theorem Inv.lsnsIncrease {l : LogLife} (hi : l.Inv) : l.LsnsIncrease := by
  unfold LsnsIncrease
  rw [hi.records_eq]
  exact ⟨hi.increasing, fun p hp => (hi.checkpoints p hp).2.2⟩

theorem inv_create (dataDir : String) (userSchema : Schema) : (create dataDir userSchema).Inv where
  log := (History.inv_create dataDir userSchema).toLogInv
  increasing := List.Pairwise.nil
  positive := by simp [create, History.create, History.records]
  manifest := by
    intro m hm
    cases hm
  checkpoints := by simp [create]
  session := by simp [create, History.create]

/-! ## Opening -/

/-- Without records no checkpoint has segments. -/
theorem Inv.checkpoint_of_fresh {l : LogLife} (hi : l.Inv) (h : l.history.records = []) :
    ∃ lsn, l.history.disk.checkpoint l.history.userSchema = .ok (lsn, []) := by
  unfold Disk.checkpoint
  cases hm : loadManifest l.history.disk.manifestPath l.history.disk.manifest with
  | error e => exact ⟨0, rfl⟩
  | ok m =>
    refine ⟨m.lastLsn, ?_⟩
    simp only [(hi.manifest m hm).2 h, loadSegments]
    rfl

theorem Inv.reached_openOn {l : LogLife} (hi : l.Inv) :
    Reached l.history.records (Session.openOn l.history.disk l.history.userSchema).db.walWriter.lastLsn := by
  unfold WalWriter.lastLsn
  cases hload : l.history.disk.loads l.history.userSchema with
  | false => exact Or.inl (by rw [show (Session.openOn l.history.disk l.history.userSchema).db.walWriter.nextLsn = 1 from
      (Database.openOn_of_not_loads hload).2.1])
  | true =>
    have hok := hload
    unfold Disk.loads at hok
    split at hok
    · next p hp =>
      have hnext : (Session.openOn l.history.disk l.history.userSchema).db.walWriter.nextLsn =
          max l.history.disk.readWal.lastValidLsn p.1 + 1 := (Database.openOn_of_checkpoint hp).2
      rw [hnext, Nat.add_sub_cancel, Disk.readWal_eq, hi.log.wal, readAll_logOf _ hi.log.writable]
      refine Reached.max (reached_lastValidLsn _) ?_
      rcases Disk.lsn_of_checkpoint hp with hzero | ⟨m, hm, heq⟩
      · exact Or.inl hzero
      · rw [heq]
        exact (hi.manifest m hm).1
    · cases hok

/-- **Opening** keeps the invariant. -/
theorem Inv.openOn {l l' : LogLife} (hi : l.Inv)
    (hl' : l' = { l with history := { l.history with
      disk := { l.history.disk with wal := some l.history.disk.walBytes }
      session := some (Session.openOn l.history.disk l.history.userSchema)
      opened := l.history.opened + 1 } }) : l'.Inv := by
  subst hl'
  refine ⟨⟨hi.log.wal, hi.log.writable, hi.log.stored⟩, hi.increasing, hi.positive, hi.manifest, hi.checkpoints, ?_⟩
  intro s hs
  cases hs
  have hreached := hi.reached_openOn
  have hpos : 0 < (Session.openOn l.history.disk l.history.userSchema).db.walWriter.nextLsn := Nat.succ_pos _
  refine ⟨rfl, by simp [Session.IdOk, Session.openOn], hpos, hreached, fun herr => ?_, fun herr => ?_, fun hfresh => ?_⟩
  · have hload : l.history.disk.loads l.history.userSchema = true := by
      cases hload : l.history.disk.loads l.history.userSchema with
      | true => rfl
      | false => exact absurd herr (Database.openOn_of_not_loads hload).1
    have hlt := hi.log.lt_nextLsn hi.increasing hload
    exact ⟨hlt, fun p hp => (hi.checkpoints p hp).1.lt hpos hlt⟩
  · cases hload : l.history.disk.loads l.history.userSchema with
    | true => exact absurd (Database.openOn_of_loads hload) herr
    | false =>
      obtain ⟨-, hnext, m, hm, hfiles⟩ := Database.openOn_of_not_loads hload
      exact ⟨hnext, fun hnil => hfiles ((hi.manifest m hm).2 hnil), fun _ => rfl⟩
  · obtain ⟨lsn, hck⟩ := hi.checkpoint_of_fresh hfresh
    have hreplayed : l.history.disk.replayed l.history.userSchema = [] := by
      rw [Disk.replayed_of_checkpoint hck, hi.log.readAll_disk]
      rw [show l.history.records = [] from hfresh]
      rfl
    have htable : (Session.openOn l.history.disk l.history.userSchema).db.table = _ :=
      (Database.openOn_of_checkpoint hck).1
    rw [hreplayed, List.foldl_nil] at htable
    rw [htable]
    exact ⟨fun _ => rfl, rfl, rfl⟩

/-! ## Calls -/

end LogLife

namespace Session

/-- A `Begin` logs its record. -/
theorem begin_appended {s s' : Session} {es : List Event} (hs : s.step (.txn .begin) = some s')
    (appended : s.Appended s' es) : ∃ e, es = [e] := by
  have hlog : s'.log = s.log ++ [_] := congrArg Session.log (logged_eq_some hs).2
  exact ⟨_, List.append_cancel_left (appended.log.symm.trans hlog)⟩

end Session

namespace LogLife

/-- The session after a call that logs `es`. -/
theorem SessionInv.logged {l l' : LogLife} {op : DbOp} {s s' : Session} {es : List Event} (hsi : l.SessionInv s)
    (herr : s.db.recoveryStats.error = "") (stepped : s.step op = some s') (appended : s.Appended s' es)
    (idOk : s'.IdOk) (hdisk : s'.db.disk = l'.history.disk)
    (hrecords : l'.history.records = l.history.records ++ recordsFrom s.db.walWriter.nextLsn es)
    (hcheckpoints : l'.checkpoints = l.checkpoints)
    (hlsn : ∀ r ∈ l'.history.records, r.lsn < s'.db.walWriter.nextLsn) (hne : l'.history.records ≠ []) :
    l'.SessionInv s' := by
  have hpos := hsi.positive
  refine ⟨hdisk, idOk, ?_, ?_, fun _ => ⟨hlsn, fun p hp => ?_⟩, fun hbad => ?_, fun hnil => absurd hnil hne⟩
  · rw [appended.nextLsn]
    omega
  · rw [WalWriter.lastLsn, appended.nextLsn, hrecords]
    exact reached_recordsFrom hsi.reached es
  · rw [hcheckpoints] at hp
    have := (hsi.behind herr).2 p hp
    rw [appended.nextLsn]
    omega
  · rw [Session.step_recoveryStats stepped] at hbad
    exact absurd herr hbad

/-- The session logs what goes on with the log. -/
theorem Inv.logged {l l' : LogLife} {op : DbOp} {s s' : Session} {es : List Event} (hi : l.Inv)
    (isOpen : l.history.session = some s) (herr : s.db.recoveryStats.error = "") (hop : op ≠ .checkpoint)
    (stepped : s.step op = some s') (appended : s.Appended s' es)
    (files : s'.db.disk = { s.db.disk with wal := s'.db.disk.wal }) (idOk : s'.IdOk)
    (hl' : l' = { l with history := l.history.logged s' (recordsFrom s.db.walWriter.nextLsn es) }) : l'.Inv := by
  have hsi := hi.session s isOpen
  obtain ⟨hlsn, hmarks⟩ := hsi.behind herr
  obtain ⟨hinc, hlsn'⟩ := History.increasing_logged hi.increasing hlsn appended
  have hrecords : l'.history.records = l.history.records ++ recordsFrom s.db.walWriter.nextLsn es := by
    rw [hl']
    exact History.records_logged ..
  have hnew := lsn_recordsFrom es s.db.walWriter.nextLsn
  have hpos := hsi.positive
  have hne : l'.history.records ≠ [] := by
    rw [hrecords]
    intro hnil
    obtain ⟨hold, hes⟩ := List.append_eq_nil_iff.mp hnil
    rcases Session.step_of_no_handle (hsi.fresh hold).1 stepped with rfl | rfl
    · obtain ⟨e, rfl⟩ := Session.begin_appended stepped appended
      cases hes
    · exact hop rfl
  have hdisk : l'.history.disk = s'.db.disk := by rw [hl']; rfl
  have hmanifest : l'.history.disk.manifest = l.history.disk.manifest := by
    rw [hdisk, files, hsi.disk]
  have hpath : l'.history.disk.manifestPath = l.history.disk.manifestPath := by
    rw [hdisk, files, hsi.disk]
    rfl
  refine ⟨?_, ?_, ?_, ?_, ?_, ?_⟩
  · rw [hl']
    exact hi.log.logged hsi.disk appended
  · rw [hl']
    exact hinc
  · rw [hrecords]
    intro r hr
    rcases List.mem_append.mp hr with hr | hr
    · exact hi.positive r hr
    · have := (hnew r hr).1
      omega
  · intro m hm
    rw [hpath, hmanifest] at hm
    exact ⟨by rw [hrecords]; exact (hi.manifest m hm).1.mono, fun hnil => absurd hnil hne⟩
  · intro p hp
    rw [hl'] at hp
    obtain ⟨hreached, hlen, hdrop⟩ := hi.checkpoints p hp
    rw [hrecords]
    refine ⟨hreached.mono, by rw [List.length_append]; omega, ?_⟩
    rw [List.drop_append_of_le_length hlen]
    intro r hr
    rcases List.mem_append.mp hr with hr | hr
    · exact hdrop r hr
    · exact Nat.lt_of_lt_of_le (hmarks p hp) (hnew r hr).1
  · intro z hz
    obtain rfl : s' = z := by
      rw [hl'] at hz
      exact Option.some.inj hz
    exact hsi.logged herr stepped appended idOk hdisk.symm hrecords (by rw [hl']) (by rw [hl']; exact hlsn') hne

/-- A checkpoint of nothing has no segments. -/
theorem compact_empty {t t' : Table} (hdelta : t.delta = []) (hbase : t.baseSegments = [])
    (h : t.compact = some t') : t'.delta = [] ∧ t'.baseSegments = [] := by
  have hloop : compactLoop (fun _ => t.txnMgr) t.txnMgr.oldestActiveSnapshot [] = {} := rfl
  unfold Table.compact Table.compactUnder at h
  simp only [hdelta, hloop, ne_eq, not_true_eq_false, or_self, if_false, Option.some.injEq] at h
  rw [← h]
  exact ⟨rfl, hbase⟩

/-- Without records there is nothing to checkpoint. -/
theorem SessionInv.compact_fresh {l : LogLife} {s : Session} (hsi : l.SessionInv s) {t : Table}
    (hcompact : s.db.table.compact = some t) (hnil : l.history.records = []) : t.delta = [] ∧ t.baseSegments = [] :=
  compact_empty (hsi.fresh hnil).2.1 (hsi.fresh hnil).2.2 hcompact

/-- The session after a checkpoint. -/
theorem SessionInv.checkpoint {l l' : LogLife} {s s' : Session} (hsi : l.SessionInv s)
    (stepped : s.step .checkpoint = some s') (idOk : s'.IdOk) (hdisk : s'.db.disk = l'.history.disk)
    (hrecords : l'.history.records = l.history.records)
    (hcheckpoints : l'.checkpoints = l.checkpoints ++ [(s.db.walWriter.lastLsn, l.history.records.length)]) :
    l'.SessionInv s' := by
  obtain ⟨t, files, hcompact, -, -, -, -, -, rfl⟩ := Session.step_checkpoint stepped
  have hlast : s.db.walWriter.lastLsn < s.db.walWriter.nextLsn := by
    have := hsi.positive
    unfold WalWriter.lastLsn
    omega
  refine ⟨hdisk, idOk, hsi.positive, ?_, fun herr => ?_, fun hbad => ?_, fun hnil => ?_⟩
  · rw [hrecords]
    exact hsi.reached
  · rw [hrecords]
    refine ⟨(hsi.behind herr).1, fun p hp => ?_⟩
    rw [hcheckpoints] at hp
    rcases List.mem_append.mp hp with hp | hp
    · exact (hsi.behind herr).2 p hp
    · rw [List.mem_singleton.mp hp]
      exact hlast
  · rw [hrecords]
    exact hsi.failed hbad
  · rw [hrecords] at hnil
    exact ⟨(hsi.fresh hnil).1, hsi.compact_fresh hcompact hnil⟩

theorem Inv.checkpoint {l l' : LogLife} {s s' : Session} (hi : l.Inv) (isOpen : l.history.session = some s)
    (stepped : s.step .checkpoint = some s') (idOk : s'.IdOk)
    (hl' : l' = { history := l.history.logged s' [], checkpoints := l.checkpoints ++ l.marks (.op .checkpoint) }) :
    l'.Inv := by
  have hsi := hi.session s isOpen
  have hrecords : l'.history.records = l.history.records := by
    rw [hl', History.records_logged, List.append_nil]
  have hcheckpoints : l'.checkpoints = l.checkpoints ++ [(s.db.walWriter.lastLsn, l.history.records.length)] := by
    rw [hl']
    unfold marks
    rw [isOpen, hi.records_eq]
    rfl
  have hdisk : s'.db.disk = l'.history.disk := by
    rw [hl']
    rfl
  refine ⟨?_, ?_, ?_, ?_, ?_, ?_⟩
  · refine ⟨?_, ?_, ?_⟩
    · obtain ⟨t, files, -, -, -, -, -, -, rfl⟩ := Session.step_checkpoint stepped
      rw [hrecords, ← hi.log.wal, ← hdisk, ← hsi.disk]
      rfl
    · rw [hrecords]
      exact hi.log.writable
    · rw [hrecords]
      exact hi.log.stored
  · rw [hrecords]
    exact hi.increasing
  · rw [hrecords]
    exact hi.positive
  · intro m hm
    obtain ⟨t, files, hcompact, -, -, -, hlsn, -, rfl⟩ := Session.step_checkpoint stepped
    have hman : l'.history.disk.manifest = some (manifestText s.db.walWriter.lastLsn
        (t.baseSegments.map fun seg => segmentFileName seg.segmentId)) := by
      rw [← hdisk]
    have hlast : s.db.walWriter.lastLsn ≤ s.db.walWriter.nextLsn - 1 := Nat.le_refl _
    have := hsi.positive
    rw [hman, loadManifest_write _ _ (by omega)] at hm
    cases hm
    rw [hrecords]
    refine ⟨hsi.reached, fun hnil => ?_⟩
    rw [(hsi.compact_fresh hcompact hnil).2]
    rfl
  · intro p hp
    rw [hrecords]
    rw [hcheckpoints] at hp
    rcases List.mem_append.mp hp with hp | hp
    · exact hi.checkpoints p hp
    · rw [List.mem_singleton.mp hp]
      exact ⟨hsi.reached, Nat.le_refl _, by simp⟩
  · intro z hz
    rw [hl'] at hz
    cases hz
    exact hsi.checkpoint stepped idOk hdisk hrecords hcheckpoints

/-- **One step** keeps the invariant, if it begins no transaction after an error. -/
theorem Inv.step {l l' : LogLife} {op : LifeOp} (hi : l.Inv) (hq : l.beginsRecovered op = true)
    (hs : l.step op = some l') : l'.Inv := by
  cases op with
  | damage name content =>
    simp only [LogLife.step] at hs
    split at hs
    · cases hs
    · next hclosed =>
      cases hs
      exact ⟨⟨hi.log.wal, hi.log.writable, hi.log.stored⟩, hi.increasing, hi.positive, hi.manifest, hi.checkpoints,
        fun s hsome => by cases hclosed.symm.trans hsome⟩
  | call op =>
    obtain ⟨h', hh', rfl⟩ := Option.map_eq_some_iff.mp hs
    cases History.step_cases (fun s hsome => (hi.session s hsome).idOk) hh' with
    | start closed => exact hi.openOn (by simp [marks])
    | stop s isOpen =>
      exact ⟨⟨hi.log.wal, hi.log.writable, hi.log.stored⟩, hi.increasing, hi.positive, hi.manifest,
        fun p hp => hi.checkpoints p (by simpa [marks] using hp), fun s hsome => by cases hsome⟩
    | op op s s' es isOpen stepped appended kind files idOk =>
      by_cases hop : op = .checkpoint
      · subst hop
        have hes : es = [] := by
          cases es with
          | nil => rfl
          | cons e es =>
            have hkind := kind e List.mem_cons_self
            cases e with
            | write t x w => cases w <;> cases hkind
            | _ => cases hkind
        subst hes
        exact hi.checkpoint isOpen stepped idOk rfl
      · refine hi.logged isOpen ?_ hop stepped appended (files hop) idOk ?_
        · by_cases herr : s.db.recoveryStats.error = ""
          · exact herr
          · -- nobody has a handle, so this is a `Begin`, and there the condition applies
            rcases Session.step_of_no_handle ((hi.session s isOpen).failed herr).2.2 stepped with rfl | rfl
            · simpa [beginsRecovered, isOpen] using hq
            · exact absurd rfl hop
        · cases op with
          | checkpoint => exact absurd rfl hop
          | _ => simp [marks]

/-- **A transaction begun after an error** gets LSN 1, behind a log that is not empty. -/
theorem Inv.begin_after_error {l l' : LogLife} {s : Session} (hi : l.Inv) (isOpen : l.history.session = some s)
    (herr : s.db.recoveryStats.error ≠ "") (hs : l.step (.call (.op (.txn .begin))) = some l') :
    ¬ l'.LsnsIncrease := by
  obtain ⟨h', hh', rfl⟩ := Option.map_eq_some_iff.mp hs
  cases History.step_cases (fun s hsome => (hi.session s hsome).idOk) hh' with
  | op op s2 s' es isOpen' stepped appended kind files idOk =>
    obtain rfl : s = s2 := Option.some.inj (isOpen.symm.trans isOpen')
    obtain ⟨hnext, hne, -⟩ := (hi.session s isOpen).failed herr
    have hread := (hi.log.logged (hi.session s isOpen).disk appended).readAll_disk
    obtain ⟨e, rfl⟩ := Session.begin_appended stepped appended
    rintro ⟨hinc, -⟩
    unfold records at hinc
    rw [hread, History.records_logged, hnext, List.pairwise_append] at hinc
    obtain ⟨r, hr⟩ := List.exists_mem_of_ne_nil _ hne
    have hlt := hinc.2.2 r hr (e.record 1) (by simp [recordsFrom])
    rw [Event.record_lsn] at hlt
    have := hi.positive r hr
    omega

theorem always_lsnsIncrease_iff (ops : List LifeOp) : ∀ l l' : LogLife, l.Inv → Runs.run step l ops = some l' →
    (Runs.Always step LsnsIncrease l ops ↔ Runs.Along step (fun l op => l.beginsRecovered op = true) l ops) := by
  induction ops with
  | nil =>
    intro l l' hi _
    exact iff_of_true hi.lsnsIncrease trivial
  | cons op ops ih =>
    intro l l' hi hrun
    obtain ⟨l1, hs, hrest⟩ := Runs.run_cons_eq_some.mp hrun
    constructor
    · rintro ⟨-, hall⟩
      have hall1 := hall l1 hs
      have hinc : l1.LsnsIncrease := by
        cases ops with
        | nil => exact hall1
        | cons op ops => exact hall1.1
      have hq : l.beginsRecovered op = true := by
        by_cases hq : l.beginsRecovered op = true
        · exact hq
        · unfold beginsRecovered at hq
          split at hq
          · obtain ⟨s, isOpen, herr⟩ : ∃ s, l.history.session = some s ∧ s.db.recoveryStats.error ≠ "" := by
              cases hsession : l.history.session with
              | none => simp [hsession] at hq
              | some s => exact ⟨s, rfl, by simpa [hsession] using hq⟩
            exact absurd hinc (hi.begin_after_error isOpen herr hs)
          · exact absurd rfl hq
      refine ⟨hq, fun l2 hs2 => ?_⟩
      rw [hs] at hs2
      rw [← Option.some.inj hs2]
      exact (ih l1 l' (hi.step hq hs) hrest).mp hall1
    · rintro ⟨hq, hall⟩
      refine ⟨hi.lsnsIncrease, fun l2 hs2 => ?_⟩
      have halong := hall l2 hs2
      rw [hs] at hs2
      rw [← Option.some.inj hs2] at halong ⊢
      exact (ih l1 l' (hi.step hq hs) hrest).mpr halong

end LogLife

/-- **LSNs over the life of a log.**  In every history of a directory, damaged segment
files included, the LSNs of the log increase and stay behind every checkpoint in all
states if and only if no transaction is begun in a session that recovery left with an
error. -/
theorem lsns_increase_iff {dataDir : String} {userSchema : Schema} {ops : List LifeOp} {l : LogLife}
    (hrun : Runs.run LogLife.step (LogLife.create dataDir userSchema) ops = some l) :
    Runs.Always LogLife.step LogLife.LsnsIncrease (LogLife.create dataDir userSchema) ops ↔
      Runs.Along LogLife.step (fun l op => l.beginsRecovered op = true) (LogLife.create dataDir userSchema) ops :=
  LogLife.always_lsnsIncrease_iff ops _ l (LogLife.inv_create dataDir userSchema) hrun

/-- A session that commits and checkpoints. -/
def checkpointedSession : List LifeOp :=
  [.call .start, .call (.op (.txn .begin)), .call (.op (.insert 1 [.int64 7#64])), .call (.op (.txn (.commit 1))),
    .call (.op .checkpoint), .call .stop]

/-- Another session follows; then the segment file is lost, and a third session only
makes a checkpoint. -/
def heededError : List LifeOp :=
  checkpointedSession ++ [.call .start, .call (.op (.txn .begin)), .call (.op (.txn (.commit 1))), .call .stop,
    .damage "segment_1.seg".toList none, .call .start, .call (.op .checkpoint), .call .stop]

/-- The segment file is lost, and the next session begins a transaction. -/
def ignoredError : List LifeOp :=
  checkpointedSession ++ [.damage "segment_1.seg".toList none, .call .start, .call (.op (.txn .begin))]

theorem lsns_increase_heededError : ∃ l, Runs.run LogLife.step (LogLife.create "db" oneColumn) heededError = some l ∧
    l.records.map (·.lsn) = [1, 2, 3, 4, 5] ∧
      Runs.Always LogLife.step LogLife.LsnsIncrease (LogLife.create "db" oneColumn) heededError := by
  obtain ⟨l, hrun, hlsns⟩ := Runs.exists_of_any
    (o := Runs.run LogLife.step (LogLife.create "db" oneColumn) heededError)
    (p := fun l => decide (l.records.map (·.lsn) = [1, 2, 3, 4, 5])) (by decide +kernel)
  refine ⟨l, hrun, of_decide_eq_true hlsns, (lsns_increase_iff hrun).mpr ?_⟩
  exact Runs.along_of_check (q := LogLife.beginsRecovered) (fun _ _ hq => hq) (by decide +kernel)

theorem lsns_start_again_after_error : ∃ l,
    Runs.run LogLife.step (LogLife.create "db" oneColumn) ignoredError = some l ∧
      l.records.map (·.lsn) = [1, 2, 3, 1] ∧ ¬ l.LsnsIncrease := by
  obtain ⟨l, hrun, hlsns⟩ := Runs.exists_of_any
    (o := Runs.run LogLife.step (LogLife.create "db" oneColumn) ignoredError)
    (p := fun l => decide (l.records.map (·.lsn) = [1, 2, 3, 1])) (by decide +kernel)
  have hrecords := of_decide_eq_true hlsns
  refine ⟨l, hrun, hrecords, fun hinc => ?_⟩
  have hpair := List.pairwise_map.mpr hinc.1
  rw [hrecords] at hpair
  exact absurd hpair (by decide)

end CoreDB
