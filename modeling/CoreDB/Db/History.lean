import CoreDB.Db.Database

/-!
# The sessions of a data directory

A data directory is opened, used and closed, or left by a crash, any number of times;
the log is never cut.  `History` is such a directory with the session that is open, if
one is, and with the log as a list of records, each tagged with the number of the
session that wrote it.  `History.Inv`: this is what recovery reads.

A transaction id does not identify a transaction across sessions.  The counter of a
session starts at 1 and is advanced by the replay only, so a later session issues ids
that an earlier one has logged writes under; and recovery replays a write if any
session committed its id.  `implicit_undo_of_ids_apart` says which runs are safe from
that.
-/

namespace CoreDB

open ByteCodec

structure History where
  disk : Disk
  userSchema : Schema
  session : Option Session := none
  /-- How many sessions have been opened. -/
  opened : Nat := 0
  /-- All records of the log, each with the session that wrote it. -/
  tagged : List (Nat × WalRecord) := []

/-- A directory is opened, a call is made, and the session is closed, or ends in a
crash between two appends. -/
inductive HistoryOp where
  | start
  | op (op : DbOp)
  | stop
deriving DecidableEq, Repr

namespace History

/-- A fresh directory. -/
def create (dataDir : String) (userSchema : Schema) : History := { disk := { dataDir }, userSchema }

/-- The records that the session logged from `s` to `s'`. -/
def newRecords (s s' : Session) : List WalRecord :=
  recordsFrom s.db.walWriter.nextLsn (s'.log.drop s.log.length)

/-- The history once the open session is `s` and has logged `rs`. -/
def logged (h : History) (s : Session) (rs : List WalRecord) : History :=
  { h with disk := s.db.disk, session := some s, tagged := h.tagged ++ rs.map fun r => (h.opened, r) }

def step (h : History) : HistoryOp → Option History
  | .start =>
    match h.session with
    | some _ => none
    | none =>
      let s := Session.openOn h.disk h.userSchema
      some { h with disk := s.db.disk, session := some s, opened := h.opened + 1 }
  | .op op =>
    match h.session with
    | none => none
    | some s =>
      (s.step op).map fun s' => h.logged s' (newRecords s s')
  | .stop =>
    match h.session with
    | none => none
    | some _ => some { h with session := none }

/-- The records of the log. -/
def records (h : History) : List WalRecord := h.tagged.map (·.2)

/-- Session `k` logged a COMMIT of `t`. -/
def committedIn (h : History) (k t : Nat) : Bool :=
  h.tagged.any fun p => p.1 == k && p.2.type == .commit && p.2.txnId == t

/-- **Implicit undo.**  A write that the next recovery would replay was committed in
the session that logged it. -/
def ImplicitUndo (h : History) : Prop :=
  ∀ k r, (k, r) ∈ h.tagged → r ∈ h.disk.replayed h.userSchema → h.committedIn k r.txnId = true

end History

/-- Recovery does not replay `r`, whoever committed: the checkpoint has it, or does
not load. -/
def Disk.covers (disk : Disk) (userSchema : Schema) (r : WalRecord) : Bool :=
  match disk.checkpoint userSchema with
  | .ok p => decide (r.lsn ≤ p.1)
  | .error _ => true

/-- The checkpoint loads, if there is one. -/
def Disk.loads (disk : Disk) (userSchema : Schema) : Bool :=
  match disk.checkpoint userSchema with
  | .ok _ => true
  | .error _ => false

theorem Disk.mem_replayed {disk : Disk} {userSchema : Schema} {r : WalRecord} :
    r ∈ disk.replayed userSchema ↔ r ∈ (readAll disk.walBytes).records ∧ disk.covers userSchema r = false ∧
      r.type.isData = true ∧ r.txnId ∈ committedTxnIds (readAll disk.walBytes).records := by
  unfold replayed covers
  cases disk.checkpoint userSchema with
  | error e => simp
  | ok p => rw [readWal_eq, mem_redoOps]; simp

namespace History

/-- Another session than the current one committed `t`. -/
def committedElsewhere (h : History) (t : Nat) : Bool :=
  h.tagged.any fun p => p.1 != h.opened && p.2.type == .commit && p.2.txnId == t

/-- Another session than the current one wrote under `t` what it did not commit and
the checkpoint does not cover. -/
def unfinishedElsewhere (h : History) (t : Nat) : Bool :=
  h.tagged.any fun p => p.1 != h.opened && p.2.type.isData && p.2.txnId == t &&
    !h.disk.covers h.userSchema p.2 && !h.committedIn p.1 t

/-- The step does not mix up transactions of different sessions: what is opened loads,
nobody writes under an id that another session has committed, and nobody commits one
under which another session has left unfinished writes. -/
def keepsIdsApart (h : History) : HistoryOp → Bool
  | .start => h.disk.loads h.userSchema
  | .op (.insert t _) => !h.committedElsewhere t
  | .op (.update t _ _) => !h.committedElsewhere t
  | .op (.delete t _) => !h.committedElsewhere t
  | .op (.txn (.commit t)) => !h.unfinishedElsewhere t
  | _ => true

/-! ## The log of a history -/

/-- The tagged records are the log. -/
structure LogInv (h : History) : Prop where
  wal : h.disk.walBytes = logOf h.records
  writable : ∀ r ∈ h.records, r.writable = true
  stored : h.records.map WalRecord.stored = h.records

/-- Their LSNs increase, and the writer of an open session is behind them. -/
structure Inv (h : History) : Prop extends h.LogInv where
  increasing : h.records.Pairwise fun a b => a.lsn < b.lsn
  session : ∀ s, h.session = some s → s.db.disk = h.disk ∧ s.IdOk ∧
    ∀ r ∈ h.records, r.lsn < s.db.walWriter.nextLsn

theorem LogInv.readAll_disk {h : History} (hi : h.LogInv) : (readAll h.disk.walBytes).records = h.records := by
  rw [hi.wal, readAll_logOf _ hi.writable]
  exact hi.stored

theorem inv_create (dataDir : String) (userSchema : Schema) : (create dataDir userSchema).Inv where
  wal := rfl
  writable := by simp [records, create]
  stored := rfl
  increasing := List.Pairwise.nil
  session := by simp [create]

/-- What a step can be. -/
inductive Step (h : History) : HistoryOp → History → Prop where
  | start (closed : h.session = none) :
      Step h .start { h with
        disk := { h.disk with wal := some h.disk.walBytes }
        session := some (Session.openOn h.disk h.userSchema)
        opened := h.opened + 1 }
  | op (op : DbOp) (s s' : Session) (es : List Event) (isOpen : h.session = some s) (stepped : s.step op = some s')
      (appended : s.Appended s' es) (kind : ∀ e ∈ es, e.loggedBy op)
      (files : op ≠ .checkpoint → s'.db.disk = { s.db.disk with wal := s'.db.disk.wal }) (idOk : s'.IdOk) :
      Step h (.op op) (h.logged s' (recordsFrom s.db.walWriter.nextLsn es))
  | stop (s : Session) (isOpen : h.session = some s) : Step h .stop { h with session := none }

theorem step_cases {h h' : History} {op : HistoryOp} (hid : ∀ s, h.session = some s → s.IdOk)
    (hs : h.step op = some h') : Step h op h' := by
  cases op with
  | start =>
    simp only [step] at hs
    split at hs
    · cases hs
    · next hno =>
      cases hs
      exact .start hno
  | op op =>
    simp only [step] at hs
    split at hs
    · cases hs
    · next s hsome =>
      obtain ⟨s', hs', rfl⟩ := Option.map_eq_some_iff.mp hs
      obtain ⟨es, -, happ, hfiles⟩ := Session.step_appended hs'
      obtain ⟨hid', es', hlog, hkind⟩ := (hid s hsome).step hs'
      have hes : es' = es := List.append_cancel_left (hlog.symm.trans happ.log)
      subst hes
      have hnew : newRecords s s' = recordsFrom s.db.walWriter.nextLsn es' := by
        rw [newRecords, hlog, List.drop_left]
      rw [hnew]
      exact .op op s s' es' hsome hs' happ hkind hfiles hid'
  | stop =>
    simp only [step] at hs
    split at hs
    · cases hs
    · next s hsome =>
      cases hs
      exact .stop s hsome

theorem records_logged (h : History) (s : Session) (rs : List WalRecord) :
    (h.logged s rs).records = h.records ++ rs := by
  simp [records, logged, Function.comp_def]

/-- The writer of a new session is behind the log. -/
theorem LogInv.lt_nextLsn {h : History} (hi : h.LogInv) (hinc : h.records.Pairwise fun a b => a.lsn < b.lsn)
    (hload : h.disk.loads h.userSchema = true) :
    ∀ r ∈ h.records, r.lsn < (Session.openOn h.disk h.userSchema).db.walWriter.nextLsn := by
  intro r hr
  unfold Disk.loads at hload
  split at hload
  · next p hp =>
    have hnext : (Session.openOn h.disk h.userSchema).db.walWriter.nextLsn = max h.disk.readWal.lastValidLsn p.1 + 1 :=
      (Database.openOn_of_checkpoint hp).2
    have hle := le_lastValidLsn hinc hr
    rw [Disk.readWal_eq, hi.wal, readAll_logOf _ hi.writable] at hnext
    omega
  · cases hload

/-- What is appended goes on with the log. -/
theorem LogInv.logged {h : History} {s s' : Session} {es : List Event} (hi : h.LogInv) (hdisk : s.db.disk = h.disk)
    (appended : s.Appended s' es) : (h.logged s' (recordsFrom s.db.walWriter.nextLsn es)).LogInv := by
  refine ⟨?_, ?_, ?_⟩
  · show s'.db.disk.walBytes = _
    rw [records_logged, appended.wal, hdisk, hi.wal]
    simp [logOf]
  · rw [records_logged]
    intro r hr
    exact (List.mem_append.mp hr).elim (hi.writable r) (appended.writable r)
  · rw [records_logged, List.map_append, hi.stored, stored_recordsFrom]

/-- A writer that is behind the log stays behind it. -/
theorem increasing_logged {h : History} {s s' : Session} {es : List Event}
    (hinc : h.records.Pairwise fun a b => a.lsn < b.lsn) (hlsn : ∀ r ∈ h.records, r.lsn < s.db.walWriter.nextLsn)
    (appended : s.Appended s' es) :
    ((h.logged s' (recordsFrom s.db.walWriter.nextLsn es)).records.Pairwise fun a b => a.lsn < b.lsn) ∧
      ∀ r ∈ (h.logged s' (recordsFrom s.db.walWriter.nextLsn es)).records, r.lsn < s'.db.walWriter.nextLsn := by
  have hnew := lsn_recordsFrom es s.db.walWriter.nextLsn
  rw [records_logged, List.pairwise_append, appended.nextLsn]
  refine ⟨⟨hinc, increasing_recordsFrom _ _, fun a ha b hb => ?_⟩, fun r hr => ?_⟩
  · have := hlsn a ha
    have := (hnew b hb).1
    omega
  · rcases List.mem_append.mp hr with hr | hr
    · have := hlsn r hr
      omega
    · exact (hnew r hr).2

theorem inv_step {h h' : History} {op : HistoryOp} (hi : h.Inv) (hq : h.keepsIdsApart op = true)
    (hs : Step h op h') : h'.Inv := by
  cases hs with
  | start closed =>
    refine ⟨⟨hi.wal, hi.writable, hi.stored⟩, hi.increasing, ?_⟩
    intro s hsome
    cases hsome
    exact ⟨rfl, by simp [Session.IdOk, Session.openOn], hi.lt_nextLsn hi.increasing hq⟩
  | op op s s' es isOpen stepped appended kind files idOk =>
    obtain ⟨hdisk, -, hlsn⟩ := hi.session s isOpen
    obtain ⟨hinc, hlsn'⟩ := increasing_logged hi.increasing hlsn appended
    refine ⟨hi.toLogInv.logged hdisk appended, hinc, ?_⟩
    intro z hz
    cases hz
    exact ⟨rfl, idOk, hlsn'⟩
  | stop s isOpen => exact ⟨⟨hi.wal, hi.writable, hi.stored⟩, hi.increasing, by simp⟩

/-! ## Whose commit a replay goes by -/

theorem committedIn_iff {h : History} {k t : Nat} :
    h.committedIn k t = true ↔ ∃ c, (k, c) ∈ h.tagged ∧ c.type = .commit ∧ c.txnId = t := by
  unfold committedIn
  simp only [List.any_eq_true, Bool.and_eq_true, beq_iff_eq, Prod.exists]
  constructor
  · rintro ⟨k', c, hmem, ⟨rfl, hty⟩, hid⟩
    exact ⟨c, hmem, hty, hid⟩
  · rintro ⟨c, hmem, hty, hid⟩
    exact ⟨k, c, hmem, ⟨rfl, hty⟩, hid⟩

/-- Implicit undo, read off the tagged log. -/
theorem Inv.implicitUndo_iff {h : History} (hi : h.Inv) :
    h.ImplicitUndo ↔ ∀ k r, (k, r) ∈ h.tagged → r.type.isData = true → h.disk.covers h.userSchema r = false →
      ∀ k', h.committedIn k' r.txnId = true → h.committedIn k r.txnId = true := by
  have hids : ∀ t, t ∈ committedTxnIds h.records ↔ ∃ k', h.committedIn k' t = true := by
    intro t
    rw [mem_committedTxnIds]
    constructor
    · rintro ⟨c, hc, hty, hid⟩
      obtain ⟨p, hp, rfl⟩ := List.mem_map.mp hc
      exact ⟨p.1, committedIn_iff.mpr ⟨p.2, hp, hty, hid⟩⟩
    · rintro ⟨k', hk⟩
      obtain ⟨c, hc, hty, hid⟩ := committedIn_iff.mp hk
      exact ⟨c, List.mem_map.mpr ⟨_, hc, rfl⟩, hty, hid⟩
  unfold ImplicitUndo
  simp only [Disk.mem_replayed, hi.readAll_disk, hids]
  constructor
  · intro h' k r hmem hdata hcov k' hk
    exact h' k r hmem ⟨List.mem_map.mpr ⟨_, hmem, rfl⟩, hcov, hdata, k', hk⟩
  · rintro h' k r hmem ⟨-, hcov, hdata, k', hk⟩
    exact h' k r hmem hdata hcov k' hk

/-- A checkpoint covers whatever was logged before it. -/
theorem covers_of_checkpoint {s s' : Session} {userSchema : Schema} (hs : s.step .checkpoint = some s')
    {r : WalRecord} (hr : r.lsn < s.db.walWriter.nextLsn) : s'.db.disk.covers userSchema r = true := by
  obtain ⟨t, files, -, -, -, -, hlsn, -, rfl⟩ := Session.step_checkpoint hs
  have hck := Disk.checkpoint_of_manifest { s.db.disk with
      segments := files
      manifest := some (manifestText s.db.walWriter.lastLsn
        (t.baseSegments.map fun seg => segmentFileName seg.segmentId)) }
    userSchema (by unfold WalWriter.lastLsn; omega) rfl
  unfold Disk.covers
  dsimp only
  rw [hck]
  cases loadSegments _ (fullSchemaOf userSchema) files _ with
  | error e => rfl
  | ok segs =>
    simp only [Except.map, decide_eq_true_iff, WalWriter.lastLsn]
    omega

theorem mem_logged {h : History} {s : Session} {rs : List WalRecord} {k : Nat} {r : WalRecord} :
    (k, r) ∈ (h.logged s rs).tagged ↔ (k, r) ∈ h.tagged ∨ (k = h.opened ∧ r ∈ rs) := by
  simp only [logged, List.mem_append, List.mem_map, Prod.mk.injEq]
  constructor
  · rintro (hmem | ⟨q, hq, rfl, rfl⟩)
    · exact Or.inl hmem
    · exact Or.inr ⟨rfl, hq⟩
  · rintro (hmem | ⟨rfl, hr⟩)
    · exact Or.inl hmem
    · exact Or.inr ⟨r, hr, rfl, rfl⟩

theorem committedIn_logged {h : History} {s : Session} {rs : List WalRecord} {k t : Nat} :
    (h.logged s rs).committedIn k t = true ↔
      h.committedIn k t = true ∨ (k = h.opened ∧ ∃ c ∈ rs, c.type = .commit ∧ c.txnId = t) := by
  simp only [committedIn_iff, mem_logged]
  constructor
  · rintro ⟨c, hmem | ⟨hk, hc⟩, hty, hid⟩
    · exact Or.inl ⟨c, hmem, hty, hid⟩
    · exact Or.inr ⟨hk, c, hc, hty, hid⟩
  · rintro (⟨c, hmem, hty, hid⟩ | ⟨hk, c, hc, hty, hid⟩)
    · exact ⟨c, Or.inl hmem, hty, hid⟩
    · exact ⟨c, Or.inr ⟨hk, hc⟩, hty, hid⟩

/-- Only a write logs a data record, only a commit a COMMIT. -/
theorem loggedBy_data {e : Event} {op : DbOp} {n : Nat} (h : e.loggedBy op) (hd : (e.record n).type.isData = true) :
    (∃ row, op = .insert (e.record n).txnId row) ∨ (∃ x row, op = .update (e.record n).txnId x row) ∨
      ∃ x, op = .delete (e.record n).txnId x := by
  cases e with
  | write t x w =>
    cases w with
    | insert row => exact Or.inl ⟨row, h⟩
    | update row => exact Or.inr (Or.inl ⟨x, row, h⟩)
    | delete => exact Or.inr (Or.inr ⟨x, h⟩)
  | begin t => cases hd
  | commit t ts => cases hd
  | abort t => cases hd

theorem loggedBy_commit {e : Event} {op : DbOp} {n : Nat} (h : e.loggedBy op) (hc : (e.record n).type = .commit) :
    op = .txn (.commit (e.record n).txnId) := by
  cases e with
  | commit t ts => exact h
  | write t x w => cases w <;> cases hc
  | begin t => cases hc
  | abort t => cases hc

/-- A call that keeps ids apart keeps implicit undo. -/
theorem implicitUndo_op {h : History} {op : DbOp} {s s' : Session} {es : List Event} (hi : h.Inv)
    (hi' : (h.logged s' (recordsFrom s.db.walWriter.nextLsn es)).Inv) (hu : h.ImplicitUndo)
    (hq : h.keepsIdsApart (.op op) = true) (kind : ∀ e ∈ es, e.loggedBy op)
    (hdisk : s'.db.disk.checkpoint h.userSchema = h.disk.checkpoint h.userSchema) :
    (h.logged s' (recordsFrom s.db.walWriter.nextLsn es)).ImplicitUndo := by
  rw [hi.implicitUndo_iff] at hu
  rw [hi'.implicitUndo_iff]
  intro k r hmem hdata hcov k' hk'
  have hcov' : h.disk.covers h.userSchema r = false := by
    rw [← hcov]
    show _ = s'.db.disk.covers h.userSchema r
    unfold Disk.covers
    rw [hdisk]
  rw [committedIn_logged] at hk' ⊢
  rcases hk' with hk' | ⟨-, c, hc, hty, hid⟩
  · rcases mem_logged.mp hmem with hmem | ⟨rfl, hr⟩
    · exact Or.inl (hu k r hmem hdata hcov' k' hk')
    · -- a new write: nobody else has committed its id
      obtain ⟨e, he, n, rfl⟩ := mem_recordsFrom hr
      have helse : h.committedElsewhere (e.record n).txnId = false := by
        rcases loggedBy_data (kind e he) hdata with ⟨row, rfl⟩ | ⟨x, row, rfl⟩ | ⟨x, rfl⟩ <;>
          simpa [keepsIdsApart] using hq
      by_cases hk : k' = h.opened
      · exact Or.inl (hk ▸ hk')
      · obtain ⟨c, hc, hty, hid⟩ := committedIn_iff.mp hk'
        unfold committedElsewhere at helse
        rw [List.any_eq_false] at helse
        exact absurd (by simp [hk, hty, hid]) (helse _ hc)
  · -- a new commit: nobody else has left writes under its id
    by_cases hk : k = h.opened
    · exact Or.inr ⟨hk, c, hc, hty, hid⟩
    · left
      obtain ⟨e, he, n, rfl⟩ := mem_recordsFrom hc
      obtain rfl := loggedBy_commit (kind e he) hty
      rw [hid] at hq
      have hold := (mem_logged.mp hmem).resolve_right fun hr => hk hr.1
      have helse : h.unfinishedElsewhere r.txnId = false := by simpa [keepsIdsApart] using hq
      unfold unfinishedElsewhere at helse
      rw [List.any_eq_false] at helse
      cases hown : h.committedIn k r.txnId with
      | true => rfl
      | false => exact absurd (by simp [hk, hdata, hcov', hown]) (helse _ hold)

/-- **One step** keeps implicit undo, if it keeps the ids of sessions apart. -/
theorem implicitUndo_step {h h' : History} {op : HistoryOp} (hi : h.Inv) (hu : h.ImplicitUndo)
    (hq : h.keepsIdsApart op = true) (hs : Step h op h') : h'.ImplicitUndo := by
  have hi' := inv_step hi hq hs
  cases hs with
  | start closed =>
    rw [hi.implicitUndo_iff] at hu
    rw [hi'.implicitUndo_iff]
    exact hu
  | stop s isOpen =>
    rw [hi.implicitUndo_iff] at hu
    rw [hi'.implicitUndo_iff]
    exact hu
  | op op s s' es isOpen stepped appended kind files idOk =>
    obtain ⟨hdisk, -, hlsn⟩ := hi.session s isOpen
    by_cases hck : op = .checkpoint
    · -- nothing that has been logged is replayed from here
      subst hck
      rw [hi'.implicitUndo_iff]
      intro k r hmem hdata hcov
      rcases mem_logged.mp hmem with hold | ⟨-, hr⟩
      · have hcovers : s'.db.disk.covers h.userSchema r = true :=
          covers_of_checkpoint stepped (hlsn r (List.mem_map.mpr ⟨_, hold, rfl⟩))
        exact absurd (hcovers.symm.trans hcov) (by decide)
      · obtain ⟨e, he, n, rfl⟩ := mem_recordsFrom hr
        rcases loggedBy_data (kind e he) hdata with ⟨row, hop⟩ | ⟨x, row, hop⟩ | ⟨x, hop⟩ <;> cases hop
    · refine implicitUndo_op hi hi' hu hq kind ?_
      rw [files hck, hdisk]
      rfl

end History

/-- **Implicit undo across restarts.**  In every run that keeps the ids of different
sessions apart, no recovery replays a write that its own session did not commit. -/
theorem implicit_undo_of_ids_apart {dataDir : String} {userSchema : Schema} {ops : List HistoryOp} {h : History}
    (hrun : Runs.run History.step (History.create dataDir userSchema) ops = some h)
    (hapart : Runs.Along History.step (fun h op => h.keepsIdsApart op = true) (History.create dataDir userSchema) ops) :
    h.ImplicitUndo := by
  have hinv : h.Inv ∧ h.ImplicitUndo := by
    refine Runs.run_invariant (I := fun h => h.Inv ∧ h.ImplicitUndo) ?_ ⟨History.inv_create .., ?_⟩ hapart hrun
    · rintro h op h' ⟨hi, hu⟩ hq hs
      have hst := History.step_cases (fun s hsome => (hi.session s hsome).2.1) hs
      exact ⟨History.inv_step hi hq hst, History.implicitUndo_step hi hu hq hst⟩
    · intro k r hmem
      cases hmem
  exact hinv.2

/-- Two sessions that keep apart; the first leaves a transaction open. -/
def apartSessions : List HistoryOp :=
  [.start, .op (.txn .begin), .op (.insert 1 [.int64 7#64]), .op (.txn .begin), .op (.insert 2 [.int64 8#64]),
    .op (.txn (.commit 1)), .stop, .start, .op (.txn .begin), .op (.insert 3 [.int64 9#64]), .op (.txn (.commit 3)), .stop]

theorem implicit_undo_apartSessions : ∃ h, Runs.run History.step (History.create "db" oneColumn) apartSessions = some h ∧
    (h.disk.replayed h.userSchema).map (·.row) = [[.int64 7#64], [.int64 9#64]] ∧ h.ImplicitUndo := by
  obtain ⟨h, hrun, hrows⟩ := Runs.exists_of_any
    (o := Runs.run History.step (History.create "db" oneColumn) apartSessions)
    (p := fun h => decide ((h.disk.replayed h.userSchema).map (·.row) = [[.int64 7#64], [.int64 9#64]])) (by decide +kernel)
  refine ⟨h, hrun, of_decide_eq_true hrows, implicit_undo_of_ids_apart hrun ?_⟩
  exact Runs.along_of_check (q := History.keepsIdsApart) (fun _ _ hq => hq) (by decide +kernel)

/-- **A later session commits for an earlier one**: transaction 1 of the first session
is left open, transaction 1 of the second commits. -/
theorem implicit_undo_fails_on_reused_id : ∃ h, Runs.run History.step (History.create "db" oneColumn)
      [.start, .op (.txn .begin), .op (.insert 1 [.int64 7#64]), .stop, .start, .op (.txn .begin),
        .op (.txn (.commit 1)), .stop] = some h ∧ ¬ h.ImplicitUndo := by
  obtain ⟨h, hrun, hbad⟩ := Runs.exists_of_any (o := Runs.run History.step (History.create "db" oneColumn)
      [.start, .op (.txn .begin), .op (.insert 1 [.int64 7#64]), .stop, .start, .op (.txn .begin),
        .op (.txn (.commit 1)), .stop])
    (p := fun h => h.tagged.any fun p => decide (p.2 ∈ h.disk.replayed h.userSchema) && !h.committedIn p.1 p.2.txnId)
    (by decide +kernel)
  refine ⟨h, hrun, fun hundo => ?_⟩
  obtain ⟨⟨k, r⟩, hmem, hp⟩ := List.any_eq_true.mp hbad
  simp only [Bool.and_eq_true, decide_eq_true_iff, Bool.not_eq_true'] at hp
  rw [hundo k r hmem hp.1] at hp
  exact absurd hp.2 (by decide)

end CoreDB
