import CoreDB.Db.SessionReplay
import CoreDB.Wal.Durability

/-!
# A database and its threads (`db/database.cpp`)

The calls of a database have two parts, and nothing is locked in between.  `Begin`,
`Insert`, `Update` and `Delete` call the table and then append their record to the log;
`Commit` and `Abort` append theirs first and then call the table.  `Threads` is a database
with the calls that are in flight, at most one for each transaction, and `Threads.step` one
part of one call, so that runs are all interleavings.  The records in the log then need not
be in the order in which the table was called.

* `Threads.Step`: what a turn can be.
* `Session.step_turns`: the calls of a session are those of which nobody comes in between.
-/

namespace CoreDB

/-- What a call in flight does next. -/
inductive DbCall where
  /-- The table has been called; the record is appended. -/
  | append (record : WalRecord)
  /-- COMMIT is in the log; the table is called. -/
  | commit
  /-- ABORT is in the log; the table is called. -/
  | abort
deriving DecidableEq, Repr

structure Threads where
  db : Database
  mode : DurabilityMode := .syncEveryCommit
  handle : Nat → Option Transaction := fun _ => none
  /-- What the table has been through. -/
  log : List Event := []
  /-- The calls in flight, by transaction. -/
  calls : List (Nat × DbCall) := []
  /-- The records in the log. -/
  records : List WalRecord := []
  /-- The length of the log at the last `fsync`. -/
  synced : Nat := 0

/-- A part of a call, or `Flush`. -/
inductive Turn where
  | begin
  | insert (t : Nat) (row : Row)
  | update (t x : Nat) (row : Row)
  | delete (t x : Nat)
  | append (t : Nat)
  | commit (t : Nat)
  | abort (t : Nat)
  | resolve (t : Nat)
  | flush
deriving DecidableEq, Repr

namespace Threads

def openOn (disk : Disk) (userSchema : Schema) (mode : DurabilityMode) : Threads :=
  { db := .openOn disk userSchema, mode }

def world (s : Threads) : World := { table := s.db.table, handle := s.handle, log := s.log }

def withWorld (s : Threads) (w : World) : Threads :=
  { s with db := { s.db with table := w.table }, handle := w.handle, log := w.log }

/-- The call of transaction `t` is in flight. -/
def enter (s : Threads) (t : Nat) (call : DbCall) : Threads := { s with calls := Keyed.put s.calls t call }

/-- The call of transaction `t` returns. -/
def leave (s : Threads) (t : Nat) : Threads := { s with calls := Keyed.erase s.calls t }

/-- The handle of `t`, if it is active and not in a call. -/
def caller (s : Threads) (t : Nat) : Option Transaction :=
  match Keyed.find s.calls t with
  | none => s.world.clients.active t
  | some _ => none

/-- The record as the log has it. -/
def numbered (s : Threads) (record : WalRecord) : WalRecord := { record with lsn := s.db.walWriter.nextLsn }

/-- `AppendRecord`. -/
def appended (s : Threads) (record : WalRecord) : Threads :=
  let db := s.db.append record.txnId record.type record.rowId record.row
  { s with
    db
    records := s.records ++ [s.numbered record]
    synced := if s.mode.shouldSync record.type then db.disk.walBytes.length else s.synced }

/-- It is called if the record fits. -/
def appendRecord (s : Threads) (record : WalRecord) : Option Threads :=
  if (s.numbered record).writable then some (s.appended record) else none

def step (s : Threads) : Turn → Option Threads
  | .begin =>
    (s.world.txnStep .begin).map fun w =>
      (s.withWorld w).enter s.db.table.txnMgr.nextId
        (.append { txnId := s.db.table.txnMgr.nextId, type := .begin })
  | .insert t row =>
    match s.caller t with
    | none => none
    | some txn =>
      let p := s.db.table.insert txn row
      some ((s.withWorld (s.world.wrote p.2 t p.1 (.insert row))).enter t
        (.append { txnId := t, type := .insert, rowId := p.1, row }))
  | .update t x row =>
    match s.caller t with
    | none => none
    | some txn =>
      let p := s.db.table.update txn x row
      if p.1 then
        some ((s.withWorld (s.world.wrote p.2 t x (.update row))).enter t
          (.append { txnId := t, type := .update, rowId := x, row }))
      else some (s.withWorld { s.world with table := p.2 })
  | .delete t x =>
    match s.caller t with
    | none => none
    | some txn =>
      let p := s.db.table.delete txn x
      if p.1 then
        some ((s.withWorld (s.world.wrote p.2 t x .delete)).enter t
          (.append { txnId := t, type := .delete, rowId := x }))
      else some (s.withWorld { s.world with table := p.2 })
  | .append t =>
    match Keyed.find s.calls t with
    | some (.append record) => (s.appendRecord record).map fun s' => s'.leave t
    | _ => none
  | .commit t =>
    match s.caller t with
    | none => none
    | some _ => (s.appendRecord { txnId := t, type := .commit }).map fun s' => s'.enter t .commit
  | .abort t =>
    match s.caller t with
    | none => none
    | some _ => (s.appendRecord { txnId := t, type := .abort }).map fun s' => s'.enter t .abort
  | .resolve t =>
    match Keyed.find s.calls t with
    | some .commit => (s.world.txnStep (.commit t)).map fun w => (s.withWorld w).leave t
    | some .abort => (s.world.txnStep (.abort t)).map fun w => (s.withWorld w).leave t
    | _ => none
  | .flush => some { s with synced := s.db.disk.walBytes.length }

/-! ## What a turn can be -/

/-- The record logs the write `wr` of `t` to row `x`. -/
structure Logs (record : WalRecord) (t x : Nat) (wr : Write) : Prop where
  txnId : record.txnId = t
  rowId : record.rowId = x
  data : record.type.isData = true
  write : record.write = wr
  stored : record.stored = record

inductive Step (s : Threads) : Turn → Threads → Prop where
  | begin (w : World) (ran : s.world.txnStep .begin = some w) :
      Step s .begin ((s.withWorld w).enter s.db.table.txnMgr.nextId
        (.append { txnId := s.db.table.txnMgr.nextId, type := .begin }))
  | write {turn : Turn} (op : Op) (t x : Nat) (wr : Write) (txn : Transaction) (table : Table) (record : WalRecord)
      (hop : ∀ d, op ≠ .compact d) (free : s.caller t = some txn) (mgr : table.txnMgr = s.db.table.txnMgr)
      (ran : s.world.step op = some (s.world.wrote table t x wr)) (logs : Logs record t x wr) :
      Step s turn ((s.withWorld (s.world.wrote table t x wr)).enter t (.append record))
  | refuse {turn : Turn} : Step s turn s
  | append (t : Nat) (record : WalRecord) (s' : Threads) (call : Keyed.find s.calls t = some (.append record))
      (ran : s.appendRecord record = some s') : Step s (.append t) (s'.leave t)
  | announce {turn : Turn} (t : Nat) (txn : Transaction) (type : WalRecordType) (call : DbCall) (s' : Threads)
      (free : s.caller t = some txn) (how : (type = .commit ∧ call = .commit) ∨ (type = .abort ∧ call = .abort))
      (ran : s.appendRecord { txnId := t, type } = some s') : Step s turn (s'.enter t call)
  | resolve (t : Nat) (op : TxnOp) (call : DbCall) (w : World) (inFlight : Keyed.find s.calls t = some call)
      (how : (op = .commit t ∧ call = .commit) ∨ (op = .abort t ∧ call = .abort))
      (ran : s.world.txnStep op = some w) : Step s (.resolve t) ((s.withWorld w).leave t)
  | flush : Step s .flush { s with synced := s.db.disk.walBytes.length }

theorem caller_eq_some {s : Threads} {t : Nat} {txn : Transaction} :
    s.caller t = some txn ↔ Keyed.find s.calls t = none ∧ s.world.clients.active t = some txn := by
  unfold caller
  split
  · next hnone => simp [hnone]
  · next call hsome => simp [hsome]

theorem step_cases {s s' : Threads} {turn : Turn} (hs : s.step turn = some s') : s.Step turn s' := by
  cases turn with
  | begin =>
    simp only [step] at hs
    obtain ⟨w, hw, rfl⟩ := Option.map_eq_some_iff.mp hs
    exact .begin w hw
  | insert t row =>
    simp only [step] at hs
    split at hs
    · cases hs
    · next txn hfree =>
      cases hs
      refine .write (.insert t row) t _ (.insert row) txn _ _ (by simp) hfree rfl ?_ ⟨rfl, rfl, rfl, rfl, rfl⟩
      simp only [World.step, (caller_eq_some.mp hfree).2]
      rfl
  | update t x row =>
    simp only [step] at hs
    split at hs
    · cases hs
    · next txn hfree =>
      have hact := (caller_eq_some.mp hfree).2
      split at hs
      · next hok =>
        cases hs
        refine .write (.update t x row) t x (.update row) txn _ _ (by simp) hfree ?_ ?_ ⟨rfl, rfl, rfl, rfl, rfl⟩
        · rcases World.update_cases s.db.table txn x row with ⟨delta, -, heq⟩ | ⟨res, -, -, heq⟩ <;> rw [heq]
        · have hok' : (s.world.table.update txn x row).1 = true := hok
          simp only [World.step, hact, hok', if_true]
          rfl
      · next hno =>
        cases hs
        rcases World.update_cases s.db.table txn x row with ⟨delta, -, heq⟩ | ⟨res, -, -, heq⟩
        · rw [heq] at hno
          exact absurd rfl hno
        · rw [heq]
          exact .refuse
  | delete t x =>
    simp only [step] at hs
    split at hs
    · cases hs
    · next txn hfree =>
      have hact := (caller_eq_some.mp hfree).2
      split at hs
      · next hok =>
        cases hs
        refine .write (.delete t x) t x .delete txn _ _ (by simp) hfree ?_ ?_ ⟨rfl, rfl, rfl, rfl, rfl⟩
        · rcases World.delete_cases s.db.table txn x with ⟨delta, -, heq⟩ | ⟨res, -, -, heq⟩ <;> rw [heq]
        · have hok' : (s.world.table.delete txn x).1 = true := hok
          simp only [World.step, hact, hok', if_true]
          rfl
      · next hno =>
        cases hs
        rcases World.delete_cases s.db.table txn x with ⟨delta, -, heq⟩ | ⟨res, -, -, heq⟩
        · rw [heq] at hno
          exact absurd rfl hno
        · rw [heq]
          exact .refuse
  | append t =>
    simp only [step] at hs
    split at hs
    · next record hcall =>
      obtain ⟨s1, hran, rfl⟩ := Option.map_eq_some_iff.mp hs
      exact .append t record s1 hcall hran
    · cases hs
  | commit t =>
    simp only [step] at hs
    split at hs
    · cases hs
    · next txn hfree =>
      obtain ⟨s1, hran, rfl⟩ := Option.map_eq_some_iff.mp hs
      exact .announce t txn .commit .commit s1 hfree (Or.inl ⟨rfl, rfl⟩) hran
  | abort t =>
    simp only [step] at hs
    split at hs
    · cases hs
    · next txn hfree =>
      obtain ⟨s1, hran, rfl⟩ := Option.map_eq_some_iff.mp hs
      exact .announce t txn .abort .abort s1 hfree (Or.inr ⟨rfl, rfl⟩) hran
  | resolve t =>
    simp only [step] at hs
    split at hs
    · next hcall =>
      obtain ⟨w, hran, rfl⟩ := Option.map_eq_some_iff.mp hs
      exact .resolve t (.commit t) .commit w hcall (Or.inl ⟨rfl, rfl⟩) hran
    · next hcall =>
      obtain ⟨w, hran, rfl⟩ := Option.map_eq_some_iff.mp hs
      exact .resolve t (.abort t) .abort w hcall (Or.inr ⟨rfl, rfl⟩) hran
    · cases hs
  | flush =>
    cases hs
    exact .flush

end Threads

/-! ## Sessions -/

namespace Session

/-- A session as a database with no call in flight. -/
def threads (s : Session) (mode : DurabilityMode) (records : List WalRecord) (synced : Nat) : Threads :=
  { db := s.db, mode, handle := s.handle, log := s.log, records, synced }

/-- The two parts of a call that calls the table first. -/
theorem run_logged {s : Threads} {t : Nat} {w : World} (first : Turn) (record : WalRecord) (hcalls : s.calls = [])
    (hfirst : s.step first = some ((s.withWorld w).enter t (.append record)))
    (hw : (s.numbered record).writable = true) :
    Runs.run Threads.step s [first, .append t] = some ((s.withWorld w).appended record) := by
  have hfind : Keyed.find ((s.withWorld w).enter t (.append record)).calls t = some (.append record) := by
    simp [Threads.enter, Threads.withWorld, hcalls, Keyed.put, Keyed.erase, Keyed.find]
  have hw' : (((s.withWorld w).enter t (.append record)).numbered record).writable = true := hw
  have herase : Keyed.erase (Keyed.put s.calls t (.append record)) t = s.calls := by
    simp [hcalls, Keyed.put, Keyed.erase]
  refine Runs.run_cons_eq_some.mpr ⟨_, hfirst, Runs.run_cons_eq_some.mpr ⟨_, ?_, rfl⟩⟩
  simp only [Threads.step, hfind, Threads.appendRecord, if_pos hw', Option.map_some]
  simp only [Threads.appended, Threads.enter, Threads.leave, Threads.withWorld, herase]
  rfl

/-- The two parts of `Commit`, or of `Abort`. -/
theorem step_resolve {s : Threads} {t : Nat} {txn : Transaction} {type : WalRecordType} {call : DbCall} {op : TxnOp}
    {first : Turn} {w : World} (hcalls : s.calls = []) (hact : s.world.clients.active t = some txn)
    (hhow : (type = .commit ∧ call = .commit ∧ op = .commit t ∧ first = .commit t) ∨
      (type = .abort ∧ call = .abort ∧ op = .abort t ∧ first = .abort t))
    (hw : (s.numbered { txnId := t, type }).writable = true) (hran : s.world.txnStep op = some w) :
    Runs.run Threads.step s [first, .resolve t] = some ((s.appended { txnId := t, type }).withWorld w) := by
  have hfree : s.caller t = some txn := Threads.caller_eq_some.mpr ⟨by rw [hcalls]; rfl, hact⟩
  have hfind : Keyed.find ((s.appended { txnId := t, type }).enter t call).calls t = some call := by
    simp [Threads.enter, Threads.appended, hcalls, Keyed.put, Keyed.erase, Keyed.find]
  have herase : Keyed.erase (Keyed.put s.calls t call) t = s.calls := by
    simp [hcalls, Keyed.put, Keyed.erase]
  have hran' : ((s.appended { txnId := t, type }).enter t call).world.txnStep op = some w := hran
  rcases hhow with ⟨rfl, rfl, rfl, rfl⟩ | ⟨rfl, rfl, rfl, rfl⟩
  · simp only [Runs.run, Threads.step, hfree, Threads.appendRecord, if_pos hw, Option.map_some, hfind, hran']
    simp only [Threads.appended, Threads.enter, Threads.leave, Threads.withWorld, herase]
  · simp only [Runs.run, Threads.step, hfree, Threads.appendRecord, if_pos hw, Option.map_some, hfind, hran']
    simp only [Threads.appended, Threads.enter, Threads.leave, Threads.withWorld, herase]

/-- **The calls of a session** are those of which nobody comes in between. -/
theorem step_turns {s s' : Session} {op : DbOp} (hid : s.IdOk) (hop : op ≠ .checkpoint) (hs : s.step op = some s')
    (mode : DurabilityMode) (records : List WalRecord) (synced : Nat) : ∃ turns records' synced',
      Runs.run Threads.step (s.threads mode records synced) turns = some (s'.threads mode records' synced') := by
  let k := s.threads mode records synced
  have hact' : ∀ {t : Nat} {txn : Transaction}, s.world.clients.active t = some txn →
      k.world.clients.active t = some txn := fun hact => hact
  have hfree : ∀ {t : Nat} {txn : Transaction}, s.world.clients.active t = some txn → k.caller t = some txn :=
    fun hact => Threads.caller_eq_some.mpr ⟨rfl, hact⟩
  cases op with
  | txn top =>
    cases top with
    | begin =>
      simp only [step] at hs
      obtain ⟨hw, rfl⟩ := logged_eq_some hs
      have hr := run_logged (s := k) (t := s.db.table.txnMgr.nextId) (w := s.world.withClients
        (s.world.clients.put s.db.table.txnMgr.begin) (.begin s.db.table.txnMgr.nextId))
        .begin { txnId := s.db.table.txnMgr.nextId, type := .begin } rfl rfl hw
      exact ⟨_, _, _, hr⟩
    | commit t =>
      simp only [step] at hs
      split at hs
      · cases hs
      · next txn hact =>
        obtain ⟨hw, rfl⟩ := logged_eq_some hs
        obtain rfl := hid.active hact
        have hr := step_resolve (s := k) (w := s.world.withClients (s.world.clients.put (s.db.table.txnMgr.commit txn))
          (.commit txn.txnId s.db.table.txnMgr.nextId)) rfl (hact' hact) (Or.inl ⟨rfl, rfl, rfl, rfl⟩) hw (by
            simp only [World.txnStep, Clients.step, hact' hact]
            rfl)
        exact ⟨_, _, _, hr⟩
    | abort t =>
      simp only [step] at hs
      split at hs
      · cases hs
      · next txn hact =>
        obtain ⟨hw, rfl⟩ := logged_eq_some hs
        obtain rfl := hid.active hact
        have hr := step_resolve (s := k) (w := s.world.withClients (s.world.clients.put (s.db.table.txnMgr.abort txn))
          (.abort txn.txnId)) rfl (hact' hact) (Or.inr ⟨rfl, rfl, rfl, rfl⟩) hw (by
            simp only [World.txnStep, Clients.step, hact' hact]
            rfl)
        exact ⟨_, _, _, hr⟩
  | insert t row =>
    simp only [step] at hs
    split at hs
    · cases hs
    · next txn hact =>
      obtain ⟨hw, rfl⟩ := logged_eq_some hs
      obtain rfl := hid.active hact
      have hr := run_logged (s := k) (t := txn.txnId)
        (w := s.world.wrote (s.db.table.insert txn row).2 txn.txnId (s.db.table.insert txn row).1 (.insert row))
        (.insert txn.txnId row) { txnId := txn.txnId, type := .insert, rowId := (s.db.table.insert txn row).1, row } rfl (by
          simp only [Threads.step, hfree hact]
          rfl) hw
      exact ⟨_, _, _, hr⟩
  | update t x row =>
    simp only [step] at hs
    split at hs
    · cases hs
    · next txn hact =>
      obtain rfl := hid.active hact
      cases hok : (s.db.table.update txn x row).1 with
      | true =>
        have hok' : (k.db.table.update txn x row).1 = true := hok
        simp only [Database.update, hok, if_true] at hs
        obtain ⟨hw, rfl⟩ := logged_eq_some hs
        have hr := run_logged (s := k) (t := txn.txnId)
          (w := s.world.wrote (s.db.table.update txn x row).2 txn.txnId x (.update row))
          (.update txn.txnId x row) { txnId := txn.txnId, type := .update, rowId := x, row } rfl (by
            simp only [Threads.step, hfree hact, hok', if_true]
            rfl) hw
        exact ⟨_, _, _, hr⟩
      | false =>
        have hok' : (k.db.table.update txn x row).1 = false := hok
        simp only [Database.update, hok, Bool.false_eq_true, if_false] at hs
        cases hs
        refine ⟨[.update txn.txnId x row], records, synced, Runs.run_cons_eq_some.mpr ⟨_, ?_, rfl⟩⟩
        show k.step _ = _
        simp only [Threads.step, hfree hact, hok', Bool.false_eq_true, if_false]
        rfl
  | delete t x =>
    simp only [step] at hs
    split at hs
    · cases hs
    · next txn hact =>
      obtain rfl := hid.active hact
      cases hok : (s.db.table.delete txn x).1 with
      | true =>
        have hok' : (k.db.table.delete txn x).1 = true := hok
        simp only [Database.delete, hok, if_true] at hs
        obtain ⟨hw, rfl⟩ := logged_eq_some hs
        have hr := run_logged (s := k) (t := txn.txnId)
          (w := s.world.wrote (s.db.table.delete txn x).2 txn.txnId x .delete)
          (.delete txn.txnId x) { txnId := txn.txnId, type := .delete, rowId := x } rfl (by
            simp only [Threads.step, hfree hact, hok', if_true]
            rfl) hw
        exact ⟨_, _, _, hr⟩
      | false =>
        have hok' : (k.db.table.delete txn x).1 = false := hok
        simp only [Database.delete, hok, Bool.false_eq_true, if_false] at hs
        cases hs
        refine ⟨[.delete txn.txnId x], records, synced, Runs.run_cons_eq_some.mpr ⟨_, ?_, rfl⟩⟩
        show k.step _ = _
        simp only [Threads.step, hfree hact, hok', Bool.false_eq_true, if_false]
        rfl
  | checkpoint => exact absurd rfl hop

end Session

end CoreDB
