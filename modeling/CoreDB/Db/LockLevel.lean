import CoreDB.Db.Threads
import CoreDB.Table.LockLevelScan

/-!
# A database under its locks (`db/database.cpp`)

`Threads` takes the calls of the table as atomic.  Here the table works under its locks, as
`TableThreads` does: an `Insert` has its row id before its version is in the delta, an
`Update` claims the old version and appends the new one, and while a claim reads the status
of transactions others begin, commit and abort, and append their records to the log.  The
log, the calls of the database and all that needs no lock of the table are those of
`Threads`.
-/

namespace CoreDB

/-- The turn needs no lock of the table. -/
def Turn.isFree : Turn → Bool
  | .insert _ _ => false
  | .update _ _ _ => false
  | .delete _ _ => false
  | _ => true

/-- A database with the calls of the table that have still to append a version. -/
structure LockedThreads where
  threads : Threads
  tableCalls : List (Nat × TableCall) := []

/-- A part of a call.  What happens before each status read of a claim is in `during`. -/
inductive LockedTurn where
  | free (turn : Turn)
  | insert (t : Nat) (row : Row)
  | update (t x : Nat) (row : Row) (during : List (List Turn))
  | delete (t x : Nat) (during : List (List Turn))
  | version (t : Nat)
deriving DecidableEq, Repr

/-- The record of the log for a write. -/
def Write.record (t x : Nat) : Write → WalRecord
  | .insert row => { txnId := t, type := .insert, rowId := x, row }
  | .update row => { txnId := t, type := .update, rowId := x, row }
  | .delete => { txnId := t, type := .delete, rowId := x }

namespace LockedThreads

def openOn (disk : Disk) (userSchema : Schema) (mode : DurabilityMode) : LockedThreads :=
  { threads := .openOn disk userSchema mode }

def table (s : LockedThreads) : Table := s.threads.db.table

/-- The table with its calls in flight. -/
def tableThreads (s : LockedThreads) : TableThreads :=
  { table := s.table, handle := s.threads.handle, calls := s.tableCalls }

def withTable (s : LockedThreads) (table : Table) : LockedThreads :=
  { s with threads := { s.threads with db := { s.threads.db with table } } }

def withDelta (s : LockedThreads) (delta : DeltaLayer) : LockedThreads := s.withTable { s.table with delta }

/-- The write of `t` has taken effect; the version, if there is one, and the record are still
to be appended. -/
def wrote (s : LockedThreads) (t x : Nat) (wr : Write) : LockedThreads where
  threads := s.threads.enter t (.append (wr.record t x))
  tableCalls :=
    match wr.value with
    | some row => Keyed.put s.tableCalls t { rowId := x, row }
    | none => s.tableCalls

/-- The record is appended once the table has returned. -/
def ready (s : LockedThreads) : Turn → Bool
  | .append t => (Keyed.find s.tableCalls t).isNone
  | turn => turn.isFree

def freeStep (s : LockedThreads) (turn : Turn) : Option LockedThreads :=
  if s.ready turn then (s.threads.step turn).map fun threads => { s with threads } else none

/-- The manager as the `k`-th status read of a claim finds it. -/
def observed (s : LockedThreads) (during : List (List Turn)) (k : Nat) : TransactionManager :=
  match Runs.run freeStep s (during.take (k + 1)).flatten with
  | some s' => s'.table.txnMgr
  | none => s.table.txnMgr

/-- The claim has ended with `r`, and writes `wr` if it has succeeded. -/
def claimed (s : LockedThreads) (t x : Nat) (wr : Write) (r : WriteResult × DeltaLayer) : LockedThreads :=
  if r.1 = .ok then (s.withDelta r.2).wrote t x wr else s.withDelta r.2

/-- `Update` and `Delete` up to the end of the claim. -/
def claim (s : LockedThreads) (txn : Transaction) (t x : Nat) (wr : Write) (during : List (List Turn)) :
    Option LockedThreads :=
  if during.flatten.all (fun turn => turn != .commit t && turn != .abort t) then
    (Runs.run freeStep s during.flatten).map fun s' =>
      s'.claimed t x wr (s.table.delta.claimUnder x txn (s.observed during) (s.table.rowIdExistsInBase x))
  else none

def step (s : LockedThreads) : LockedTurn → Option LockedThreads
  | .free turn => s.freeStep turn
  | .insert t row =>
    match s.threads.caller t with
    | none => none
    | some _ =>
      let x := s.table.nextRowId
      some ((s.withTable { s.table with nextRowId := x + 1 }).wrote t x (.insert row))
  | .update t x row during =>
    match s.threads.caller t with
    | none => none
    | some txn => s.claim txn t x (.update row) during
  | .delete t x during =>
    match s.threads.caller t with
    | none => none
    | some txn => s.claim txn t x .delete during
  | .version t =>
    match Keyed.find s.tableCalls t with
    | none => none
    | some call =>
      some { s.withDelta (s.table.delta.insert call.rowId t call.row) with tableCalls := Keyed.erase s.tableCalls t }

end LockedThreads

end CoreDB
