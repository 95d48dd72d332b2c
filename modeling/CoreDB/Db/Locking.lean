import CoreDB.Lib.LockOrder

/-!
# The locks of a database

There are five mutexes: `table_mu_` and the delta layer's `mu_` are shared ones, those of the
transaction manager, of the metrics and of the log are not.  Each function of the source is
here the locks it takes, in the scopes of its guards; what depends on data is a branch or a
loop.  `threads` is the system: any number of callers, each with any sequence of calls, the
thread of a `BackgroundCompactor` and the workers of a recovery.

* `no_thread_waits_forever`: the locks are taken in one order, so nobody waits in a circle.
* `compact_is_alone`: while `Compact` runs, nobody else reads the base or changes the delta;
  only transactions begin, commit and abort.
-/

namespace CoreDB

inductive Mutex where
  | tableMu
  | deltaMu
  | txnMu
  | metricsMu
  | walMu
deriving DecidableEq, Repr

/-- The order in which they are taken. -/
def Mutex.rank : Mutex → Nat
  | .tableMu => 1
  | .deltaMu => 2
  | .txnMu => 3
  | .metricsMu => 4
  | .walMu => 5

inductive DbThread where
  | caller (n : Nat)
  | compactor
  | worker (w : Nat)
deriving DecidableEq, Repr

/-- Callers wait for the compactor and the workers to end. -/
def DbThread.order : DbThread → Nat
  | .caller _ => 1
  | .compactor => 0
  | .worker _ => 0

namespace Locking

open Locks (Prog Threads Reachable Waits Holds Step)

abbrev LockProg := Prog DbThread Mutex

/-- A branch that may not be taken. -/
def maybe (p : LockProg) : LockProg := .branch p .skip

def oneOf : List LockProg → LockProg := List.foldr .branch .skip

/-- A function that only runs under one mutex. -/
def under (l : Mutex) (mode : Locks.Mode) : LockProg := .guard l mode .skip

/-! ## `mvcc/transaction.cpp` -/

def TransactionManager.begin : LockProg := under .txnMu .exclusive

def TransactionManager.commit : LockProg := under .txnMu .exclusive

def TransactionManager.abort : LockProg := under .txnMu .exclusive

def TransactionManager.getStatus : LockProg := under .txnMu .exclusive

def TransactionManager.oldestActiveSnapshot : LockProg := under .txnMu .exclusive

def TransactionManager.activeTransactionCount : LockProg := under .txnMu .exclusive

/-! ## `mvcc/delta.cpp` -/

/-- The status of the creator, and that of the deleter. -/
def isVisible : LockProg := .seq (maybe TransactionManager.getStatus) (maybe TransactionManager.getStatus)

def DeltaLayer.insert : LockProg := under .deltaMu .exclusive

def DeltaLayer.claimOrInsertBaseTombstone : LockProg :=
  .guard .deltaMu .exclusive (.loop (.seq (maybe TransactionManager.getStatus) (maybe isVisible)))

def DeltaLayer.size : LockProg := under .deltaMu .shared

def DeltaLayer.snapshot : LockProg := under .deltaMu .shared

def DeltaLayer.replaceAll : LockProg := under .deltaMu .exclusive

/-! ## `table/table.cpp` -/

def Table.insert : LockProg := .guard .tableMu .shared DeltaLayer.insert

def Table.insertWithRowId : LockProg := .guard .tableMu .shared DeltaLayer.insert

def Table.update : LockProg :=
  .guard .tableMu .shared (.seq DeltaLayer.claimOrInsertBaseTombstone (maybe DeltaLayer.insert))

def Table.delete : LockProg := .guard .tableMu .shared DeltaLayer.claimOrInsertBaseTombstone

def Table.snapshotForScan : LockProg := .guard .tableMu .shared DeltaLayer.snapshot

def Table.materializeVisibleRows : LockProg := .loop (.branch (maybe TransactionManager.getStatus) isVisible)

/-- The status reads of one record: creator and deleter, and the creator again. -/
def Table.compactRecord : LockProg :=
  .seq (maybe TransactionManager.getStatus)
    (.seq (maybe TransactionManager.getStatus) (maybe TransactionManager.getStatus))

/-- `table_mu_` is held to the end, also while the metrics are updated. -/
def Table.compact : LockProg :=
  .guard .tableMu .exclusive
    (.seq TransactionManager.oldestActiveSnapshot
      (.seq DeltaLayer.snapshot
        (.seq (.loop Table.compactRecord)
          (.seq DeltaLayer.replaceAll (under .metricsMu .exclusive)))))

def Table.compactionMetrics : LockProg := under .metricsMu .exclusive

def Table.deltaSize : LockProg := DeltaLayer.size

def Table.numBaseSegments : LockProg := under .tableMu .shared

def Table.totalBaseRows : LockProg := under .tableMu .shared

def Table.baseSegments : LockProg := under .tableMu .shared

def Table.loadBaseSegments : LockProg := under .tableMu .exclusive

/-! ## `wal/wal_writer.cpp` -/

def WalWriter.appendRecord : LockProg := under .walMu .exclusive

def WalWriter.flush : LockProg := under .walMu .exclusive

/-! ## `db/database.cpp`, `recovery/checkpoint.cpp` -/

def Database.begin : LockProg := .seq TransactionManager.begin WalWriter.appendRecord

def Database.insert : LockProg := .seq Table.insert WalWriter.appendRecord

def Database.update : LockProg := .seq Table.update (maybe WalWriter.appendRecord)

def Database.delete : LockProg := .seq Table.delete (maybe WalWriter.appendRecord)

def Database.commit : LockProg := .seq WalWriter.appendRecord TransactionManager.commit

def Database.abort : LockProg := .seq WalWriter.appendRecord TransactionManager.abort

/-- Nothing is done if the directory cannot be created. -/
def writeCheckpoint : LockProg := maybe (.seq Table.compact Table.baseSegments)

def Database.checkpoint : LockProg := .seq WalWriter.flush writeCheckpoint

/-! ## `recovery/recovery_manager.cpp`, `compaction/compactor.cpp` -/

def applyOp : LockProg :=
  .seq TransactionManager.begin
    (.seq (oneOf [Table.insertWithRowId, Table.update, Table.delete]) TransactionManager.commit)

/-- The loop over `workers` with `join`. -/
def joinWorkers (numWorkers : Nat) : LockProg :=
  (List.range numWorkers).foldr (fun w p => .seq (.join (.worker w)) p) .skip

/-- The source starts the workers in each call.  Here they are one fixed set that runs from the
start and is shared by all calls: a second `Recover` joins the same workers, which may have
ended by then. -/
def RecoveryManager.recover (numWorkers : Nat) : LockProg :=
  .seq (maybe Table.loadBaseSegments) (.seq (joinWorkers numWorkers) Table.baseSegments)

def BackgroundCompactor.run : LockProg := .loop (.seq Table.deltaSize (maybe Table.compact))

/-- Whoever comes second does not wait. -/
def BackgroundCompactor.stop : LockProg := maybe (.join .compactor)

/-! ## The system -/

/-- What callers can call. -/
def calls (numWorkers : Nat) : List LockProg :=
  [Database.begin, Database.insert, Database.update, Database.delete, Database.commit, Database.abort,
    Database.checkpoint, TransactionManager.begin, TransactionManager.commit, TransactionManager.abort,
    TransactionManager.getStatus, TransactionManager.activeTransactionCount, Table.insert, Table.insertWithRowId,
    Table.update, Table.delete, Table.snapshotForScan, Table.materializeVisibleRows, Table.compact,
    Table.compactionMetrics, Table.deltaSize, Table.numBaseSegments, Table.totalBaseRows, Table.baseSegments,
    Table.loadBaseSegments, WalWriter.appendRecord, WalWriter.flush, RecoveryManager.recover numWorkers,
    BackgroundCompactor.stop]

def threads (numWorkers : Nat) : DbThread → LockProg
  | .caller _ => .loop (oneOf (calls numWorkers))
  | .compactor => BackgroundCompactor.run
  | .worker _ => .loop applyOp

section
variable (numWorkers : Nat)

theorem ordered_joinWorkers (n : Nat) : (joinWorkers numWorkers).ordered Mutex.rank
    (fun u t => decide (u.order < t.order)) (.caller n) 0 = true := by
  unfold joinWorkers
  induction List.range numWorkers with
  | nil => rfl
  | cons w ws ih => simpa [Prog.ordered, DbThread.order] using ih

theorem ordered_threads (t : DbThread) : (threads numWorkers t).ordered Mutex.rank
    (fun u t => decide (u.order < t.order)) t 0 = true := by
  cases t with
  | compactor => rfl
  | worker w => rfl
  | caller n =>
    have hjoin := ordered_joinWorkers numWorkers n
    simp only [threads, calls, oneOf, List.foldr_cons, List.foldr_nil, Prog.ordered, RecoveryManager.recover,
      hjoin]
    rfl

theorem nested_joinWorkers (b : Bool) : (joinWorkers numWorkers).nested .tableMu .deltaMu b = true := by
  unfold joinWorkers
  induction List.range numWorkers with
  | nil => rfl
  | cons w ws ih => simpa [Prog.nested] using ih

theorem nested_threads (t : DbThread) : (threads numWorkers t).nested .tableMu .deltaMu false = true := by
  cases t with
  | compactor => rfl
  | worker w => rfl
  | caller n =>
    have hjoin := nested_joinWorkers numWorkers false
    simp only [threads, calls, oneOf, List.foldr_cons, List.foldr_nil, Prog.nested, RecoveryManager.recover,
      hjoin]
    rfl

end

end Locking

open Locking in
/-- **No deadlock.**  However the threads of a database come to wait for each other, nobody
waits in a circle or for an endless chain of threads, and every thread that has not ended has
a step or waits in the end for a thread that has one. -/
theorem no_thread_waits_forever (numWorkers : Nat) (s : Locks.Threads DbThread Mutex)
    (h : Locks.Reachable (threads numWorkers) s) :
    (WellFounded fun u t => Locks.Waits s t u) ∧
      ∀ t, s t ≠ [] → ∃ u, Relation.ReflTransGen (Locks.Waits s) t u ∧ ∃ s', Locks.Step s u s' := by
  have hwf := Locks.wellFounded_waits Mutex.rank DbThread.order 5 (fun l => by cases l <;> decide)
    (ordered_threads numWorkers) h
  exact ⟨hwf, fun t ht => Locks.exists_mover hwf ht⟩

namespace Locking

/-- The compactor has entered `Compact`; caller 1 has called `Insert` and asks for `table_mu_`. -/
theorem exists_insert_waits : ∃ s, Locks.Reachable (threads 1) s ∧ Locks.Holds s .compactor .tableMu .exclusive ∧
    Locks.Waits s (.caller 1) .compactor := by
  -- the compactor polls, and enters `Compact`
  have h0 : Locks.Reachable (threads 1) (Function.update (Locks.start (threads 1)) .compactor
      (Locks.start (threads 1) .compactor)) := by
    rw [Function.update_eq_self]
    exact .start
  have h1 := (h0.move (.again _ _)).move (.seq _ _ _)
  have h2 := h1.move (.enter Mutex.deltaMu .shared .skip _ (Locks.allowed_of_update _ (by simp)))
  have h3 := ((h2.move (.skip _)).move (.release _ _ _)).move (.left _ _ _)
  have h4 := h3.move (.enter Mutex.tableMu .exclusive _ _ (Locks.allowed_of_update _ (by simp)))
  -- the caller's second call is `Insert`
  have h5 := h4.step (.caller 1) ⟨_, .again _ _, rfl⟩
  have h6 := ((h5.move (.right _ _ _)).move (.left _ _ _)).move (.seq _ _ _)
  refine ⟨_, h6, ?_, .lock .tableMu .shared .exclusive ⟨_, _, rfl⟩ ?_⟩
  · exact List.mem_cons_of_mem _ List.mem_cons_self
  · exact List.mem_cons_of_mem _ List.mem_cons_self

end Locking

open Locking in
theorem no_thread_waits_forever_insert : ∃ s u s', Locks.Reachable (threads 1) s ∧
    Locks.Waits s (.caller 1) .compactor ∧ Relation.ReflTransGen (Locks.Waits s) (.caller 1) u ∧ Locks.Step s u s' := by
  obtain ⟨s, hs, -, hw⟩ := exists_insert_waits
  have hne : s (.caller 1) ≠ [] := by
    cases hw with
    | lock l mode mode' wants holds =>
      obtain ⟨body, rest, heq⟩ := wants
      simp [heq]
    | join rest heq _ => simp [heq]
  obtain ⟨u, hu, s', hs'⟩ := (no_thread_waits_forever 1 s hs).2 (.caller 1) hne
  exact ⟨s, u, s', hs, hw, hu, hs'⟩

open Locking in
/-- **`Compact` is alone.**  While a thread holds `table_mu_` exclusively, no other thread is
in a call that reads the base or changes the delta. -/
theorem compact_is_alone (numWorkers : Nat) (s : Locks.Threads DbThread Mutex)
    (h : Locks.Reachable (threads numWorkers) s) (t u : DbThread) (hne : u ≠ t)
    (ht : Locks.Holds s t .tableMu .exclusive) :
    (∀ mode, ¬ Locks.Holds s u .tableMu mode) ∧ ¬ Locks.Holds s u .deltaMu .exclusive :=
  ⟨fun _ hu => hne (h.exclusive ht hu).symm, fun hu => hne (Locks.alone_inside (nested_threads numWorkers) h ht hu)⟩

open Locking in
theorem compact_is_alone_insert : ∃ s, Locks.Reachable (threads 1) s ∧
    Locks.Holds s .compactor .tableMu .exclusive ∧ ¬ Locks.Holds s (.caller 1) .deltaMu .exclusive := by
  obtain ⟨s, hs, hholds, -⟩ := exists_insert_waits
  exact ⟨s, hs, hholds, (compact_is_alone 1 s hs .compactor (.caller 1) (by decide) hholds).2⟩

end CoreDB
