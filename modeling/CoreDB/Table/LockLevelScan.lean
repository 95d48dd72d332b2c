import CoreDB.Table.LockLevelRefinement
import CoreDB.Table.CapturedScan

/-!
# Scans of a table under its locks

`SnapshotForScan` copies the segments and the delta under the locks, and
`MaterializeVisibleRows` goes through the copy without any: other calls go on meanwhile, and
its status reads find the manager as they leave it (`materializeUnder`).

`locked_table_serializes`: whatever the parts of the calls are interleaved to, there is one
order of atomic calls in which every call returns what it has returned, and every scan
returns what snapshot isolation promises its reader in that order.
-/

namespace CoreDB

/-! ## Racing status reads -/

/-- One record in the delta loop of `MaterializeVisibleRows`; `k` counts the status reads
before it, two being reserved for each record. -/
def Merge.recordUnder (obs : Nat → TransactionManager) (k : Nat) (reader : Transaction) (m : Merge) (rec : DeltaRecord) :
    Merge :=
  if rec.isBaseTombstone then
    let deleteVisible :=
      if rec.deletedTxn = reader.txnId then true
      else ((obs k).getStatus rec.deletedTxn).committedBy reader.snapshotTs
    if deleteVisible then { m with suppressBase := rec.rowId :: m.suppressBase } else m
  else if isVisibleUnder rec reader (obs k) (obs (k + 1)) then
    { fromDelta := Keyed.put m.fromDelta rec.rowId rec.row, suppressBase := rec.rowId :: m.suppressBase }
  else m

def mergeDeltaUnder (obs : Nat → TransactionManager) (reader : Transaction) : Nat → Merge → List DeltaRecord → Merge
  | _, m, [] => m
  | k, m, rec :: rest => mergeDeltaUnder obs reader (k + 2) (Merge.recordUnder obs k reader m rec) rest

/-- `MaterializeVisibleRows` with its status reads, each row still with its row id. -/
def materializeUnder (obs : Nat → TransactionManager) (s : ScanSnapshot) : Option (List (Nat × Row)) :=
  let m := mergeDeltaUnder obs s.reader 0 {} s.deltaRecords
  (collect (fun seg => seg.rowsExcept m.suppressBase (List.range seg.numRows)) s.segments).map (m.fromDelta ++ ·)

section
variable {obs : Nat → TransactionManager} {m : TransactionManager} {r : Transaction}
  (h : ∀ k t, (obs k).sees r t = m.sees r t)
include h

theorem recordUnder_eq (k : Nat) (acc : Merge) (a : DeltaRecord) :
    Merge.recordUnder obs k r acc a = Merge.record m r acc a := by
  have hvis : isVisibleUnder a r (obs k) (obs (k + 1)) = isVisible a r m := by
    rw [isVisibleUnder_eq, isVisible_eq, h, h]
  have hdel : ∀ m' : TransactionManager, (if a.deletedTxn = r.txnId then true
      else (m'.getStatus a.deletedTxn).committedBy r.snapshotTs) = m'.sees r a.deletedTxn := by
    intro m'
    unfold TransactionManager.sees
    by_cases heq : a.deletedTxn = r.txnId <;> simp [heq]
  unfold Merge.recordUnder Merge.record
  simp only [hvis, hdel, h]

/-- Reads that agree on what the reader sees are as good as one. -/
theorem materializeUnder_eq {s : ScanSnapshot} (hs : s.reader = r) : materializeUnder obs s = materializeKeyed m s := by
  have hloop : ∀ (l : List DeltaRecord) (k : Nat) (acc : Merge),
      mergeDeltaUnder obs r k acc l = l.foldl (Merge.record m r) acc := by
    intro l
    induction l with
    | nil => intro k acc; rfl
    | cons a l ih => intro k acc; rw [mergeDeltaUnder, ih, recordUnder_eq h, List.foldl_cons]
  unfold materializeUnder materializeKeyed mergeDelta
  rw [hs, hloop]

end

namespace TableThreads

/-- The manager as the `k`-th status read of a scan finds it, with the parts of other calls
in `during` going on. -/
def scanned (s : TableThreads) (during : List (List TableMove)) (k : Nat) : TransactionManager :=
  match Runs.run step s (during.take (k + 1)).flatten with
  | some s' => s'.table.txnMgr
  | none => s.table.txnMgr

/-- The clients after a part of a call. -/
theorem clients_step {s s' : TableThreads} {mv : TableMove} (hs : s.step mv = some s') :
    Runs.run Clients.step s.clients mv.txnOps = some s'.clients := by
  have hclaim : ∀ {txn x during res delta c}, s.claim txn x during = some (res, delta, c) →
      Runs.run Clients.step s.clients during.flatten = some c := by
    intro txn x during res delta c hc
    unfold claim at hc
    split at hc
    · obtain ⟨c', hrun, heq⟩ := Option.map_eq_some_iff.mp hc
      rw [hrun, (Prod.mk.inj (Prod.mk.inj heq).2).2]
    · cases hc
  cases mv with
  | txn op =>
    simp only [step] at hs
    split at hs
    · obtain ⟨c, hc, rfl⟩ := Option.map_eq_some_iff.mp hs
      exact Runs.run_cons_eq_some.mpr ⟨c, hc, rfl⟩
    · cases hs
  | insert t row =>
    simp only [step] at hs
    split at hs <;> cases hs
    rfl
  | update t x row during =>
    simp only [step] at hs
    split at hs
    · cases hs
    · split at hs
      · cases hs
      · next hc =>
        cases hs
        exact hclaim hc
  | delete t x during =>
    simp only [step] at hs
    split at hs
    · cases hs
    · split at hs
      · cases hs
      · next hc =>
        cases hs
        exact hclaim hc
  | append t =>
    simp only [step] at hs
    split at hs <;> cases hs
    rfl

theorem later {s s' : TableThreads} {moves : List TableMove} (h : s.clients.Inv)
    (hr : Runs.run step s moves = some s') : s'.clients.Inv ∧ s.clients.Later s'.clients := by
  refine Runs.run_invariant (Q := fun _ _ => True) (I := fun u => u.clients.Inv ∧ s.clients.Later u.clients) ?_
    ⟨h, Clients.Later.refl _⟩ (Runs.along_of_forall s fun _ _ _ => trivial) hr
  rintro u mv u' ⟨hu, hl⟩ - hs
  obtain ⟨hu', hl'⟩ := Clients.run_later hu (clients_step hs)
  exact ⟨hu', hl.trans hl'⟩

/-! ## The scan of a reader -/

section
variable {base : List (Nat × Row)} {s : TableThreads} {w : World} (h : s.Refines base w)
include h

/-- **The copy of the delta shows the reader what the atomic table shows it.** -/
theorem Refines.view_eq {t : Nat} {r : Transaction} (hcaller : s.caller t = some r) (x : Nat) (hist : List (Nat × Write)) :
    (rowOf s.table.delta (basePairs s.table.baseSegments) hist x).view s.table.txnMgr r =
      (rowOf w.table.delta (basePairs w.table.baseSegments) hist x).view s.table.txnMgr r := by
  obtain ⟨hcall, hact⟩ := caller_eq_some.mp hcaller
  have hno : ∀ a ∈ s.pending x, a.shows s.table.txnMgr r = false ∧ a.hides s.table.txnMgr r = false := by
    intro a ha
    obtain ⟨u, call, hu, -, rfl⟩ := mem_pending ha h.keys
    refine ⟨?_, by simp [DeltaRecord.hides, DeltaRecord.version]⟩
    rw [DeltaRecord.shows, h.not_visible hcall hact hu, Bool.and_false]
  have hshow : ((s.pending x).filter fun a => a.shows s.table.txnMgr r) = [] :=
    List.filter_eq_nil_iff.mpr fun a ha => by simp [(hno a ha).1]
  have hhide : ((s.pending x).any fun a => a.hides s.table.txnMgr r) = false :=
    List.any_eq_false.mpr fun a ha => by simp [(hno a ha).2]
  have hrows : (rowOf w.table.delta (basePairs w.table.baseSegments) hist x).records =
    (rowOf s.table.delta (basePairs s.table.baseSegments) hist x).records ++ s.pending x := h.rows x
  unfold RowState.view RowState.visibleVersions RowState.hidden
  rw [hrows, List.filter_append, List.any_append, h.segments]
  rw [show ((s.pending x).filter fun a => !a.isBaseTombstone && isVisible a r s.table.txnMgr) = [] from hshow,
    show ((s.pending x).any fun a => a.isBaseTombstone && s.table.txnMgr.sees r a.deletedTxn) = false from hhide,
    List.append_nil, Bool.or_false]
  rfl

/-- **The scan of an idle reader** whose status reads see what the first one could have seen. -/
theorem Refines.scanUnder {t : Nat} {r : Transaction} (hcaller : s.caller t = some r) {obs : Nat → TransactionManager}
    (hsees : ∀ k u, (obs k).sees r u = s.table.txnMgr.sees r u) :
    ∃ rows, materializeUnder obs (s.table.snapshotForScan r) = some rows ∧ rows.Perm (siView base w.log r) := by
  obtain ⟨hcall, hact⟩ := caller_eq_some.mp hcaller
  have hactw : w.clients.active t = some r := by rw [h.clients]; exact hact
  obtain ⟨rowsW, hrowsW, hperm⟩ := scan_siView h.tracked.inv h.tracked.log hactw h.tracked.distinct h.tracked.grounded
    h.tracked.readable
  have hmgr : w.table.txnMgr = s.table.txnMgr := congrArg Clients.mgr h.clients
  obtain ⟨rowsW', hrowsW', hviewW⟩ := materializeKeyed_row w.table.txnMgr (w.table.snapshotForScan r) h.tracked.readable []
  rw [hrowsW] at hrowsW'
  obtain rfl := Option.some.inj hrowsW'
  obtain ⟨rows, hrows, hview⟩ := materializeKeyed_row s.table.txnMgr (s.table.snapshotForScan r)
    (by rw [show (s.table.snapshotForScan r).segments = s.table.baseSegments from rfl, ← h.segments]
        exact h.tracked.readable) []
  refine ⟨rows, ?_, List.Perm.trans (Keyed.perm_of_keys fun x => ?_) hperm⟩
  · rw [materializeUnder_eq hsees rfl]
    exact hrows
  · have hrow := h.view_eq hcaller x []
    rw [← hmgr] at hrow
    rw [hview, hviewW, ← hmgr]
    exact List.Perm.of_eq (congrArg (List.map fun row => (x, row)) hrow)

/-- Whatever goes on while it reads. -/
theorem Refines.scan {t : Nat} {r : Transaction} (hcaller : s.caller t = some r) {during : List (List TableMove)}
    {s' : TableThreads} (hr : Runs.run TableThreads.step s during.flatten = some s') :
    ∃ rows, materializeUnder (s.scanned during) (s.table.snapshotForScan r) = some rows ∧
      rows.Perm (siView base w.log r) := by
  obtain ⟨-, hact⟩ := caller_eq_some.mp hcaller
  have hsnap : r.snapshotTs ≤ s.clients.mgr.lastCommitTs := (h.inv.snap t r (Clients.active_eq_some.mp hact).1).2
  refine h.scanUnder hcaller fun k u => ?_
  have hat := (Runs.run_momentAt hr k).1
  obtain ⟨hdinv, hlater⟩ := TableThreads.later h.inv hat
  unfold scanned
  rw [hat]
  exact hlater.sees_eq h.inv hdinv hsnap u

end

end TableThreads

/-! ## All runs -/

namespace TableThreads

/-- No part of a call wraps the allocator of row ids. -/
def NoWrap (w0 : World) (moves : List TableMove) : Prop :=
  Runs.Along step (fun s mv => s.noWrap mv = true) (start w0) moves

/-- The atomic calls `ops` do for the parts `moves` of calls. -/
def Serves (w0 : World) (moves : List TableMove) (ops : List Op) : Prop :=
  ∀ s, Runs.run step (start w0) moves = some s → NoWrap w0 moves → ∃ w,
    w0.SerialRun ops w (moves.flatMap TableMove.txnOps) s.answers ∧ s.Refines (basePairs w0.table.baseSegments) w

theorem serves_step {w0 : World} (moves : List TableMove) (mv : TableMove) (ops : List Op) (s1 s2 : TableThreads)
    (h : Serves w0 moves ops) (hr : Runs.run step (start w0) moves = some s1) (hs : s1.step mv = some s2) :
    ∃ more, Serves w0 (moves ++ [mv]) (ops ++ more) := by
  by_cases hwrap : NoWrap w0 (moves ++ [mv])
  · obtain ⟨hmoves, hlast⟩ := Runs.Along.append hwrap
    obtain ⟨w, hrun, href⟩ := h s1 hr hmoves
    obtain ⟨more, w', new, hmore, hanswers, h'⟩ := href.step (hlast s1 hr).1 hs
    refine ⟨more, fun s hr2 _ => ?_⟩
    have hr2' : Runs.run step (start w0) (moves ++ [mv]) = some s2 :=
      Runs.run_append_eq_some.mpr ⟨s1, hr, Runs.run_cons_eq_some.mpr ⟨s2, hs, rfl⟩⟩
    rw [hr2'] at hr2
    cases hr2
    refine ⟨w', ?_, h'⟩
    rw [hanswers, List.flatMap_append, List.flatMap_singleton]
    exact hrun.append hmore
  · exact ⟨[], fun s _ hno => absurd hno hwrap⟩

end TableThreads

open TableThreads in
/-- **The table under its locks serializes.**  As the run goes on, an order of atomic calls
goes on with it, from which nothing is taken back.  As long as no `Insert` wraps the
allocator of row ids, transactions begin, commit and abort in this order as they have, every
call returns what it has returned, and every reader that is not in a call scans what
snapshot isolation promises it, whatever goes on while it reads. -/
theorem locked_table_serializes (w0 : World) (h0 : w0.Start) :
    ∃ serial : List TableMove → List Op, (∀ moves more, serial moves <+: serial (moves ++ more)) ∧
      ∀ moves s, Runs.run TableThreads.step (start w0) moves = some s → NoWrap w0 moves → ∃ w,
        w0.SerialRun (serial moves) w (moves.flatMap TableMove.txnOps) s.answers ∧ w.clients = s.clients ∧
        ∀ t r, s.caller t = some r → ∀ during s', Runs.run TableThreads.step s during.flatten = some s' →
          ∃ rows, materializeUnder (s.scanned during) (s.table.snapshotForScan r) = some rows ∧
            rows.Perm (siView (basePairs w0.table.baseSegments) w.log r) := by
  have hstart : Serves w0 [] [] := by
    intro s hr _
    cases hr
    exact ⟨w0, World.SerialRun.nil w0, refines_start h0⟩
  obtain ⟨serial, hprefix, hserial⟩ := Runs.exists_answer hstart serves_step
  refine ⟨serial, hprefix, fun moves s hr hwrap => ?_⟩
  obtain ⟨w, hrun, h⟩ := hserial moves s hr s hr hwrap
  exact ⟨w, hrun, h.clients, fun t r hcaller during s' hr' => h.scan hcaller hr'⟩

/-- Transaction 1 has updated row 5 of the base and not appended its version yet; 3 has begun
during the claim.  2 is refused the row, and has taken an id for a row of its own. -/
def interleavedMoves : List TableMove :=
  [.txn .begin, .txn .begin, .update 1 5 [.int64 71#64] [[.begin]], .update 2 5 [.int64 72#64] [],
    .insert 2 [.int64 9#64]]

/-- Meanwhile 3 scans: 1 appends and commits before its first status read, 2 appends before
its second. -/
def duringScan : List (List TableMove) := [[.append 1, .txn (.commit 1)], [.append 2]]

open TableThreads in
theorem locked_table_serializes_interleaved : ∃ s s' r ops w,
    Runs.run TableThreads.step (TableThreads.start (World.load oneColumn [oneRowSegment])) interleavedMoves = some s ∧
    s.answers.map (·.2) = [.wrote true, .wrote false, .rowId 6] ∧
    s.caller 3 = some r ∧
    Runs.run TableThreads.step s duringScan.flatten = some s' ∧
    (World.load oneColumn [oneRowSegment]).SerialRun ops w (interleavedMoves.flatMap TableMove.txnOps) s.answers ∧
    materializeUnder (s.scanned duringScan) (s.table.snapshotForScan r) = some [(5, [.int64 70#64])] ∧
    List.Perm [(5, [.int64 70#64])] (siView [(5, [.int64 70#64])] w.log r) := by
  obtain ⟨s, hs, hp⟩ := Runs.exists_of_any
    (o := Runs.run TableThreads.step (TableThreads.start (World.load oneColumn [oneRowSegment])) interleavedMoves)
    (p := fun s => s.answers.map (·.2) == [.wrote true, .wrote false, .rowId 6] &&
      (Runs.run TableThreads.step s duringScan.flatten).isSome &&
      (s.caller 3).any fun r =>
        materializeUnder (s.scanned duringScan) (s.table.snapshotForScan r) == some [(5, [.int64 70#64])])
    (by decide +kernel)
  simp only [Bool.and_eq_true, beq_iff_eq] at hp
  obtain ⟨⟨hanswers, hduring⟩, hscan⟩ := hp
  obtain ⟨s', hs'⟩ := Option.isSome_iff_exists.mp hduring
  obtain ⟨r, hr, hrows⟩ := Runs.exists_of_any hscan
  rw [beq_iff_eq] at hrows
  obtain ⟨serial, -, hserial⟩ := locked_table_serializes _ start_oneRow
  have hwrap : NoWrap (World.load oneColumn [oneRowSegment]) interleavedMoves :=
    Runs.along_of_check (q := TableThreads.noWrap) (fun _ _ h => h) (by decide +kernel)
  obtain ⟨w, hrun, -, hscans⟩ := hserial interleavedMoves s hs hwrap
  obtain ⟨rows, hrows', hperm⟩ := hscans 3 r hr duringScan s' hs'
  rw [hrows] at hrows'
  cases hrows'
  have hbase : basePairs (World.load oneColumn [oneRowSegment]).table.baseSegments = [(5, [.int64 70#64])] := by
    decide +kernel
  rw [hbase] at hperm
  exact ⟨s, s', r, _, w, hs, hanswers, hr, hs', hrun, hrows, hperm⟩

end CoreDB
