import CoreDB.Table.World

/-!
# Captured scans

`SnapshotForScan` copies the segments, the delta records and the reader's handle;
`MaterializeVisibleRows` asks the transaction manager later, when the statuses of creators
and deleters may have changed.  The answer does not: a status that changes after the
capture becomes "aborted", or "committed" with a timestamp above every snapshot there is.

Rows may have any shape here, and a `Compact` that throws is an activity like any
other (`World.activity`).
-/

namespace CoreDB

open Runs

/-- The table after `Compact` has returned or thrown.  `Segment::Build` throws before anything
but the segment id has changed; reading a cell throws earlier. -/
def Table.afterCompact (t : Table) (obs : Nat → TransactionManager) : Table :=
  match t.compactUnder obs with
  | some t' => t'
  | none =>
    match t.mergedRows (compactLoop obs t.txnMgr.oldestActiveSnapshot t.delta) with
    | some _ => { t with nextSegmentId := t.nextSegmentId + 1 }
    | none => t

namespace World

/-- Any call by any user, with rows of any shape and a `Compact` of any size. -/
def activity (w : World) : Op → Option World
  | .compact during =>
    (run txnStep w during.flatten).map fun w' =>
      { w' with table := { w.table.afterCompact (w.observed during) with txnMgr := w'.table.txnMgr } }
  | op => w.step op

/-- An activity moves the transactions on, or leaves them alone. -/
theorem activity_later {w w' : World} {op : Op} (h : w.clients.Inv) (hs : w.activity op = some w') :
    w'.clients.Inv ∧ w.clients.Later w'.clients := by
  by_cases hop : ∃ during, op = .compact during
  · obtain ⟨during, rfl⟩ := hop
    obtain ⟨w1, hran, rfl⟩ := Option.map_eq_some_iff.mp hs
    have hrun := txnRun_run h hran
    exact ⟨hrun.clients, hrun.later⟩
  · have hstep : w.step op = some w' := by
      cases op with
      | compact during => exact absurd ⟨during, rfl⟩ hop
      | _ => exact hs
    cases step_cases (fun t txn ht => h.active_id ht) hstep with
    | txn top c hc => exact ⟨Clients.inv_step h hc, Clients.later_step h hc⟩
    | insert t y txn row hop hact hnew => exact ⟨h, Clients.Later.refl _⟩
    | write t y txn delta wr hop hcl => exact ⟨h, Clients.Later.refl _⟩
    | fail t y txn hop hact href => exact ⟨h, Clients.Later.refl _⟩
    | compact during w1 t hfits hran ht => exact absurd ⟨during, rfl⟩ hop

theorem activity_run_later {w w' : World} {ops : List Op} (h : w.clients.Inv) (hr : run activity w ops = some w') :
    w'.clients.Inv ∧ w.clients.Later w'.clients := by
  refine run_invariant (Q := fun _ _ => True) (I := fun u => u.clients.Inv ∧ w.clients.Later u.clients) ?_
    ⟨h, Clients.Later.refl _⟩ (along_of_forall w fun _ _ _ => trivial) hr
  rintro u op u' ⟨hu, hl⟩ - hs
  obtain ⟨hu', hl'⟩ := activity_later hu hs
  exact ⟨hu', hl.trans hl'⟩

end World

/-! ## What a scan asks the manager -/

section
variable {m m' : TransactionManager} {r : Transaction} (h : ∀ t, m'.sees r t = m.sees r t)
include h

theorem shows_congr (a : DeltaRecord) : a.shows m' r = a.shows m r := by
  rw [DeltaRecord.shows, DeltaRecord.shows, isVisible_eq, isVisible_eq, h, h]

theorem hides_congr (a : DeltaRecord) : a.hides m' r = a.hides m r := by
  rw [DeltaRecord.hides, DeltaRecord.hides, h]

/-- Managers that agree on what the reader sees give the same delta loop. -/
theorem mergeDelta_congr (records : List DeltaRecord) : mergeDelta m' r records = mergeDelta m r records := by
  have hrecord : Merge.record m' r = Merge.record m r := by
    funext acc a
    rw [Merge.record_eq, Merge.record_eq, shows_congr h, hides_congr h]
  rw [mergeDelta, mergeDelta, hrecord]

end

theorem materializeVisibleRows_congr {m m' : TransactionManager} {s : ScanSnapshot}
    (h : ∀ t, m'.sees s.reader t = m.sees s.reader t) : materializeVisibleRows m' s = materializeVisibleRows m s := by
  rw [materializeVisibleRows, materializeVisibleRows, materializeKeyed, materializeKeyed, mergeDelta_congr h]

/-- **A captured scan is immune to later activity.**  From a table with any contents and no
transaction yet, any activity, a capture by an active reader, and any further activity: the
captured scan gives what it would have given at once. -/
theorem captured_scan_immune (w0 w w' : World) (h0 : w0.clients = {}) (ops more : List Op)
    (hrun : run World.activity w0 ops = some w) (t : Nat) (r : Transaction) (hr : w.clients.active t = some r)
    (hmore : run World.activity w more = some w') :
    materializeVisibleRows w'.table.txnMgr (w.table.snapshotForScan r) =
      materializeVisibleRows w.table.txnMgr (w.table.snapshotForScan r) := by
  have hinv0 : w0.clients.Inv := by
    rw [h0]
    exact Clients.inv_empty
  obtain ⟨hinv, -⟩ := World.activity_run_later hinv0 hrun
  obtain ⟨hinv', hl⟩ := World.activity_run_later hinv hmore
  have hsnap : r.snapshotTs ≤ w.clients.mgr.lastCommitTs :=
    (hinv.snap t r (Clients.active_eq_some.mp hr).1).2
  exact materializeVisibleRows_congr fun u => hl.sees_eq hinv hinv' hsnap u

/-- Reader 3 captures with its own insert in the delta and writer 4 at work; then both commit,
a third transaction deletes and commits, and the table is compacted. -/
theorem captured_scan_immune_readerCommits : ∃ w w' r,
    run World.activity (World.create oneColumn)
      [.txn .begin, .insert 1 [.int64 7], .txn (.commit 1), .txn .begin, .insert 3 [.int64 8], .txn .begin,
        .update 4 1 [.int64 9]] = some w ∧
    w.clients.active 3 = some r ∧
    run World.activity w [.txn (.commit 4), .txn (.commit 3), .txn .begin, .delete 7 1, .txn (.commit 7),
        .compact []] = some w' ∧
    materializeVisibleRows w'.table.txnMgr (w.table.snapshotForScan r) = some [[.int64 7], [.int64 8]] := by
  obtain ⟨w, hw, hp⟩ := exists_of_any
    (o := run World.activity (World.create oneColumn)
      [.txn .begin, .insert 1 [.int64 7], .txn (.commit 1), .txn .begin, .insert 3 [.int64 8], .txn .begin,
        .update 4 1 [.int64 9]])
    (p := fun w => (w.clients.active 3).any fun r =>
      (run World.activity w [.txn (.commit 4), .txn (.commit 3), .txn .begin, .delete 7 1, .txn (.commit 7),
        .compact []]).isSome &&
      decide (materializeVisibleRows w.table.txnMgr (w.table.snapshotForScan r) = some [[.int64 7], [.int64 8]]))
    (by decide +kernel)
  obtain ⟨r, hr, hp⟩ := exists_of_any hp
  rw [Bool.and_eq_true, decide_eq_true_iff, Option.isSome_iff_exists] at hp
  obtain ⟨⟨w', hw'⟩, hrows⟩ := hp
  refine ⟨w, w', r, hw, hr, hw', ?_⟩
  rw [captured_scan_immune _ w w' rfl _ _ hw 3 r hr hw', hrows]

end CoreDB
