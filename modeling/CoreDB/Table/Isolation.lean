import CoreDB.Table.WordIds

/-!
# Snapshot isolation

`siView` is what a reader should see, from the log alone: the base rows, overlaid
in commit order with the writes of the transactions committed by its snapshot, and
then with its own writes.  `scan_siView`: as long as rows are grounded, a scan
returns it.

The second half is about pairs of writers.  Two writes to a row by transactions
that have not aborted are ordered: the later writer saw the earlier one
(`RowState.Inv.seen`), in every run and whatever `Compact` does.
-/

namespace CoreDB

open VersionChain (final)

/-! ## The abstract view -/

def Event.commitOf : Event → Option (Nat × Nat)
  | .commit t ts => some (t, ts)
  | _ => none

/-- The commits of a log, each with its timestamp. -/
def commits (log : List Event) : List (Nat × Nat) := log.filterMap Event.commitOf

def Event.writeBy (t : Nat) : Event → Option (Nat × Option Row)
  | .write u x w => if u = t then some (x, w.value) else none
  | _ => none

/-- The writes of one transaction. -/
def writesOf (log : List Event) (t : Nat) : List (Nat × Option Row) := log.filterMap (Event.writeBy t)

/-- The transactions committed by `ts`, in commit order. -/
def commitOrder (log : List Event) (ts : Nat) : List Nat :=
  ((commits log).filter fun p => decide (p.2 ≤ ts)).map (·.1)

/-- What snapshot isolation promises a reader. -/
def siView (base : List (Nat × Row)) (log : List Event) (r : Transaction) : List (Nat × Row) :=
  Keyed.applyAll base ((commitOrder log r.snapshotTs).flatMap (writesOf log) ++ writesOf log r.txnId)

/-! ## The log and the handles -/

structure LogOk (c : Clients) (log : List Event) : Prop where
  commit : ∀ p ∈ commits log, ∃ txn, c.handle p.1 = some txn ∧ txn.state = .committed ∧ txn.commitTs = p.2
  order : (commits log).Pairwise fun p q => p.2 < q.2
  writer : ∀ t x w, Event.write t x w ∈ log → ∃ txn, c.handle t = some txn ∧
    (txn.state = .committed → (t, txn.commitTs) ∈ commits log)

theorem commits_concat (log : List Event) (e : Event) :
    commits (log ++ [e]) = commits log ++ e.commitOf.toList := by
  unfold commits
  rw [List.filterMap_append]
  cases h : e.commitOf <;> simp [h]

theorem logOk_nil (c : Clients) : LogOk c [] where
  commit := by simp [commits]
  order := by simp [commits]
  writer := by simp

/-- A handle that is put back under its own id changes nothing for the others. -/
theorem logOk_put {c : Clients} {log : List Event} {e : Event} (txn : Transaction) (m : TransactionManager)
    (h : LogOk c log) (hnew : ∀ p ∈ commits log, p.1 ≠ txn.txnId)
    (hcm : ∀ p ∈ e.commitOf, p.1 = txn.txnId ∧ txn.state = .committed ∧ txn.commitTs = p.2)
    (hcm' : txn.state = .committed → (txn.txnId, txn.commitTs) ∈ e.commitOf.toList)
    (hafter : ∀ p ∈ commits log, ∀ q ∈ e.commitOf, p.2 < q.2)
    (hwr : ∀ t x w, e ≠ .write t x w) : LogOk (c.put (txn, m)) (log ++ [e]) where
  commit := by
    intro p hp
    rw [commits_concat] at hp
    rcases List.mem_append.mp hp with hp | hp
    · obtain ⟨u, hu, hrest⟩ := h.commit p hp
      refine ⟨u, ?_, hrest⟩
      simp only [Clients.put, Function.update_of_ne (hnew p hp), hu]
    · obtain ⟨heq, hst, hts⟩ := hcm p (by simpa using hp)
      exact ⟨txn, by simp only [Clients.put, heq, Function.update_self], hst, hts⟩
  order := by
    rw [commits_concat, List.pairwise_append]
    refine ⟨h.order, ?_, fun p hp q hq => hafter p hp q (by simpa using hq)⟩
    cases e.commitOf <;> simp
  writer := by
    intro t x w ht
    rcases List.mem_append.mp ht with ht | ht
    · obtain ⟨u, hu, hcu⟩ := h.writer t x w ht
      rw [commits_concat]
      by_cases heq : t = txn.txnId
      · refine ⟨txn, by simp only [Clients.put, heq, Function.update_self], fun hst => ?_⟩
        rw [heq]
        exact List.mem_append_right _ (hcm' hst)
      · refine ⟨u, by simp only [Clients.put, Function.update_of_ne heq, hu], fun hst => ?_⟩
        exact List.mem_append_left _ (hcu hst)
    · rw [List.mem_singleton] at ht
      exact absurd ht.symm (hwr t x w)

theorem logOk_txnStep {w w' : World} {op : TxnOp} (hc : w.clients.Inv) (h : LogOk w.clients w.log)
    (hs : w.txnStep op = some w') : LogOk w'.clients w'.log := by
  unfold World.txnStep at hs
  obtain ⟨c, hcs, rfl⟩ := Option.map_eq_some_iff.mp hs
  have hresolved : ∀ t txn, w.clients.active t = some txn → ∀ p ∈ commits w.log, p.1 ≠ txn.txnId := by
    intro t txn ht p hp heq
    obtain ⟨hid, hh, hst, -⟩ := hc.active_handle ht
    obtain ⟨u, hu, hcm, -⟩ := h.commit p hp
    rw [heq, hh] at hu
    rw [← Option.some.inj hu, hst] at hcm
    cases hcm
  rcases Clients.step_cases hcs with ⟨rfl, rfl⟩ | ⟨t, txn, rfl, ht, rfl⟩ | ⟨t, txn, rfl, ht, rfl⟩
  · refine logOk_put _ _ h (fun p hp heq => ?_) (by simp [TxnOp.event, Event.commitOf])
      (by simp) (by simp [TxnOp.event, Event.commitOf]) (by simp [TxnOp.event])
    obtain ⟨u, hu, -⟩ := h.commit p hp
    have := (hc.id _ u hu).2.2
    dsimp only at heq
    omega
  · obtain rfl := hc.active_id ht
    refine logOk_put _ _ h (hresolved _ txn ht) ?_ ?_ ?_ (by simp [TxnOp.event])
    · simp only [TxnOp.event, Event.commitOf, Option.mem_some_iff]
      rintro p rfl
      exact ⟨rfl, trivial, rfl⟩
    · intro _
      simp [TxnOp.event, Event.commitOf]
      rfl
    · intro p hp q hq
      simp only [TxnOp.event, Event.commitOf, Option.mem_some_iff] at hq
      obtain ⟨u, hu, hcm, hts⟩ := h.commit p hp
      have h1 := (hc.commitTs _ u hu hcm).2
      have h2 := hc.last
      rw [← hq]
      show p.2 < w.clients.mgr.nextId
      omega
  · refine logOk_put _ _ h (hresolved t txn ht) (by simp [TxnOp.event, Event.commitOf])
      (by simp) (by simp [TxnOp.event, Event.commitOf]) (by simp [TxnOp.event])

theorem logOk_txnRun {w w' : World} {ops : List TxnOp} (hc : w.clients.Inv) (h : LogOk w.clients w.log)
    (hr : Runs.run World.txnStep w ops = some w') : LogOk w'.clients w'.log := by
  refine (Runs.run_invariant (Q := fun _ _ => True) (I := fun u => u.clients.Inv ∧ LogOk u.clients u.log) ?_
    ⟨hc, h⟩ (Runs.along_of_forall w fun _ _ _ => trivial) hr).2
  intro u op u' hu _ hs
  exact ⟨(World.txnRun_step hu.1 hs).clients, logOk_txnStep hu.1 hu.2 hs⟩

/-- A write of an active transaction is logged. -/
theorem logOk_wrote {c : Clients} {log : List Event} {t x : Nat} {wr : Write} {txn : Transaction}
    (h : LogOk c log) (ht : c.active t = some txn) : LogOk c (log ++ [.write t x wr]) := by
  have hcm : commits (log ++ [.write t x wr]) = commits log := by
    rw [commits_concat]
    simp [Event.commitOf]
  obtain ⟨hh, hst⟩ := Clients.active_eq_some.mp ht
  refine ⟨by rw [hcm]; exact h.commit, by rw [hcm]; exact h.order, fun u y v hu => ?_⟩
  rcases List.mem_append.mp hu with hu | hu
  · rw [hcm]
    exact h.writer u y v hu
  · rw [List.mem_singleton, Event.write.injEq] at hu
    refine ⟨txn, by rw [hu.1]; exact hh, fun hf => ?_⟩
    rw [hst] at hf
    cases hf

theorem logOk_step {w w' : World} {op : Op} (hw : w.Inv) (h : LogOk w.clients w.log)
    (hs : w.step op = some w') : LogOk w'.clients w'.log := by
  cases World.step_cases hw.active_id hs with
  | txn top c hc => exact logOk_txnStep hw.clients h hs
  | insert t y txn row hop hact hnew => exact logOk_wrote h hact
  | write t y txn delta wr hop hcl => exact logOk_wrote h hcl.active
  | fail t y txn hop hact href => exact h
  | compact during w1 t hfits hran ht =>
    have hlog := logOk_txnRun hw.clients h hran
    exact hlog

/-! ## Regrouping by commit order -/

theorem mem_filterMap_writeTo {log : List Event} {x : Nat} {p : Nat × Write}
    (hp : p ∈ log.filterMap (Event.writeTo x)) : Event.write p.1 x p.2 ∈ log := by
  obtain ⟨e, he, hw⟩ := List.mem_filterMap.mp hp
  cases e with
  | write t y w =>
    simp only [Event.writeTo] at hw
    split at hw
    · next hyx => rw [← Option.some.inj hw, ← hyx]; exact he
    · cases hw
  | begin t => cases hw
  | commit t ts => cases hw
  | abort t => cases hw

theorem filter_writesOf (log : List Event) (t x : Nat) :
    (writesOf log t).filter (fun p => decide (p.1 = x)) =
      ((log.filterMap (Event.writeTo x)).filter fun p => decide (p.1 = t)).map fun p => (x, p.2.value) := by
  unfold writesOf
  induction log with
  | nil => rfl
  | cons e log ih =>
    cases e with
    | write u y w =>
      simp only [List.filterMap_cons, Event.writeBy, Event.writeTo]
      by_cases hu : u = t <;> by_cases hy : y = x <;> simp [hu, hy, ih]
    | begin u => simpa only [List.filterMap_cons, Event.writeBy, Event.writeTo] using ih
    | commit u ts => simpa only [List.filterMap_cons, Event.writeBy, Event.writeTo] using ih
    | abort u => simpa only [List.filterMap_cons, Event.writeBy, Event.writeTo] using ih

section
variable {w : World} (hw : w.Inv) (hlog : LogOk w.clients w.log) {t : Nat} {r : Transaction}
  (hr : w.clients.active t = some r)
include hw hr

/-- What is seen is not aborted. -/
theorem filter_sees_liveHist (x : Nat) :
    ((w.row x).liveHist w.clients).filter (fun p => w.clients.mgr.sees r p.1) =
      (w.row x).hist.filter fun p => w.clients.mgr.sees r p.1 := by
  unfold RowState.liveHist
  rw [List.filter_filter]
  apply List.filter_congr
  intro p _
  cases hs : w.clients.mgr.sees r p.1 with
  | false => rfl
  | true =>
    simpa using hw.clients.alive_of_Sees ((Clients.Sees_of_active hr).mpr hs) (hw.clients.alive_of_active hr)

include hlog

/-- The commit order of what `r` sees, its own writes last. -/
def seenOrder (log : List Event) (r : Transaction) : List Nat := commitOrder log r.snapshotTs ++ [r.txnId]

/-- The rank of a seen transaction: its commit, or after all commits if it is `r`. -/
def seenRank (c : Clients) (r : Transaction) (u : Nat) : Nat :=
  if u = r.txnId then r.snapshotTs + 1 else ((c.handle u).map (·.commitTs)).getD 0

omit hw in
theorem mem_commitOrder {u : Nat} (hwi : w.Inv) (hu : u ∈ commitOrder w.log r.snapshotTs) :
    ∃ txn, w.clients.handle u = some txn ∧ txn.state = .committed ∧ txn.commitTs ≤ r.snapshotTs ∧ u ≠ r.txnId := by
  obtain ⟨p, hp, rfl⟩ := List.mem_map.mp hu
  obtain ⟨hp, hle⟩ := List.mem_filter.mp hp
  obtain ⟨txn, htx, hcm, hts⟩ := hlog.commit p hp
  refine ⟨txn, htx, hcm, by rw [hts]; exact of_decide_eq_true hle, fun heq => ?_⟩
  obtain ⟨-, hh, hst, -⟩ := hwi.clients.active_handle hr
  rw [heq, hh] at htx
  rw [← Option.some.inj htx, hst] at hcm
  cases hcm

theorem seenOrder_ranked : (seenOrder w.log r).Pairwise fun a b =>
    seenRank w.clients r a < seenRank w.clients r b := by
  have hrank : ∀ p ∈ (commits w.log).filter fun p => decide (p.2 ≤ r.snapshotTs),
      seenRank w.clients r p.1 = p.2 := by
    intro p hp
    obtain ⟨txn, htx, -, -, hne⟩ := mem_commitOrder hlog hr hw (List.mem_map_of_mem hp)
    obtain ⟨u, hu, -, hts⟩ := hlog.commit p (List.mem_of_mem_filter hp)
    rw [htx] at hu
    simp [seenRank, hne, htx, Option.some.inj hu, hts]
  unfold seenOrder
  rw [List.pairwise_append]
  refine ⟨?_, List.pairwise_singleton _ _, fun a ha b hb => ?_⟩
  · unfold commitOrder
    rw [List.pairwise_map]
    refine (hlog.order.sublist List.filter_sublist).imp_of_mem fun {p q} hp hq hlt => ?_
    rw [hrank p hp, hrank q hq]
    exact hlt
  · obtain ⟨txn, htx, -, hle, hne⟩ := mem_commitOrder hlog hr hw ha
    rw [List.mem_singleton.mp hb]
    simp only [seenRank, hne, if_false, htx, if_true, Option.map_some, Option.getD_some]
    omega

omit hlog in
/-- Of two writes of a row that `r` sees, the later one has the higher rank. -/
theorem seenRank_lt {p q : Nat × Write} (hs : w.clients.Sees q.1 p.1) (hqs : w.clients.mgr.sees r q.1 = true) :
    p.1 = q.1 ∨ seenRank w.clients r p.1 < seenRank w.clients r q.1 := by
  obtain ⟨-, hh, hst, -⟩ := hw.clients.active_handle hr
  obtain ⟨qtx, hq', hsees⟩ := hs
  have hqid := (hw.clients.id q.1 qtx hq').1
  rcases (hw.clients.sees_iff qtx p.1).mp hsees with heq | ⟨ptx, hp', hpc, hle⟩
  · exact Or.inl (heq.trans hqid)
  · by_cases hpr : p.1 = r.txnId
    · rw [hpr, hh] at hp'
      rw [← Option.some.inj hp', hst] at hpc
      cases hpc
    · right
      have hprank : seenRank w.clients r p.1 = ptx.commitTs := by simp [seenRank, hpr, hp']
      rw [hprank]
      by_cases hqr : q.1 = r.txnId
      · rw [hqr, hh] at hq'
        obtain rfl := Option.some.inj hq'
        simp only [seenRank, hqr, if_true]
        omega
      · rcases (hw.clients.sees_iff r q.1).mp hqs with heq | ⟨qtx', hq'', hqc, -⟩
        · exact absurd heq hqr
        · rw [hq'] at hq''
          obtain rfl := Option.some.inj hq''
          have h1 := (hw.clients.snap q.1 qtx hq').1
          have h2 := (hw.clients.commitTs q.1 qtx hq' hqc).1
          simp only [seenRank, hqr, if_false, hq', Option.map_some, Option.getD_some]
          omega

/-- The writes of a row that `r` sees, grouped in commit order, are in the order in
which they were made. -/
theorem regroup_seen (x : Nat) :
    (seenOrder w.log r).flatMap (fun u => (w.row x).hist.filter fun p => decide (p.1 = u)) =
      (w.row x).hist.filter fun p => w.clients.mgr.sees r p.1 := by
  have hin : ∀ u ∈ seenOrder w.log r, w.clients.mgr.sees r u = true := by
    intro u hu
    rcases List.mem_append.mp hu with hu | hu
    · obtain ⟨txn, htx, hcm, hle, -⟩ := mem_commitOrder hlog hr hw hu
      exact (hw.clients.sees_iff r u).mpr (Or.inr ⟨txn, htx, hcm, hle⟩)
    · exact (hw.clients.sees_iff r u).mpr (Or.inl (List.mem_singleton.mp hu))
  have hfilter : (seenOrder w.log r).flatMap (fun u => (w.row x).hist.filter fun p => decide (p.1 = u)) =
      (seenOrder w.log r).flatMap (fun u => ((w.row x).hist.filter fun p => w.clients.mgr.sees r p.1).filter
        fun p => decide (p.1 = u)) := by
    apply List.flatMap_congr
    intro u hu
    rw [List.filter_filter]
    apply List.filter_congr
    intro p _
    by_cases hp : p.1 = u
    · simp [hp, hin u hu]
    · simp [hp]
  rw [hfilter]
  refine Keyed.regroup _ _ (seenRank w.clients r) (seenOrder_ranked hw hlog hr) ?_ ?_
  · rw [← filter_sees_liveHist hw hr]
    refine ((hw.rows x).seen.sublist List.filter_sublist).imp_of_mem fun {p q} hp hq hs => ?_
    exact seenRank_lt hw hr hs (List.mem_filter.mp hq).2
  · intro p hp
    obtain ⟨hp, hs⟩ := List.mem_filter.mp hp
    unfold seenOrder
    rcases (hw.clients.sees_iff r p.1).mp hs with heq | ⟨txn, htx, hcm, hle⟩
    · exact List.mem_append_right _ (by rw [heq]; exact List.mem_singleton.mpr rfl)
    · refine List.mem_append_left _ (List.mem_map.mpr ⟨(p.1, txn.commitTs), List.mem_filter.mpr ⟨?_, by simpa using hle⟩, rfl⟩)
      obtain ⟨txn', htx', hlogged⟩ := hlog.writer p.1 x p.2 (mem_filterMap_writeTo hp)
      rw [htx] at htx'
      obtain rfl := Option.some.inj htx'
      exact hlogged hcm

theorem find_siView (base : List (Nat × Row)) (x : Nat) : Keyed.find (siView base w.log r) x =
    final (Keyed.find base x)
      (values (((w.row x).liveHist w.clients).filter fun p => w.clients.mgr.sees r p.1)) := by
  have hws : (commitOrder w.log r.snapshotTs).flatMap (writesOf w.log) ++ writesOf w.log r.txnId =
      (seenOrder w.log r).flatMap (writesOf w.log) := by
    simp [seenOrder]
  unfold siView
  rw [hws, Keyed.find_applyAll, List.filter_flatMap, filter_sees_liveHist hw hr,
    ← regroup_seen hw hlog hr x]
  have hmap : (seenOrder w.log r).flatMap (fun u => (writesOf w.log u).filter fun p => decide (p.1 = x)) =
      ((seenOrder w.log r).flatMap fun u => (w.row x).hist.filter fun p => decide (p.1 = u)).map
        fun p => (x, p.2.value) := by
    rw [List.map_flatMap]
    apply List.flatMap_congr
    intro u _
    exact filter_writesOf w.log u x
  rw [hmap]
  unfold final values
  simp only [List.getLast?_map, Option.map_map]
  rfl

/-- **A scan returns the snapshot-isolation view**, wherever rows are grounded. -/
theorem scan_siView {base : List (Nat × Row)} (hbase : (Keyed.keys base).Nodup)
    (hg : w.Grounded (Keyed.find base)) (hread : ∀ seg ∈ w.table.baseSegments, seg.Readable) :
    ∃ rows, materializeKeyed w.table.txnMgr (w.table.snapshotForScan r) = some rows ∧
      rows.Perm (siView base w.log r) := by
  obtain ⟨rows, hrows, hview⟩ := materializeKeyed_row w.table.txnMgr (w.table.snapshotForScan r) hread []
  refine ⟨rows, hrows, Keyed.perm_of_keys fun x => ?_⟩
  have hv : (rowOf w.table.delta (basePairs w.table.baseSegments) [] x).view w.table.txnMgr r =
      (w.row x).view w.clients.mgr r := rfl
  have hfind := find_siView hw hlog hr base x
  have hrow := (hg x).view_eq hw.clients (hw.rows x) hr
  rw [hview x, show (w.table.snapshotForScan r).reader = r from rfl,
    show (w.table.snapshotForScan r).deltaRecords = w.table.delta from rfl,
    show (w.table.snapshotForScan r).segments = w.table.baseSegments from rfl, hv, hrow, ← hfind,
    Keyed.filter_key (m := siView base w.log r) (Keyed.keys_applyAll_nodup _ hbase)]

end

/-! ## Runs without `Compact` -/

/-- A table with an empty delta over base segments of distinct row ids, with any
transactions begun and resolved before. -/
structure World.Start (w : World) : Prop where
  clients : w.clients.Inv
  delta : w.table.delta = []
  log : w.log = []
  distinct : (w.table.baseSegments.flatMap Segment.rowIds).Nodup
  readable : ∀ seg ∈ w.table.baseSegments, seg.Readable
  issued : ∀ x ∈ w.table.baseSegments.flatMap Segment.rowIds, x < w.table.nextRowId

theorem keys_basePairs (segs : List Segment) : Keyed.keys (basePairs segs) = segs.flatMap Segment.rowIds := by
  unfold Keyed.keys basePairs
  rw [List.map_flatMap]
  apply List.flatMap_congr
  intro seg _
  exact keys_pairs seg

theorem le_foldl_raise (ids : List Nat) (next : Nat) :
    next ≤ ids.foldl Table.raise next ∧ ∀ x ∈ ids, x < ids.foldl Table.raise next := by
  induction ids generalizing next with
  | nil => simp
  | cons y ids ih =>
    obtain ⟨h1, h2⟩ := ih (Table.raise next y)
    rw [List.foldl_cons]
    have hraise : next ≤ Table.raise next y ∧ y < Table.raise next y := by
      unfold Table.raise
      split <;> omega
    refine ⟨Nat.le_trans hraise.1 h1, fun x hx => ?_⟩
    rcases List.mem_cons.mp hx with rfl | hx
    · exact Nat.lt_of_lt_of_le hraise.2 h1
    · exact h2 x hx

theorem foldl_raise_le {n : Nat} (ids : List Nat) : ∀ {next : Nat}, next ≤ n → (∀ x ∈ ids, x < n) →
    ids.foldl Table.raise next ≤ n := by
  induction ids with
  | nil => intro next h _; exact h
  | cons y ids ih =>
    intro next h hids
    rw [List.foldl_cons]
    refine ih ?_ fun x hx => hids x (List.mem_cons_of_mem _ hx)
    have := hids y List.mem_cons_self
    unfold Table.raise
    split <;> omega

/-- A new table that has loaded segments. -/
def World.load (userSchema : Schema) (segs : List Segment) : World :=
  { table := ({ userSchema } : Table).loadBaseSegments segs }

theorem World.start_load (userSchema : Schema) (segs : List Segment)
    (hdistinct : (segs.flatMap Segment.rowIds).Nodup) (hread : ∀ seg ∈ segs, seg.Readable) :
    (World.load userSchema segs).Start where
  clients := Clients.inv_empty
  delta := rfl
  log := rfl
  distinct := hdistinct
  readable := hread
  issued := (le_foldl_raise _ _).2

/-- A new table with 64-bit row ids that has loaded segments. -/
def World.load64 (userSchema : Schema) (segs : List Segment) : World :=
  { table := ({ userSchema } : Table).loadBaseSegments64 segs }

/-- It starts above the ids of its segments unless one of them is 2⁶⁴ - 1. -/
theorem World.start_load64 (userSchema : Schema) (segs : List Segment)
    (hdistinct : (segs.flatMap Segment.rowIds).Nodup) (hread : ∀ seg ∈ segs, seg.Readable)
    (hids : ∀ x ∈ segs.flatMap Segment.rowIds, x + 1 < 2 ^ 64) : (World.load64 userSchema segs).Start where
  clients := Clients.inv_empty
  delta := rfl
  log := rfl
  distinct := hdistinct
  readable := hread
  issued := by
    show ∀ x ∈ segs.flatMap Segment.rowIds, x < (segs.flatMap Segment.rowIds).foldl Table.raise64 _
    rw [Table.foldl_raise64_eq hids]
    exact (le_foldl_raise _ _).2

theorem World.start_create (userSchema : Schema) : (World.create userSchema).Start :=
  World.start_load userSchema [] List.nodup_nil (by simp)

namespace World

theorem Start.row_eq {w : World} (h : w.Start) (x : Nat) :
    w.row x = { base := (Keyed.find (basePairs w.table.baseSegments) x).toList } := by
  have hnodup : (Keyed.keys (basePairs w.table.baseSegments)).Nodup := by
    rw [keys_basePairs]; exact h.distinct
  have hbase := congrArg (List.map (·.2)) (Keyed.filter_key hnodup x)
  rw [List.map_map] at hbase
  simp only [row, rowOf, h.delta, h.log, List.filter_nil, List.filterMap_nil, hbase]
  congr 1
  exact List.map_id _

theorem Start.inv {w : World} (h : w.Start) : w.Inv where
  clients := h.clients
  rows := fun x => by rw [h.row_eq x]; exact RowState.inv_empty _ _
  fresh := by
    intro x hx
    have hnone : Keyed.find (basePairs w.table.baseSegments) x = none := by
      rw [Keyed.find_eq_none_iff, keys_basePairs]
      intro hmem
      have := h.issued x hmem
      omega
    rw [h.row_eq x, hnone]
    rfl

theorem Start.grounded {w : World} (h : w.Start) :
    w.Grounded (Keyed.find (basePairs w.table.baseSegments)) := by
  intro x
  rw [h.row_eq x]
  exact RowState.grounded_start _ _

/-- What runs without `Compact` keep. -/
structure Uncompacted (w0 w : World) : Prop where
  inv : w.Inv
  log : LogOk w.clients w.log
  grounded : w.Grounded (Keyed.find (basePairs w0.table.baseSegments))
  base : w.table.baseSegments = w0.table.baseSegments

theorem Step.base_eq {w w' : World} {op : Op} (hop : ∀ d, op ≠ .compact d) (hs : Step w op w') :
    w'.table.baseSegments = w.table.baseSegments := by
  cases hs with
  | txn top c hc => rfl
  | insert t y txn row hop' hact hnew => rfl
  | write t y txn delta wr hop' hcl => rfl
  | fail t y txn hop' hact href => rfl
  | compact during w1 t hfits hran ht => exact absurd rfl (hop during)

theorem Uncompacted.step {w0 w w' : World} {op : Op} (h : Uncompacted w0 w) (hop : ∀ d, op ≠ .compact d)
    (hs : w.step op = some w') : Uncompacted w0 w' where
  inv := inv_step h.inv (fun d hd => absurd hd (hop d)) hs
  log := logOk_step h.inv h.log hs
  grounded := by
    refine grounded_step h.inv (fun d hd => absurd hd (hop d)) h.grounded ?_ hs
    cases op with
    | compact d => exact absurd rfl (hop d)
    | _ => trivial
  base := ((step_cases h.inv.active_id hs).base_eq hop).trans h.base

theorem Start.uncompacted {w0 w : World} (h0 : w0.Start) {ops : List Op} (hops : ∀ d, Op.compact d ∉ ops)
    (hr : Runs.run World.step w0 ops = some w) : Uncompacted w0 w := by
  refine Runs.run_invariant (Q := fun _ op => ∀ d, op ≠ .compact d) (fun u op u' hu hop hs => hu.step hop hs) ?_
    (Runs.along_of_forall w0 fun _ op hop d hd => hops d (by rw [← hd]; exact hop)) hr
  refine ⟨h0.inv, ?_, h0.grounded, rfl⟩
  rw [h0.log]
  exact logOk_nil _

end World

/-- **Reads refine snapshot isolation.**  After any interleaving of begins, inserts,
updates, deletes, commits and aborts that does not wrap the allocator of row ids, every
active reader's scan returns, as a multiset, the abstract view. -/
theorem scan_refines_snapshot_isolation (w0 w : World) (h0 : w0.Start) (ops : List Op)
    (hops : ∀ d, Op.compact d ∉ ops) (hrun : Runs.run World.step64 w0 ops = some w)
    (hwrap : Runs.Along World.step64 (fun w op => w.noWrap op = true) w0 ops) (t : Nat) (r : Transaction)
    (hr : w.clients.active t = some r) :
    ∃ rows, materializeVisibleRows w.table.txnMgr (w.table.snapshotForScan r) = some rows ∧
      rows.Perm ((siView (basePairs w0.table.baseSegments) w.log r).map (·.2)) := by
  obtain ⟨hinv, hlog, hg, hbase⟩ := h0.uncompacted hops (World.run64_eq hwrap hrun)
  have hnodup : (Keyed.keys (basePairs w0.table.baseSegments)).Nodup := by
    rw [keys_basePairs]; exact h0.distinct
  obtain ⟨rows, hrows, hperm⟩ := scan_siView hinv hlog hr hnodup hg (by rw [hbase]; exact h0.readable)
  exact ⟨rows.map (·.2), by simp [materializeVisibleRows, hrows], hperm.map _⟩

/-- One row `5 ↦ 70` in the base. -/
def oneRowSegment : Segment :=
  { segmentId := 1, numRows := 1
    schema := fullSchemaOf [{ name := "v", type := .int64 }]
    columns := [{ type := .int64, validity := Bitmap.new 1 true, int64Data := [5#64] },
      { type := .int64, validity := Bitmap.new 1 true, int64Data := [70#64] }] }

theorem start_oneRow : (World.load oneColumn [oneRowSegment]).Start := by
  refine World.start_load _ _ (by decide) fun seg hseg => ?_
  rw [List.mem_singleton.mp hseg]
  intro r hr
  have hr0 : r = 0 := Nat.lt_one_iff.mp hr
  subst hr0
  exact ⟨_, rfl⟩

/-- Transaction 1 updates row 5 and commits, 2 stays open, 4 begins and inserts a row. -/
def oneRowRun : List Op :=
  [.txn .begin, .txn .begin, .update 1 5 [.int64 71#64], .txn (.commit 1), .txn .begin, .insert 4 [.int64 9#64]]

theorem scan_refines_snapshot_isolation_oneRow :
    ∃ w r rows, Runs.run World.step64 (World.load [{ name := "v", type := .int64 }] [oneRowSegment]) oneRowRun =
        some w ∧
      w.clients.active 4 = some r ∧
      materializeVisibleRows w.table.txnMgr (w.table.snapshotForScan r) = some rows ∧
      rows.Perm [[.int64 71#64], [.int64 9#64]] := by
  have hwrap : Runs.Along World.step64 (fun w op => w.noWrap op = true)
      (World.load oneColumn [oneRowSegment]) oneRowRun :=
    Runs.along_of_check (q := World.noWrap) (fun _ _ h => h) (by decide +kernel)
  obtain ⟨rows, hrows, hperm⟩ :=
    scan_refines_snapshot_isolation _ _ start_oneRow oneRowRun (by simp [oneRowRun]) rfl hwrap 4 _ rfl
  exact ⟨_, _, rows, rfl, rfl, hrows, hperm⟩

/-- The rows `1 ↦ 70` and `2⁶⁴ - 2 ↦ 80` in the base: the next row id is 2⁶⁴ - 1. -/
def lastIdSegment : Segment :=
  { segmentId := 1, numRows := 2
    schema := fullSchemaOf oneColumn
    columns := [{ type := .int64, validity := Bitmap.new 2 true, int64Data := [1#64, 18446744073709551614#64] },
      { type := .int64, validity := Bitmap.new 2 true, int64Data := [70#64, 80#64] }] }

theorem start_lastId : (World.load64 oneColumn [lastIdSegment]).Start := by
  refine World.start_load64 _ _ (by decide +kernel) (fun seg hseg => ?_) (by decide +kernel)
  rw [List.mem_singleton.mp hseg]
  intro r hr
  have hr' : r = 0 ∨ r = 1 := by
    have hlt : r < 2 := hr
    omega
  rcases hr' with rfl | rfl <;> exact ⟨_, rfl⟩

/-- Transaction 2 updates row 1; the third insert of 1 is given row id 1.  Then 1 commits, and 2
after it; 5 begins. -/
def wrappingRun : List Op :=
  [.txn .begin, .txn .begin, .update 2 1 [.int64 72#64], .insert 1 [.int64 7#64], .insert 1 [.int64 8#64],
    .insert 1 [.int64 9#64], .txn (.commit 1), .txn (.commit 2), .txn .begin]

/-- The reader finds the row that was inserted for row 1, and in commit order its update is the
last write. -/
theorem scan_after_wrap : ∃ w r rows, (World.load64 oneColumn [lastIdSegment]).Start ∧
    Runs.run World.step64 (World.load64 oneColumn [lastIdSegment]) wrappingRun = some w ∧
      w.clients.active 5 = some r ∧
      materializeVisibleRows w.table.txnMgr (w.table.snapshotForScan r) = some rows ∧
      rows.count [.int64 9#64] = 1 ∧ rows.count [.int64 72#64] = 0 ∧
      ¬ rows.Perm ((siView (basePairs (World.load64 oneColumn [lastIdSegment]).table.baseSegments) w.log r).map (·.2)) := by
  have hcheck : ((Runs.run World.step64 (World.load64 oneColumn [lastIdSegment]) wrappingRun).any fun w =>
      (w.clients.active 5).any fun r => (materializeVisibleRows w.table.txnMgr (w.table.snapshotForScan r)).any fun rows =>
        decide (rows.count [.int64 9#64] = 1 ∧ rows.count [.int64 72#64] = 0 ∧
          ((siView (basePairs (World.load64 oneColumn [lastIdSegment]).table.baseSegments) w.log r).map (·.2)).count
            [.int64 72#64] = 1)) = true := by
    decide +kernel
  obtain ⟨w, hrun, hp⟩ := Runs.exists_of_any hcheck
  obtain ⟨r, hr, hp⟩ := Runs.exists_of_any hp
  obtain ⟨rows, hrows, hp⟩ := Runs.exists_of_any hp
  obtain ⟨hnew, hold, hview⟩ := of_decide_eq_true hp
  refine ⟨w, r, rows, start_lastId, hrun, hr, hrows, hnew, hold, fun hperm => ?_⟩
  rw [← hperm.count_eq] at hview
  omega

/-! ## Writers of one row -/

theorem mem_row_hist {w : World} {t x : Nat} {wr : Write} (h : Event.write t x wr ∈ w.log) :
    (t, wr) ∈ (w.row x).hist :=
  List.mem_filterMap.mpr ⟨_, h, by simp [Event.writeTo]⟩

theorem World.Inv.alive_of_state {w : World} (h : w.Inv) {t : Nat} {txn : Transaction}
    (ht : w.clients.handle t = some txn) (hst : txn.state ≠ .aborted) : w.clients.alive t = true := by
  rw [Clients.alive_iff]
  cases hab : w.clients.mgr.isAborted t with
  | false => rfl
  | true =>
    obtain ⟨txn', ht', hab'⟩ := (h.clients.isAborted_iff t).mp hab
    rw [ht] at ht'
    rw [Option.some.inj ht'] at hst
    exact absurd hab' hst

/-- Of two writers of a row that have not aborted, one saw the other. -/
theorem World.Inv.writers_ordered {w : World} (h : w.Inv) {x A B : Nat} {wa wb : Write} (hne : A ≠ B)
    (hA : Event.write A x wa ∈ w.log) (hB : Event.write B x wb ∈ w.log)
    (hAl : w.clients.alive A = true) (hBl : w.clients.alive B = true) :
    w.clients.Sees B A ∨ w.clients.Sees A B := by
  have hsym : Std.Symm fun p q : Nat × Write => w.clients.Sees q.1 p.1 ∨ w.clients.Sees p.1 q.1 :=
    ⟨fun _ _ h => h.symm⟩
  have hpair : ((w.row x).liveHist w.clients).Pairwise
      fun p q : Nat × Write => w.clients.Sees q.1 p.1 ∨ w.clients.Sees p.1 q.1 :=
    (h.rows x).seen.imp fun hs => Or.inl hs
  have hmemA : (A, wa) ∈ (w.row x).liveHist w.clients := List.mem_filter.mpr ⟨mem_row_hist hA, hAl⟩
  have hmemB : (B, wb) ∈ (w.row x).liveHist w.clients := List.mem_filter.mpr ⟨mem_row_hist hB, hBl⟩
  exact hpair.forall hmemA hmemB fun heq => hne (congrArg Prod.fst heq)

/-- Whoever writes to a row is then the only active transaction that has. -/
theorem World.Inv.only_writer {w w' : World} (h' : w'.Inv) (hclients : w'.clients = w.clients) {t x : Nat} {wr : Write}
    {txn : Transaction} (hlog : w'.log = w.log ++ [.write t x wr]) (hact : w.clients.active t = some txn) {u : Nat}
    {utx : Transaction} (hu : w.clients.active u = some utx) {wu : Write} (hin : Event.write u x wu ∈ w.log) : u = t := by
  have hc := h'.clients
  rw [hclients] at hc
  have hhist : (w'.row x).hist = w.log.filterMap (Event.writeTo x) ++ [(t, wr)] := by
    show w'.log.filterMap (Event.writeTo x) = _
    rw [hlog, World.hist_wrote, if_pos rfl]
  have hseen := (h'.rows x).seen
  unfold RowState.liveHist at hseen
  rw [hclients, hhist, List.filter_append, List.pairwise_append] at hseen
  have hmem : (u, wu) ∈ (w.log.filterMap (Event.writeTo x)).filter fun p => w.clients.alive p.1 := by
    refine List.mem_filter.mpr ⟨?_, hc.alive_of_active hu⟩
    exact List.mem_filterMap.mpr ⟨_, hin, by simp [Event.writeTo]⟩
  have hsees := hseen.2.2 (u, wu) hmem (t, wr) (List.mem_filter.mpr
    ⟨List.mem_singleton.mpr rfl, hc.alive_of_active hact⟩)
  have hself := hc.sees_active hu ((Clients.Sees_of_active hact).mp hsees)
  rw [hself]
  exact hc.active_id hact

/-- Seeing another transaction is having begun after its commit. -/
theorem World.Inv.sees_commit {w : World} (h : w.Inv) {A B : Nat} {a b : Transaction} (hne : A ≠ B)
    (ha : w.clients.handle A = some a) (hb : w.clients.handle B = some b) (hs : w.clients.Sees B A) :
    a.state = .committed ∧ a.commitTs ≤ b.snapshotTs := by
  obtain ⟨b', hb', hs⟩ := hs
  rw [hb] at hb'
  obtain rfl := Option.some.inj hb'
  rcases (h.clients.sees_iff b A).mp hs with heq | ⟨a', ha', hcm, hle⟩
  · exact absurd (heq.trans (h.clients.id B b hb).1) hne
  · rw [ha] at ha'
    obtain rfl := Option.some.inj ha'
    exact ⟨hcm, hle⟩

/-- **First updater wins.**  Two transactions that both wrote a row and both committed
were not concurrent, and a writer that is still active began after every committed
one, however often `Compact` ran and whatever raced with it. -/
theorem no_lost_update (schema : Schema) (ops : List Op) (hconf : ∀ op ∈ ops, op.conforms schema = true)
    (w : World) (hrun : Runs.run World.step (World.create schema) ops = some w) (x A B : Nat)
    (a b : Transaction) (wa wb : Write) (hne : A ≠ B) (hA : Event.write A x wa ∈ w.log)
    (hB : Event.write B x wb ∈ w.log) (ha : w.clients.handle A = some a) (hb : w.clients.handle B = some b)
    (hac : a.state = .committed) :
    (b.state = .committed → a.commitTs ≤ b.snapshotTs ∨ b.commitTs ≤ a.snapshotTs) ∧
      (b.state = .active → a.commitTs ≤ b.snapshotTs) := by
  have h := (World.good_run (World.good_create schema) hconf hrun).toInv
  have hord : b.state ≠ .aborted → w.clients.Sees B A ∨ w.clients.Sees A B := fun hst =>
    h.writers_ordered hne hA hB (h.alive_of_state ha (by rw [hac]; simp)) (h.alive_of_state hb hst)
  constructor
  · intro hbc
    rcases hord (by rw [hbc]; simp) with hs | hs
    · exact Or.inl (h.sees_commit hne ha hb hs).2
    · exact Or.inr (h.sees_commit (Ne.symm hne) hb ha hs).2
  · intro hba
    rcases hord (by rw [hba]; simp) with hs | hs
    · exact (h.sees_commit hne ha hb hs).2
    · have hbc := (h.sees_commit (Ne.symm hne) hb ha hs).1
      rw [hba] at hbc
      cases hbc

/-- Row 1 is inserted by 1 and updated by 3 and by 5, with a `Compact` before the last update. -/
def twoWritersRun : List Op :=
  [.txn .begin, .insert 1 [.int64 7#64], .txn (.commit 1), .txn .begin, .update 3 1 [.int64 8#64],
    .txn (.commit 3), .compact [], .txn .begin, .update 5 1 [.int64 9#64], .txn (.commit 5)]

theorem no_lost_update_twoWriters : ∃ w a b,
    Runs.run World.step (World.create [{ name := "v", type := .int64 }]) twoWritersRun = some w ∧
      w.clients.handle 3 = some a ∧ w.clients.handle 5 = some b ∧
      (a.commitTs ≤ b.snapshotTs ∨ b.commitTs ≤ a.snapshotTs) := by
  refine ⟨_, _, _, rfl, rfl, rfl, ?_⟩
  exact (no_lost_update [{ name := "v", type := .int64 }] twoWritersRun (by decide) _ rfl 1 3 5 _ _
    (.update [.int64 8#64]) (.update [.int64 9#64]) (by decide) (by decide) (by decide) rfl rfl rfl).1 rfl

end CoreDB
