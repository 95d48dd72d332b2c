import CoreDB.Table.CompactionSafety

/-!
# `Compact` while nobody is active

With no active transaction every writer is resolved, so "committed by the watermark"
is just "committed".  `Compact` then ought to move every live row to the base: a
checkpoint writes the base segments only.  It does, except for a version that an
aborted transaction had claimed: `deleted_txn` still names the claimant, and the
version stays where it is.
-/

namespace CoreDB

open VersionChain (Born Died)

/-! ## Resolved writers -/

namespace Clients

theorem active_begin (c : Clients) : (c.put c.mgr.begin).active c.mgr.nextId = some c.mgr.begin.1 := by
  simp [active, put, TransactionManager.begin]

section
variable {c : Clients} (hc : c.Inv) (hq : ∀ t, c.active t = none)
include hc hq

theorem Inv.oldest_of_quiescent : c.mgr.oldestActiveSnapshot = c.mgr.lastCommitTs := by
  have hids : c.mgr.activeTxnIds = [] := by
    rw [List.eq_nil_iff_forall_not_mem]
    intro t ht
    obtain ⟨txn, hh, hst⟩ := (hc.activeIds t).mp ht
    have hact := active_eq_some.mpr ⟨hh, hst⟩
    rw [hq t] at hact
    cases hact
  have hperm := hc.snapshots
  rw [hids, List.map_nil, List.perm_nil] at hperm
  rw [TransactionManager.oldestActiveSnapshot, hperm]
  rfl

/-- A transaction is settled or undone. -/
theorem Inv.stable_or_aborted {t : Nat} {txn : Transaction} (ht : c.handle t = some txn) :
    c.stable t = true ∨ c.mgr.isAborted t = true := by
  cases hst : txn.state with
  | active =>
    have hact := active_eq_some.mpr ⟨ht, hst⟩
    rw [hq t] at hact
    cases hact
  | committed =>
    refine Or.inl ((hc.stable_iff t).mpr ⟨txn, ht, hst, ?_⟩)
    rw [hc.oldest_of_quiescent hq]
    exact (hc.commitTs t txn ht hst).2
  | aborted => exact Or.inr ((hc.isAborted_iff t).mpr ⟨txn, ht, hst⟩)

/-- Whoever is active later sees the committed ones of them, and no others. -/
theorem Inv.sees_iff_stable {c' : Clients} (hc' : c'.Inv) (hl : c.Later c') {u : Nat} {r : Transaction}
    (hr : c'.active u = some r) {t : Nat} {txn : Transaction} (ht : c.handle t = some txn) :
    c'.mgr.sees r t = true ↔ c.stable t = true := by
  constructor
  · intro hs
    rcases hc.stable_or_aborted hq ht with hst | hab
    · exact hst
    · obtain ⟨-, hh, hact, -⟩ := hc'.active_handle hr
      have hno := hc'.sees_not_aborted hh (by rw [hact]; simp) hs
      rw [hl.isAborted hc hc' hab] at hno
      cases hno
  · intro hst
    exact hc'.sees_of_stable hr (hl.stable hc hc' hst)

end

end Clients

/-! ## Draining the delta -/

namespace World

/-- No transaction is active. -/
def Quiescent (w : World) : Prop := ∀ t, w.clients.active t = none

/-- The world after one more `Begin`, and the handle it returns. -/
def begun (w : World) : World := w.withClients (w.clients.put w.table.txnMgr.begin) (.begin w.table.txnMgr.nextId)

def newReader (w : World) : Transaction := w.table.txnMgr.begin.1

/-- A new reader sees no version of the delta: all it sees is in the base. -/
structure Drained (w : World) : Prop where
  delta : ∀ a ∈ w.table.delta, a.isBaseTombstone = false →
    isVisible a w.newReader w.begun.table.txnMgr = false
  scan : ∃ rows, materializeKeyed w.begun.table.txnMgr (w.table.snapshotForScan w.newReader) = some rows ∧
    ∀ p ∈ rows, p ∈ basePairs w.table.baseSegments

/-- A committed version that an aborted transaction had claimed. -/
def stranded (w : World) (a : DeltaRecord) : Bool :=
  !a.isBaseTombstone && (w.table.txnMgr.getStatus a.createdTxn).state == .committed &&
    a.deletedTxn != 0 && (w.table.txnMgr.getStatus a.deletedTxn).state == .aborted

theorem Inv.begun {w : World} (h : w.Inv) :
    w.begun.clients.Inv ∧ w.clients.Later w.begun.clients ∧
      w.begun.clients.active w.table.txnMgr.nextId = some w.newReader :=
  ⟨Clients.inv_begin h.clients, Clients.later_begin h.clients, Clients.active_begin w.clients⟩

/-- A scan that finds no version returns base rows. -/
theorem scan_base {m : TransactionManager} {r : Transaction} {w : World} (hsound : w.table.Sound)
    (hno : ∀ a ∈ w.table.delta, a.isBaseTombstone = false → isVisible a r m = false) :
    ∃ rows, materializeKeyed m (w.table.snapshotForScan r) = some rows ∧
      ∀ p ∈ rows, p ∈ basePairs w.table.baseSegments := by
  obtain ⟨rows, hrows, hview⟩ := materializeKeyed_mem m (w.table.snapshotForScan r)
    (fun seg hseg => (hsound.base seg hseg).readable) []
  refine ⟨rows, hrows, fun p hp => ?_⟩
  have hrow := (hview p.1 p.2).mp hp
  change p.2 ∈ (rowOf w.table.delta (basePairs w.table.baseSegments) [] p.1).view m r at hrow
  rw [RowState.view_of_not_visible fun a ha ht => hno a (List.mem_of_mem_filter ha) ht] at hrow
  split at hrow
  · cases hrow
  · obtain ⟨q, hq, hrow⟩ := List.mem_map.mp hrow
    obtain ⟨hq, hkey⟩ := List.mem_filter.mp hq
    have heq : q = p := Prod.ext (beq_iff_eq.mp hkey) hrow
    rw [← heq]
    exact hq

section
variable {w w' : World} (h : w.Inv) (hq : w.Quiescent)
include h hq

theorem committed_iff_stable {t : Nat} {txn : Transaction} (ht : w.clients.handle t = some txn) :
    (w.table.txnMgr.getStatus t).state = .committed ↔ w.clients.stable t = true := by
  have hstate := h.clients.state_of_handle ht
  constructor
  · intro hcm
    refine (h.clients.stable_iff t).mpr ⟨txn, ht, hstate.symm.trans hcm, ?_⟩
    rw [h.clients.oldest_of_quiescent hq]
    exact (h.clients.commitTs t txn ht (hstate.symm.trans hcm)).2
  · intro hst
    obtain ⟨txn', ht', hcm, -⟩ := (h.clients.stable_iff t).mp hst
    rw [ht] at ht'
    rw [← Option.some.inj ht'] at hcm
    exact hstate.trans hcm

/-- What a stranded version is, in terms of settled transactions. -/
theorem stranded_iff {a : DeltaRecord} (ha : a ∈ w.table.delta) (ht : a.isBaseTombstone = false) :
    w.stranded a = true ↔ w.clients.stable a.createdTxn = true ∧ a.deletedTxn ≠ 0 ∧
      ¬ Died DeltaRecord.ver (w.clients.stable · = true) a := by
  have hok := h.recordOk ha
  obtain ⟨-, u, hu⟩ := hok.version ht
  unfold stranded
  simp only [ht, Bool.not_false, Bool.true_and, Bool.and_eq_true, beq_iff_eq, bne_iff_ne, died_iff,
    committed_iff_stable h hq hu]
  by_cases h0 : a.deletedTxn = 0
  · simp [h0]
  · obtain ⟨d, hd, -⟩ := hok.claim h0
    have hab : (w.table.txnMgr.getStatus a.deletedTxn).state = .aborted ↔
        ¬ w.clients.stable a.deletedTxn = true := by
      constructor
      · intro hab hst
        rw [(committed_iff_stable h hq hd).mpr hst] at hab
        cases hab
      · intro hst
        rcases h.clients.stable_or_aborted hq hd with hs | hab
        · exact absurd hs hst
        · exact beq_iff_eq.mp hab
    simp [h0, hab]

variable (hc : Compacted w w')
include hc

omit h hq in
/-- A record of the delta after `Compact` was there before, and was retained. -/
theorem retained_of_mem {a : DeltaRecord} (ha : a ∈ w'.table.delta) : a ∈ w.table.delta ∧
    ∃ older newer, (w.row a.rowId).records = older ++ a :: newer ∧
      Verdict w.clients w'.clients newer.isEmpty a .retain := by
  obtain ⟨acts, hj, hrec, hrow⟩ := hc.rows a.rowId
  have hmem := mem_row_records ha
  rw [hrow] at hmem
  obtain ⟨⟨b, act⟩, hp, rfl⟩ := List.mem_map.mp hmem
  obtain ⟨hp, hact⟩ := List.mem_filter.mp hp
  obtain rfl : act = .retain := by simpa using hact
  obtain ⟨older, newer, hsplit⟩ := List.append_of_mem hp
  have hv := hj older (b, .retain) newer hsplit
  have hlist : (w.row b.rowId).records = older.map (·.1) ++ b :: newer.map (·.1) := by
    rw [hrec, hsplit]
    simp
  refine ⟨?_, older.map (·.1), newer.map (·.1), hlist, by simpa using hv⟩
  exact List.mem_of_mem_filter (show b ∈ (w.row b.rowId).records by rw [hlist]; simp)

/-- A stranded version is retained. -/
theorem mem_of_stranded {a : DeltaRecord} (ha : a ∈ w.table.delta) (hs : w.stranded a = true) :
    a ∈ w'.table.delta := by
  have ht : a.isBaseTombstone = false := by
    unfold stranded at hs
    simp only [Bool.and_eq_true, Bool.not_eq_true'] at hs
    exact hs.1.1.1
  obtain ⟨hcr, h0, hnd⟩ := (stranded_iff h hq ha ht).mp hs
  obtain ⟨acts, hj, hrec, hrow⟩ := hc.rows a.rowId
  have hmem := mem_row_records ha
  rw [hrec] at hmem
  obtain ⟨⟨b, act⟩, hp, rfl⟩ := List.mem_map.mp hmem
  obtain ⟨older, newer, hsplit⟩ := List.append_of_mem hp
  have hv := hj older (b, act) newer hsplit
  have hact : act = .retain := by
    cases act with
    | retain => rfl
    | drop =>
      rcases hv with ⟨-, hdead⟩ | ⟨hdied, -⟩ | ⟨-, htomb, -⟩
      · rw [hc.clients.alive_of_stable (hc.later.stable h.clients hc.clients hcr)] at hdead
        cases hdead
      · exact absurd hdied hnd
      · rw [ht] at htomb
        cases htomb
    | promote => exact absurd hv.2.2.2 h0
    | purge => exact absurd (ht.symm.trans hv.2.1) (by simp)
  have hin : b ∈ (w'.row b.rowId).records := by
    rw [hrow]
    exact List.mem_map.mpr ⟨(b, act), List.mem_filter.mpr ⟨hp, by simp [hact]⟩, rfl⟩
  exact List.mem_of_mem_filter hin

omit hc in
/-- Later readers see exactly the unclaimed or stranded versions of committed creators. -/
theorem isVisible_iff_settled {c : Clients} (hci : c.Inv) (hl : w.clients.Later c) {u : Nat} {r : Transaction}
    (hr : c.active u = some r) {a : DeltaRecord} (ha : a ∈ w.table.delta) (ht : a.isBaseTombstone = false) :
    isVisible a r c.mgr = true ↔ w.clients.stable a.createdTxn = true ∧
      ¬ Died DeltaRecord.ver (w.clients.stable · = true) a := by
  have hok := h.recordOk ha
  obtain ⟨hne, v, hv⟩ := hok.version ht
  have hcr := h.clients.sees_iff_stable hq hci hl hr hv
  rw [RowState.isVisible_iff]
  unfold VersionChain.Visible
  rw [born_iff, died_iff, died_iff, hcr]
  by_cases h0 : a.deletedTxn = 0
  · simp [h0, hne]
  · obtain ⟨d, hd, -⟩ := hok.claim h0
    rw [h.clients.sees_iff_stable hq hci hl hr hd]
    simp [hne]

theorem drained_iff (h' : w'.Inv) (hsound : w'.table.Sound) :
    w'.Drained ↔ ∀ a ∈ w.table.delta, w.stranded a = false := by
  obtain ⟨hci, hl, hr⟩ := h'.begun
  have hlater := hc.later.trans hl
  constructor
  · intro hd a ha
    cases hs : w.stranded a with
    | false => rfl
    | true =>
      have ht : a.isBaseTombstone = false := by
        unfold stranded at hs
        simp only [Bool.and_eq_true, Bool.not_eq_true'] at hs
        exact hs.1.1.1
      obtain ⟨hcr, -, hnd⟩ := (stranded_iff h hq ha ht).mp hs
      have hvis := (isVisible_iff_settled h hq hci hlater hr ha ht).mpr ⟨hcr, hnd⟩
      have hno := hd.delta a (mem_of_stranded h hq hc ha hs) ht
      rw [show w'.begun.clients.mgr = w'.begun.table.txnMgr from rfl, hno] at hvis
      cases hvis
  · intro hall
    have hno : ∀ a ∈ w'.table.delta, a.isBaseTombstone = false →
        isVisible a w'.newReader w'.begun.table.txnMgr = false := by
      intro a ha ht
      obtain ⟨hold, older, newer, hrec, hv⟩ := retained_of_mem hc ha
      cases hvis : isVisible a w'.newReader w'.begun.table.txnMgr with
      | false => rfl
      | true =>
        obtain ⟨hcr, hnd⟩ := (isVisible_iff_settled h hq hci hlater hr hold ht).mp hvis
        -- the version is unclaimed, as it is not stranded; so it was the head, and ripe
        have h0 : a.deletedTxn = 0 := by
          apply Classical.byContradiction
          intro h0
          have hs := (stranded_iff h hq hold ht).mpr ⟨hcr, h0, hnd⟩
          rw [hall a hold] at hs
          cases hs
        cases newer with
        | nil => exact absurd h0 (hv.2 rfl ht hcr)
        | cons b newer =>
          have horder := (h.rows a.rowId).order
          rw [hrec, List.pairwise_append, List.pairwise_cons] at horder
          exact absurd h0 ((horder.2.1.1 b List.mem_cons_self).2 (h.clients.alive_of_stable hcr))
    exact ⟨hno, scan_base hsound hno⟩

end

end World

/-- **Draining.**  In a reachable state without active transactions `Compact` returns,
and it leaves no visible version in the delta if and only if no committed version
had been claimed by a transaction that aborted. -/
theorem compact_drains_iff_nothing_stranded (schema : Schema) (ops : List Op)
    (hconf : ∀ op ∈ ops, op.conforms schema = true) (w : World)
    (hrun : Runs.run World.step (World.create schema) ops = some w) (hq : w.Quiescent)
    (hfits : w.fits = true) :
    ∃ w', w.step (.compact []) = some w' ∧
      (w'.Drained ↔ ∀ a ∈ w.table.delta, w.stranded a = false) := by
  have hgood := World.good_run (World.good_create schema) hconf hrun
  have hran : Runs.run World.txnStep w [].flatten = some w := rfl
  obtain ⟨tb, htb, hcomp⟩ := World.compact_spec hgood.toInv hgood.sound hfits hran
  have hstep : w.step (.compact []) = some { w with table := { tb with txnMgr := w.table.txnMgr } } := by
    simp [World.step, hfits, htb]
  refine ⟨_, hstep, World.drained_iff hgood.toInv hq hcomp ?_ hcomp.sound⟩
  exact World.inv_step hgood.toInv (fun _ _ => hgood.sound) hstep

/-- One row, inserted and committed. -/
def insertOne : List Op := [.txn .begin, .insert 1 [.int64 7#64], .txn (.commit 1)]

theorem World.quiescent_of_check {w : World} (h : w.Inv)
    (hcheck : (List.range w.table.txnMgr.nextId).all (fun t => (w.clients.active t).isNone) = true) :
    w.Quiescent := by
  intro t
  cases hact : w.clients.active t with
  | none => rfl
  | some r =>
    have hlt := (h.clients.id t r (Clients.active_eq_some.mp hact).1).2.2
    have hnone := List.all_eq_true.mp hcheck t (List.mem_range.mpr hlt)
    rw [hact] at hnone
    cases hnone

theorem compact_drains_insertOne : ∃ w w', Runs.run World.step (World.create oneColumn) insertOne = some w ∧
    w.Quiescent ∧ w.step (.compact []) = some w' ∧
    (w'.Drained ↔ ∀ a ∈ w.table.delta, w.stranded a = false) := by
  have hcheck : ((Runs.run World.step (World.create oneColumn) insertOne).any fun w => w.fits &&
      (List.range w.table.txnMgr.nextId).all fun t => (w.clients.active t).isNone) = true := by
    decide +kernel
  obtain ⟨w, hw, hfacts⟩ := Runs.exists_of_any hcheck
  rw [Bool.and_eq_true] at hfacts
  have hgood := World.good_run (World.good_create oneColumn) (by decide) hw
  have hq := World.quiescent_of_check hgood.toInv hfacts.2
  obtain ⟨w', hw', hiff⟩ := compact_drains_iff_nothing_stranded oneColumn insertOne (by decide) w hw hq hfacts.1
  exact ⟨w, w', hw, hq, hw', hiff⟩

/-- Transaction 3 updates the row, and aborts. -/
def abortedUpdate : List Op := insertOne ++ [.txn .begin, .update 3 1 [.int64 8#64], .txn (.abort 3)]

/-- `Compact` leaves the row in the delta. -/
theorem aborted_update_is_not_drained :
    (∀ op ∈ abortedUpdate, op.conforms oneColumn = true) ∧
      ∃ w w', Runs.run World.step (World.create oneColumn) abortedUpdate = some w ∧ w.Quiescent ∧
        w.step (.compact []) = some w' ∧ w'.table.baseSegments = [] ∧ ¬ w'.Drained := by
  refine ⟨by decide, ?_⟩
  have hcheck : ((Runs.run World.step (World.create oneColumn) abortedUpdate).any fun w =>
      ((List.range w.table.txnMgr.nextId).all fun t => (w.clients.active t).isNone) &&
      (w.step (.compact [])).any fun w' => w'.table.baseSegments == [] &&
        w'.table.delta.any fun a => !a.isBaseTombstone && isVisible a w'.newReader w'.begun.table.txnMgr) = true := by
    decide +kernel
  obtain ⟨w, hw, hfacts⟩ := Runs.exists_of_any hcheck
  rw [Bool.and_eq_true] at hfacts
  obtain ⟨w', hw', hbase⟩ := Runs.exists_of_any hfacts.2
  simp only [Bool.and_eq_true, beq_iff_eq, List.any_eq_true, Bool.not_eq_true'] at hbase
  obtain ⟨hnil, a, ha, ht, hvis⟩ := hbase
  have hgood := World.good_run (World.good_create oneColumn) (by decide) hw
  refine ⟨w, w', hw, World.quiescent_of_check hgood.toInv hfacts.1, hw', hnil, fun hd => ?_⟩
  rw [hd.delta a ha ht] at hvis
  cases hvis

end CoreDB
