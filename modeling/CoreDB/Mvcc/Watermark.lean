import CoreDB.Mvcc.Visibility

/-!
# The compaction watermark over whole runs

`OldestActiveSnapshot` is the least snapshot in use, or the last commit timestamp
when none is.  Over any run of `Begin`, `Commit` and `Abort` it bounds every snapshot
that is in use or will be, and it only rises (`watermark_sound_and_monotone`).
-/

namespace CoreDB

open Runs

namespace Clients

/-- The transactions that have begun and are neither committed nor aborted, by id. -/
def unresolved (c : Clients) : List Transaction := (List.range c.mgr.nextId).filterMap c.active

theorem run_inv_later {c c' : Clients} {ops : List TxnOp} (h : c.Inv) (hr : run step c ops = some c') :
    c'.Inv ∧ c.Later c' := by
  refine run_invariant (Q := fun _ _ => True) (I := fun d => d.Inv ∧ c.Later d) ?_ ⟨h, Later.refl c⟩
    (along_of_forall c fun _ _ _ => trivial) hr
  rintro d op d' ⟨hd, hl⟩ - hs
  exact ⟨inv_step hd hs, hl.trans (later_step hd hs)⟩

section
variable {c : Clients} (h : c.Inv)
include h

theorem Inv.mem_unresolved {txn : Transaction} : txn ∈ c.unresolved ↔ c.active txn.txnId = some txn := by
  unfold unresolved
  rw [List.mem_filterMap]
  constructor
  · rintro ⟨t, -, ht⟩
    rw [h.active_id ht]
    exact ht
  · intro ht
    exact ⟨txn.txnId, List.mem_range.mpr (h.id _ _ (active_eq_some.mp ht).1).2.2, ht⟩

/-- The ids of the active set, in the order they were issued. -/
theorem Inv.activeTxnIds_perm :
    c.mgr.activeTxnIds.Perm ((List.range c.mgr.nextId).filter fun t => (c.active t).isSome) := by
  rw [List.perm_ext_iff_of_nodup h.activeNodup (List.nodup_range.filter _)]
  intro t
  rw [h.activeIds t, List.mem_filter, List.mem_range, Option.isSome_iff_exists]
  constructor
  · rintro ⟨txn, hh, hst⟩
    exact ⟨(h.id t txn hh).2.2, txn, active_eq_some.mpr ⟨hh, hst⟩⟩
  · rintro ⟨-, txn, ht⟩
    exact ⟨txn, active_eq_some.mp ht⟩

theorem Inv.activeSnapshots_perm : c.mgr.activeSnapshots.Perm (c.unresolved.map (·.snapshotTs)) := by
  refine h.snapshots.trans ((h.activeTxnIds_perm.map _).trans (List.Perm.of_eq ?_))
  unfold unresolved
  induction List.range c.mgr.nextId with
  | nil => rfl
  | cons t ts ih =>
    cases ht : c.active t with
    | none => simp [ht, ih]
    | some txn => simp [ht, ih, (active_eq_some.mp ht).1]

end

section
variable {c c' : Clients} (h : c.Inv) (h' : c'.Inv) (hl : c.Later c')
include h hl

/-- A commit between the two moments took its timestamp above everything issued before. -/
theorem Later.commitTs_above {t : Nat} {txn : Transaction} (ht : c'.handle t = some txn)
    (hcm : txn.state = .committed) (hnew : c.handle t ≠ some txn) {u : Nat} {utx : Transaction}
    (hu : c.handle u = some utx) :
    utx.txnId < txn.commitTs ∧ utx.snapshotTs < txn.commitTs ∧
      (utx.state = .committed → utx.commitTs < txn.commitTs) := by
  have hge : c.mgr.nextId ≤ txn.commitTs := (hl.fresh t txn ht hcm).resolve_left hnew
  have hid := h.id u utx hu
  have hsnap := h.snap u utx hu
  have hlast := h.last
  refine ⟨by omega, by omega, fun hcu => ?_⟩
  have hcts := h.commitTs u utx hu hcu
  omega

include h'

theorem Later.getStatus_resolved {t : Nat} (hres : (c.mgr.getStatus t).state ≠ .active) :
    c'.mgr.getStatus t = c.mgr.getStatus t := by
  cases ht : c.handle t with
  | none =>
    rw [h.getStatus_of_none ht] at hres
    exact absurd rfl hres
  | some txn =>
    rw [h.state_of_handle ht] at hres
    obtain ⟨txn', ht', -, hfinal⟩ := hl.handle t txn ht
    obtain rfl := hfinal (Or.inl hres)
    rw [h.getStatus_of_handle ht, h'.getStatus_of_handle ht']

end

/-- **The watermark is sound and only rises.**  `c` is any moment of a run and `c'` any later one. -/
theorem watermark_sound_and_monotone (ops more : List TxnOp) (c c' : Clients)
    (hrun : run step {} ops = some c) (hmore : run step c more = some c') :
    c.mgr.activeSnapshots.Perm (c.unresolved.map (·.snapshotTs)) ∧
      (∀ t txn, c.active t = some txn →
        txn ∈ c.unresolved ∧ c.mgr.oldestActiveSnapshot ≤ txn.snapshotTs) ∧
      (∀ t txn, c.handle t = none → c'.handle t = some txn →
        c.mgr.oldestActiveSnapshot ≤ txn.snapshotTs) ∧
      c.mgr.oldestActiveSnapshot ≤ c'.mgr.oldestActiveSnapshot ∧
      (∀ t txn, c'.handle t = some txn → txn.state = .committed → c.handle t ≠ some txn →
        ∀ u utx, c.handle u = some utx →
          utx.txnId < txn.commitTs ∧ utx.snapshotTs < txn.commitTs ∧
            (utx.state = .committed → utx.commitTs < txn.commitTs)) ∧
      ∀ t, (c.mgr.getStatus t).state ≠ .active → c'.mgr.getStatus t = c.mgr.getStatus t := by
  obtain ⟨h, -⟩ := run_inv_later inv_empty hrun
  obtain ⟨h', hl⟩ := run_inv_later h hmore
  refine ⟨h.activeSnapshots_perm, fun t txn ht => ⟨?_, h.oldest_le ht⟩, fun t txn hno ht => ?_, hl.oldest, ?_,
    fun t hres => hl.getStatus_resolved h h' hres⟩
  · rw [h.mem_unresolved, h.active_id ht]
    exact ht
  · exact Nat.le_trans h.oldest_le_last (hl.begun t txn ht hno)
  · intro t txn ht hcm hnew u utx hu
    exact hl.commitTs_above h ht hcm hnew hu

/-- Two readers share a snapshot, one commits, a third begins; then the second resolves as well. -/
theorem watermark_sound_and_monotone_three : ∃ c c',
    run step {} [.begin, .begin, .commit 1, .begin] = some c ∧ run step c [.abort 2] = some c' ∧
      c.mgr.oldestActiveSnapshot = 0 ∧ c'.mgr.oldestActiveSnapshot = 3 ∧
      c.mgr.activeSnapshots.Perm (c.unresolved.map (·.snapshotTs)) := by
  obtain ⟨c, hc, hold⟩ := exists_of_any (o := run step {} [.begin, .begin, .commit 1, .begin])
    (p := fun c => c.mgr.oldestActiveSnapshot == 0 &&
      (run step c [.abort 2]).any fun c' => c'.mgr.oldestActiveSnapshot == 3) (by decide)
  rw [Bool.and_eq_true, beq_iff_eq] at hold
  obtain ⟨c', hc', hnew⟩ := exists_of_any hold.2
  exact ⟨c, c', hc, hc', hold.1, beq_iff_eq.mp hnew, (watermark_sound_and_monotone _ _ c c' hc hc').1⟩

end Clients

end CoreDB
