import CoreDB.Table.CompactionSafety

/-!
# `Compact` and the transactions that are active

`Compact` reads the watermark once and the statuses of writers one by one, while
transactions begin, commit and abort.  Whatever it misses, no row that a
transaction active at its end sees is lost (`active_snapshot_protected`).
-/

namespace CoreDB

theorem map_subperm {α β : Type} (f : α → β) {l l' : List α} (h : l.Subperm l') :
    (l.map f).Subperm (l'.map f) := by
  obtain ⟨m, hperm, hsub⟩ := h
  exact ⟨m.map f, hperm.map f, hsub.map f⟩

section
variable {c c' : Clients} {s s' : RowState} (hc : c.Inv) (hc' : c'.Inv) (hl : c.Later c') (h : s.Inv c')
  (h' : s'.Inv c') (ho : RowState.Outcome c c' s s') (hsub : s'.records.Sublist s.records)
  {t : Nat} {r : Transaction} (hr : c'.active t = some r)
include hc hc' hl h h' ho hsub hr

omit h h' hsub ho in
/-- A record with a settled claim is dead to every reader. -/
theorem not_visible_of_died {a : DeltaRecord} (hd : VersionChain.Died DeltaRecord.ver (c.stable · = true) a) :
    isVisible a r c'.mgr = false := by
  cases hv : isVisible a r c'.mgr with
  | false => rfl
  | true =>
    obtain ⟨hne, hst⟩ := died_iff.mp hd
    have hsees := hc'.sees_of_stable hr (hl.stable hc hc' hst)
    exact absurd (died_iff.mpr ⟨hne, hsees⟩) (RowState.isVisible_iff.mp hv).2

omit hsub in
/-- What a reader sees of a row through its visible version stays. -/
theorem view_of_visible_kept {a : DeltaRecord} (ha : a ∈ s.records) (ht : a.isBaseTombstone = false)
    (hv : isVisible a r c'.mgr = true) : (s.view c'.mgr r).Subperm (s'.view c'.mgr r) := by
  rw [RowState.view_of_visible hc' h hr ha ht hv]
  have hmem := RowState.mem_chain_of_visible hc' hr ha hv
  have hkeep : a ∈ s'.chain c' → [a.row].Subperm (s'.view c'.mgr r) := fun hin => by
    rw [RowState.view_of_visible hc' h' hr (List.mem_of_mem_filter hin) ht hv]
  have halone : ∀ d, s.chain c' = [d] → d.isBaseTombstone = true → [a.row].Subperm (s'.view c'.mgr r) := by
    intro d hd hdt
    rw [hd, List.mem_singleton] at hmem
    rw [hmem, hdt] at ht
    cases ht
  cases ho with
  | purge d hch hdt _ _ _ => exact halone d hch hdt
  | void d hch hdt _ _ _ => exact halone d hch hdt
  | shed dead hch hdead _ _ =>
    rw [hch] at hmem
    rcases List.mem_append.mp hmem with hin | hin
    · rw [not_visible_of_died hc hc' hl hr (hdead a hin).2] at hv
      cases hv
    · exact hkeep hin
  | promote dead d hch hdead _ _ _ _ hch' hbase =>
    -- the visible version is the promoted one: it is in the base now, and nothing hides it
    rw [hch] at hmem
    rcases List.mem_append.mp hmem with hin | hin
    · rw [not_visible_of_died hc hc' hl hr (hdead a hin).2] at hv
      cases hv
    · have hno : ∀ e ∈ s'.records, e.isBaseTombstone = false → isVisible e r c'.mgr = false := by
        intro e he _
        cases hev : isVisible e r c'.mgr with
        | false => rfl
        | true =>
          have hin' := RowState.mem_chain_of_visible hc' hr he hev
          rw [hch'] at hin'
          cases hin'
      rw [RowState.view_of_not_visible hno,
        RowState.hidden_of_no_tombstone hc' h' (by rw [hch']; simp), hbase, List.mem_singleton.mp hin]
      simp only [Bool.false_eq_true, if_false]
      exact (List.sublist_append_right s.base [d.row]).subperm

/-- **No row of an active reader's view is lost.** -/
theorem view_subperm : (s.view c'.mgr r).Subperm (s'.view c'.mgr r) := by
  by_cases hex : ∃ a ∈ s.records, a.isBaseTombstone = false ∧ isVisible a r c'.mgr = true
  · obtain ⟨a, ha, ht, hv⟩ := hex
    exact view_of_visible_kept hc hc' hl h h' ho hr ha ht hv
  · have hno : ∀ a ∈ s.records, a.isBaseTombstone = false → isVisible a r c'.mgr = false := by
      intro a ha ht
      cases hv : isVisible a r c'.mgr with
      | false => rfl
      | true => exact absurd ⟨a, ha, ht, hv⟩ hex
    rw [RowState.view_of_not_visible hno]
    cases hhid : s.hidden c'.mgr r with
    | true => exact List.nil_subperm
    | false =>
      -- nothing new hides the base copies, and a purge would have hidden them already
      have hhid' : s'.hidden c'.mgr r = false := by
        rw [RowState.hidden, List.any_eq_false] at hhid ⊢
        exact fun a ha => hhid a (hsub.subset ha)
      rw [RowState.view_of_not_visible (fun a ha => hno a (hsub.subset ha)), hhid']
      simp only [Bool.false_eq_true, if_false]
      cases ho with
      | purge d hch hdt hdied _ _ =>
        exfalso
        obtain ⟨-, hst⟩ := died_iff.mp hdied
        have hin : d ∈ s.records := List.mem_of_mem_filter (show d ∈ s.chain c' by rw [hch]; simp)
        rw [RowState.hidden, List.any_eq_false] at hhid
        exact hhid d hin (by simp [hdt, hc'.sees_of_stable hr (hl.stable hc hc' hst)])
      | promote dead d _ _ _ _ _ _ _ hbase => rw [hbase]; exact (List.sublist_append_left _ _).subperm
      | void d _ _ _ _ hbase => rw [hbase]
      | shed dead _ _ _ hbase => rw [hbase]

end

/-- So it is for the row that `Compact` leaves. -/
theorem view_compacted_subperm {c c' : Clients} {s : RowState} (hc : c.Inv) (hc' : c'.Inv) (hl : c.Later c')
    (h : s.Inv c') {acts : List (DeltaRecord × Action)} (hj : Judged c c' acts) (hrec : s.records = acts.map (·.1))
    {t : Nat} {r : Transaction} (hr : c'.active t = some r) :
    (s.view c'.mgr r).Subperm ((s.compacted acts).view c'.mgr r) :=
  view_subperm hc hc' hl h (h.compacted hc hc' hl hj hrec) (RowState.compact_cases hc hc' hl h hj hrec)
    (RowState.compacted_sublist hrec) hr

/-- The scan `r` would make on the segments and the delta of `w`, with the transactions
as they are in `w'`. -/
def World.scanAs (w w' : World) (r : Transaction) : Option (List Row) :=
  materializeVisibleRows w'.table.txnMgr (w.table.snapshotForScan r)

/-- **Active-snapshot protection.**  `Compact` returns, whatever begins, commits and
aborts between its status reads, and every row that a transaction active at its end
would have seen before is still there, as often and with the same values. -/
theorem active_snapshot_protected (schema : Schema) (ops : List Op)
    (hconf : ∀ op ∈ ops, op.conforms schema = true) (w w1 : World)
    (hrun : Runs.run World.step (World.create schema) ops = some w) (hfits : w.fits = true)
    (during : List (List TxnOp)) (hran : Runs.run World.txnStep w during.flatten = some w1) :
    ∃ w', w.step (.compact during) = some w' ∧ ∀ t r, w'.clients.active t = some r →
      ∃ before after, w.scanAs w' r = some before ∧ w'.scanAs w' r = some after ∧ before.Subperm after := by
  have hgood := World.good_run (World.good_create schema) hconf hrun
  obtain ⟨tb, htb, hcomp⟩ := World.compact_spec hgood.toInv hgood.sound hfits hran
  have hstep : w.step (.compact during) = some { w1 with table := { tb with txnMgr := w1.table.txnMgr } } := by
    simp [World.step, hfits, hran, htb]
  generalize hw' : ({ w1 with table := { tb with txnMgr := w1.table.txnMgr } } : World) = w' at hcomp hstep
  refine ⟨w', hstep, fun t r hr => ?_⟩
  obtain ⟨before, hbefore, hvb⟩ := materializeKeyed_row w'.table.txnMgr (w.table.snapshotForScan r)
    (fun seg hseg => (hgood.sound.base seg hseg).readable) []
  obtain ⟨after, hafter, hva⟩ := materializeKeyed_row w'.table.txnMgr (w'.table.snapshotForScan r)
    (fun seg hseg => (hcomp.sound.base seg hseg).readable) []
  refine ⟨before.map (·.2), after.map (·.2), by simp [World.scanAs, materializeVisibleRows, hbefore],
    by simp [World.scanAs, materializeVisibleRows, hafter], map_subperm _ (Keyed.subperm_of_keys fun x => ?_)⟩
  obtain ⟨acts, hj, hrec, hrow⟩ := hcomp.rows x
  have hinv := (hgood.rows x).later hgood.clients hcomp.clients hcomp.later
  have hview := view_compacted_subperm hgood.clients hcomp.clients hcomp.later hinv hj hrec hr
  rw [← hrow] at hview
  rw [hvb x, hva x]
  exact map_subperm _ hview

/-- Row 1 is inserted by 1; 3 has begun and updated it. -/
def insertAndUpdate : List Op :=
  [.txn .begin, .insert 1 [.int64 7#64], .txn (.commit 1), .txn .begin, .update 3 1 [.int64 8#64]]

/-- Transaction 3 commits and 5 begins while `Compact` reads statuses. -/
theorem active_snapshot_protected_racing : ∃ w w',
    Runs.run World.step (World.create oneColumn) insertAndUpdate = some w ∧
    w.step (.compact [[], [.commit 3], [.begin]]) = some w' ∧ (w'.clients.active 5).isSome = true ∧
    ∀ t r, w'.clients.active t = some r → ∃ before after,
      w.scanAs w' r = some before ∧ w'.scanAs w' r = some after ∧ before.Subperm after := by
  have hcheck : ((Runs.run World.step (World.create oneColumn) insertAndUpdate).any fun w =>
      w.fits && (Runs.run World.txnStep w [.commit 3, .begin]).isSome &&
      (w.step (.compact [[], [.commit 3], [.begin]])).any fun w' => (w'.clients.active 5).isSome) = true := by
    decide +kernel
  obtain ⟨w, hw, hfacts⟩ := Runs.exists_of_any hcheck
  simp only [Bool.and_eq_true] at hfacts
  obtain ⟨⟨hfits, hsome⟩, hafter⟩ := hfacts
  obtain ⟨w1, hran⟩ := Option.isSome_iff_exists.mp hsome
  obtain ⟨w', hw', hact⟩ := Runs.exists_of_any hafter
  obtain ⟨w2, hw2, hkept⟩ := active_snapshot_protected oneColumn insertAndUpdate (by decide) w w1 hw hfits
    [[], [.commit 3], [.begin]] hran
  obtain rfl : w' = w2 := Option.some.inj (hw'.symm.trans hw2)
  exact ⟨w, w', hw, hw', hact, hkept⟩

end CoreDB
