import CoreDB.Table.Isolation

/-!
# What `Compact` preserves, and where it does not

`Compact` decides record by record what leaves the delta and, separately, which
base rows are purged.  A base tombstone that is not the head of its row is dropped
once its claim is settled, but the base row it hides is only purged when the
tombstone *is* the head.  So an updated base row comes back: twice under its id as
soon as the update is promoted, or alone once the update has been deleted.  The
theorems say when this does not happen.
-/

namespace CoreDB

/-! ## Row identity -/

namespace World

/-- Each row id at most once in the base and in every active transaction's view. -/
def UniqueRows (w : World) : Prop :=
  (w.table.baseSegments.flatMap Segment.rowIds).Nodup ∧
    ∀ t r, w.clients.active t = some r → ∃ rows,
      materializeKeyed w.table.txnMgr (w.table.snapshotForScan r) = some rows ∧ (Keyed.keys rows).Nodup

/-- `Compact` would promote the newest record of row `x`: an unclaimed version whose
creator has committed by the watermark. -/
def ripe (w : World) (x : Nat) : Bool :=
  match (w.row x).records.getLast? with
  | some a => !a.isBaseTombstone && a.deletedTxn == 0 && w.clients.stable a.createdTxn
  | none => false

/-- `Compact` is only called while no row id of the base is ripe for promotion. -/
def NoRipeBaseRow (w : World) : Op → Prop
  | .compact _ => ∀ x ∈ w.table.baseSegments.flatMap Segment.rowIds, w.ripe x = false
  | _ => True

theorem unique_base_iff (w : World) :
    (w.table.baseSegments.flatMap Segment.rowIds).Nodup ↔ ∀ x, (w.row x).base.length ≤ 1 := by
  rw [← keys_basePairs, List.nodup_iff_count_le_one]
  apply forall_congr'
  intro x
  unfold World.row rowOf Keyed.keys
  rw [List.length_map, List.count_eq_countP, List.countP_map, List.countP_eq_length_filter]
  rfl

theorem mem_base_iff (w : World) (x : Nat) :
    x ∈ w.table.baseSegments.flatMap Segment.rowIds ↔ (w.row x).base ≠ [] := by
  rw [← keys_basePairs]
  unfold World.row rowOf Keyed.keys
  rw [Ne, List.map_eq_nil_iff, List.filter_eq_nil_iff]
  simp

theorem view_length_le {m : TransactionManager} {r : Transaction} {s : RowState} (h : s.base.length ≤ 1) :
    (s.view m r).length ≤ 1 := by
  unfold RowState.view
  split
  · simp
  · split
    · simp
    · exact h

/-- Distinct ids in the base are enough: a scan keeps them distinct. -/
theorem uniqueRows_of_base {schema : Schema} {w : World} (h : w.Good schema)
    (hbase : (w.table.baseSegments.flatMap Segment.rowIds).Nodup) : w.UniqueRows := by
  refine ⟨hbase, fun t r _ => ?_⟩
  obtain ⟨rows, hrows, hview⟩ := materializeKeyed_row w.table.txnMgr (w.table.snapshotForScan r)
    (fun seg hseg => (h.sound.base seg hseg).readable) []
  refine ⟨rows, hrows, ?_⟩
  rw [List.nodup_iff_count_le_one]
  intro x
  have hlen := congrArg List.length (hview x)
  rw [List.length_map] at hlen
  have hone : ((w.row x).view w.table.txnMgr r).length ≤ 1 :=
    view_length_le ((unique_base_iff w).mp hbase x)
  unfold Keyed.keys
  rw [List.count_eq_countP, List.countP_map, List.countP_eq_length_filter]
  exact Nat.le_trans (Nat.le_of_eq hlen) hone

/-- A row is ripe exactly if `Compact` promotes its newest record. -/
theorem ripe_iff {w : World} {c' : Clients} (hc : w.clients.Inv) (hc' : c'.Inv) (hl : w.clients.Later c') {x : Nat}
    {init : List (DeltaRecord × Action)} {hd : DeltaRecord} {act : Action}
    (hj : Judged w.clients c' (init ++ [(hd, act)]))
    (hrec : (w.row x).records = (init ++ [(hd, act)]).map (·.1)) : w.ripe x = true ↔ act = .promote := by
  have hlast : (w.row x).records.getLast? = some hd := by rw [hrec]; simp
  unfold ripe
  rw [hlast]
  have hv := hj.head
  cases act with
  | purge => simp [hv.2.1]
  | promote =>
    obtain ⟨-, ht, hst, h0⟩ := hv
    simp [ht, hst, h0]
  | drop =>
    rcases hv with ⟨-, hab⟩ | ⟨hdied, -⟩ | ⟨-, ht, -⟩
    · cases hst : w.clients.stable hd.createdTxn with
      | false => simp [hst]
      | true =>
        rw [hc'.alive_of_stable (hl.stable hc hc' hst)] at hab
        cases hab
    · simp [(died_iff.mp hdied).1]
    · simp [ht]
  | retain =>
    cases ht : hd.isBaseTombstone with
    | true => simp [ht]
    | false =>
      cases hst : w.clients.stable hd.createdTxn with
      | false => simp [hst]
      | true => simp [hv.2 rfl ht hst]

/-- `Compact` keeps the base ids distinct exactly if no base row is ripe. -/
theorem compact_unique_iff {schema : Schema} {w w' : World} (h : w.Good schema) (hc : Compacted w w')
    (hbase : (w.table.baseSegments.flatMap Segment.rowIds).Nodup) :
    (w'.table.baseSegments.flatMap Segment.rowIds).Nodup ↔
      ∀ x ∈ w.table.baseSegments.flatMap Segment.rowIds, w.ripe x = false := by
  rw [unique_base_iff w']
  have hold := (unique_base_iff w).mp hbase
  have hrow : ∀ x, (w'.row x).base.length ≤ 1 ↔ ((w.row x).base ≠ [] → w.ripe x = false) := by
    intro x
    obtain ⟨acts, hj, hrec, hrow⟩ := hc.rows x
    rw [hrow]
    rcases List.eq_nil_or_concat acts with rfl | ⟨init, ⟨hd, act⟩, rfl⟩
    · have hnil : (w.row x).records = [] := hrec
      rw [ripe, hnil]
      simpa [RowState.compacted] using hold x
    · rw [List.concat_eq_append] at hj hrec ⊢
      have hripe := ripe_iff h.clients hc.clients hc.later hj hrec
      have hle := hold x
      rw [RowState.compacted_base hj, ← Bool.not_eq_true, hripe]
      cases act with
      | purge => simp
      | promote =>
        cases hb : (w.row x).base with
        | nil => simp
        | cons v l => simp
      | drop => simp [hle]
      | retain => simp [hle]
  constructor
  · intro hall x hx
    exact (hrow x).mp (hall x) ((mem_base_iff w x).mp hx)
  · intro hall x
    exact (hrow x).mpr fun hne => hall x ((mem_base_iff w x).mpr hne)

theorem step_unique_iff {schema : Schema} {w w' : World} {op : Op} (h : w.Good schema)
    (hbase : (w.table.baseSegments.flatMap Segment.rowIds).Nodup) (hs : w.step op = some w') :
    (w'.table.baseSegments.flatMap Segment.rowIds).Nodup ↔ w.NoRipeBaseRow op := by
  have hst := step_cases h.toInv.active_id hs
  cases op with
  | compact d =>
    cases hst with
    | compact during w1 t hfits hran ht =>
      exact compact_unique_iff h (Step.compacted h.toInv h.sound hfits hran ht) hbase
    | insert t y txn row hop hact hnew => rcases hop with ⟨hf, -⟩ | hf <;> cases hf
    | write t y txn delta wr hop hcl => rcases hop with ⟨_, hf, -⟩ | ⟨hf, -⟩ <;> cases hf
    | fail t y txn hop hact href => rcases hop with ⟨_, hf⟩ | hf <;> cases hf
  | _ =>
    rw [hst.base_eq (by simp)]
    exact iff_of_true hbase trivial

theorem always_unique_iff {schema : Schema} (ops : List Op) : ∀ (w w' : World), w.Good schema →
    (w.table.baseSegments.flatMap Segment.rowIds).Nodup → (∀ op ∈ ops, op.conforms schema = true) →
    Runs.run step w ops = some w' →
    (Runs.Always step UniqueRows w ops ↔ Runs.Along step NoRipeBaseRow w ops) := by
  induction ops with
  | nil =>
    intro w w' h hbase _ _
    exact iff_of_true (uniqueRows_of_base h hbase) trivial
  | cons op ops ih =>
    intro w w' h hbase hconf hrun
    obtain ⟨w1, hs, hrest⟩ := Runs.run_cons_eq_some.mp hrun
    have h1 := good_step h (hconf op List.mem_cons_self) hs
    have hiff := step_unique_iff h hbase hs
    have hconf' : ∀ o ∈ ops, o.conforms schema = true := fun o ho => hconf o (List.mem_cons_of_mem _ ho)
    constructor
    · rintro ⟨-, hall⟩
      have hall1 := hall w1 hs
      have hb1 : (w1.table.baseSegments.flatMap Segment.rowIds).Nodup := by
        cases ops with
        | nil => exact hall1.1
        | cons o ops => exact hall1.1.1
      refine ⟨hiff.mp hb1, fun w2 hs2 => ?_⟩
      rw [hs] at hs2
      rw [← Option.some.inj hs2]
      exact (ih w1 w' h1 hb1 hconf' hrest).mp hall1
    · rintro ⟨hq, hall⟩
      refine ⟨uniqueRows_of_base h hbase, fun w2 hs2 => ?_⟩
      have halong := hall w2 hs2
      rw [hs] at hs2
      rw [← Option.some.inj hs2] at halong ⊢
      exact (ih w1 w' h1 (hiff.mpr hq) hconf' hrest).mpr halong

end World

/-- **Row identity under `Compact`.**  In a run from an empty table every visited state
has unique rows if and only if `Compact` is never called while a row id that is
still in the base is ripe for promotion. -/
theorem unique_rows_iff_no_ripe_base_row (schema : Schema) (ops : List Op)
    (hconf : ∀ op ∈ ops, op.conforms schema = true) (w : World)
    (hrun : Runs.run World.step (World.create schema) ops = some w) :
    Runs.Always World.step World.UniqueRows (World.create schema) ops ↔
      Runs.Along World.step World.NoRipeBaseRow (World.create schema) ops :=
  World.always_unique_iff ops _ w (World.good_create schema) List.nodup_nil hconf hrun

/-- Row 1 is inserted and moved to the base. -/
def insertAndCompact : List Op := [.txn .begin, .insert 1 [.int64 7#64], .txn (.commit 1), .compact []]

/-- The base row is then updated, and compacted again. -/
def updateAndCompact : List Op :=
  insertAndCompact ++ [.txn .begin, .update 3 1 [.int64 8#64], .txn (.commit 3), .compact []]

theorem unique_rows_insertAndCompact : ∃ w,
    Runs.run World.step (World.create oneColumn) insertAndCompact = some w ∧
      (Runs.Always World.step World.UniqueRows (World.create oneColumn) insertAndCompact ↔
        Runs.Along World.step World.NoRipeBaseRow (World.create oneColumn) insertAndCompact) :=
  ⟨_, rfl, unique_rows_iff_no_ripe_base_row oneColumn insertAndCompact (by decide) _ rfl⟩

/-- An updated base row ends up in the base twice. -/
theorem updated_base_row_is_doubled :
    (∀ op ∈ updateAndCompact, op.conforms oneColumn = true) ∧
      ∃ w, Runs.run World.step (World.create oneColumn) updateAndCompact = some w ∧
        w.table.baseSegments.flatMap Segment.rowIds = [1, 1] ∧ ¬ w.UniqueRows := by
  refine ⟨by decide, ?_⟩
  have hcheck : ((Runs.run World.step (World.create oneColumn) updateAndCompact).any
      fun w => w.table.baseSegments.flatMap Segment.rowIds == [1, 1]) = true := by
    decide +kernel
  obtain ⟨w, hw, hids⟩ := Runs.exists_of_any hcheck
  rw [beq_iff_eq] at hids
  refine ⟨w, hw, hids, fun hu => ?_⟩
  have hnodup := hu.1
  rw [hids] at hnodup
  exact absurd hnodup (by decide)

/-! ## Deleted rows stay deleted -/

namespace World

/-- Once `d` has deleted row `x` and committed, nobody who began after that sees the
row or succeeds in writing it. -/
def NoResurrection (w : World) : Prop :=
  ∀ D d x, Event.write D x .delete ∈ w.log → w.clients.handle D = some d → d.state = .committed →
    ∀ t r, w.clients.active t = some r → d.commitTs ≤ r.snapshotTs →
      (∃ rows, materializeKeyed w.table.txnMgr (w.table.snapshotForScan r) = some rows ∧ x ∉ Keyed.keys rows) ∧
      (∀ row, (w.table.update r x row).1 = false) ∧ (w.table.delete r x).1 = false

/-- A successful claim extends the live writes of the row legally. -/
theorem Claimed.legal {b : Nat → Option Row} {w : World} {t x : Nat} {txn : Transaction} {delta : DeltaLayer}
    (h : w.Inv) (hg : w.Grounded b) (hcl : w.Claimed t x txn delta) {wr : Write}
    (hwr : ∀ row, wr ≠ .insert row) : Legal (b x) ((w.row x).liveHist w.clients ++ [(t, wr)]) := by
  have hlist : ∀ recs, ((w.row x).written recs t wr).liveHist w.clients =
      (w.row x).liveHist w.clients ++ [(t, wr)] := fun _ => RowState.liveHist_concat h.clients hcl.active wr
  obtain ⟨-, hcase⟩ := hcl.cases (h.active_id t txn hcl.active)
  rcases hcase with ⟨old, it, new, hrec, hclaim, -⟩ | ⟨hrec, hbase, -⟩
  · rw [← hlist]
    exact ((hg x).claim h.clients (h.rows x) hcl.active hrec hclaim hwr x).legal
  · rw [← hlist]
    exact ((hg x).tombstone h.clients hcl.active hrec hbase hwr x).legal

/-- After a committed delete no claim succeeds. -/
theorem claim_refused {b : Nat → Option Row} {w : World} (h : w.Inv) (hg : w.Grounded b) {D x : Nat}
    (hdel : (D, Write.delete) ∈ (w.row x).liveHist w.clients) {t : Nat} {r : Transaction} {delta : DeltaLayer} :
    ¬ w.Claimed t x r delta := by
  intro hcl
  have hlegal : Legal (b x) ((w.row x).liveHist w.clients ++ [(t, .delete)]) := hcl.legal h hg (by simp)
  obtain ⟨l, l', hsplit⟩ := List.append_of_mem hdel
  rw [hsplit, List.append_assoc, List.cons_append] at hlegal
  have := hlegal.delete_last
  simp at this

theorem noResurrection_of_grounded {schema : Schema} {b : Nat → Option Row} {w : World} (h : w.Good schema)
    (hg : w.Grounded b) : w.NoResurrection := by
  intro D d x hD hd hdc t r hr hle
  have hinv := h.toInv
  have hdel : (D, Write.delete) ∈ (w.row x).liveHist w.clients :=
    List.mem_filter.mpr ⟨mem_row_hist hD, hinv.alive_of_state hd (by rw [hdc]; simp)⟩
  have hrid := hinv.active_id t r hr
  refine ⟨?_, fun row => ?_, ?_⟩
  · obtain ⟨rows, hrows, hview⟩ := materializeKeyed_mem w.table.txnMgr (w.table.snapshotForScan r)
      (fun seg hseg => (h.sound.base seg hseg).readable) []
    refine ⟨rows, hrows, fun hx => ?_⟩
    -- the delete is the last live write, and the reader sees it
    obtain ⟨l, l', hsplit⟩ := List.append_of_mem hdel
    have hlegal := (hg x).legal
    rw [hsplit] at hlegal
    have hl' := hlegal.delete_last
    have hsees : w.clients.mgr.sees r D = true := (hinv.clients.sees_iff r D).mpr (Or.inr ⟨d, hd, hdc, hle⟩)
    have hempty : (w.row x).view w.clients.mgr r = [] := by
      rw [(hg x).view_eq hinv.clients (hinv.rows x) hr, hsplit, hl', List.filter_append]
      simp only [List.filter_cons, hsees, if_true, List.filter_nil]
      rw [show values (l.filter (fun p => w.clients.mgr.sees r p.1) ++ [(D, Write.delete)]) =
        values (l.filter fun p => w.clients.mgr.sees r p.1) ++ [(D, none)] by simp [values, Write.value],
        VersionChain.final_concat]
      rfl
    obtain ⟨p, hp, rfl⟩ := List.mem_map.mp hx
    have hin : p.2 ∈ (w.row p.1).view w.clients.mgr r := (hview p.1 p.2).mp hp
    rw [hempty] at hin
    cases hin
  · rcases update_cases w.table r x row with ⟨delta, hok, -⟩ | ⟨-, -, -, heq⟩
    · exact absurd ⟨hr, hok⟩ (claim_refused hinv hg hdel (t := t))
    · rw [heq]
  · rcases delete_cases w.table r x with ⟨delta, hok, -⟩ | ⟨-, -, -, heq⟩
    · exact absurd ⟨hr, hok⟩ (claim_refused hinv hg hdel (t := t))
    · rw [heq]

/-- Safe runs keep rows grounded. -/
theorem grounded_run {schema : Schema} {ops : List Op} {w : World}
    (hconf : ∀ op ∈ ops, op.conforms schema = true)
    (hsafe : Runs.Along step Safe (create schema) ops)
    (hrun : Runs.run step (create schema) ops = some w) : w.Good schema ∧ w.Grounded fun _ => none := by
  refine Runs.run_invariant (Q := fun u op => op.conforms schema = true ∧ u.Safe op)
    (I := fun u => u.Good schema ∧ u.Grounded fun _ => none) ?_ ⟨good_create schema, grounded_create schema⟩ ?_ hrun
  · intro u op u' hu hq hs
    exact ⟨good_step hu.1 hq.1 hs, grounded_step hu.1.toInv (fun _ _ => hu.1.sound) hu.2 hq.2 hs⟩
  · exact Runs.Along.and (Runs.along_of_forall _ fun _ op hop => hconf op hop) hsafe

end World

/-- **No resurrection** in any run whose `Compact`s find no base tombstone of settled
claim with a newer record of its row behind it. -/
theorem no_resurrection (schema : Schema) (ops : List Op) (hconf : ∀ op ∈ ops, op.conforms schema = true)
    (hsafe : Runs.Along World.step World.Safe (World.create schema) ops) (w : World)
    (hrun : Runs.run World.step (World.create schema) ops = some w) : w.NoResurrection := by
  obtain ⟨hgood, hg⟩ := World.grounded_run hconf hsafe hrun
  exact World.noResurrection_of_grounded hgood hg

theorem World.not_covered_of_length {w : World} (h : w.table.delta.length ≤ 1) (x : Nat) :
    ¬ RowState.Covered w.clients (w.row x) := by
  rintro ⟨older, a, newer, hrec, hne, -⟩
  have hle : (w.row x).records.length ≤ w.table.delta.length := List.length_filter_le _ _
  rw [hrec] at hle
  cases newer with
  | nil => exact hne rfl
  | cons b newer => simp at hle; omega

/-- Row 1 moves to the base, is deleted there by 3 and purged; 5 comes later. -/
def deleteAndCompact : List Op :=
  insertAndCompact ++ [.txn .begin, .delete 3 1, .txn (.commit 3), .compact [], .txn .begin]

theorem no_resurrection_deleteAndCompact : ∃ w,
    Runs.run World.step (World.create oneColumn) deleteAndCompact = some w ∧
      Event.write 3 1 .delete ∈ w.log ∧ (w.clients.active 5).isSome = true ∧ w.NoResurrection := by
  have hcheck : ((Runs.run World.step (World.create oneColumn) deleteAndCompact).any
      fun w => w.log.contains (.write 3 1 .delete) && (w.clients.active 5).isSome) = true := by
    decide +kernel
  obtain ⟨w, hw, hlog⟩ := Runs.exists_of_any hcheck
  simp only [Bool.and_eq_true, List.contains_iff_mem] at hlog
  refine ⟨w, hw, hlog.1, hlog.2, no_resurrection oneColumn deleteAndCompact (by decide) ?_ w hw⟩
  refine Runs.along_of_check (q := fun w op => op matches .compact _ → w.table.delta.length ≤ 1) ?_ ?_
  · intro w op hop
    cases op with
    | compact d => exact fun x => World.not_covered_of_length (by simpa using hop) x
    | _ => trivial
  · decide +kernel

/-- Row 1 moves to the base, is updated by 3 and deleted by 5, and the delta is
compacted; 7 comes later. -/
def updateDeleteAndCompact : List Op :=
  insertAndCompact ++ [.txn .begin, .update 3 1 [.int64 8#64], .txn (.commit 3), .txn .begin, .delete 5 1,
    .txn (.commit 5), .compact [], .txn .begin]

/-- The row is back, with its first value. -/
theorem deleted_base_row_returns :
    (∀ op ∈ updateDeleteAndCompact, op.conforms oneColumn = true) ∧
      ∃ w r, Runs.run World.step (World.create oneColumn) updateDeleteAndCompact = some w ∧
        w.clients.active 7 = some r ∧
        materializeKeyed w.table.txnMgr (w.table.snapshotForScan r) = some [(1, [.int64 7#64])] ∧
        ¬ w.NoResurrection := by
  refine ⟨by decide, ?_⟩
  have hcheck : ((Runs.run World.step (World.create oneColumn) updateDeleteAndCompact).any fun w =>
      w.log.contains (.write 5 1 .delete) &&
      w.clients.handle 5 == some { txnId := 5, snapshotTs := 4, commitTs := 6, state := .committed } &&
      w.clients.active 7 == some { txnId := 7, snapshotTs := 6 } &&
      materializeKeyed w.table.txnMgr (w.table.snapshotForScan { txnId := 7, snapshotTs := 6 }) ==
        some [(1, [.int64 7#64])]) = true := by
    decide +kernel
  obtain ⟨w, hw, hfacts⟩ := Runs.exists_of_any hcheck
  simp only [Bool.and_eq_true, List.contains_iff_mem, beq_iff_eq] at hfacts
  obtain ⟨⟨⟨hlog, hh⟩, hact⟩, hrows⟩ := hfacts
  refine ⟨w, _, hw, hact, hrows, fun hno => ?_⟩
  obtain ⟨rows, hrows', hx⟩ := (hno 5 _ 1 hlog hh rfl 7 _ hact (Nat.le_refl 6)).1
  rw [hrows] at hrows'
  rw [← Option.some.inj hrows'] at hx
  exact hx (by decide)

end CoreDB
