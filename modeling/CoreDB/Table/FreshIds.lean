import CoreDB.Storage.Int64Column
import CoreDB.Table.Callers
import CoreDB.Table.Isolation

/-!
# Row ids and segment ids are fresh

`Callers.Inv`: a row id is below the allocator, or the `InsertWithRowId` that brought
it is still in its loop.  `Advances` is what a step may do to the ids, and keeps the
invariant; each kind of step advances (`step_advances`).  `row_ids_fresh`: so every id
in use is below the allocator when no such call is in flight, as long as no counter
wraps around.
-/

namespace CoreDB

open SharedCounter

/-! ## Row ids through a segment

A row id is stored as a signed 64-bit cell and read back as an unsigned number.  A cell that
is NULL in a loaded segment is stored as 0 in the next one. -/

namespace Segment

/-- The row ids of a built segment are the first cells of its rows. -/
theorem rowIds_build {segmentId : Nat} {userSchema : Schema} {rows : List Row} {seg : Segment}
    (h : build segmentId (fullSchemaOf userSchema) rows = some seg) :
    seg.segmentId = segmentId ∧ seg.rowIds = rows.map fun row => (row.getD 0 .null).raw.toNat := by
  obtain ⟨cols, hcols, rfl⟩ := Option.map_eq_some_iff.mp h
  refine ⟨rfl, ?_⟩
  unfold fullSchemaOf buildColumns at hcols
  split at hcols
  · cases hcols
  · next col hcol =>
    obtain ⟨rest, -, rfl⟩ := Option.map_eq_some_iff.mp hcols
    have hdata := (Column.int64Built_of_build hcol).data
    apply List.ext_getElem (by simp [rowIds])
    intro r h1 h2
    have hr : r < rows.length := by simpa using h2
    simp [rowIds, rowIdAt, hdata, List.getElem?_eq_getElem hr]

/-- The first cell of a row is its row id, or counts as 0. -/
theorem raw_extractFullRow {seg : Segment} {r : Nat} {full : Row} (h : seg.extractFullRow r = some full) :
    (full.getD 0 .null).raw.toNat = seg.rowIdAt r ∨ (full.getD 0 .null).raw.toNat = 0 := by
  unfold extractFullRow at h
  cases hcols : seg.columns with
  | nil =>
    rw [hcols] at h
    cases h
    exact Or.inr rfl
  | cons col cols =>
    rw [hcols, cellsAt] at h
    split at h
    · cases h
    · next v hv =>
      obtain ⟨vs, -, rfl⟩ := Option.map_eq_some_iff.mp h
      unfold Column.valueAt at hv
      split at hv
      · split at hv
        · exact Or.inr (by rw [← Option.some.inj hv]; rfl)
        · refine Or.inl ?_
          rw [← Option.some.inj hv, rowIdAt, hcols]
          rfl
        · exact Or.inr (by rw [← Option.some.inj hv]; rfl)
        · obtain ⟨s, -, rfl⟩ := Option.map_eq_some_iff.mp hv
          exact Or.inr rfl
      · exact Or.inr (by rw [← Option.some.inj hv]; rfl)

theorem mem_fullRowsExcept {seg : Segment} {purged : List Nat} {row : Row} : ∀ {rs : List Nat} {rows : List Row},
    seg.fullRowsExcept purged rs = some rows → row ∈ rows → ∃ r ∈ rs, seg.extractFullRow r = some row
  | [], rows, h, hrow => by
    cases h
    cases hrow
  | r :: rs, rows, h, hrow => by
    have hrest : ∀ {l : List Row}, seg.fullRowsExcept purged rs = some l → row ∈ l →
        ∃ q ∈ r :: rs, seg.extractFullRow q = some row := by
      intro l hl hin
      obtain ⟨q, hq, hfull⟩ := mem_fullRowsExcept hl hin
      exact ⟨q, List.mem_cons_of_mem _ hq, hfull⟩
    rw [fullRowsExcept] at h
    split at h
    · exact hrest h hrow
    · split at h
      · cases h
      · next full hfull =>
        obtain ⟨l, hl, rfl⟩ := Option.map_eq_some_iff.mp h
        rcases List.mem_cons.mp hrow with rfl | hrow
        · exact ⟨r, List.mem_cons_self, hfull⟩
        · exact hrest hl hrow

end Segment

namespace Table

/-- A row of the rewritten base was in the base, or has been promoted. -/
theorem mem_mergedRows {t : Table} {st : CompactState} {rows : List Row} (h : t.mergedRows st = some rows) {row : Row}
    (hrow : row ∈ rows) : (∃ seg ∈ t.baseSegments, ∃ r < seg.numRows, seg.extractFullRow r = some row) ∨
      ∃ p ∈ st.liveStableRows, fullRow p = row := by
  obtain ⟨kept, hkept, rfl⟩ := Option.map_eq_some_iff.mp h
  rcases List.mem_append.mp hrow with hrow | hrow
  · obtain ⟨seg, hseg, l, hl, hin⟩ := mem_collect hkept hrow
    obtain ⟨r, hr, hfull⟩ := Segment.mem_fullRowsExcept hl hin
    exact Or.inl ⟨seg, hseg, r, List.mem_range.mp hr, hfull⟩
  · obtain ⟨p, hp, rfl⟩ := List.mem_map.mp hrow
    exact Or.inr ⟨p, hp, rfl⟩

/-- The row ids of the base. -/
def baseRowIds (t : Table) : List Nat := t.baseSegments.flatMap Segment.rowIds

theorem mem_baseRowIds_of_exists {t : Table} {x : Nat} (h : t.rowIdExistsInBase x = true) : x ∈ t.baseRowIds := by
  obtain ⟨seg, hseg, hany⟩ := List.any_eq_true.mp h
  obtain ⟨y, hy, hyx⟩ := List.any_eq_true.mp hany
  rw [← beq_iff_eq.mp hyx]
  exact List.mem_flatMap.mpr ⟨seg, hseg, hy⟩

/-- Where the ids of a table come from after `Compact`. -/
structure IdsFrom (t t' : Table) : Prop where
  nextRowId : t'.nextRowId = t.nextRowId
  delta : ∀ a ∈ t'.delta, a ∈ t.delta
  base : ∀ x ∈ t'.baseRowIds, x ∈ t.baseRowIds ∨ x = 0 ∨ ∃ a ∈ t.delta, x = a.rowId % 2 ^ 64
  nextSegmentId : t.nextSegmentId ≤ t'.nextSegmentId ∧ t'.nextSegmentId < 2 ^ 64
  segments : ∀ seg ∈ t'.baseSegments, seg ∈ t.baseSegments ∨ seg.segmentId < t'.nextSegmentId

theorem IdsFrom.refl {t : Table} (h : t.nextSegmentId < 2 ^ 64) : t.IdsFrom t where
  nextRowId := rfl
  delta := fun _ ha => ha
  base := fun _ hx => Or.inl hx
  nextSegmentId := ⟨Nat.le_refl _, h⟩
  segments := fun _ hseg => Or.inl hseg

/-- The ids of a segment built from the rows `Compact` keeps. -/
theorem rowIds_rewritten {t : Table} {obs : Nat → TransactionManager} {rows : List Row} {seg : Segment}
    (hrows : t.mergedRows (compactLoop obs t.txnMgr.oldestActiveSnapshot t.delta) = some rows)
    (hseg : Segment.build t.nextSegmentId t.fullSchema rows = some seg) :
    seg.segmentId = t.nextSegmentId ∧
      ∀ x ∈ seg.rowIds, x ∈ t.baseRowIds ∨ x = 0 ∨ ∃ a ∈ t.delta, x = a.rowId % 2 ^ 64 := by
  obtain ⟨hid, hids⟩ := Segment.rowIds_build hseg
  refine ⟨hid, fun x hx => ?_⟩
  rw [hids] at hx
  obtain ⟨row, hrow, rfl⟩ := List.mem_map.mp hx
  rcases mem_mergedRows hrows hrow with ⟨sg, hsg, r, hr, hfull⟩ | ⟨p, hp, rfl⟩
  · rcases Segment.raw_extractFullRow hfull with hraw | hraw
    · rw [hraw]
      exact Or.inl (List.mem_flatMap.mpr ⟨sg, hsg, List.mem_map_of_mem (List.mem_range.mpr hr)⟩)
    · exact Or.inr (Or.inl hraw)
  · obtain ⟨q, hq, -, hqx, -⟩ := exists_promoted hp
    have hmem : q.1 ∈ t.delta := by
      rw [← map_fst_classified obs t.txnMgr.oldestActiveSnapshot t.delta]
      exact List.mem_map_of_mem hq
    refine Or.inr (Or.inr ⟨q.1, hmem, ?_⟩)
    rw [hqx]
    exact BitVec.toNat_ofNat p.1 64

/-- `Compact` throws only while it rewrites the base. -/
theorem rewrites_of_throws {t : Table} {obs : Nat → TransactionManager} (h : t.compactUnder obs = none) :
    let st := compactLoop obs t.txnMgr.oldestActiveSnapshot t.delta
    st.liveStableRows ≠ [] ∨ st.stablyDeletedRowIds ≠ [] := by
  apply Classical.byContradiction
  intro hno
  unfold compactUnder at h
  rw [if_neg hno] at h
  cases h

theorem compactCall_idsFrom {t : Table} {obs : Nat → TransactionManager} (h : t.nextSegmentId < 2 ^ 64)
    (hroom : t.takesSegmentId obs = true → t.nextSegmentId + 1 < 2 ^ 64) : t.IdsFrom (t.compactCall obs) := by
  unfold compactCall
  cases hc : t.compactUnder obs with
  | some t' =>
    obtain ⟨⟨hdelta, -, hnext⟩, hcase⟩ := compactUnder_cases rfl hc
    have hret : ∀ a ∈ t'.delta, a ∈ t.delta := by
      rw [hdelta]
      exact fun a ha => mem_delta_of_retained (map_fst_classified obs _ t.delta) ha
    rcases hcase with ⟨-, hbase, hseg⟩ | ⟨hre, rows, seg, hrows, hbuild, hbase, hseg⟩
    · have hsame : t'.nextSegmentId % 2 ^ 64 = t.nextSegmentId := by rw [hseg, Nat.mod_eq_of_lt h]
      refine ⟨hnext, hret, fun x hx => ?_, ?_, fun sg hsg => ?_⟩
      · exact Or.inl (by simpa [baseRowIds, hbase] using hx)
      · simp only [hsame]
        omega
      · exact Or.inl (hbase ▸ hsg)
    · have hroom' := hroom (by simp [takesSegmentId, hrows, hre])
      have hsame : t'.nextSegmentId % 2 ^ 64 = t.nextSegmentId + 1 := by rw [hseg, Nat.mod_eq_of_lt hroom']
      obtain ⟨hid, hids⟩ := rowIds_rewritten hrows hbuild
      refine ⟨hnext, hret, fun x hx => ?_, ?_, fun sg hsg => ?_⟩
      · exact hids x (by simpa [baseRowIds, hbase] using hx)
      · simp only [hsame]
        omega
      · rw [show sg = seg by simpa [hbase] using hsg]
        simp only [hsame, hid]
        exact Or.inr (Nat.lt_succ_self _)
  | none =>
    -- it threw: the base and the delta are those before
    dsimp only
    split
    · next hsome =>
      have hroom' := hroom (by simp [takesSegmentId, hsome, rewrites_of_throws hc])
      have hsame : (fetchAdd 64 t.nextSegmentId).2 = t.nextSegmentId + 1 := Nat.mod_eq_of_lt hroom'
      refine ⟨rfl, fun _ ha => ha, fun x hx => Or.inl hx, ?_, fun sg hsg => Or.inl hsg⟩
      simp only [hsame]
      exact ⟨by omega, hroom'⟩
    · exact IdsFrom.refl h

end Table

namespace Callers

/-! ## The invariant -/

/-- No `InsertWithRowId` is in flight. -/
def Quiet (s : Callers) : Prop := ∀ k x loop, Keyed.find s.calls k ≠ some (.insertWithRowId x loop)

/-- Row id `x` is below the allocator, or the call that raises it is in flight. -/
def Bound (s : Callers) (x : Nat) : Prop :=
  x < s.table.nextRowId ∨ ∃ k loop, Keyed.find s.calls k = some (.insertWithRowId x loop)

def CallOk (s : Callers) : Call → Prop
  | .insert _ _ x => x < s.table.nextRowId
  | .update _ _ x => s.Bound x
  | .insertWithRowId x loop => x + 1 < 2 ^ 64 ∧ loop.Behind s.table.nextRowId

structure Inv (s : Callers) : Prop where
  nextRowId : 0 < s.table.nextRowId ∧ s.table.nextRowId < 2 ^ 64
  base : ∀ x ∈ s.table.baseRowIds, x < s.table.nextRowId
  delta : ∀ a ∈ s.table.delta, s.Bound a.rowId
  returned : ∀ x ∈ s.returned, x < s.table.nextRowId
  calls : ∀ k call, Keyed.find s.calls k = some call → s.CallOk call
  nextSegmentId : s.table.nextSegmentId < 2 ^ 64
  segments : ∀ seg ∈ s.table.baseSegments, seg.segmentId < s.table.nextSegmentId

/-- What a step may do to the ids. -/
structure Advances (s s' : Callers) : Prop where
  nextRowId : s.table.nextRowId ≤ s'.table.nextRowId ∧ s'.table.nextRowId < 2 ^ 64
  /-- An `InsertWithRowId` goes on, or returns with the allocator raised. -/
  raising : ∀ k x loop, Keyed.find s.calls k = some (.insertWithRowId x loop) → s'.Bound x
  base : ∀ x ∈ s'.table.baseRowIds, x ∈ s.table.baseRowIds ∨ x < s'.table.nextRowId
  delta : ∀ a ∈ s'.table.delta, (∃ b ∈ s.table.delta, b.rowId = a.rowId) ∨ s'.Bound a.rowId
  returned : ∀ x ∈ s'.returned, x ∈ s.returned ∨ x < s'.table.nextRowId
  calls : ∀ k call, Keyed.find s'.calls k = some call → Keyed.find s.calls k = some call ∨ s'.CallOk call
  nextSegmentId : s.table.nextSegmentId ≤ s'.table.nextSegmentId ∧ s'.table.nextSegmentId < 2 ^ 64
  segments : ∀ seg ∈ s'.table.baseSegments,
    seg ∈ s.table.baseSegments ∨ seg.segmentId < s'.table.nextSegmentId

section
variable {s s' : Callers} (h : s.Inv)
include h

omit h in
theorem Advances.bound (ha : s.Advances s') {x : Nat} (hx : s.Bound x) : s'.Bound x := by
  rcases hx with hx | ⟨k, loop, hk⟩
  · exact Or.inl (Nat.lt_of_lt_of_le hx ha.nextRowId.1)
  · exact ha.raising k x loop hk

/-- **Such a step keeps the invariant.** -/
theorem Inv.advance (ha : s.Advances s') : s'.Inv where
  nextRowId := ⟨Nat.lt_of_lt_of_le h.nextRowId.1 ha.nextRowId.1, ha.nextRowId.2⟩
  base := fun x hx => by
    rcases ha.base x hx with hx | hx
    · exact Nat.lt_of_lt_of_le (h.base x hx) ha.nextRowId.1
    · exact hx
  delta := fun a ha' => by
    rcases ha.delta a ha' with ⟨b, hb, heq⟩ | hbound
    · rw [← heq]
      exact ha.bound (h.delta b hb)
    · exact hbound
  returned := fun x hx => by
    rcases ha.returned x hx with hx | hx
    · exact Nat.lt_of_lt_of_le (h.returned x hx) ha.nextRowId.1
    · exact hx
  calls := fun k call hk => by
    rcases ha.calls k call hk with hold | hok
    · have hok := h.calls k call hold
      cases call with
      | insert txn row x => exact Nat.lt_of_lt_of_le hok ha.nextRowId.1
      | update txn row x => exact ha.bound hok
      | insertWithRowId x loop => exact ⟨hok.1, hok.2.mono ha.nextRowId.1⟩
    · exact hok
  nextSegmentId := ha.nextSegmentId.2
  segments := fun seg hseg => by
    rcases ha.segments seg hseg with hseg | hseg
    · exact Nat.lt_of_lt_of_le (h.segments seg hseg) ha.nextSegmentId.1
    · exact hseg

omit h in
/-- A row id stays bound through a step of thread `k` that does not let go of its own. -/
theorem bound_of_thread {k : Nat} {call : Option Call}
    (hcalls : ∀ j, Keyed.find s'.calls j = if j = k then call else Keyed.find s.calls j)
    (hnext : s.table.nextRowId ≤ s'.table.nextRowId)
    (hraising : ∀ x loop, Keyed.find s.calls k = some (.insertWithRowId x loop) → s'.Bound x) {y : Nat}
    (hy : s.Bound y) : s'.Bound y := by
  rcases hy with hy | ⟨j, loop, hj⟩
  · exact Or.inl (Nat.lt_of_lt_of_le hy hnext)
  · by_cases hjk : j = k
    · subst hjk
      exact hraising y loop hj
    · exact Or.inr ⟨j, loop, by rw [hcalls, if_neg hjk, hj]⟩

/-- A step of thread `k`, which leaves the base alone: what has to be said of its call, of the
records it appends and of the ids it returns. -/
theorem thread_advances {k : Nat} {call : Option Call}
    (hcalls : ∀ j, Keyed.find s'.calls j = if j = k then call else Keyed.find s.calls j)
    (hbase : s'.table.baseSegments = s.table.baseSegments)
    (hsegment : s'.table.nextSegmentId = s.table.nextSegmentId)
    (hnext : s.table.nextRowId ≤ s'.table.nextRowId ∧ s'.table.nextRowId < 2 ^ 64)
    (hraising : ∀ x loop, Keyed.find s.calls k = some (.insertWithRowId x loop) → s'.Bound x)
    (hdelta : ∀ a ∈ s'.table.delta, (∃ b ∈ s.table.delta, b.rowId = a.rowId) ∨ s'.Bound a.rowId)
    (hreturned : ∀ x ∈ s'.returned, x ∈ s.returned ∨ x < s'.table.nextRowId)
    (hcall : ∀ c, call = some c → s'.CallOk c) : s.Advances s' where
  nextRowId := hnext
  raising := fun j x loop hj => bound_of_thread hcalls hnext.1 hraising (Or.inr ⟨j, loop, hj⟩)
  base := fun x hx => Or.inl (by simpa [Table.baseRowIds, hbase] using hx)
  delta := hdelta
  returned := hreturned
  calls := fun j c hj => by
    rw [hcalls] at hj
    by_cases hjk : j = k
    · rw [if_pos hjk] at hj
      exact Or.inr (hcall c hj)
    · rw [if_neg hjk] at hj
      exact Or.inl hj
  nextSegmentId := by
    rw [hsegment]
    exact ⟨Nat.le_refl _, h.nextSegmentId⟩
  segments := fun seg hseg => Or.inl (hbase ▸ hseg)

/-- A step that only touches the table, under an allocator that stays. -/
theorem table_advances (hcalls : s'.calls = s.calls) (hreturned : s'.returned = s.returned)
    (hnext : s'.table.nextRowId = s.table.nextRowId)
    (hbase : ∀ x ∈ s'.table.baseRowIds, x ∈ s.table.baseRowIds ∨ x < s.table.nextRowId)
    (hdelta : ∀ a ∈ s'.table.delta, (∃ b ∈ s.table.delta, b.rowId = a.rowId) ∨ a.rowId < s.table.nextRowId)
    (hsegment : s.table.nextSegmentId ≤ s'.table.nextSegmentId ∧ s'.table.nextSegmentId < 2 ^ 64)
    (hsegments : ∀ seg ∈ s'.table.baseSegments,
      seg ∈ s.table.baseSegments ∨ seg.segmentId < s'.table.nextSegmentId) : s.Advances s' where
  nextRowId := by
    rw [hnext]
    exact ⟨Nat.le_refl _, h.nextRowId.2⟩
  raising := fun k x loop hk => Or.inr ⟨k, loop, by rw [hcalls, hk]⟩
  base := fun x hx => by
    rw [hnext]
    exact hbase x hx
  delta := fun a ha => by
    rcases hdelta a ha with hold | hlt
    · exact Or.inl hold
    · exact Or.inr (Or.inl (by rw [hnext]; exact hlt))
  returned := fun x hx => Or.inl (hreturned ▸ hx)
  calls := fun k call hk => Or.inl (by rw [← hcalls, hk])
  nextSegmentId := hsegment
  segments := hsegments

/-- A claim brings no new row id into the table, and succeeds only on a row id that is in use. -/
theorem claim_bound (txn : Transaction) (x : Nat) :
    (∀ a ∈ (s.claim txn x).2, (∃ b ∈ s.table.delta, b.rowId = a.rowId) ∨ a.rowId < s.table.nextRowId) ∧
      ((s.claim txn x).1 = .ok → s.Bound x) := by
  unfold claim
  rcases claim_cases s.table.delta x txn s.table.txnMgr (s.table.rowIdExistsInBase x) with
    ⟨old, it, new, hrec, hx, -, -, hr⟩ | ⟨-, hin, hr⟩ | ⟨-, res, hres, hr⟩
  · have hit : it ∈ s.table.delta := by simp [hrec]
    refine ⟨fun a ha => Or.inl ?_, fun _ => hx ▸ h.delta it hit⟩
    simp only [hr, List.mem_append, List.mem_cons] at ha
    rcases ha with ha | rfl | ha
    · exact ⟨a, by simp [hrec, ha], rfl⟩
    · exact ⟨it, hit, rfl⟩
    · exact ⟨a, by simp [hrec, ha], rfl⟩
  · have hlt : x < s.table.nextRowId := h.base x (Table.mem_baseRowIds_of_exists hin)
    refine ⟨fun a ha => ?_, fun _ => Or.inl hlt⟩
    simp only [hr, List.mem_append, List.mem_singleton] at ha
    rcases ha with ha | rfl
    · exact Or.inl ⟨a, ha, rfl⟩
    · exact Or.inr hlt
  · refine ⟨fun a ha => Or.inl ⟨a, by simpa [hr] using ha, rfl⟩, fun hok => ?_⟩
    simp only [hr] at hok
    exact absurd hok hres

theorem insert_advances {k t : Nat} {row : Row} {txn : Transaction} (free : s.caller k t = some txn)
    (hroom : s.table.nextRowId ≠ 2 ^ 64 - 1) :
    s.Advances (s.busy k (.insert txn row s.table.nextRowId)
      { s.table with nextRowId := (s.table.nextRowId + 1) % 2 ^ 64 }) := by
  have hlt := h.nextRowId.2
  have hnext : (s.table.nextRowId + 1) % 2 ^ 64 = s.table.nextRowId + 1 := Nat.mod_eq_of_lt (by omega)
  refine thread_advances h (fun j => Keyed.find_put _ k j _) rfl rfl ?_
    (fun x loop hk => absurd hk (not_raising_of_caller free x loop)) (fun a ha => Or.inl ⟨a, ha, rfl⟩)
    (fun x hx => Or.inl hx) ?_
  · simp only [busy, hnext]
    omega
  · intro c hc
    cases hc
    simp only [CallOk, busy, hnext]
    omega

theorem insertWithRowId_advances {k t x : Nat} {row : Row} {txn : Transaction} (free : s.caller k t = some txn)
    (hx : x < 2 ^ 64 - 1) : s.Advances (s.busy k (.insertWithRowId x .load)
      { s.table with delta := s.table.delta.insert x txn.txnId row }) := by
  refine thread_advances h (fun j => Keyed.find_put _ k j _) rfl rfl ⟨Nat.le_refl _, h.nextRowId.2⟩
    (fun y loop hk => absurd hk (not_raising_of_caller free y loop)) ?_ (fun x hx => Or.inl hx) ?_
  · intro a ha
    rcases List.mem_append.mp ha with ha | ha
    · exact Or.inl ⟨a, ha, rfl⟩
    · -- the row is in the delta before the allocator is raised: its own call answers for it
      rw [List.mem_singleton.mp ha]
      exact Or.inr (Or.inr ⟨k, .load, by simp [busy, Keyed.find_put, DeltaRecord.version]⟩)
  · intro c hc
    cases hc
    exact ⟨by omega, trivial⟩

theorem claim_advances {k t x : Nat} {row : Row} {txn : Transaction} (free : s.caller k t = some txn)
    (ok : (s.claim txn x).1 = .ok) :
    s.Advances (s.busy k (.update txn row x) { s.table with delta := (s.claim txn x).2 }) := by
  obtain ⟨hclaim, hbound⟩ := claim_bound h txn x
  have hcalls := fun j => Keyed.find_put s.calls k j (.update txn row x)
  have hraising := not_raising_of_caller free
  refine thread_advances h hcalls rfl rfl ⟨Nat.le_refl _, h.nextRowId.2⟩
    (fun y loop hk => absurd hk (hraising y loop)) ?_ (fun x hx => Or.inl hx) ?_
  · intro a ha
    rcases hclaim a ha with hold | hlt
    · exact Or.inl hold
    · exact Or.inr (Or.inl hlt)
  · intro c hc
    cases hc
    refine bound_of_thread hcalls ?_ (fun y loop hk => absurd hk (hraising y loop)) (hbound ok)
    exact Nat.le_refl _

/-- A `Delete`, or an `Update` that was refused. -/
theorem claimOnly_advances (txn : Transaction) (x : Nat) :
    s.Advances { s with table := { s.table with delta := (s.claim txn x).2 } } :=
  table_advances h rfl rfl rfl (fun _ hx => Or.inl hx) (claim_bound h txn x).1
    ⟨Nat.le_refl _, h.nextSegmentId⟩ (fun _ hseg => Or.inl hseg)

theorem txn_advances (c : Clients) : s.Advances (s.withClients c) :=
  table_advances h rfl rfl rfl (fun _ hx => Or.inl hx) (fun a ha => Or.inl ⟨a, ha, rfl⟩)
    ⟨Nat.le_refl _, h.nextSegmentId⟩ (fun _ hseg => Or.inl hseg)

theorem inserted_advances {k x : Nat} {row : Row} {txn : Transaction}
    (call : Keyed.find s.calls k = some (.insert txn row x)) :
    s.Advances { s.finished k { s.table with delta := s.table.delta.insert x txn.txnId row } with
      returned := s.returned ++ [x] } := by
  have hx : x < s.table.nextRowId := h.calls k _ call
  refine thread_advances h (fun j => Keyed.find_erase _ k j) rfl rfl ⟨Nat.le_refl _, h.nextRowId.2⟩ ?_ ?_ ?_ ?_
  · intro y loop hk
    rw [call] at hk
    cases hk
  · intro a ha
    rcases List.mem_append.mp ha with ha | ha
    · exact Or.inl ⟨a, ha, rfl⟩
    · rw [List.mem_singleton.mp ha]
      exact Or.inr (Or.inl hx)
  · intro y hy
    rcases List.mem_append.mp hy with hy | hy
    · exact Or.inl hy
    · rw [List.mem_singleton.mp hy]
      exact Or.inr hx
  · intro c hc
    cases hc

theorem updated_advances {k x : Nat} {row : Row} {txn : Transaction}
    (call : Keyed.find s.calls k = some (.update txn row x)) :
    s.Advances (s.finished k { s.table with delta := s.table.delta.insert x txn.txnId row }) := by
  have hx : s.Bound x := h.calls k _ call
  have hcalls := fun j => Keyed.find_erase s.calls k j
  have hraising : ∀ y loop, Keyed.find s.calls k ≠ some (.insertWithRowId y loop) := by
    intro y loop hk
    rw [call] at hk
    cases hk
  refine thread_advances h hcalls rfl rfl ⟨Nat.le_refl _, h.nextRowId.2⟩
    (fun y loop hk => absurd hk (hraising y loop)) ?_ (fun x hx => Or.inl hx) ?_
  · intro a ha
    rcases List.mem_append.mp ha with ha | ha
    · exact Or.inl ⟨a, ha, rfl⟩
    · -- the row `Update` claimed may still belong to an `InsertWithRowId` in flight
      rw [List.mem_singleton.mp ha]
      refine Or.inr (bound_of_thread hcalls ?_ (fun y loop hk => absurd hk (hraising y loop)) hx)
      exact Nat.le_refl _
  · intro c hc
    cases hc

/-- One access of an `InsertWithRowId` that stays in its loop. -/
theorem retry_advances {k x n : Nat} {loop loop' : Raise} {spurious : Bool}
    (call : Keyed.find s.calls k = some (.insertWithRowId x loop))
    (took : loop.step 64 x spurious s.table.nextRowId = (n, some loop')) :
    s.Advances (s.busy k (.insertWithRowId x loop') { s.table with nextRowId := n }) := by
  obtain ⟨hx, hbehind⟩ := h.calls k _ call
  rcases Raise.step_spec hx spurious hbehind with ⟨r, hstep, hbehind'⟩ | ⟨n', hstep, -⟩
  · rw [hstep] at took
    cases took
    refine thread_advances h (fun j => Keyed.find_put _ k j _) rfl rfl ⟨Nat.le_refl _, h.nextRowId.2⟩ ?_
      (fun a ha => Or.inl ⟨a, ha, rfl⟩) (fun x hx => Or.inl hx) ?_
    · intro y l hy
      rw [call] at hy
      cases hy
      exact Or.inr ⟨k, loop', by simp [busy, Keyed.find_put]⟩
    · intro c hc
      cases hc
      exact ⟨hx, hbehind'⟩
  · rw [hstep] at took
    cases took

/-- The access with which an `InsertWithRowId` returns: the allocator is above its row id. -/
theorem leave_advances {k x n : Nat} {loop : Raise} {spurious : Bool}
    (call : Keyed.find s.calls k = some (.insertWithRowId x loop))
    (took : loop.step 64 x spurious s.table.nextRowId = (n, none)) :
    s.Advances (s.finished k { s.table with nextRowId := n }) := by
  obtain ⟨hx, hbehind⟩ := h.calls k _ call
  rcases Raise.step_spec hx spurious hbehind with ⟨r, hstep, -⟩ | ⟨n', hstep, hle, hlt, hmax⟩
  · rw [hstep] at took
    cases took
  · rw [hstep] at took
    cases took
    refine thread_advances h (fun j => Keyed.find_erase _ k j) rfl rfl ⟨hle, ?_⟩ ?_
      (fun a ha => Or.inl ⟨a, ha, rfl⟩) (fun x hx => Or.inl hx) ?_
    · have := h.nextRowId.2
      show n < 2 ^ 64
      omega
    · intro y l hy
      rw [call] at hy
      cases hy
      exact Or.inl hlt
    · intro c hc
      cases hc

omit h in
theorem Bound.lt {x : Nat} (hx : s.Bound x) (hquiet : s.Quiet) : x < s.table.nextRowId := by
  rcases hx with hx | ⟨k, loop, hk⟩
  · exact hx
  · exact absurd hk (hquiet k x loop)

/-- `Compact` has the lock for itself, so the ids it writes back are all below the allocator
and come out of the signed column as they went in. -/
theorem compact_advances {during : List (List TxnOp)} {c : Clients}
    (alone : s.calls.all (fun p => !p.2.holdsLock) = true) (hq : s.noWrap (.compact during) = true) :
    s.Advances (({ s with table := s.table.compactCall (s.observed during) } : Callers).withClients c) := by
  have hquiet : s.Quiet := by
    intro k x loop hk
    have := List.all_eq_true.mp alone _ (Keyed.mem_of_find hk)
    simp [Call.holdsLock] at this
  have hnext := h.nextRowId
  have hseg := h.nextSegmentId
  have hroom : s.table.takesSegmentId (s.observed during) = true → s.table.nextSegmentId + 1 < 2 ^ 64 := by
    intro htakes
    have hne : s.table.nextSegmentId ≠ 2 ^ 64 - 1 := by simpa [noWrap, htakes] using hq
    omega
  have hfrom := Table.compactCall_idsFrom hseg hroom
  refine table_advances h rfl rfl hfrom.nextRowId ?_ (fun a ha => Or.inl ⟨a, hfrom.delta a ha, rfl⟩)
    hfrom.nextSegmentId hfrom.segments
  intro x hx
  rcases hfrom.base x hx with hold | rfl | ⟨a, ha, rfl⟩
  · exact Or.inl hold
  · exact Or.inr hnext.1
  · have hlt := (h.delta a ha).lt hquiet
    rw [Nat.mod_eq_of_lt (by omega)]
    exact Or.inr hlt

/-- **Every step advances**, as long as it does not wrap a counter around. -/
theorem step_advances {m : Move} (hfit : m.idFits = true) (hq : s.noWrap m = true) (hs : s.step m = some s') :
    s.Advances s' := by
  cases step_cases hs with
  | txn op c ran => exact txn_advances h c
  | insert k t row txn free =>
    have hroom : s.table.nextRowId ≠ 2 ^ 64 - 1 := by simpa [noWrap] using hq
    exact insert_advances h free hroom
  | insertWithRowId k t x row txn free => exact insertWithRowId_advances h free (of_decide_eq_true hfit)
  | claim k t x row txn free ok => exact claim_advances h free ok
  | refuse k t x row txn free no => exact claimOnly_advances h txn x
  | delete k t x txn free => exact claimOnly_advances h txn x
  | inserted k txn row x call => exact inserted_advances h call
  | updated k txn row x call => exact updated_advances h call
  | retry k spurious x loop n loop' call took => exact retry_advances h call took
  | leave k spurious x loop n call took => exact leave_advances h call took
  | compact during c alone ran => exact compact_advances h alone hq

end

theorem inv_load {userSchema : Schema} {segs : List Segment}
    (hrows : ∀ x ∈ segs.flatMap Segment.rowIds, x < 2 ^ 64 - 1) (hsegs : ∀ seg ∈ segs, seg.segmentId < 2 ^ 64 - 1) :
    (load userSchema segs).Inv := by
  obtain ⟨hpos, hids⟩ := le_foldl_raise (segs.flatMap Segment.rowIds) 1
  have hseg : ∀ x ∈ segs.map (·.segmentId), x < 2 ^ 64 - 1 := by
    intro x hx
    obtain ⟨seg, hin, rfl⟩ := List.mem_map.mp hx
    exact hsegs seg hin
  have hle := foldl_raise_le (segs.flatMap Segment.rowIds) (show 1 ≤ 2 ^ 64 - 1 by omega) hrows
  have hsle := foldl_raise_le (segs.map (·.segmentId)) (show 1 ≤ 2 ^ 64 - 1 by omega) hseg
  refine ⟨⟨hpos, ?_⟩, hids, ?_, ?_, ?_, ?_, ?_⟩
  · exact Nat.lt_of_le_of_lt hle (by omega)
  · intro a ha
    cases ha
  · intro x hx
    cases hx
  · intro k call hk
    cases hk
  · exact Nat.lt_of_le_of_lt hsle (by omega)
  · intro seg hin
    exact (le_foldl_raise (segs.map (·.segmentId)) 1).2 _ (List.mem_map_of_mem hin)

/-- **Every run keeps the invariant**, as long as no counter wraps around. -/
theorem run_inv {s s' : Callers} {moves : List Move} (h : s.Inv) (hids : ∀ m ∈ moves, m.idFits = true)
    (hroom : Runs.Along step (fun s m => s.noWrap m = true) s moves) (hrun : Runs.run step s moves = some s') :
    s'.Inv ∧ s.table.nextSegmentId ≤ s'.table.nextSegmentId := by
  have hfit : Runs.Along step (fun _ m => m.idFits = true) s moves :=
    Runs.along_of_forall _ fun _ m hm => hids m hm
  refine Runs.run_invariant (I := fun s' => s'.Inv ∧ s.table.nextSegmentId ≤ s'.table.nextSegmentId) ?_
    ⟨h, Nat.le_refl _⟩ (hfit.and hroom) hrun
  intro s1 m s2 h1 hq hs
  have ha := step_advances h1.1 hq.1 hq.2 hs
  exact ⟨h1.1.advance ha, Nat.le_trans h1.2 ha.nextSegmentId.1⟩

/-! ## Fresh ids -/

/-- A row id in use: of a base row, of a record, returned by `Insert`, or taken by one in flight. -/
def InUse (s : Callers) (x : Nat) : Prop :=
  x ∈ s.table.baseRowIds ∨ (∃ a ∈ s.table.delta, a.rowId = x) ∨ x ∈ s.returned ∨
    ∃ k txn row, Keyed.find s.calls k = some (.insert txn row x)

/-- Row ids are fresh: with no `InsertWithRowId` in flight the allocator is above every id in use,
and an `Insert` that starts then returns an id that was not in use. -/
structure Fresh (s : Callers) : Prop where
  rowIds : s.Quiet → ∀ x, s.InUse x → x < s.table.nextRowId
  insert : s.Quiet → ∀ k t row later s', (∀ m ∈ later, m.thread ≠ some k) →
    Runs.run step s (.insert k t row :: (later ++ [.append k])) = some s' →
    ∃ x, s'.returned.getLast? = some x ∧ ¬ s.InUse x

theorem Inv.fresh {s : Callers} (h : s.Inv) : s.Fresh := by
  have hrowIds : s.Quiet → ∀ x, s.InUse x → x < s.table.nextRowId := by
    intro hquiet x hx
    rcases hx with hx | ⟨a, ha, rfl⟩ | hx | ⟨k, txn, row, hk⟩
    · exact h.base x hx
    · exact (h.delta a ha).lt hquiet
    · exact h.returned x hx
    · exact h.calls k _ hk
  refine ⟨hrowIds, fun hquiet k t row later s' hlater hrun => ?_⟩
  refine ⟨s.table.nextRowId, insert_returns hlater hrun, fun hused => ?_⟩
  exact Nat.lt_irrefl _ (hrowIds hquiet _ hused)

/-- **Row ids and segment ids are fresh.**  After every run on a table that has loaded segments,
however the calls interleave, row ids are fresh and the segment counter is above every segment id
installed on the way, as long as no counter wraps around. -/
theorem row_ids_fresh (userSchema : Schema) (segs : List Segment)
    (hrows : ∀ x ∈ segs.flatMap Segment.rowIds, x < 2 ^ 64 - 1) (hsegs : ∀ seg ∈ segs, seg.segmentId < 2 ^ 64 - 1)
    (moves : List Move) (hids : ∀ m ∈ moves, m.idFits = true)
    (hroom : Runs.Along step (fun s m => s.noWrap m = true) (load userSchema segs) moves) (s : Callers)
    (hrun : Runs.run step (load userSchema segs) moves = some s) :
    s.Fresh ∧ ∀ early s0, early <+: moves → Runs.run step (load userSchema segs) early = some s0 →
      ∀ seg ∈ s0.table.baseSegments, seg.segmentId < s.table.nextSegmentId := by
  have hload : (load userSchema segs).Inv := inv_load hrows hsegs
  refine ⟨(run_inv hload hids hroom hrun).1.fresh, fun early s0 hearly hrun0 seg hseg => ?_⟩
  obtain ⟨late, rfl⟩ := hearly
  obtain ⟨hroom0, hroom1⟩ := hroom.append
  obtain ⟨s1, h1, hlate⟩ := Runs.run_append_eq_some.mp hrun
  rw [hrun0] at h1
  cases h1
  have hinv := (run_inv hload (fun m hm => hids m (List.mem_append_left _ hm)) hroom0 hrun0).1
  have hle := (run_inv hinv (fun m hm => hids m (List.mem_append_right _ hm)) (hroom1 s0 hrun0) hlate).2
  exact Nat.lt_of_lt_of_le (hinv.segments seg hseg) hle

/-- Two `InsertWithRowId` calls race: the one that brings 9 loses an exchange to the other, fails
another without a reason and succeeds at the third.  Then an `Insert`, and a `Compact`. -/
def racingRun : List Move :=
  [.txn .begin, .insertWithRowId 1 1 9 [.int64 1#64], .raise 1 false, .insertWithRowId 2 1 7 [.int64 2#64],
    .raise 2 false, .raise 2 false, .raise 1 false, .raise 1 true, .raise 1 false,
    .insert 3 1 [.int64 3#64], .append 3, .txn (.commit 1), .compact []]

theorem racingRun_fresh : ∃ s, Runs.run step (load oneColumn [oneRowSegment]) racingRun = some s ∧
    s.table.nextRowId = 11 ∧ s.returned = [10] ∧ s.table.baseRowIds = [5, 9, 7, 10] ∧
    s.table.nextSegmentId = 3 ∧ s.Fresh := by
  obtain ⟨s, hrun, hs⟩ := Runs.exists_of_any
    (o := Runs.run step (load oneColumn [oneRowSegment]) racingRun)
    (p := fun s => decide (s.table.nextRowId = 11 ∧ s.returned = [10] ∧ s.table.baseRowIds = [5, 9, 7, 10] ∧
      s.table.nextSegmentId = 3)) (by decide +kernel)
  obtain ⟨h1, h2, h3, h4⟩ := of_decide_eq_true hs
  have hroom : Runs.Along step (fun s m => s.noWrap m = true) (load oneColumn [oneRowSegment]) racingRun :=
    Runs.along_of_check (fun _ _ hq => hq) (by decide +kernel)
  exact ⟨s, hrun, h1, h2, h3, h4,
    (row_ids_fresh oneColumn [oneRowSegment] (by decide) (by decide) racingRun (by decide) hroom s hrun).1⟩

/-- The allocator at the end of the 64-bit numbers: the first `Insert` takes the last one. -/
def wrappingRun : List Move :=
  [.txn .begin, .insertWithRowId 1 1 1 [.int64 1#64], .raise 1 false, .raise 1 false,
    .insertWithRowId 1 1 (2 ^ 64 - 2) [.int64 2#64], .raise 1 false, .raise 1 false,
    .insert 1 1 [.int64 3#64], .append 1, .insert 1 1 [.int64 4#64], .append 1]

/-- `oneRowSegment` under the last segment id but one. -/
def lastSegment : Segment := { oneRowSegment with segmentId := 2 ^ 64 - 2 }

def segmentRun : List Move :=
  [.txn .begin, .insert 1 1 [.int64 3#64], .append 1, .txn (.commit 1), .compact []]

/-- **Counters wrap around.**  The `Insert` that takes 2⁶⁴ - 1 leaves the allocator at 0, so that
two calls later an `Insert` returns 1, which is in use; a `Compact` that takes segment id 2⁶⁴ - 1
leaves the counter below its segment. -/
theorem counters_wrap :
    ((∀ m ∈ wrappingRun, m.idFits = true) ∧ ∃ s, Runs.run step (load oneColumn []) wrappingRun = some s ∧
      s.Quiet ∧ s.InUse 1 ∧ (∃ s', Runs.run step s [.insert 1 1 [.int64 5#64], .append 1] = some s' ∧
        s'.returned.getLast? = some 1) ∧ ¬ s.Fresh) ∧
    ((∀ x ∈ [lastSegment].flatMap Segment.rowIds, x < 2 ^ 64 - 1) ∧ lastSegment.segmentId < 2 ^ 64 - 1 ∧
      ∃ s, Runs.run step (load oneColumn [lastSegment]) segmentRun = some s ∧
        ∃ seg ∈ s.table.baseSegments, s.table.nextSegmentId < seg.segmentId) := by
  constructor
  · obtain ⟨s, hrun, hs⟩ := Runs.exists_of_any
      (o := Runs.run step (load oneColumn []) wrappingRun)
      (p := fun s => decide (s.calls = [] ∧ s.table.nextRowId = 1 ∧ s.table.delta.any (fun a => a.rowId == 1) ∧
        (Runs.run step s [.insert 1 1 [.int64 5#64], .append 1]).isSome)) (by decide +kernel)
    obtain ⟨hcalls, hnext, hany, hsome⟩ := of_decide_eq_true hs
    obtain ⟨s', hagain⟩ := Option.isSome_iff_exists.mp hsome
    have hnobody : ∀ m ∈ ([] : List Move), m.thread ≠ some 1 := by simp
    have hreturned : s'.returned.getLast? = some 1 := by
      rw [← hnext]
      exact insert_returns hnobody hagain
    have hquiet : s.Quiet := by
      intro k x loop hk
      rw [hcalls] at hk
      cases hk
    have hused : s.InUse 1 := by
      obtain ⟨a, ha, hx⟩ := List.any_eq_true.mp hany
      exact Or.inr (Or.inl ⟨a, ha, beq_iff_eq.mp hx⟩)
    refine ⟨by decide, s, hrun, hquiet, hused, ⟨s', hagain, hreturned⟩, fun hfresh => ?_⟩
    have hlt := hfresh.rowIds hquiet 1 hused
    omega
  · obtain ⟨s, hrun, hs⟩ := Runs.exists_of_any
      (o := Runs.run step (load oneColumn [lastSegment]) segmentRun)
      (p := fun s => decide (∃ seg ∈ s.table.baseSegments, s.table.nextSegmentId < seg.segmentId))
      (by decide +kernel)
    exact ⟨by decide, by decide, s, hrun, of_decide_eq_true hs⟩

end Callers

end CoreDB
