import CoreDB.Table.RowView
import Mathlib.Data.List.Count

/-!
# Scans, row id by row id

What the base segments hold as a list of row id and row (`basePairs`), and what a
scan returns for one row id: `RowState.view` of that row's records and base copies
(`materializeKeyed_row`).  The hash containers of `MaterializeVisibleRows` are
gone after this module.
-/

namespace CoreDB

/-! ## The base -/

namespace Segment

def pairAt (seg : Segment) (r : Nat) : Nat × Row := (seg.rowIdAt r, ((seg.extractFullRow r).getD []).drop 1)

/-- The rows of a segment, each with its row id. -/
def pairs (seg : Segment) : List (Nat × Row) := (List.range seg.numRows).map seg.pairAt

/-- Every cell of the segment can be read. -/
def Readable (seg : Segment) : Prop := ∀ r < seg.numRows, ∃ full, seg.extractFullRow r = some full

theorem rowsExcept_eq (seg : Segment) (suppressed : List Nat) (h : seg.Readable) (rs : List Nat)
    (hrs : ∀ r ∈ rs, r < seg.numRows) :
    seg.rowsExcept suppressed rs =
      some ((rs.map seg.pairAt).filter fun p => !suppressed.contains p.1) := by
  induction rs with
  | nil => rfl
  | cons r rs ih =>
    have ih' := ih fun q hq => hrs q (List.mem_cons_of_mem _ hq)
    obtain ⟨full, hfull⟩ := h r (hrs r List.mem_cons_self)
    rw [rowsExcept, ih', hfull, List.map_cons, List.filter_cons]
    have hfst : (seg.pairAt r).1 = seg.rowIdAt r := rfl
    have hpair : seg.pairAt r = (seg.rowIdAt r, full.drop 1) := by simp [pairAt, hfull]
    rw [hfst]
    cases suppressed.contains (seg.rowIdAt r) with
    | true => simp
    | false => simp [hpair]

/-- Every row of a segment that a scan returns has been read from it. -/
theorem mem_rowsExcept {seg : Segment} {suppressed : List Nat} {p : Nat × Row} : ∀ {rs : List Nat}
    {rows : List (Nat × Row)}, seg.rowsExcept suppressed rs = some rows → p ∈ rows →
    ∃ r full, seg.extractFullRow r = some full ∧ p = (seg.rowIdAt r, full.drop 1)
  | [], rows, h, hp => by
    cases h
    cases hp
  | r :: rs, rows, h, hp => by
    rw [rowsExcept] at h
    split at h
    · exact mem_rowsExcept h hp
    · split at h
      · cases h
      · next full hfull =>
        obtain ⟨rest, hrest, rfl⟩ := Option.map_eq_some_iff.mp h
        rcases List.mem_cons.mp hp with rfl | hp
        · exact ⟨r, full, hfull, rfl⟩
        · exact mem_rowsExcept hrest hp

end Segment

theorem mem_collect {α : Type} {f : Segment → Option (List α)} {a : α} : ∀ {segs : List Segment} {l : List α},
    collect f segs = some l → a ∈ l → ∃ seg ∈ segs, ∃ rows, f seg = some rows ∧ a ∈ rows
  | [], l, h, ha => by
    cases h
    cases ha
  | seg :: segs, l, h, ha => by
    rw [collect] at h
    split at h
    · cases h
    · next rows hrows =>
      obtain ⟨rest, hrest, rfl⟩ := Option.map_eq_some_iff.mp h
      rcases List.mem_append.mp ha with ha | ha
      · exact ⟨seg, List.mem_cons_self, rows, hrows, ha⟩
      · obtain ⟨sg, hsg, hin⟩ := mem_collect hrest ha
        exact ⟨sg, List.mem_cons_of_mem _ hsg, hin⟩

theorem collect_eq {α : Type} (f : Segment → Option (List α)) (g : Segment → List α) (segs : List Segment)
    (h : ∀ seg ∈ segs, f seg = some (g seg)) : collect f segs = some (segs.flatMap g) := by
  induction segs with
  | nil => rfl
  | cons seg segs ih =>
    rw [collect, h seg List.mem_cons_self, ih fun s hs => h s (List.mem_cons_of_mem _ hs)]
    rfl

def basePairs (segs : List Segment) : List (Nat × Row) := segs.flatMap Segment.pairs

theorem keys_pairs (seg : Segment) : Keyed.keys seg.pairs = seg.rowIds := by
  unfold Keyed.keys Segment.pairs Segment.rowIds
  rw [List.map_map]
  rfl

theorem Table.rowIdExistsInBase_iff (t : Table) (x : Nat) : t.rowIdExistsInBase x = true ↔
    ((basePairs t.baseSegments).filter fun p => p.1 == x).map (·.2) ≠ [] := by
  unfold Table.rowIdExistsInBase basePairs
  rw [Ne, List.map_eq_nil_iff, List.filter_eq_nil_iff]
  simp only [List.any_eq_true, beq_iff_eq, List.mem_flatMap, ← keys_pairs, Keyed.keys, List.mem_map]
  constructor
  · rintro ⟨seg, hseg, y, ⟨p, hp, rfl⟩, rfl⟩ hno
    exact hno p ⟨seg, hseg, hp⟩ rfl
  · intro hno
    apply Classical.byContradiction
    intro hcon
    apply hno
    rintro p ⟨seg, hseg, hp⟩ hpx
    exact hcon ⟨seg, hseg, p.1, ⟨p, hp, rfl⟩, hpx⟩

/-! ## The delta loop of a scan -/

/-- The record is a version the reader can see. -/
def DeltaRecord.shows (m : TransactionManager) (r : Transaction) (a : DeltaRecord) : Bool :=
  !a.isBaseTombstone && isVisible a r m

/-- The record is a tombstone the reader can see. -/
def DeltaRecord.hides (m : TransactionManager) (r : Transaction) (a : DeltaRecord) : Bool :=
  a.isBaseTombstone && m.sees r a.deletedTxn

theorem Merge.record_eq (m : TransactionManager) (r : Transaction) (acc : Merge) (a : DeltaRecord) :
    Merge.record m r acc a =
      { fromDelta := if a.shows m r then Keyed.put acc.fromDelta a.rowId a.row else acc.fromDelta
        suppressBase := if a.shows m r || a.hides m r then a.rowId :: acc.suppressBase else acc.suppressBase } := by
  have hdel : (if a.deletedTxn = r.txnId then true else (m.getStatus a.deletedTxn).committedBy r.snapshotTs) =
      m.sees r a.deletedTxn := by
    unfold TransactionManager.sees
    by_cases h : a.deletedTxn = r.txnId <;> simp [h]
  unfold Merge.record DeltaRecord.shows DeltaRecord.hides
  simp only [hdel]
  cases a.isBaseTombstone with
  | true => cases m.sees r a.deletedTxn <;> simp
  | false => cases isVisible a r m <;> simp

/-- What the delta loop has gathered: the last visible version of each row, and the
rows whose base copies are hidden. -/
theorem mergeDelta_spec (m : TransactionManager) (r : Transaction) (records : List DeltaRecord) :
    (Keyed.keys (mergeDelta m r records).fromDelta).Nodup ∧
    (∀ x, Keyed.find (mergeDelta m r records).fromDelta x =
      ((records.filter fun a => a.rowId == x && a.shows m r).getLast?).map (·.row)) ∧
    (∀ x, x ∈ (mergeDelta m r records).suppressBase ↔
      ∃ a ∈ records, a.rowId = x ∧ (a.shows m r || a.hides m r) = true) := by
  unfold mergeDelta
  induction records using List.reverseRecOn with
  | nil => simp [Keyed.keys]
  | append_singleton l a ih =>
    obtain ⟨ih1, ih2, ih3⟩ := ih
    rw [List.foldl_append, List.foldl_cons, List.foldl_nil, Merge.record_eq]
    refine ⟨?_, fun x => ?_, fun x => ?_⟩
    · cases a.shows m r with
      | true => exact Keyed.keys_put_nodup _ _ ih1
      | false => exact ih1
    · rw [List.filter_append]
      cases hs : a.shows m r with
      | false => simp [hs, ih2]
      | true =>
        simp only [if_true, Keyed.find_put]
        by_cases hx : x = a.rowId
        · simp [hx, hs]
        · simp [hx, Ne.symm hx, ih2]
    · simp only [List.mem_append, List.mem_singleton]
      cases hs : (a.shows m r || a.hides m r) with
      | true =>
        rw [if_pos rfl, List.mem_cons, ih3]
        constructor
        · rintro (rfl | ⟨d, hd, hdx, hds⟩)
          · exact ⟨a, Or.inr rfl, rfl, hs⟩
          · exact ⟨d, Or.inl hd, hdx, hds⟩
        · rintro ⟨d, hd | rfl, hdx, hds⟩
          · exact Or.inr ⟨d, hd, hdx, hds⟩
          · exact Or.inl hdx.symm
      | false =>
        rw [if_neg (by simp), ih3]
        constructor
        · rintro ⟨d, hd, hdx, hds⟩
          exact ⟨d, Or.inl hd, hdx, hds⟩
        · rintro ⟨d, hd | rfl, hdx, hds⟩
          · exact ⟨d, hd, hdx, hds⟩
          · rw [hs] at hds; cases hds

/-! ## One row id of a scan -/

/-- The row `x` of a list of records and base rows; its history is left out. -/
def rowOf (records : List DeltaRecord) (base : List (Nat × Row)) (hist : List (Nat × Write)) (x : Nat) :
    RowState where
  records := records.filter fun a => a.rowId == x
  hist := hist
  base := (base.filter fun p => p.1 == x).map (·.2)

theorem materializeKeyed_eq (m : TransactionManager) (s : ScanSnapshot)
    (h : ∀ seg ∈ s.segments, seg.Readable) :
    materializeKeyed m s = some ((mergeDelta m s.reader s.deltaRecords).fromDelta ++
      (basePairs s.segments).filter fun p => !(mergeDelta m s.reader s.deltaRecords).suppressBase.contains p.1) := by
  unfold materializeKeyed
  simp only
  rw [collect_eq _ (fun seg => seg.pairs.filter fun p =>
    !(mergeDelta m s.reader s.deltaRecords).suppressBase.contains p.1)]
  · rw [basePairs, List.filter_flatMap]
    rfl
  · intro seg hseg
    exact seg.rowsExcept_eq _ (h seg hseg) _ fun r hr => List.mem_range.mp hr

/-- What a scan returns is in the delta or has been read from a segment. -/
theorem mem_materializeKeyed {m : TransactionManager} {s : ScanSnapshot} {rows : List (Nat × Row)} {p : Nat × Row}
    (h : materializeKeyed m s = some rows) (hp : p ∈ rows) :
    (∃ a ∈ s.deltaRecords, a.rowId = p.1 ∧ a.shows m s.reader = true) ∨
      ∃ seg ∈ s.segments, ∃ r full, seg.extractFullRow r = some full ∧ p = (seg.rowIdAt r, full.drop 1) := by
  obtain ⟨base, hbase, rfl⟩ := Option.map_eq_some_iff.mp h
  rcases List.mem_append.mp hp with hp | hp
  · obtain ⟨hnodup, hfind, -⟩ := mergeDelta_spec m s.reader s.deltaRecords
    have hf := hfind p.1
    rw [Keyed.find_of_mem hnodup (show (p.1, p.2) ∈ _ from hp)] at hf
    obtain ⟨a, ha, -⟩ := Option.map_eq_some_iff.mp hf.symm
    obtain ⟨ha, hshows⟩ := List.mem_filter.mp (List.mem_of_getLast? ha)
    simp only [Bool.and_eq_true, beq_iff_eq] at hshows
    exact Or.inl ⟨a, ha, hshows⟩
  · obtain ⟨seg, hseg, l, hl, hin⟩ := mem_collect hbase hp
    exact Or.inr ⟨seg, hseg, Segment.mem_rowsExcept hl hin⟩

theorem view_rowOf (m : TransactionManager) (r : Transaction) (records : List DeltaRecord)
    (base : List (Nat × Row)) (hist : List (Nat × Write)) (x : Nat) :
    (rowOf records base hist x).view m r =
      match ((records.filter fun a => a.rowId == x && a.shows m r).getLast?) with
      | some a => [a.row]
      | none => if records.any fun a => a.rowId == x && a.hides m r then []
        else (base.filter fun p => p.1 == x).map (·.2) := by
  have hshows : (rowOf records base hist x).visibleVersions m r =
      records.filter fun a => a.rowId == x && a.shows m r := by
    show (records.filter fun a => a.rowId == x).filter (fun a => a.shows m r) = _
    rw [List.filter_filter]
    exact List.filter_congr fun a _ => Bool.and_comm _ _
  have hhides : (rowOf records base hist x).hidden m r = records.any fun a => a.rowId == x && a.hides m r := by
    show (records.filter fun a => a.rowId == x).any (fun a => a.hides m r) = _
    rw [List.any_filter]
  unfold RowState.view
  rw [hshows, hhides]
  rfl

/-- Of a suppressed row the base copies are left out. -/
theorem filter_suppressed {base : List (Nat × Row)} {suppressed : List Nat} {x : Nat} {hid : Bool}
    (hiff : x ∈ suppressed ↔ hid = true) :
    (base.filter fun p => !suppressed.contains p.1).filter (fun p => p.1 == x) =
      if hid then [] else base.filter fun p => p.1 == x := by
  rw [List.filter_filter]
  cases hid with
  | true =>
    rw [if_pos rfl, List.filter_eq_nil_iff]
    rintro p - hp
    simp only [Bool.and_eq_true, beq_iff_eq, Bool.not_eq_true', List.contains_eq_mem,
      decide_eq_false_iff_not] at hp
    rw [hp.1] at hp
    exact hp.2 (hiff.mpr rfl)
  | false =>
    rw [if_neg (by simp)]
    apply List.filter_congr
    intro p _
    by_cases hp : p.1 = x
    · have hno : ¬ x ∈ suppressed := fun hx => by cases hiff.mp hx
      simp [hp, hno]
    · simp [hp]

/-- **A scan returns, for each row id, the view of that row.** -/
theorem materializeKeyed_row (m : TransactionManager) (s : ScanSnapshot)
    (h : ∀ seg ∈ s.segments, seg.Readable) (hist : List (Nat × Write)) :
    ∃ rows, materializeKeyed m s = some rows ∧ ∀ x, rows.filter (fun p => p.1 == x) =
      ((rowOf s.deltaRecords (basePairs s.segments) hist x).view m s.reader).map fun row => (x, row) := by
  refine ⟨_, materializeKeyed_eq m s h, fun x => ?_⟩
  obtain ⟨hnodup, hfind, hsup⟩ := mergeDelta_spec m s.reader s.deltaRecords
  rw [List.filter_append, Keyed.filter_key hnodup, hfind, view_rowOf]
  cases hlast : (s.deltaRecords.filter fun a => a.rowId == x && a.shows m s.reader).getLast? with
  | some a =>
    obtain ⟨ha, hax⟩ := List.mem_filter.mp (List.mem_of_getLast? hlast)
    simp only [Bool.and_eq_true, beq_iff_eq] at hax
    have hiff : x ∈ (mergeDelta m s.reader s.deltaRecords).suppressBase ↔ true = true :=
      ⟨fun _ => rfl, fun _ => (hsup x).mpr ⟨a, ha, hax.1, by simp [hax.2]⟩⟩
    rw [filter_suppressed hiff]
    rfl
  | none =>
    rw [List.getLast?_eq_none_iff, List.filter_eq_nil_iff] at hlast
    have hiff : x ∈ (mergeDelta m s.reader s.deltaRecords).suppressBase ↔
        (s.deltaRecords.any fun a => a.rowId == x && a.hides m s.reader) = true := by
      rw [hsup, List.any_eq_true]
      constructor
      · rintro ⟨a, ha, hax, hs⟩
        refine ⟨a, ha, ?_⟩
        have hns := hlast a ha
        simp only [hax, beq_self_eq_true, Bool.true_and] at hns ⊢
        simpa [hns] using hs
      · rintro ⟨a, ha, hax⟩
        simp only [Bool.and_eq_true, beq_iff_eq] at hax
        exact ⟨a, ha, hax.1, by simp [hax.2]⟩
    rw [filter_suppressed hiff]
    cases s.deltaRecords.any fun a => a.rowId == x && a.hides m s.reader with
    | true => rfl
    | false =>
      simp only [Option.map_none, Option.toList_none, List.map_nil, List.nil_append, Bool.false_eq_true, if_false]
      rw [List.map_map]
      exact (Keyed.map_filter_key (basePairs s.segments) x).symm

/-- Which rows a scan returns. -/
theorem materializeKeyed_mem (m : TransactionManager) (s : ScanSnapshot)
    (h : ∀ seg ∈ s.segments, seg.Readable) (hist : List (Nat × Write)) :
    ∃ rows, materializeKeyed m s = some rows ∧ ∀ x row, (x, row) ∈ rows ↔
      row ∈ (rowOf s.deltaRecords (basePairs s.segments) hist x).view m s.reader := by
  obtain ⟨rows, hrows, hview⟩ := materializeKeyed_row m s h hist
  refine ⟨rows, hrows, fun x row => ?_⟩
  have hiff : (x, row) ∈ rows ↔ (x, row) ∈ rows.filter fun p => p.1 == x := by simp [List.mem_filter]
  rw [hiff, hview x]
  simp

end CoreDB
