import CoreDB.Table.Scan

/-!
# `Compact`, row id by row id

`compactUnder_spec`, `Rewritten.row`: on a table whose rows conform to the schema,
`Compact` returns and does to each row what `RowState.compacted` says, with the
actions of that row's records; the record a row's `head_index` names is its last one,
so the actions are `Judged`.  The rebuilt segment holds exactly the rows it was built
from.
-/

namespace CoreDB

/-! ## Heads -/

def setHead (m : Nat → Nat) (p : DeltaRecord × Nat) : Nat → Nat := Function.update m p.1.rowId p.2

theorem foldl_setHead_of_not_mem (l : List DeltaRecord) (k x : Nat) (m : Nat → Nat)
    (h : ∀ a ∈ l, a.rowId ≠ x) : (l.zipIdx k).foldl setHead m x = m x := by
  induction l generalizing k m with
  | nil => rfl
  | cons a l ih =>
    rw [List.zipIdx_cons, List.foldl_cons, ih _ _ fun b hb => h b (List.mem_cons_of_mem _ hb)]
    exact Function.update_of_ne (Ne.symm (h a List.mem_cons_self)) _ _

theorem le_foldl_setHead (l : List DeltaRecord) (k x : Nat) (m : Nat → Nat) (h : ∃ a ∈ l, a.rowId = x) :
    k ≤ (l.zipIdx k).foldl setHead m x := by
  induction l generalizing k m with
  | nil => obtain ⟨a, ha, -⟩ := h; cases ha
  | cons a l ih =>
    rw [List.zipIdx_cons, List.foldl_cons]
    by_cases hl : ∃ b ∈ l, b.rowId = x
    · exact Nat.le_of_succ_le (ih (k + 1) _ hl)
    · have hno : ∀ b ∈ l, b.rowId ≠ x := fun b hb hbx => hl ⟨b, hb, hbx⟩
      obtain ⟨b, hb, hbx⟩ := h
      rcases List.mem_cons.mp hb with rfl | hb
      · rw [foldl_setHead_of_not_mem l _ x _ hno]
        unfold setHead
        rw [← hbx, Function.update_self]
      · exact absurd hbx (hno b hb)

/-- A record is its row's head exactly if no later record has its row id. -/
theorem headIndex_eq_iff (l1 l2 : List DeltaRecord) (a : DeltaRecord) :
    headIndex (l1 ++ a :: l2) a.rowId = l1.length ↔ ∀ b ∈ l2, b.rowId ≠ a.rowId := by
  have hfold : headIndex (l1 ++ a :: l2) a.rowId =
      (l2.zipIdx (l1.length + 1)).foldl setHead (setHead ((l1.zipIdx 0).foldl setHead fun _ => 0) (a, l1.length))
        a.rowId := by
    unfold headIndex
    rw [List.zipIdx_append, List.foldl_append, List.zipIdx_cons, List.foldl_cons]
    simp only [Nat.zero_add]
    rfl
  rw [hfold]
  constructor
  · intro heq b hb hbx
    have := le_foldl_setHead l2 (l1.length + 1) a.rowId
      (setHead ((l1.zipIdx 0).foldl setHead fun _ => 0) (a, l1.length)) ⟨b, hb, hbx⟩
    omega
  · intro hno
    rw [foldl_setHead_of_not_mem l2 _ _ _ hno]
    exact Function.update_self ..

/-! ## The actions of one row -/

/-- The records of row `x`, each with its action. -/
def actsOf (obs : Nat → TransactionManager) (oldestActive : Nat) (snapshot : List DeltaRecord) (x : Nat) :
    List (DeltaRecord × Action) :=
  (classified obs oldestActive snapshot).filter fun p => p.1.rowId == x

section
variable (obs : Nat → TransactionManager) (oldestActive : Nat) (snapshot : List DeltaRecord)

theorem map_fst_classified : (classified obs oldestActive snapshot).map (·.1) = snapshot := by
  unfold classified
  rw [List.map_map]
  exact List.zipIdx_map_fst 0 snapshot

theorem map_fst_actsOf (x : Nat) :
    (actsOf obs oldestActive snapshot x).map (·.1) = snapshot.filter fun a => a.rowId == x := by
  unfold actsOf
  rw [← map_fst_classified obs oldestActive snapshot, List.filter_map, map_fst_classified]
  rfl

variable {obs oldestActive snapshot}

theorem classified_split {A B : List (DeltaRecord × Action)} {p : DeltaRecord × Action}
    (h : classified obs oldestActive snapshot = A ++ p :: B) :
    ∃ k isHead, p.2 = classify obs oldestActive isHead k p.1 ∧
      (isHead = true ↔ ∀ q ∈ B, q.1.rowId ≠ p.1.rowId) := by
  have hfst := map_fst_classified obs oldestActive snapshot
  rw [h, List.map_append, List.map_cons] at hfst
  have hlen : (A.map (·.1)).length = A.length := List.length_map _
  have hget : (classified obs oldestActive snapshot)[A.length]? = some p := by rw [h]; simp
  unfold classified at hget
  rw [List.getElem?_map, List.getElem?_zipIdx] at hget
  have hrec : snapshot[A.length]? = some p.1 := by rw [← hfst, ← hlen]; simp
  rw [hrec] at hget
  simp only [Option.map_some, Option.some.injEq, Nat.zero_add] at hget
  refine ⟨3 * A.length, headIndex snapshot p.1.rowId == A.length, by rw [← hget], ?_⟩
  rw [beq_iff_eq, ← hfst, ← hlen, headIndex_eq_iff]
  simp

end

theorem judged_actsOf {c c' : Clients} {obs : Nat → TransactionManager} (hc : c.Inv) (hc' : c'.Inv)
    (hw : Window c c' obs) {snapshot : List DeltaRecord}
    (hok : ∀ a ∈ snapshot, RowState.RecordOk c a) (x : Nat) :
    Judged c c' (actsOf obs c.mgr.oldestActiveSnapshot snapshot x) := by
  intro older p newer hsplit
  unfold actsOf at hsplit
  obtain ⟨A', B', hAB, -, hB⟩ := List.filter_eq_append_iff.mp hsplit
  obtain ⟨A, B, hB', hA, hp, hnewer⟩ := List.filter_eq_cons_iff.mp hB
  rw [hB', ← List.append_assoc] at hAB
  obtain ⟨k, isHead, hact, hhead⟩ := classified_split hAB
  have hpx : p.1.rowId = x := by simpa using hp
  have hmem : p.1 ∈ snapshot := by
    rw [← map_fst_classified obs c.mgr.oldestActiveSnapshot snapshot, hAB]
    simp
  have hempty : newer.isEmpty = isHead := by
    rw [Bool.eq_iff_iff, List.isEmpty_iff, hhead, ← hnewer, List.filter_eq_nil_iff, hpx]
    simp
  rw [hempty, hact]
  exact classify_verdict hc hc' hw isHead k p.1 (hok p.1 hmem)

/-! ## The record loop -/

/-- The record loop over records whose actions are known. -/
def gather (acts : List (DeltaRecord × Action)) : CompactState :=
  acts.foldl (fun st p => st.record p.1 p.2) {}

theorem gather_concat (acts : List (DeltaRecord × Action)) (p : DeltaRecord × Action) :
    gather (acts ++ [p]) = (gather acts).record p.1 p.2 := by
  unfold gather
  rw [List.foldl_append]
  rfl

theorem gather_retained (acts : List (DeltaRecord × Action)) :
    (gather acts).retained = (acts.filter fun p => p.2 == .retain).map (·.1) := by
  induction acts using List.reverseRecOn with
  | nil => rfl
  | append_singleton l p ih =>
    rw [gather_concat, List.filter_append, List.map_append, ← ih]
    cases hp : p.2 <;> simp [CompactState.record, hp]

theorem mem_gather_purged (acts : List (DeltaRecord × Action)) (x : Nat) :
    x ∈ (gather acts).stablyDeletedRowIds ↔ ∃ p ∈ acts, p.1.rowId = x ∧ p.2 = .purge := by
  induction acts using List.reverseRecOn with
  | nil => simp [gather]
  | append_singleton l p ih =>
    rw [gather_concat]
    simp only [List.mem_append, List.mem_singleton, or_and_right, exists_or, exists_eq_left, ← ih]
    cases hp : p.2 <;> simp [CompactState.record]
    rw [or_comm, eq_comm]

theorem gather_promoted (acts : List (DeltaRecord × Action)) :
    (Keyed.keys (gather acts).liveStableRows).Nodup ∧
    (gather acts).liveStableRows.length ≤ acts.length ∧
    ∀ x, Keyed.find (gather acts).liveStableRows x =
      ((acts.filter fun p => p.1.rowId == x && p.2 == .promote).getLast?).map (·.1.row) := by
  induction acts using List.reverseRecOn with
  | nil => simp [gather, Keyed.keys]
  | append_singleton l p ih =>
    obtain ⟨ih1, ih2, ih3⟩ := ih
    rw [gather_concat]
    by_cases hp : p.2 = .promote
    · simp only [CompactState.record, hp]
      refine ⟨Keyed.keys_put_nodup _ _ ih1, ?_, fun x => ?_⟩
      · have hle := List.length_filter_le (fun q => decide (q.1 ≠ p.1.rowId)) (gather l).liveStableRows
        simp only [Keyed.put, Keyed.erase, List.length_append, List.length_singleton]
        omega
      · rw [Keyed.find_put, List.filter_append]
        by_cases hx : x = p.1.rowId
        · simp [hx, hp]
        · simp [hx, Ne.symm hx, ih3]
    · have hsame : ((gather l).record p.1 p.2).liveStableRows = (gather l).liveStableRows := by
        cases hact : p.2 <;> simp [CompactState.record, hact] at hp ⊢
      rw [hsame]
      refine ⟨ih1, by simp; omega, fun x => ?_⟩
      rw [List.filter_append, ih3]
      simp [hp]

/-- A promoted row stems from a record. -/
theorem exists_promoted {acts : List (DeltaRecord × Action)} {p : Nat × Row}
    (hp : p ∈ (gather acts).liveStableRows) : ∃ q ∈ acts, q.2 = .promote ∧ q.1.rowId = p.1 ∧ q.1.row = p.2 := by
  obtain ⟨hnodup, -, hfind⟩ := gather_promoted acts
  have hf := hfind p.1
  rw [Keyed.find_of_mem hnodup (show (p.1, p.2) ∈ _ from hp)] at hf
  obtain ⟨q, hq, hrow⟩ := Option.map_eq_some_iff.mp hf.symm
  obtain ⟨hq, hpr⟩ := List.mem_filter.mp (List.mem_of_getLast? hq)
  simp only [Bool.and_eq_true, beq_iff_eq] at hpr
  exact ⟨q, hq, hpr.2, hpr.1, hrow⟩

/-! ## Rebuilding the base -/

/-- The row as it is stored, its id in front. -/
def fullRow (p : Nat × Row) : Row := .int64 (BitVec.ofNat 64 p.1) :: p.2

/-- A segment as `Compact` builds it: every row has its id in front and conforms. -/
structure Segment.Sound (userSchema : Schema) (seg : Segment) : Prop where
  wellFormed : seg.WellFormed (fullSchemaOf userSchema)
  rows : ∀ r < seg.numRows, seg.extractFullRow r = some (fullRow (seg.pairAt r)) ∧
    rowConforms userSchema (seg.pairAt r).2 = true ∧ seg.rowIdAt r < 2 ^ 64

structure Table.Sound (t : Table) : Prop where
  base : ∀ seg ∈ t.baseSegments, seg.Sound t.userSchema
  delta : ∀ a ∈ t.delta, a.isBaseTombstone = false → rowConforms t.userSchema a.row = true

namespace Segment

theorem Sound.readable {userSchema : Schema} {seg : Segment} (h : seg.Sound userSchema) : seg.Readable :=
  fun r hr => ⟨_, (h.rows r hr).1⟩

theorem fullRowsExcept_eq {userSchema : Schema} {seg : Segment} (h : seg.Sound userSchema) (purged : List Nat)
    (rs : List Nat) (hrs : ∀ r ∈ rs, r < seg.numRows) :
    seg.fullRowsExcept purged rs =
      some (((rs.map seg.pairAt).filter fun p => !purged.contains p.1).map fullRow) := by
  induction rs with
  | nil => rfl
  | cons r rs ih =>
    have ih' := ih fun q hq => hrs q (List.mem_cons_of_mem _ hq)
    rw [fullRowsExcept, ih', (h.rows r (hrs r List.mem_cons_self)).1, List.map_cons, List.filter_cons]
    have hfst : (seg.pairAt r).1 = seg.rowIdAt r := rfl
    rw [hfst]
    cases purged.contains (seg.rowIdAt r) with
    | true => simp
    | false => simp

/-- The row-id column read as numbers agrees with the first cell of the row. -/
theorem rowIdAt_of_extract {userSchema : Schema} {seg : Segment} (h : seg.WellFormed (fullSchemaOf userSchema))
    {r : Nat} {id : BitVec 64} {row : Row} (hx : seg.extractFullRow r = some (.int64 id :: row)) :
    seg.rowIdAt r = id.toNat := by
  obtain ⟨-, hcols⟩ := h
  unfold fullSchemaOf at hcols
  unfold extractFullRow at hx
  cases hcol : seg.columns with
  | nil => rw [hcol] at hcols; cases hcols
  | cons col cols =>
    rw [hcol] at hcols hx
    cases hcols with
    | cons hcol0 _ =>
      have htype : col.type = .int64 := hcol0.shape.type
      rw [cellsAt] at hx
      have hv : col.valueAt r = some (.int64 id) := by
        cases hval : col.valueAt r with
        | none => rw [hval] at hx; simp at hx
        | some v =>
          rw [hval] at hx
          cases hrest : cellsAt r cols with
          | none => rw [hrest] at hx; simp at hx
          | some vs =>
            rw [hrest] at hx
            simp only [Option.map_some, Option.some.injEq, List.cons.injEq] at hx
            rw [hx.1]
      unfold Column.valueAt at hv
      rw [htype] at hv
      split at hv
      · simp only [Option.some.injEq, Value.int64.injEq] at hv
        simp only [rowIdAt, hcol, List.headD_cons, hv]
      · simp at hv

/-- **A rebuilt segment holds what it was built from.** -/
theorem build_pairs (segmentId : Nat) (userSchema : Schema) (ps : List (Nat × Row)) (hbig : ps.length < 2 ^ 32)
    (hconf : ∀ p ∈ ps, rowConforms userSchema p.2 = true) (hids : ∀ p ∈ ps, p.1 < 2 ^ 64) :
    ∃ seg, build segmentId (fullSchemaOf userSchema) (ps.map fullRow) = some seg ∧
      seg.Sound userSchema ∧ seg.pairs = ps ∧ seg.numRows = ps.length ∧ seg.segmentId = segmentId := by
  have hfull : ∀ row ∈ ps.map fullRow, rowConforms (fullSchemaOf userSchema) row = true := by
    intro row hrow
    obtain ⟨p, hp, rfl⟩ := List.mem_map.mp hrow
    simp [fullRow, fullSchemaOf, rowConforms, Value.conforms, hconf p hp]
  obtain ⟨seg, hseg, hid, hn, hwf, hrows⟩ := build_spec segmentId _ _ (by simpa using hbig) hfull
  rw [List.length_map] at hn
  have hpair : ∀ r (hr : r < ps.length), seg.pairAt r = ps[r] ∧ seg.extractFullRow r = some (fullRow ps[r]) := by
    intro r hr
    have hx := hrows r (by simpa using hr)
    rw [List.getElem_map] at hx
    refine ⟨?_, hx⟩
    have hrid := rowIdAt_of_extract hwf (show seg.extractFullRow r = some (.int64 _ :: _) from hx)
    rw [BitVec.toNat_ofNat, Nat.mod_eq_of_lt (hids _ (List.getElem_mem hr))] at hrid
    simp [pairAt, hrid, hx, fullRow]
  refine ⟨seg, hseg, ⟨hwf, fun r hr => ?_⟩, ?_, hn, hid⟩
  · rw [hn] at hr
    obtain ⟨hp, hx⟩ := hpair r hr
    have hmem := List.getElem_mem hr
    refine ⟨by rw [hp]; exact hx, by rw [hp]; exact hconf _ hmem, ?_⟩
    have hfst : seg.rowIdAt r = (seg.pairAt r).1 := rfl
    rw [hfst, hp]
    exact hids _ hmem
  · unfold pairs
    rw [hn]
    apply List.ext_getElem (by simp)
    intro r h1 h2
    simp only [List.getElem_map, List.getElem_range]
    exact (hpair r h2).1

end Segment

/-! ## The whole step -/

/-- What the base holds once the purged rows are gone and the promoted ones added. -/
def CompactState.rebase (st : CompactState) (base : List (Nat × Row)) : List (Nat × Row) :=
  (base.filter fun p => !st.stablyDeletedRowIds.contains p.1) ++ st.liveStableRows

namespace Table

/-- What a table is after `Compact` with the outcome `st` of the record loop. -/
structure CompactedTo (t t' : Table) (st : CompactState) : Prop where
  delta : t'.delta = st.retained
  base : basePairs t'.baseSegments = st.rebase (basePairs t.baseSegments)
  sound : t'.Sound
  userSchema : t'.userSchema = t.userSchema
  txnMgr : t'.txnMgr = t.txnMgr
  nextRowId : t'.nextRowId = t.nextRowId

/-- What `Compact` does to the delta and the base, whatever is in the delta. -/
structure Rewritten (t t' : Table) (st : CompactState) : Prop where
  delta : t'.delta = st.retained
  base : basePairs t'.baseSegments = st.rebase (basePairs t.baseSegments)
  segments : ∀ seg ∈ t'.baseSegments, seg.Sound t.userSchema
  userSchema : t'.userSchema = t.userSchema
  txnMgr : t'.txnMgr = t.txnMgr
  nextRowId : t'.nextRowId = t.nextRowId

theorem mergedRows_eq {t : Table} (h : ∀ seg ∈ t.baseSegments, seg.Sound t.userSchema) (st : CompactState) :
    t.mergedRows st = some ((st.rebase (basePairs t.baseSegments)).map fullRow) := by
  unfold mergedRows
  rw [collect_eq _ (fun seg => (seg.pairs.filter fun p => !st.stablyDeletedRowIds.contains p.1).map fullRow)]
  · simp only [Option.map_some, CompactState.rebase, List.map_append, basePairs, List.filter_flatMap,
      List.map_flatMap]
    rfl
  · intro seg hseg
    exact Segment.fullRowsExcept_eq (h seg hseg) _ _ fun r hr => List.mem_range.mp hr

theorem mem_basePairs {t : Table} (h : ∀ seg ∈ t.baseSegments, seg.Sound t.userSchema) {p : Nat × Row}
    (hp : p ∈ basePairs t.baseSegments) :
    rowConforms t.userSchema p.2 = true ∧ p.1 < 2 ^ 64 := by
  obtain ⟨seg, hseg, hp⟩ := List.mem_flatMap.mp hp
  obtain ⟨r, hr, rfl⟩ := List.mem_map.mp hp
  exact ((h seg hseg).rows r (List.mem_range.mp hr)).2

section
variable {t : Table} (h : t.Sound) {acts : List (DeltaRecord × Action)} (hfst : acts.map (·.1) = t.delta)
include h hfst

omit h in
theorem mem_delta_of_retained {a : DeltaRecord} (ha : a ∈ (gather acts).retained) : a ∈ t.delta := by
  rw [gather_retained] at ha
  obtain ⟨p, hp, rfl⟩ := List.mem_map.mp ha
  rw [← hfst]
  exact List.mem_map_of_mem (List.mem_of_mem_filter hp)

variable (hids : ∀ a ∈ t.delta, a.rowId < 2 ^ 64)
  (hver : ∀ p ∈ acts, p.2 = .promote → p.1.isBaseTombstone = false)
include hids hver

/-- A promoted row conforms, and its id fits a column. -/
theorem mem_liveStableRows {p : Nat × Row} (hp : p ∈ (gather acts).liveStableRows) :
    rowConforms t.userSchema p.2 = true ∧ p.1 < 2 ^ 64 := by
  obtain ⟨q, hq, hact, hid, hrow⟩ := exists_promoted hp
  have hmem : q.1 ∈ t.delta := by
    rw [← hfst]
    exact List.mem_map_of_mem hq
  refine ⟨?_, by rw [← hid]; exact hids q.1 hmem⟩
  rw [← hrow]
  exact h.delta q.1 hmem (hver q hq hact)

omit h hids hver in
theorem length_rebase_le : ((gather acts).rebase (basePairs t.baseSegments)).length ≤
    (basePairs t.baseSegments).length + t.delta.length := by
  have hle := List.length_filter_le (fun p : Nat × Row => !(gather acts).stablyDeletedRowIds.contains p.1)
    (basePairs t.baseSegments)
  have hlen := (gather_promoted acts).2.1
  rw [← hfst, List.length_map]
  simp only [CompactState.rebase, List.length_append]
  omega

end

/-- **`Compact` returns** if the base and the rows it promotes conform. -/
theorem compactUnder_rewrites {t : Table} (h : ∀ seg ∈ t.baseSegments, seg.Sound t.userSchema)
    (obs : Nat → TransactionManager)
    (hlive : ∀ p ∈ (compactLoop obs t.txnMgr.oldestActiveSnapshot t.delta).liveStableRows,
      rowConforms t.userSchema p.2 = true ∧ p.1 < 2 ^ 64)
    (hsmall : (basePairs t.baseSegments).length + t.delta.length < 2 ^ 32) :
    ∃ t', t.compactUnder obs = some t' ∧
      t.Rewritten t' (compactLoop obs t.txnMgr.oldestActiveSnapshot t.delta) := by
  have hlen : ((compactLoop obs t.txnMgr.oldestActiveSnapshot t.delta).rebase (basePairs t.baseSegments)).length ≤
      (basePairs t.baseSegments).length + t.delta.length :=
    length_rebase_le (map_fst_classified obs t.txnMgr.oldestActiveSnapshot t.delta)
  unfold compactUnder
  simp only
  generalize compactLoop obs t.txnMgr.oldestActiveSnapshot t.delta = st at hlive hlen ⊢
  have hrows : ∀ p ∈ st.rebase (basePairs t.baseSegments), rowConforms t.userSchema p.2 = true ∧ p.1 < 2 ^ 64 := by
    intro p hp
    rcases List.mem_append.mp hp with hp | hp
    · exact mem_basePairs h (List.mem_of_mem_filter hp)
    · exact hlive p hp
  split
  · obtain ⟨seg, hseg, hsound, hpairs, -, -⟩ := Segment.build_pairs t.nextSegmentId t.userSchema _
      (Nat.lt_of_le_of_lt hlen hsmall) (fun p hp => (hrows p hp).1) (fun p hp => (hrows p hp).2)
    rw [mergedRows_eq h, fullSchema]
    simp only [hseg, Option.map_some, Option.some.injEq, exists_eq_left']
    refine ⟨rfl, by simp [basePairs, hpairs], fun sg hsg => ?_, rfl, rfl, rfl⟩
    rw [List.mem_singleton.mp hsg]
    exact hsound
  · next hnone =>
    -- nothing to purge or promote: the old segments stay
    obtain ⟨h1, h2⟩ := not_or.mp hnone
    have h1 := Classical.not_not.mp h1
    have h2 := Classical.not_not.mp h2
    simp only [Option.some.injEq, exists_eq_left']
    refine ⟨rfl, ?_, h, rfl, rfl, rfl⟩
    simp [CompactState.rebase, h1, h2]

/-- So it does on a table of conforming rows, which stays one. -/
theorem compactUnder_spec {t : Table} (h : t.Sound) (obs : Nat → TransactionManager)
    (hids : ∀ a ∈ t.delta, a.rowId < 2 ^ 64)
    (hsmall : (basePairs t.baseSegments).length + t.delta.length < 2 ^ 32)
    (hver : ∀ p ∈ classified obs t.txnMgr.oldestActiveSnapshot t.delta, p.2 = .promote →
      p.1.isBaseTombstone = false) :
    ∃ t', t.compactUnder obs = some t' ∧
      t.CompactedTo t' (compactLoop obs t.txnMgr.oldestActiveSnapshot t.delta) := by
  have hfst := map_fst_classified obs t.txnMgr.oldestActiveSnapshot t.delta
  obtain ⟨t', ht', hto⟩ := compactUnder_rewrites h.base obs
    (fun p hp => mem_liveStableRows h hfst hids hver hp) hsmall
  refine ⟨t', ht', hto.delta, hto.base, ⟨?_, fun a ha => ?_⟩, hto.userSchema, hto.txnMgr, hto.nextRowId⟩
  · rw [hto.userSchema]
    exact hto.segments
  · rw [hto.delta] at ha
    rw [hto.userSchema]
    exact h.delta a (mem_delta_of_retained hfst ha)

theorem CompactedTo.rewritten {t t' : Table} {st : CompactState} (h : t.CompactedTo t' st) : t.Rewritten t' st where
  delta := h.delta
  base := h.base
  segments := h.userSchema ▸ h.sound.base
  userSchema := h.userSchema
  txnMgr := h.txnMgr
  nextRowId := h.nextRowId

end Table

theorem Judged.promoted {c c' : Clients} {acts : List (DeltaRecord × Action)} (hj : Judged c c' acts) :
    ((acts.filter fun p => p.2 == .promote).getLast?.map (·.1.row)).toList =
      (acts.filter fun p => p.2 == .promote).map (·.1.row) := by
  rcases List.eq_nil_or_concat acts with rfl | ⟨init, ⟨hd, act⟩, rfl⟩
  · rfl
  · rw [List.concat_eq_append] at hj ⊢
    rw [List.filter_append, hj.older_promoted]
    by_cases hact : act = .promote <;> simp [hact]

/-- **One row of `Compact`.** -/
theorem Table.Rewritten.row {c c' : Clients} {t t' : Table} {obs : Nat → TransactionManager} {ts : Nat}
    (h : t.Rewritten t' (compactLoop obs ts t.delta)) (hist : List (Nat × Write)) (x : Nat)
    (hj : Judged c c' (actsOf obs ts t.delta x)) :
    rowOf t'.delta (basePairs t'.baseSegments) hist x =
      (rowOf t.delta (basePairs t.baseSegments) hist x).compacted (actsOf obs ts t.delta x) := by
  have hst : compactLoop obs ts t.delta = gather (classified obs ts t.delta) := rfl
  obtain ⟨hnodup, -, hfind⟩ := gather_promoted (classified obs ts t.delta)
  unfold rowOf RowState.compacted
  rw [h.delta, h.base, hst, gather_retained]
  congr 1
  · rw [List.filter_map, actsOf, List.filter_filter, List.filter_filter]
    congr 2
    funext p
    exact Bool.and_comm _ _
  · rw [CompactState.rebase, List.filter_append, List.map_append, Keyed.filter_key hnodup, hfind]
    congr 1
    · rw [List.filter_filter]
      have hany : x ∈ (gather (classified obs ts t.delta)).stablyDeletedRowIds ↔
          (actsOf obs ts t.delta x).any (fun p => p.2 == .purge) = true := by
        rw [mem_gather_purged, actsOf, List.any_filter, List.any_eq_true]
        simp
      by_cases hp : x ∈ (gather (classified obs ts t.delta)).stablyDeletedRowIds
      · rw [if_pos (hany.mp hp), List.map_eq_nil_iff, List.filter_eq_nil_iff]
        rintro p - hpx
        simp only [Bool.and_eq_true, beq_iff_eq, Bool.not_eq_true', List.contains_eq_mem,
          decide_eq_false_iff_not] at hpx
        rw [hpx.1] at hpx
        exact hpx.2 hp
      · rw [if_neg (fun hn => hp (hany.mpr hn))]
        congr 1
        apply List.filter_congr
        intro p _
        by_cases hpx : p.1 = x
        · simp [hpx, hp]
        · simp [hpx]
    · rw [List.map_map, ← hj.promoted, actsOf, List.filter_filter]
      simp [Function.comp_def, Bool.and_comm]

end CoreDB
