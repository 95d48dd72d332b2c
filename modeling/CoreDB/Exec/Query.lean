import CoreDB.Storage.Segment
import CoreDB.Jit.QueryJit

/-!
# Query execution (`exec/query.h`, `exec/volcano.cpp`, `exec/vectorized.cpp`, `exec/jit_exec.cpp`)

One query shape, `SUM(aggregate) WHERE predicate > threshold` over int64 columns, run in
three ways.  The Volcano operators pull one row per call; `RunVectorized` calls a kernel
per batch of a segment, `RunJit` the compiled loop per segment.  All three leave out the
segments that `CanSkip` rules out.  `none` is a thrown exception.

`runVolcano_eq`, `runVectorized_eq` and `runJit_eq`: each returns the sum over the rows
of the segments that are left (`scanResult`).
-/

namespace CoreDB

structure AggregateQuery where
  predicateColumn : Nat
  aggregateColumn : Nat
  threshold : BitVec 64
deriving DecidableEq, Repr

def Segment.pruned (seg : Segment) (query : AggregateQuery) : Option Bool :=
  seg.canSkip query.predicateColumn .gt (.int64 query.threshold)

/-! ## Volcano: the scan operator -/

structure SegmentScanOp where
  segIdx : Nat := 0
  current : Option Segment := none
  row : Nat := 0
  pred : BitVec 64 := 0#64
  agg : BitVec 64 := 0#64
deriving DecidableEq, Repr

section
variable (segments : List Segment) (query : AggregateQuery)

namespace SegmentScanOp

/-- The next segment that is not pruned, if there is one. -/
def advanceSegment (s : SegmentScanOp) : Option (Bool × SegmentScanOp) :=
  if h : s.segIdx < segments.length then
    match segments[s.segIdx].pruned query with
    | none => none
    | some true => advanceSegment { s with segIdx := s.segIdx + 1 }
    | some false => some (true, { s with segIdx := s.segIdx + 1, current := some segments[s.segIdx], row := 0 })
  else some (false, s)
termination_by segments.length - s.segIdx

/-- The row that the operator stands on. -/
def readRow (s : SegmentScanOp) (seg : Segment) : Option (Bool × SegmentScanOp) :=
  match seg.columns[query.predicateColumn]?, seg.columns[query.aggregateColumn]? with
  | some p, some a =>
    some (true, { s with pred := p.int64Data.getD s.row 0#64, agg := a.int64Data.getD s.row 0#64, row := s.row + 1 })
  | _, _ => none

theorem advanceSegment_true {s s' : SegmentScanOp} (h : advanceSegment segments query s = some (true, s')) :
    s.segIdx < s'.segIdx ∧ s'.segIdx ≤ segments.length ∧ s'.row = 0 ∧
      s'.current = segments[s'.segIdx - 1]? := by
  fun_induction advanceSegment segments query s with
  | case1 s hlt hskip => cases h
  | case2 s hlt hskip ih =>
    obtain ⟨hidx, hrest⟩ := ih h
    exact ⟨Nat.lt_of_succ_lt hidx, hrest⟩
  | case3 s hlt hskip =>
    cases h
    exact ⟨Nat.lt_succ_self _, hlt, rfl, (List.getElem?_eq_getElem hlt).symm⟩
  | case4 s hlt => simp at h

/-- `Next`: the loop goes on when the current segment has no more rows. -/
def next (s : SegmentScanOp) : Option (Bool × SegmentScanOp) :=
  match _hc : s.current with
  | some seg => if s.row < seg.numRows then readRow query s seg else next { s with current := none }
  | none =>
    match _ha : advanceSegment segments query s with
    | none => none
    | some (false, s') => some (false, s')
    | some (true, s') => next s'
termination_by 2 * (segments.length - s.segIdx) + if s.current.isSome then 1 else 0
decreasing_by
  · simp [_hc]
  · obtain ⟨hidx, hle, -, -⟩ := advanceSegment_true segments query _ha
    simp only [_hc, Option.isSome_none, Bool.false_eq_true, if_false]
    split <;> omega

/-- The rows that are left at most. -/
def rowsLeft (s : SegmentScanOp) : Nat :=
  ((segments.drop s.segIdx).map (·.numRows)).sum + (s.current.map fun seg => seg.numRows - s.row).getD 0

theorem rowsLeft_advanceSegment {s s' : SegmentScanOp} (h : advanceSegment segments query s = some (true, s'))
    (hc : s.current = none) : rowsLeft segments s' ≤ rowsLeft segments s := by
  fun_induction advanceSegment segments query s with
  | case1 s hlt hskip => cases h
  | case2 s hlt hskip ih =>
    have hle := ih h hc
    unfold rowsLeft at hle ⊢
    rw [List.drop_eq_getElem_cons hlt]
    simp only [hc, List.map_cons, List.sum_cons] at hle ⊢
    omega
  | case3 s hlt hskip =>
    cases h
    unfold rowsLeft
    rw [List.drop_eq_getElem_cons hlt]
    simp only [hc, List.map_cons, List.sum_cons, Option.map_some, Option.map_none, Option.getD_some, Option.getD_none]
    omega
  | case4 s hlt => simp at h

/-- Every row pulled is one row less. -/
theorem rowsLeft_next {s s' : SegmentScanOp} (h : next segments query s = some (true, s')) :
    rowsLeft segments s' < rowsLeft segments s := by
  fun_induction next segments query s with
  | case1 s seg hc hrow =>
    unfold readRow at h
    split at h
    · cases h
      unfold rowsLeft
      simp only [hc, Option.map_some, Option.getD_some]
      omega
    · cases h
  | case2 s seg hc hrow ih =>
    have hlt := ih h
    unfold rowsLeft at hlt ⊢
    simp only [hc, Option.map_some, Option.map_none, Option.getD_some, Option.getD_none] at hlt ⊢
    omega
  | case3 s hc ha => cases h
  | case4 s hc s1 ha => simp at h
  | case5 s hc s1 ha ih => exact Nat.lt_of_lt_of_le (ih h) (rowsLeft_advanceSegment segments query ha hc)

end SegmentScanOp

/-! ## Volcano: the filter on top -/

open SegmentScanOp (next rowsLeft rowsLeft_next)

/-- `FilterOp::Next`. -/
def filterNext (s : SegmentScanOp) : Option (Bool × SegmentScanOp) :=
  match _h : next segments query s with
  | none => none
  | some (false, s') => some (false, s')
  | some (true, s') => if query.threshold.slt s'.pred then some (true, s') else filterNext s'
termination_by rowsLeft segments s
decreasing_by exact rowsLeft_next segments query _h

theorem rowsLeft_filterNext {s s' : SegmentScanOp} (h : filterNext segments query s = some (true, s')) :
    rowsLeft segments s' < rowsLeft segments s := by
  fun_induction filterNext segments query s with
  | case1 s hn => cases h
  | case2 s s1 hn => simp at h
  | case3 s s1 hn hgt =>
    cases h
    exact rowsLeft_next segments query hn
  | case4 s s1 hn hgt ih => exact Nat.lt_trans (ih h) (rowsLeft_next segments query hn)

def volcanoLoop (s : SegmentScanOp) (result : FilterSumResult) : Option FilterSumResult :=
  match _h : filterNext segments query s with
  | none => none
  | some (false, _) => some result
  | some (true, s') =>
    volcanoLoop s' { sum := result.sum + s'.agg, matchedCount := result.matchedCount + 1#64 }
termination_by rowsLeft segments s
decreasing_by exact rowsLeft_filterNext segments query _h

def runVolcano : Option FilterSumResult := volcanoLoop segments query {} {}

/-! ## A scan per segment -/

/-- The loop over the segments that `RunVectorized` and `RunJit` share; `scan` adds the
rows of one segment to the result. -/
def runPerSegment (scan : List (BitVec 64) → List (BitVec 64) → Nat → FilterSumResult → FilterSumResult) :
    List Segment → FilterSumResult → Option FilterSumResult
  | [], result => some result
  | seg :: segments, result =>
    match seg.pruned query with
    | none => none
    | some true => runPerSegment scan segments result
    | some false =>
      match seg.columns[query.predicateColumn]?, seg.columns[query.aggregateColumn]? with
      | some p, some a => runPerSegment scan segments (scan p.int64Data a.int64Data seg.numRows result)
      | _, _ => none

/-- The batches of a segment; with a batch size of 0 the loop of the source does not end. -/
def batchLoop (kernel : List (BitVec 64) → List (BitVec 64) → Nat → FilterSumResult) (batchSize : Nat)
    (hb : 0 < batchSize) (pred agg : List (BitVec 64)) (numRows offset : Nat) (result : FilterSumResult) :
    FilterSumResult :=
  if offset < numRows then
    let count := min batchSize (numRows - offset)
    let batch := kernel (pred.drop offset) (agg.drop offset) count
    batchLoop kernel batchSize hb pred agg numRows (offset + batchSize)
      { matchedCount := result.matchedCount + batch.matchedCount, sum := result.sum + batch.sum }
  else result
termination_by numRows - offset

def runVectorized (arch : Architecture) (level : SimdLevel) (batchSize : Nat) (hb : 0 < batchSize) :
    Option FilterSumResult :=
  runPerSegment query (fun pred agg numRows result =>
    batchLoop (fun pred agg n => filterGtSum arch level pred agg n query.threshold) batchSize hb pred agg numRows 0
      result) segments {}

def runJit : Option FilterSumResult :=
  runPerSegment query (fun pred agg numRows result =>
    let segResult := QueryJit.run pred agg numRows query.threshold
    { matchedCount := result.matchedCount + segResult.matchedCount, sum := result.sum + segResult.sum }) segments {}

end

/-! ## What they all return -/

/-- An int64 column over `n` rows: its array has a value per row, and its bounds are of its type. -/
structure Column.IsInt64 (n : Nat) (col : Column) : Prop where
  type : col.type = .int64
  length : col.int64Data.length = n
  min : col.min.conforms .int64 = true
  max : col.max.conforms .int64 = true

/-- The query can be run on the segment: both its columns are int64.  The number of rows is
a `size_t`. -/
structure Segment.Scannable (query : AggregateQuery) (seg : Segment) : Prop where
  pred : ∃ col, seg.columns[query.predicateColumn]? = some col ∧ col.IsInt64 seg.numRows
  agg : ∃ col, seg.columns[query.aggregateColumn]? = some col ∧ col.IsInt64 seg.numRows
  numRows : seg.numRows < 2 ^ 64

namespace Segment

/-- The array of column `c`. -/
def int64Data (seg : Segment) (c : Nat) : List (BitVec 64) := (seg.columns.getD c {}).int64Data

/-- What the rows of the segment give. -/
def hits (query : AggregateQuery) (seg : Segment) : FilterSumResult :=
  ∑ i ∈ Finset.range seg.numRows,
    hitAt (seg.int64Data query.predicateColumn) (seg.int64Data query.aggregateColumn) query.threshold i

/-- The predicate and the aggregate value of every row. -/
def queryPairs (query : AggregateQuery) (seg : Segment) : List (BitVec 64 × BitVec 64) :=
  (List.range seg.numRows).map fun i =>
    ((seg.int64Data query.predicateColumn).getD i 0#64, (seg.int64Data query.aggregateColumn).getD i 0#64)

theorem hits_eq_queryPairs (query : AggregateQuery) (seg : Segment) :
    seg.hits query = ((seg.queryPairs query).map fun r => hit query.threshold r.1 r.2).sum := by
  unfold hits queryPairs
  rw [List.map_map]
  exact Multiset.sum_coe _

theorem pruned_of_scannable {query : AggregateQuery} {seg : Segment} (h : seg.Scannable query) :
    ∃ b, seg.pruned query = some b := by
  obtain ⟨col, hcol, -, -, hmin, hmax⟩ := h.pred
  unfold pruned canSkip
  rw [hcol]
  by_cases hnull : col.min = .null ∨ col.max = .null
  · exact ⟨false, if_pos hnull⟩
  · obtain ⟨hn1, hn2⟩ := not_or.mp hnull
    obtain ⟨c1, h1⟩ := compareValues_conforms .int64 (.int64 query.threshold) col.min rfl hmin (by simp) hn1
    obtain ⟨c2, h2⟩ := compareValues_conforms .int64 (.int64 query.threshold) col.max rfl hmax (by simp) hn2
    exact ⟨decide (0 ≤ c2), by simp only [if_neg hnull, h1, h2]⟩

theorem columns_of_scannable {query : AggregateQuery} {seg : Segment} (h : seg.Scannable query) :
    ∃ p a, seg.columns[query.predicateColumn]? = some p ∧ seg.columns[query.aggregateColumn]? = some a ∧
      p.int64Data = seg.int64Data query.predicateColumn ∧ a.int64Data = seg.int64Data query.aggregateColumn := by
  obtain ⟨p, hp, -⟩ := h.pred
  obtain ⟨a, ha, -⟩ := h.agg
  refine ⟨p, a, hp, ha, ?_, ?_⟩
  · rw [int64Data, List.getD_eq_getElem?_getD, hp]
    rfl
  · rw [int64Data, List.getD_eq_getElem?_getD, ha]
    rfl

end Segment

/-- The segments that are scanned. -/
def keptSegments (query : AggregateQuery) (segments : List Segment) : List Segment :=
  segments.filter fun seg => seg.pruned query == some false

/-- The sum over the rows of the segments that are scanned. -/
def scanResult (query : AggregateQuery) (segments : List Segment) : FilterSumResult :=
  ((keptSegments query segments).map (·.hits query)).sum

section
variable {segments : List Segment} {query : AggregateQuery}

theorem runPerSegment_eq (scan : List (BitVec 64) → List (BitVec 64) → Nat → FilterSumResult → FilterSumResult)
    (hscan : ∀ seg ∈ segments, ∀ result, scan (seg.int64Data query.predicateColumn)
      (seg.int64Data query.aggregateColumn) seg.numRows result = result + seg.hits query)
    (h : ∀ seg ∈ segments, seg.Scannable query) : ∀ result,
    runPerSegment query scan segments result = some (result + scanResult query segments) := by
  induction segments with
  | nil => intro result; simp [runPerSegment, scanResult, keptSegments]
  | cons seg segments ih =>
    intro result
    have ih := ih (fun s hs => hscan s (List.mem_cons_of_mem _ hs)) fun s hs => h s (List.mem_cons_of_mem _ hs)
    have hseg := h seg List.mem_cons_self
    obtain ⟨b, hb⟩ := Segment.pruned_of_scannable hseg
    obtain ⟨p, a, hp, ha, hpd, had⟩ := Segment.columns_of_scannable hseg
    cases b with
    | true => simp only [runPerSegment, hb, ih, scanResult, keptSegments, List.filter_cons]; rfl
    | false =>
      simp only [runPerSegment, hb, hp, ha, hpd, had, hscan seg List.mem_cons_self, ih, scanResult, keptSegments,
        List.filter_cons, beq_self_eq_true, if_true, List.map_cons, List.sum_cons, add_assoc]

theorem getD_drop {α : Type} (l : List α) (k i : Nat) (d : α) : (l.drop k).getD i d = l.getD (k + i) d := by
  simp [List.getD_eq_getElem?_getD]

/-- The batches of a segment give what its rows give. -/
theorem batchLoop_eq (arch : Architecture) (level : SimdLevel) (batchSize : Nat) (hb : 0 < batchSize)
    (pred agg : List (BitVec 64)) (numRows : Nat) (threshold : BitVec 64) : ∀ (k offset : Nat) (result : FilterSumResult),
    numRows - offset ≤ k →
    batchLoop (fun pred agg n => filterGtSum arch level pred agg n threshold) batchSize hb pred agg numRows offset
      result = result + ∑ i ∈ Finset.range (numRows - offset), hitAt pred agg threshold (offset + i) := by
  intro k
  induction k with
  | zero =>
    intro offset result hk
    rw [batchLoop, if_neg (by omega), show numRows - offset = 0 by omega]
    simp
  | succ k ih =>
    intro offset result hk
    by_cases hlt : offset < numRows
    · have hbatch : filterGtSum arch level (pred.drop offset) (agg.drop offset) (min batchSize (numRows - offset))
          threshold = ∑ i ∈ Finset.range (min batchSize (numRows - offset)), hitAt pred agg threshold (offset + i) := by
        rw [filterGtSum_eq]
        simp only [hitAt, getD_drop]
      have hsplit : numRows - offset = min batchSize (numRows - offset) + (numRows - (offset + batchSize)) := by omega
      rw [batchLoop, if_pos hlt, ih _ _ (by omega)]
      show (result + filterGtSum arch level (pred.drop offset) (agg.drop offset) (min batchSize (numRows - offset))
        threshold) + _ = _
      rw [hbatch, add_assoc]
      conv => rhs; rw [hsplit, Finset.sum_range_add]
      by_cases hmin : batchSize ≤ numRows - offset
      · simp only [Nat.min_eq_left hmin, Nat.add_assoc]
      · rw [show numRows - (offset + batchSize) = 0 by omega]
        simp
    · rw [batchLoop, if_neg hlt, show numRows - offset = 0 by omega]
      simp

theorem runVectorized_eq (h : ∀ seg ∈ segments, seg.Scannable query) (arch : Architecture) (level : SimdLevel)
    (batchSize : Nat) (hb : 0 < batchSize) :
    runVectorized segments query arch level batchSize hb = some (scanResult query segments) := by
  unfold runVectorized
  rw [runPerSegment_eq _ (fun seg _ result => ?_) h]
  · exact congrArg some (zero_add _)
  · have hloop := batchLoop_eq arch level batchSize hb (seg.int64Data query.predicateColumn)
      (seg.int64Data query.aggregateColumn) seg.numRows query.threshold seg.numRows 0 result (Nat.le_refl _)
    simp only [Nat.zero_add, Nat.sub_zero] at hloop
    exact hloop

theorem runJit_eq (h : ∀ seg ∈ segments, seg.Scannable query) :
    runJit segments query = some (scanResult query segments) := by
  unfold runJit
  rw [runPerSegment_eq _ (fun seg hseg result => ?_) h]
  · exact congrArg some (zero_add _)
  · show result + QueryJit.run _ _ seg.numRows query.threshold = _
    rw [QueryJit.queryJit_run_eq _ _ (h seg hseg).numRows]
    rfl

/-! ## The Volcano operators pull the same rows -/

namespace SegmentScanOp

/-- The rows that are still to be pulled. -/
def remaining (segments : List Segment) (query : AggregateQuery) (s : SegmentScanOp) : List (BitVec 64 × BitVec 64) :=
  (match s.current with
    | some seg => (seg.queryPairs query).drop s.row
    | none => []) ++ (keptSegments query (segments.drop s.segIdx)).flatMap (Segment.queryPairs query)

theorem advanceSegment_spec (h : ∀ seg ∈ segments, seg.Scannable query) (s : SegmentScanOp) (hc : s.current = none) :
    (∃ s', advanceSegment segments query s = some (false, s') ∧ remaining segments query s = []) ∨
    (∃ s', advanceSegment segments query s = some (true, s') ∧ (∃ seg ∈ segments, s'.current = some seg) ∧
      remaining segments query s' = remaining segments query s) := by
  fun_induction advanceSegment segments query s with
  | case1 s hlt hskip =>
    obtain ⟨b, hb⟩ := Segment.pruned_of_scannable (h _ (List.getElem_mem hlt))
    rw [hb] at hskip
    cases hskip
  | case2 s hlt hskip ih =>
    have hrem : remaining segments query { s with segIdx := s.segIdx + 1 } = remaining segments query s := by
      unfold remaining keptSegments
      rw [List.drop_eq_getElem_cons hlt, List.filter_cons_of_neg (by simp [hskip])]
    rw [← hrem]
    exact ih hc
  | case3 s hlt hskip =>
    refine Or.inr ⟨_, rfl, ⟨_, List.getElem_mem hlt, rfl⟩, ?_⟩
    unfold remaining keptSegments
    rw [List.drop_eq_getElem_cons hlt, List.filter_cons_of_pos (by simp [hskip]), List.flatMap_cons, hc]
    rfl
  | case4 s hlt =>
    refine Or.inl ⟨s, rfl, ?_⟩
    unfold remaining
    rw [hc, List.drop_eq_nil_of_le (by omega)]
    rfl

/-- One call of `Next` pulls the first of the remaining rows. -/
theorem next_spec (h : ∀ seg ∈ segments, seg.Scannable query) (s : SegmentScanOp)
    (hc : ∀ seg, s.current = some seg → seg ∈ segments) :
    (∃ s', next segments query s = some (false, s') ∧ remaining segments query s = []) ∨
    (∃ s', next segments query s = some (true, s') ∧ (∀ seg, s'.current = some seg → seg ∈ segments) ∧
      remaining segments query s = (s'.pred, s'.agg) :: remaining segments query s') := by
  fun_induction next segments query s with
  | case1 s seg hcur hrow =>
    obtain ⟨p, a, hp, ha, hpd, had⟩ := Segment.columns_of_scannable (h seg (hc seg hcur))
    have hread : readRow query s seg = some (true, { s with
        pred := (seg.int64Data query.predicateColumn).getD s.row 0#64
        agg := (seg.int64Data query.aggregateColumn).getD s.row 0#64
        row := s.row + 1 }) := by
      unfold readRow
      rw [hp, ha, ← hpd, ← had]
    refine Or.inr ⟨_, hread, hc, ?_⟩
    unfold remaining
    have hlen : s.row < (seg.queryPairs query).length := by simpa [Segment.queryPairs] using hrow
    simp only [hcur, List.drop_eq_getElem_cons hlen, List.cons_append]
    simp only [Segment.queryPairs, List.getElem_map, List.getElem_range]
  | case2 s seg hcur hrow ih =>
    have hrem : remaining segments query { s with current := none } = remaining segments query s := by
      unfold remaining
      have hdone : (seg.queryPairs query).drop s.row = [] :=
        List.drop_eq_nil_of_le (by simpa [Segment.queryPairs] using hrow)
      simp only [hcur, hdone]
    rw [← hrem]
    exact ih fun seg hseg => by simp at hseg
  | case3 s hcur ha =>
    rcases advanceSegment_spec h s hcur with ⟨s', hs, -⟩ | ⟨s', hs, -⟩
    · rw [ha] at hs; cases hs
    · rw [ha] at hs; cases hs
  | case4 s hcur s1 ha =>
    rcases advanceSegment_spec h s hcur with ⟨s', -, hrem⟩ | ⟨s', hs, -⟩
    · exact Or.inl ⟨s1, rfl, hrem⟩
    · rw [ha] at hs; cases hs
  | case5 s hcur s1 ha ih =>
    rcases advanceSegment_spec h s hcur with ⟨s', hs, -⟩ | ⟨s', hs, ⟨seg, hseg, hcur'⟩, hrem⟩
    · rw [ha] at hs; cases hs
    · rw [ha] at hs
      obtain rfl : s1 = s' := by simpa using hs
      rw [← hrem]
      refine ih fun q hq => ?_
      rw [hcur'] at hq
      exact Option.some.inj hq ▸ hseg

end SegmentScanOp

open SegmentScanOp (remaining next_spec)

/-- The loop of `RunVolcano` adds up the remaining rows. -/
theorem volcanoLoop_eq (h : ∀ seg ∈ segments, seg.Scannable query) : ∀ (rows : List (BitVec 64 × BitVec 64))
    (s : SegmentScanOp) (result : FilterSumResult), (∀ seg, s.current = some seg → seg ∈ segments) →
    remaining segments query s = rows →
    volcanoLoop segments query s result = some (result + (rows.map fun r => hit query.threshold r.1 r.2).sum) := by
  intro rows
  induction rows with
  | nil =>
    intro s result hc hrem
    rcases next_spec h s hc with ⟨s', hs, -⟩ | ⟨s', -, -, hcons⟩
    · have hf : filterNext segments query s = some (false, s') := by
        unfold filterNext
        split <;> simp_all
      unfold volcanoLoop
      split <;> simp_all
    · rw [hrem] at hcons
      cases hcons
  | cons r rows ih =>
    intro s result hc hrem
    rcases next_spec h s hc with ⟨s', -, hnil⟩ | ⟨s', hs, hc', hcons⟩
    · rw [hrem] at hnil
      cases hnil
    · obtain ⟨rfl, rfl⟩ := List.cons.inj (hrem.symm.trans hcons)
      have hf : filterNext segments query s =
          if query.threshold.slt s'.pred then some (true, s') else filterNext segments query s' := by
        conv => lhs; unfold filterNext
        split <;> simp_all
      by_cases hgt : query.threshold.slt s'.pred = true
      · rw [if_pos hgt] at hf
        have hloop : volcanoLoop segments query s result = volcanoLoop segments query s'
            { sum := result.sum + s'.agg, matchedCount := result.matchedCount + 1#64 } := by
          conv => lhs; unfold volcanoLoop
          split <;> simp_all
        have hhit : hit query.threshold s'.pred s'.agg = ⟨1#64, s'.agg⟩ := if_pos hgt
        rw [hloop, ih s' _ hc' rfl, List.map_cons, List.sum_cons, ← add_assoc, hhit]
        rfl
      · rw [if_neg hgt] at hf
        -- the filter goes on: the loop does what it does from the next row on
        have hloop : volcanoLoop segments query s result = volcanoLoop segments query s' result := by
          unfold volcanoLoop
          rw [hf]
        have hhit : hit query.threshold s'.pred s'.agg = 0 := if_neg hgt
        rw [hloop, ih s' _ hc' rfl, List.map_cons, List.sum_cons, hhit, zero_add]

theorem runVolcano_eq (h : ∀ seg ∈ segments, seg.Scannable query) :
    runVolcano segments query = some (scanResult query segments) := by
  have hrem : remaining segments query {} = (keptSegments query segments).flatMap (Segment.queryPairs query) := by
    unfold remaining
    simp
  unfold runVolcano
  rw [volcanoLoop_eq h _ {} {} (fun seg hseg => by simp at hseg) hrem]
  have hsum : ∀ segs : List Segment,
      ((segs.flatMap (Segment.queryPairs query)).map fun r => hit query.threshold r.1 r.2).sum =
        (segs.map (·.hits query)).sum := by
    intro segs
    induction segs with
    | nil => rfl
    | cons seg segs ih =>
      rw [List.flatMap_cons, List.map_append, List.sum_append, ih, List.map_cons, List.sum_cons, Segment.hits_eq_queryPairs]
  rw [hsum]
  exact congrArg some (zero_add _)

/-- **The three strategies agree.**  On all segments with int64 columns, for every batch size
and every kernel tier, they return, and return the same count and sum. -/
theorem strategies_agree (h : ∀ seg ∈ segments, seg.Scannable query) (arch : Architecture) (level : SimdLevel)
    (batchSize : Nat) (hb : 1 ≤ batchSize) :
    ∃ result, runVolcano segments query = some result ∧
      runVectorized segments query arch level batchSize hb = some result ∧ runJit segments query = some result :=
  ⟨_, runVolcano_eq h, runVectorized_eq h arch level batchSize hb, runJit_eq h⟩

/-- Three rows, with a NULL in either column. -/
def sampleSegment : Segment :=
  (Segment.build 1 [⟨"pred", .int64⟩, ⟨"agg", .int64⟩]
    [[.int64 5, .int64 10], [.null, .int64 7], [.int64 (-3), .null]]).getD {}

theorem sampleSegment_scannable : sampleSegment.Scannable ⟨0, 1, -1⟩ where
  pred := ⟨_, rfl, by decide +kernel, by decide +kernel, by decide +kernel, by decide +kernel⟩
  agg := ⟨_, rfl, by decide +kernel, by decide +kernel, by decide +kernel, by decide +kernel⟩
  numRows := by decide +kernel

theorem strategies_agree_sample :
    ∃ result, runVolcano [sampleSegment, sampleSegment] ⟨0, 1, -1⟩ = some result ∧
      runVectorized [sampleSegment, sampleSegment] ⟨0, 1, -1⟩ .x86_64 .avx2 2 (by decide) = some result ∧
      runJit [sampleSegment, sampleSegment] ⟨0, 1, -1⟩ = some result :=
  strategies_agree (by simpa using sampleSegment_scannable) .x86_64 .avx2 2 (by decide)

end

end CoreDB
