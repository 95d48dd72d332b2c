import CoreDB.Exec.Query
import CoreDB.Storage.Int64Column
import Mathlib.Algebra.Order.BigOperators.Group.List
import Mathlib.Algebra.Order.Group.Nat

/-!
# Pruning and NULLs

What the three strategies return for segments that `Segment::Build` made, in terms of
the rows they were made from.  A segment is left out if it has a value and the double
of none is above the double of the threshold; the rows of the others are compared by
the raw array, where NULL is 0.

`pruning_exact_iff`: without NULLs the result is exact unless a segment is left out
whose values are above the threshold but share its double.  `null_never_matches_iff`:
with NULLs and values up to 2⁵³, it is that of `EvaluatePredicate` unless the threshold
is negative and a segment with a NULL is scanned.
-/

namespace CoreDB

/-! ## Counting and summing -/

/-- The number of elements that satisfy `p`, and the sum of `f` over them. -/
def countSum {α : Type} (p : α → Bool) (f : α → BitVec 64) (l : List α) : FilterSumResult :=
  { matchedCount := BitVec.ofNat 64 (l.countP p), sum := ((l.filter p).map f).sum }

section
variable {α : Type} (p : α → Bool) (f : α → BitVec 64)

theorem countSum_append (l l' : List α) : countSum p f (l ++ l') = countSum p f l + countSum p f l' := by
  refine FilterSumResult.ext ?_ ?_
  · simp [countSum, BitVec.ofNat_add]
  · simp [countSum]

theorem countSum_flatten (ls : List (List α)) : countSum p f ls.flatten = (ls.map (countSum p f)).sum := by
  induction ls with
  | nil => rfl
  | cons l ls ih => rw [List.flatten_cons, countSum_append, ih, List.map_cons, List.sum_cons]

theorem sum_map_eq_countSum (l : List α) :
    (l.map fun x => if p x then (⟨1#64, f x⟩ : FilterSumResult) else 0).sum = countSum p f l := by
  induction l with
  | nil => rfl
  | cons x l ih =>
    rw [List.map_cons, List.sum_cons, ih, ← List.singleton_append, countSum_append]
    congr 1
    by_cases hx : p x = true
    · simp [countSum, hx]
    · simp [countSum, hx]
      rfl

theorem matchedCount_sum (rs : List FilterSumResult) :
    rs.sum.matchedCount = (rs.map (·.matchedCount)).sum := by
  induction rs with
  | nil => rfl
  | cons r rs ih => simp [ih]

/-- Counts below 2⁶⁴ are told apart. -/
theorem sum_ofNat (ns : List Nat) : (ns.map (BitVec.ofNat 64)).sum = BitVec.ofNat 64 ns.sum := by
  induction ns with
  | nil => rfl
  | cons n ns ih => simp [ih, BitVec.ofNat_add]

end

theorem eq_of_ofNat_eq {m n : Nat} (hm : m < 2 ^ 64) (hn : n < 2 ^ 64) (h : BitVec.ofNat 64 m = BitVec.ofNat 64 n) :
    m = n := by
  have := congrArg BitVec.toNat h
  rwa [BitVec.toNat_ofNat, BitVec.toNat_ofNat, Nat.mod_eq_of_lt hm, Nat.mod_eq_of_lt hn] at this

/-- If no count exceeds its counterpart and the totals agree, the counts do. -/
theorem eq_of_sum_eq {α : Type} {g k : α → Nat} {l : List α} (hle : ∀ x ∈ l, g x ≤ k x)
    (hsum : (l.map g).sum = (l.map k).sum) : ∀ x ∈ l, g x = k x := by
  intro x hx
  apply Classical.byContradiction
  intro hne
  have hlt := List.sum_lt_sum g k hle ⟨x, hx, Nat.lt_of_le_of_ne (hle x hx) hne⟩
  omega

/-! ## Segments that `Build` made -/

/-- The segment was made from `rows`, and the columns of the query are int64. -/
structure BuiltFrom (query : AggregateQuery) (rows : List Row) (seg : Segment) : Prop where
  build : ∃ segmentId schema s t, Segment.build segmentId schema rows = some seg ∧
    schema[query.predicateColumn]? = some s ∧ s.type = .int64 ∧
    schema[query.aggregateColumn]? = some t ∧ t.type = .int64
  size : rows.length < 2 ^ 64

section
variable (query : AggregateQuery)

def AggregateQuery.pred (row : Row) : Value := row.getD query.predicateColumn .null

def AggregateQuery.agg (row : Row) : Value := row.getD query.aggregateColumn .null

/-- `CompareValues` finds the predicate value above the threshold. -/
def AggregateQuery.doubleAbove (row : Row) : Bool :=
  compareValues (.int64 query.threshold) (query.pred row) == some (-1)

/-- The raw value is above the threshold. -/
def AggregateQuery.rawAbove (row : Row) : Bool := query.threshold.slt (query.pred row).raw

/-- `CanSkip` rules the segment of these rows out. -/
def prunes (rows : List Row) : Bool :=
  rows.any (fun row => decide (query.pred row ≠ .null)) && !rows.any query.doubleAbove

/-- What the scan makes of the rows of one segment. -/
def scanRows (rows : List Row) : FilterSumResult :=
  if prunes query rows then 0 else countSum query.rawAbove (fun row => (query.agg row).raw) rows

def scanCount (rows : List Row) : Nat := if prunes query rows then 0 else rows.countP query.rawAbove

theorem matchedCount_scanRows (rows : List Row) :
    (scanRows query rows).matchedCount = BitVec.ofNat 64 (scanCount query rows) := by
  unfold scanRows scanCount
  split <;> rfl

end

section
variable {query : AggregateQuery} {rows : List Row} {seg : Segment}

theorem BuiltFrom.columns (h : BuiltFrom query rows seg) : seg.numRows = rows.length ∧
    ∃ p a, seg.columns[query.predicateColumn]? = some p ∧ p.Int64Built (rows.map query.pred) ∧
      seg.columns[query.aggregateColumn]? = some a ∧ a.Int64Built (rows.map query.agg) := by
  obtain ⟨segmentId, schema, s, t, hbuild, hs, hst, ht, htt⟩ := h.build
  obtain ⟨hlen, p, hp, hpb⟩ := Segment.int64Built_of_build hbuild hs hst
  obtain ⟨-, a, ha, hab⟩ := Segment.int64Built_of_build hbuild ht htt
  exact ⟨hlen, p, a, hp, hpb, ha, hab⟩

theorem isInt64_of_built {vals : List Value} {col : Column} (h : col.Int64Built vals) : col.IsInt64 vals.length := by
  refine ⟨h.type, by rw [h.data, List.length_map], ?_, ?_⟩
  · rcases h.bounds with ⟨hmin, -, -⟩ | ⟨lo, hi, hmin, -, -⟩ <;> rw [hmin] <;> rfl
  · rcases h.bounds with ⟨-, hmax, -⟩ | ⟨lo, hi, -, hmax, -⟩ <;> rw [hmax] <;> rfl

theorem BuiltFrom.scannable (h : BuiltFrom query rows seg) : seg.Scannable query := by
  obtain ⟨hlen, p, a, hp, hpb, ha, hab⟩ := h.columns
  have hpi := isInt64_of_built hpb
  have hai := isInt64_of_built hab
  rw [List.length_map, ← hlen] at hpi hai
  exact ⟨⟨p, hp, hpi⟩, ⟨a, ha, hai⟩, by rw [hlen]; exact h.size⟩

/-- A value is above the threshold for `CompareValues` iff its double is. -/
theorem compareValues_above (t v : BitVec 64) :
    compareValues (.int64 t) (.int64 v) = some (-1) ↔ widen t.toInt < widen v.toInt := by
  rw [compareValues_int64]
  by_cases h1 : widen t.toInt < widen v.toInt
  · simp [h1]
  · by_cases h2 : widen v.toInt < widen t.toInt <;> simp [h1, h2]

/-- When `CanSkip` rules a segment out. -/
theorem BuiltFrom.pruned (h : BuiltFrom query rows seg) : seg.pruned query = some (prunes query rows) := by
  obtain ⟨-, p, a, hp, hpb, -, -⟩ := h.columns
  have hvalue : ∀ row ∈ rows, query.pred row ≠ .null → query.pred row = .int64 (query.pred row).raw := fun row hrow hn =>
    Column.eq_int64_raw (hpb.typed _ (List.mem_map_of_mem hrow)) hn
  unfold Segment.pruned Segment.canSkip prunes
  rw [hp]
  rcases hpb.bounds with ⟨hmin, hmax, hall⟩ | ⟨lo, hi, hmin, hmax, hmem, hle⟩
  · have hany : rows.any (fun row => decide (query.pred row ≠ .null)) = false := by
      rw [List.any_eq_false]
      intro row hrow
      simpa using hall _ (List.mem_map_of_mem hrow)
    simp only [hmin, true_or, if_true, hany, Bool.false_and]
  · obtain ⟨row0, hrow0, heq0⟩ := List.mem_map.mp hmem
    have hany : rows.any (fun row => decide (query.pred row ≠ .null)) = true :=
      List.any_eq_true.mpr ⟨row0, hrow0, by simp [heq0]⟩
    -- the max is above the threshold iff some value is
    have habove : rows.any query.doubleAbove = decide (widen query.threshold.toInt < widen hi.toInt) := by
      rw [Bool.eq_iff_iff, List.any_eq_true, decide_eq_true_iff]
      constructor
      · rintro ⟨row, hrow, hab⟩
        have hab : compareValues (.int64 query.threshold) (query.pred row) = some (-1) := by
          simpa [AggregateQuery.doubleAbove] using hab
        have hn : query.pred row ≠ .null := by
          intro hnull
          rw [hnull] at hab
          simp [compareValues, asDouble] at hab
        rw [hvalue row hrow hn, compareValues_above] at hab
        have hmax' := hle (query.pred row).raw (by rw [← hvalue row hrow hn]; exact List.mem_map_of_mem hrow)
        omega
      · intro hlt
        exact ⟨row0, hrow0, by simpa [AggregateQuery.doubleAbove, heq0] using (compareValues_above _ _).mpr hlt⟩
    rw [hany, habove]
    simp only [hmin, hmax, reduceCtorEq, or_self, if_false, compareValues_int64, Bool.true_and]
    by_cases h1 : widen query.threshold.toInt < widen hi.toInt
    · simp [h1]
    · by_cases h2 : widen hi.toInt < widen query.threshold.toInt <;> simp [h1, h2]

theorem BuiltFrom.hits (h : BuiltFrom query rows seg) :
    seg.hits query = countSum query.rawAbove (fun row => (query.agg row).raw) rows := by
  obtain ⟨hlen, p, a, hp, hpb, ha, hab⟩ := h.columns
  have hpd : seg.int64Data query.predicateColumn = rows.map fun row => (query.pred row).raw := by
    rw [Segment.int64Data, List.getD_eq_getElem?_getD, hp]
    simpa [Function.comp_def] using hpb.data
  have had : seg.int64Data query.aggregateColumn = rows.map fun row => (query.agg row).raw := by
    rw [Segment.int64Data, List.getD_eq_getElem?_getD, ha]
    simpa [Function.comp_def] using hab.data
  have hpairs : seg.queryPairs query = rows.map fun row => ((query.pred row).raw, (query.agg row).raw) := by
    unfold Segment.queryPairs
    rw [hlen, hpd, had]
    apply List.ext_getElem
    · simp
    · intro i h1 h2
      have hi : i < rows.length := by simpa using h1
      simp [List.getElem?_eq_getElem hi]
  rw [Segment.hits_eq_queryPairs, hpairs, List.map_map, ← sum_map_eq_countSum]
  rfl

/-- **What the scan returns**, in terms of the rows. -/
theorem scanResult_built {rowsets : List (List Row)} {segments : List Segment}
    (h : List.Forall₂ (BuiltFrom query) rowsets segments) :
    scanResult query segments = (rowsets.map (scanRows query)).sum := by
  induction h with
  | nil => rfl
  | @cons rows seg rowsets segments hseg _ ih =>
    unfold scanResult keptSegments at ih ⊢
    rw [List.map_cons, List.sum_cons, ← ih, scanRows]
    cases hp : prunes query rows with
    | true =>
      rw [List.filter_cons_of_neg (by simp [hseg.pruned, hp])]
      simp
    | false =>
      rw [List.filter_cons_of_pos (by simp [hseg.pruned, hp]), List.map_cons, List.sum_cons, hseg.hits]
      simp

end

/-- All three strategies return `result`, the vectorized one for every tier and batch size. -/
def AllReturn (segments : List Segment) (query : AggregateQuery) (result : FilterSumResult) : Prop :=
  runVolcano segments query = some result ∧
    (∀ arch level batchSize hb, runVectorized segments query arch level batchSize hb = some result) ∧
    runJit segments query = some result

section
variable {query : AggregateQuery} {rowsets : List (List Row)} {segments : List Segment}

theorem allReturn_iff (h : List.Forall₂ (BuiltFrom query) rowsets segments) (result : FilterSumResult) :
    AllReturn segments query result ↔ (rowsets.map (scanRows query)).sum = result := by
  have hscan : ∀ seg ∈ segments, seg.Scannable query := by
    induction h with
    | nil => simp
    | cons hseg _ ih => exact List.forall_mem_cons.mpr ⟨hseg.scannable, ih⟩
  rw [← scanResult_built h]
  constructor
  · rintro ⟨hv, -, -⟩
    rw [runVolcano_eq hscan] at hv
    exact Option.some.inj hv
  · rintro rfl
    exact ⟨runVolcano_eq hscan, fun arch level batchSize hb => runVectorized_eq hscan arch level batchSize hb,
      runJit_eq hscan⟩

/-- What the scan returns counts as `scanCount` does, segment by segment. -/
theorem matchedCount_scan : (rowsets.map (scanRows query)).sum.matchedCount =
    BitVec.ofNat 64 (rowsets.map (scanCount query)).sum := by
  rw [matchedCount_sum, List.map_map, ← sum_ofNat, List.map_map]
  congr 2
  funext rows
  exact matchedCount_scanRows query rows

theorem sum_scanCount_le (query : AggregateQuery) (rowsets : List (List Row)) :
    (rowsets.map (scanCount query)).sum ≤ rowsets.flatten.length := by
  rw [List.length_flatten]
  refine List.sum_le_sum fun rows _ => ?_
  unfold scanCount
  split
  · exact Nat.zero_le _
  · exact List.countP_le_length

/-- The two columns of the samples below. -/
def samplePair : Schema := [⟨"pred", .int64⟩, ⟨"agg", .int64⟩]

/-- The segment of some rows. -/
def sampleOf (rows : List Row) : Segment := (Segment.build 1 samplePair rows).getD {}

theorem builtFrom_sample {rows : List Row} {threshold : BitVec 64}
    (h : (Segment.build 1 samplePair rows).isSome = true) (hsize : rows.length < 2 ^ 64) :
    List.Forall₂ (BuiltFrom ⟨0, 1, threshold⟩) [rows] [sampleOf rows] := by
  obtain ⟨seg, hseg⟩ := Option.isSome_iff_exists.mp h
  have hof : sampleOf rows = seg := by rw [sampleOf, hseg, Option.getD_some]
  exact .cons ⟨⟨1, samplePair, _, _, hof ▸ hseg, rfl, rfl, rfl, rfl⟩, hsize⟩ .nil

/-! ## Pruning without NULLs -/

/-- The rows above the threshold by exact comparison: their number, and the sum of their
aggregate values.  A NULL counts as 0 here, so that this is the answer to the query only without
NULLs. -/
def exactResult (query : AggregateQuery) (rows : List Row) : FilterSumResult :=
  countSum (fun row => decide (query.threshold.toInt < (query.pred row).raw.toInt))
    (fun row => (query.agg row).raw) rows

theorem rawAbove_eq (query : AggregateQuery) :
    query.rawAbove = fun row => decide (query.threshold.toInt < (query.pred row).raw.toInt) := by
  funext row
  rw [AggregateQuery.rawAbove, BitVec.slt_eq_decide]

/-- A value above the threshold in the rows of a segment has a double above its double. -/
def SeparatesDoubles (query : AggregateQuery) (rows : List Row) : Prop :=
  (∃ row ∈ rows, query.threshold.toInt < (query.pred row).raw.toInt) →
    ∃ row ∈ rows, compareValues (.int64 query.threshold) (query.pred row) = some (-1)

theorem scanRows_of_separates {rows : List Row} (hc : SeparatesDoubles query rows) :
    scanRows query rows = countSum query.rawAbove (fun row => (query.agg row).raw) rows := by
  unfold scanRows
  split
  · next hp =>
    -- left out: then no value is above the threshold
    have hnone : ∀ row ∈ rows, ¬ query.rawAbove row = true := by
      intro row hrow habove
      rw [rawAbove_eq] at habove
      obtain ⟨row', hrow', hab⟩ := hc ⟨row, hrow, by simpa using habove⟩
      have hany : rows.any query.doubleAbove = true :=
        List.any_eq_true.mpr ⟨row', hrow', by simpa [AggregateQuery.doubleAbove] using hab⟩
      simp [prunes, hany] at hp
    unfold countSum
    rw [List.countP_eq_zero.mpr hnone, List.filter_eq_nil_iff.mpr hnone]
    rfl
  · rfl

theorem separates_of_scanCount {rows : List Row} (hnn : ∀ row ∈ rows, query.pred row ≠ .null)
    (heq : scanCount query rows = rows.countP query.rawAbove) : SeparatesDoubles query rows := by
  rintro ⟨row, hrow, hgt⟩
  have hraw : query.rawAbove row = true := by
    rw [rawAbove_eq]
    simpa using hgt
  have hpos : 0 < rows.countP query.rawAbove := List.countP_pos_iff.mpr ⟨row, hrow, hraw⟩
  unfold scanCount at heq
  split at heq
  · omega
  · next hp =>
    have hany : rows.any (fun row => decide (query.pred row ≠ .null)) = true :=
      List.any_eq_true.mpr ⟨row, hrow, by simpa using hnn row hrow⟩
    simp only [prunes, hany, Bool.true_and, Bool.not_eq_true', Bool.not_eq_false, List.any_eq_true] at hp
    obtain ⟨row', hrow', hab⟩ := hp
    exact ⟨row', hrow', by simpa [AggregateQuery.doubleAbove] using hab⟩

/-- **When pruning changes nothing.**  For segments without NULLs the strategies return the
exact count and sum if every segment with a value above the threshold has one that is
above it as a double; and only then, unless counts wrap. -/
theorem pruning_exact_iff (h : List.Forall₂ (BuiltFrom query) rowsets segments)
    (hnn : ∀ rows ∈ rowsets, ∀ row ∈ rows, query.pred row ≠ .null ∧ query.agg row ≠ .null) :
    ((∀ rows ∈ rowsets, SeparatesDoubles query rows) →
      AllReturn segments query (exactResult query rowsets.flatten)) ∧
    (rowsets.flatten.length < 2 ^ 64 → AllReturn segments query (exactResult query rowsets.flatten) →
      ∀ rows ∈ rowsets, SeparatesDoubles query rows) := by
  have hexact : exactResult query rowsets.flatten =
      (rowsets.map (countSum query.rawAbove fun row => (query.agg row).raw)).sum := by
    rw [exactResult, ← rawAbove_eq, countSum_flatten]
  constructor
  · intro hc
    rw [allReturn_iff h, hexact]
    congr 1
    exact List.map_congr_left fun rows hrows => scanRows_of_separates (hc rows hrows)
  · intro hsize hall rows hrows
    refine separates_of_scanCount (fun row hrow => (hnn rows hrows row hrow).1) ?_
    rw [allReturn_iff h] at hall
    have hcount := congrArg FilterSumResult.matchedCount hall
    rw [matchedCount_scan, exactResult, ← rawAbove_eq] at hcount
    have htotal := eq_of_ofNat_eq (Nat.lt_of_le_of_lt (sum_scanCount_le query rowsets) hsize)
      (Nat.lt_of_le_of_lt List.countP_le_length hsize) hcount
    rw [List.countP_flatten] at htotal
    refine eq_of_sum_eq (fun rows _ => ?_) htotal rows hrows
    unfold scanCount
    split
    · exact Nat.zero_le _
    · exact Nat.le_refl _

/-- The values 5 and 7 and the threshold 6. -/
theorem pruning_exact_sevenAboveSix :
    AllReturn [sampleOf [[.int64 5, .int64 10], [.int64 7, .int64 20]]] ⟨0, 1, 6⟩
      (exactResult ⟨0, 1, 6⟩ [[.int64 5, .int64 10], [.int64 7, .int64 20]]) := by
  have hbuilt : List.Forall₂ (BuiltFrom ⟨0, 1, 6⟩) [[[.int64 5, .int64 10], [.int64 7, .int64 20]]]
      [sampleOf [[.int64 5, .int64 10], [.int64 7, .int64 20]]] := builtFrom_sample (by decide +kernel) (by decide)
  refine (pruning_exact_iff hbuilt (by decide +kernel)).1 fun rows hrows _ => ?_
  obtain rfl := List.mem_singleton.mp hrows
  exact ⟨[.int64 7, .int64 20], by simp, by decide +kernel⟩

/-- 2⁵³ + 1 is above 2⁵³, but both have the same double: the segment is left out. -/
theorem pruning_drops_row :
    List.Forall₂ (BuiltFrom ⟨0, 1, 9007199254740992⟩) [[[.int64 9007199254740993, .int64 1]]]
      [sampleOf [[.int64 9007199254740993, .int64 1]]] ∧
    ¬ AllReturn [sampleOf [[.int64 9007199254740993, .int64 1]]] ⟨0, 1, 9007199254740992⟩
      (exactResult ⟨0, 1, 9007199254740992⟩ [[.int64 9007199254740993, .int64 1]]) := by
  have hbuilt : List.Forall₂ (BuiltFrom ⟨0, 1, 9007199254740992⟩) [[[.int64 9007199254740993, .int64 1]]]
      [sampleOf [[.int64 9007199254740993, .int64 1]]] := builtFrom_sample (by decide +kernel) (by decide)
  refine ⟨hbuilt, ?_⟩
  rw [allReturn_iff hbuilt]
  decide +kernel

/-! ## NULLs -/

namespace Segment

/-- `EvaluatePredicate` on the predicate value of row `r`. -/
def sqlMatches (query : AggregateQuery) (seg : Segment) (r : Nat) : Bool :=
  ((seg.columns.getD query.predicateColumn {}).valueAt r).bind
    (fun v => evaluatePredicate v .gt (.int64 query.threshold)) == some true

/-- The rows of the segment that match; a NULL aggregate adds 0. -/
def sqlResult (query : AggregateQuery) (seg : Segment) : FilterSumResult :=
  countSum (seg.sqlMatches query) (fun r => (((seg.columns.getD query.aggregateColumn {}).valueAt r).getD .null).raw)
    (List.range seg.numRows)

end Segment

/-- `EvaluatePredicate` on the predicate value of a row. -/
def AggregateQuery.sqlAbove (query : AggregateQuery) (row : Row) : Bool :=
  evaluatePredicate (query.pred row) .gt (.int64 query.threshold) == some true

theorem countSum_map {α β : Type} (g : α → β) (p : β → Bool) (f : β → BitVec 64) (l : List α) :
    countSum p f (l.map g) = countSum (fun x => p (g x)) (fun x => f (g x)) l := by
  unfold countSum
  rw [List.countP_map, List.filter_map, List.map_map]
  rfl

theorem countSum_congr {α : Type} {p q : α → Bool} {f g : α → BitVec 64} {l : List α}
    (hp : ∀ x ∈ l, p x = q x) (hf : ∀ x ∈ l, f x = g x) : countSum p f l = countSum q g l := by
  have hfilter : l.filter p = l.filter q := List.filter_congr hp
  unfold countSum
  rw [List.countP_eq_length_filter, List.countP_eq_length_filter, hfilter]
  congr 2
  exact List.map_congr_left fun x hx => hf x (List.mem_of_mem_filter hx)

/-- `ValueAt` gives the rows back, so the result is one of the rows. -/
theorem BuiltFrom.sqlResult {rows : List Row} {seg : Segment} (h : BuiltFrom query rows seg) :
    seg.sqlResult query = countSum query.sqlAbove (fun row => (query.agg row).raw) rows := by
  obtain ⟨hlen, p, a, hp, hpb, ha, hab⟩ := h.columns
  have hrows : (List.range rows.length).map (fun r => rows.getD r []) = rows := by
    apply List.ext_getElem
    · simp
    · intro i h1 h2
      simp [List.getElem?_eq_getElem h2]
  conv => rhs; rw [← hrows, countSum_map]
  unfold Segment.sqlResult
  rw [hlen]
  have hcell : ∀ r ∈ List.range rows.length, p.valueAt r = some (query.pred (rows.getD r [])) ∧
      a.valueAt r = some (query.agg (rows.getD r [])) := by
    intro r hr
    have hr : r < rows.length := List.mem_range.mp hr
    rw [hpb.cells r (by simpa using hr), hab.cells r (by simpa using hr)]
    simp [List.getElem?_eq_getElem hr]
  refine countSum_congr (fun r hr => ?_) fun r hr => ?_
  · unfold Segment.sqlMatches AggregateQuery.sqlAbove
    rw [List.getD_eq_getElem?_getD, hp, Option.getD_some, (hcell r hr).1]
    rfl
  · rw [List.getD_eq_getElem?_getD, ha, Option.getD_some, (hcell r hr).2]
    rfl

/-- NULL, or an int64 value up to 2⁵³. -/
def AggregateQuery.Small (query : AggregateQuery) (row : Row) : Prop :=
  (query.pred row).conforms .int64 = true ∧ (query.pred row).raw.toInt.natAbs ≤ 2 ^ 53

section
variable {row : Row} (hthr : query.threshold.toInt.natAbs ≤ 2 ^ 53) (hrow : query.Small row)
include hthr hrow

/-- Up to 2⁵³ doubles compare as the integers do. -/
theorem widen_small : (widen query.threshold.toInt < widen (query.pred row).raw.toInt ↔
    query.threshold.toInt < (query.pred row).raw.toInt) :=
  ⟨lt_of_widen_lt, fun h => widen_lt_of_lt h hthr hrow.2⟩

theorem sqlAbove_iff : query.sqlAbove row = true ↔
    query.pred row ≠ .null ∧ query.threshold.toInt < (query.pred row).raw.toInt := by
  unfold AggregateQuery.sqlAbove evaluatePredicate
  by_cases hnull : query.pred row = .null
  · simp [hnull]
  · have hv := Column.eq_int64_raw hrow.1 hnull
    rw [if_neg hnull, ← widen_small hthr hrow]
    conv => lhs; rw [hv, compareValues_int64]
    by_cases h1 : widen query.threshold.toInt < widen (query.pred row).raw.toInt
    · simp [h1, hnull, Int.not_lt.mpr (Int.le_of_lt h1)]
    · by_cases h2 : widen (query.pred row).raw.toInt < widen query.threshold.toInt <;> simp [h1, h2]

theorem doubleAbove_iff : query.doubleAbove row = true ↔
    query.pred row ≠ .null ∧ query.threshold.toInt < (query.pred row).raw.toInt := by
  unfold AggregateQuery.doubleAbove
  rw [beq_iff_eq]
  by_cases hnull : query.pred row = .null
  · simp [hnull, compareValues, asDouble]
  · rw [← widen_small hthr hrow, Column.eq_int64_raw hrow.1 hnull, compareValues_above]
    simp [Value.raw]

end

theorem rawAbove_iff (query : AggregateQuery) (row : Row) :
    query.rawAbove row = true ↔ query.threshold.toInt < (query.pred row).raw.toInt := by
  rw [rawAbove_eq]
  exact decide_eq_true_iff

/-- The NULLs among the rows of a segment are not counted: there are none, the threshold is
not negative, or the segment is left out, its values being at most the threshold. -/
def NullsIgnored (query : AggregateQuery) (rows : List Row) : Prop :=
  (∃ row ∈ rows, query.pred row = .null) → 0 ≤ query.threshold.toInt ∨
    ((∃ row ∈ rows, query.pred row ≠ .null) ∧
      ∀ row ∈ rows, query.pred row ≠ .null → (query.pred row).raw.toInt ≤ query.threshold.toInt)

section
variable {rows : List Row} (hthr : query.threshold.toInt.natAbs ≤ 2 ^ 53) (hrows : ∀ row ∈ rows, query.Small row)
include hthr hrows

theorem prunes_iff : prunes query rows = true ↔ (∃ row ∈ rows, query.pred row ≠ .null) ∧
    ∀ row ∈ rows, query.pred row ≠ .null → (query.pred row).raw.toInt ≤ query.threshold.toInt := by
  unfold prunes
  simp only [Bool.and_eq_true, List.any_eq_true, decide_eq_true_iff, Bool.not_eq_true', List.any_eq_false]
  refine and_congr Iff.rfl (forall₂_congr fun row hrow => ?_)
  rw [doubleAbove_iff hthr (hrows row hrow)]
  simp only [not_and, Int.not_lt]

/-- No match is left out. -/
theorem sqlAbove_of_prunes (hp : prunes query rows = true) : ∀ row ∈ rows, ¬ query.sqlAbove row = true := by
  intro row hrow habove
  obtain ⟨hnn, hgt⟩ := (sqlAbove_iff hthr (hrows row hrow)).mp habove
  have := ((prunes_iff hthr hrows).mp hp).2 row hrow hnn
  omega

theorem scanRows_of_nullsIgnored (hc : NullsIgnored query rows) :
    scanRows query rows = countSum query.sqlAbove (fun row => (query.agg row).raw) rows := by
  unfold scanRows
  split
  · next hp =>
    have hnone := sqlAbove_of_prunes hthr hrows hp
    unfold countSum
    rw [List.countP_eq_zero.mpr hnone, List.filter_eq_nil_iff.mpr hnone]
    rfl
  · next hp =>
    refine countSum_congr (fun row hrow => ?_) fun _ _ => rfl
    rw [Bool.eq_iff_iff, rawAbove_iff, sqlAbove_iff hthr (hrows row hrow)]
    refine ⟨fun hgt => ⟨fun hnull => ?_, hgt⟩, And.right⟩
    -- a NULL reads as 0, which is above a negative threshold only
    rw [hnull] at hgt
    have hgt : query.threshold.toInt < 0 := by simpa [Value.raw] using hgt
    rcases hc ⟨row, hrow, hnull⟩ with hpos | hout
    · omega
    · exact hp ((prunes_iff hthr hrows).mpr hout)

theorem countP_sqlAbove_le : rows.countP query.sqlAbove ≤ scanCount query rows := by
  unfold scanCount
  split
  · next hp => rw [List.countP_eq_zero.mpr (sqlAbove_of_prunes hthr hrows hp)]
  · refine List.countP_mono_left fun row hrow habove => ?_
    rw [rawAbove_iff]
    exact ((sqlAbove_iff hthr (hrows row hrow)).mp habove).2

/-- If a NULL is counted, the count is too high. -/
theorem nullsIgnored_of_scanCount (heq : rows.countP query.sqlAbove = scanCount query rows) :
    NullsIgnored query rows := by
  rintro ⟨row, hrow, hnull⟩
  apply Classical.byContradiction
  intro hno
  obtain ⟨hneg, hin⟩ := not_or.mp hno
  have hp : ¬ prunes query rows = true := fun hp => hin ((prunes_iff hthr hrows).mp hp)
  rw [scanCount, if_neg hp] at heq
  have hle : ∀ l : List Row, (∀ r ∈ l, r ∈ rows) → l.countP query.sqlAbove ≤ l.countP query.rawAbove := by
    intro l hl
    refine List.countP_mono_left fun r hr habove => ?_
    rw [rawAbove_iff]
    exact ((sqlAbove_iff hthr (hrows r (hl r hr))).mp habove).2
  have hraw : query.rawAbove row = true := by
    rw [rawAbove_iff, hnull]
    simpa [Value.raw] using hneg
  have hsql : ¬ query.sqlAbove row = true := fun h => ((sqlAbove_iff hthr (hrows row hrow)).mp h).1 hnull
  obtain ⟨front, back, rfl⟩ := List.append_of_mem hrow
  have h1 := hle front fun r hr => by simp [hr]
  have h2 := hle back fun r hr => by simp [hr]
  rw [List.countP_append, List.countP_append, List.countP_cons_of_neg hsql, List.countP_cons_of_pos hraw] at heq
  omega

end

/-- The matching rows of the segments are those of all rows together. -/
theorem sqlResult_built (h : List.Forall₂ (BuiltFrom query) rowsets segments) :
    (segments.map (·.sqlResult query)).sum =
      countSum query.sqlAbove (fun row => (query.agg row).raw) rowsets.flatten := by
  rw [countSum_flatten]
  induction h with
  | nil => rfl
  | cons hseg _ ih => rw [List.map_cons, List.sum_cons, List.map_cons, List.sum_cons, ih, hseg.sqlResult]

theorem small_of_built (h : List.Forall₂ (BuiltFrom query) rowsets segments)
    (hsmall : ∀ row ∈ rowsets.flatten, (query.pred row).raw.toInt.natAbs ≤ 2 ^ 53) :
    ∀ rows ∈ rowsets, ∀ row ∈ rows, query.Small row := by
  intro rows hrows row hrow
  refine ⟨?_, hsmall row (List.mem_flatten_of_mem hrows hrow)⟩
  induction h with
  | nil => cases hrows
  | cons hseg _ ih =>
    rcases List.mem_cons.mp hrows with rfl | hrows
    · obtain ⟨-, p, a, -, hpb, -, -⟩ := hseg.columns
      exact hpb.typed _ (List.mem_map_of_mem hrow)
    · exact ih (fun row hrow => hsmall row (List.mem_append_right _ hrow)) hrows

theorem allReturn_of_nullsIgnored (h : List.Forall₂ (BuiltFrom query) rowsets segments)
    (hthr : query.threshold.toInt.natAbs ≤ 2 ^ 53)
    (hsmall : ∀ row ∈ rowsets.flatten, (query.pred row).raw.toInt.natAbs ≤ 2 ^ 53)
    (hc : ∀ rows ∈ rowsets, NullsIgnored query rows) :
    AllReturn segments query (countSum query.sqlAbove (fun row => (query.agg row).raw) rowsets.flatten) := by
  rw [allReturn_iff h, countSum_flatten]
  congr 1
  exact List.map_congr_left fun rows hrows =>
    scanRows_of_nullsIgnored hthr (small_of_built h hsmall rows hrows) (hc rows hrows)

/-- **When NULLs never match.**  For values and thresholds up to 2⁵³ the strategies return
the rows for which `EvaluatePredicate` holds if no segment is scanned that has a NULL,
or the threshold is not negative; and only then, unless counts wrap.  The result does
not depend on how the rows are split into segments. -/
theorem null_never_matches_iff (h : List.Forall₂ (BuiltFrom query) rowsets segments)
    (hthr : query.threshold.toInt.natAbs ≤ 2 ^ 53)
    (hsmall : ∀ rows ∈ rowsets, ∀ row ∈ rows, (query.pred row).raw.toInt.natAbs ≤ 2 ^ 53) :
    ((∀ rows ∈ rowsets, NullsIgnored query rows) →
      AllReturn segments query (segments.map (·.sqlResult query)).sum ∧
      ∀ rowsets' segments', List.Forall₂ (BuiltFrom query) rowsets' segments' → rowsets'.flatten = rowsets.flatten →
        (∀ rows ∈ rowsets', NullsIgnored query rows) →
        AllReturn segments' query (segments.map (·.sqlResult query)).sum) ∧
    (rowsets.flatten.length < 2 ^ 64 → AllReturn segments query (segments.map (·.sqlResult query)).sum →
      ∀ rows ∈ rowsets, NullsIgnored query rows) := by
  have hflat : ∀ row ∈ rowsets.flatten, (query.pred row).raw.toInt.natAbs ≤ 2 ^ 53 := by
    intro row hrow
    obtain ⟨rows, hrows, hrow⟩ := List.mem_flatten.mp hrow
    exact hsmall rows hrows row hrow
  rw [sqlResult_built h]
  refine ⟨fun hc => ⟨allReturn_of_nullsIgnored h hthr hflat hc, fun rowsets' segments' h' heq hc' => ?_⟩,
    fun hsize hall rows hrows => ?_⟩
  · rw [← heq] at hflat ⊢
    exact allReturn_of_nullsIgnored h' hthr hflat hc'
  · have hrowsSmall := small_of_built h hflat
    refine nullsIgnored_of_scanCount hthr (hrowsSmall rows hrows) ?_
    rw [allReturn_iff h] at hall
    have hcount := congrArg FilterSumResult.matchedCount hall
    rw [matchedCount_scan] at hcount
    have htotal := eq_of_ofNat_eq (Nat.lt_of_le_of_lt (sum_scanCount_le query rowsets) hsize)
      (Nat.lt_of_le_of_lt List.countP_le_length hsize) hcount
    rw [List.countP_flatten] at htotal
    exact eq_of_sum_eq (fun rows hrows => countP_sqlAbove_le hthr (hrowsSmall rows hrows)) htotal.symm rows hrows

/-- A NULL, with the threshold 0. -/
theorem null_never_matches_zero :
    AllReturn [sampleOf [[.int64 5, .int64 10], [.null, .int64 7]]] ⟨0, 1, 0⟩
      ([sampleOf [[.int64 5, .int64 10], [.null, .int64 7]]].map (·.sqlResult ⟨0, 1, 0⟩)).sum := by
  have hbuilt : List.Forall₂ (BuiltFrom ⟨0, 1, 0⟩) [[[.int64 5, .int64 10], [.null, .int64 7]]]
      [sampleOf [[.int64 5, .int64 10], [.null, .int64 7]]] := builtFrom_sample (by decide +kernel) (by decide)
  exact ((null_never_matches_iff hbuilt (by decide +kernel) (by decide +kernel)).1
    fun rows _ _ => Or.inl (by decide +kernel)).1

/-- A NULL counts as 0, which is above -1. -/
theorem null_matches_negative_threshold :
    List.Forall₂ (BuiltFrom ⟨0, 1, -1⟩) [[[.null, .int64 7]]] [sampleOf [[.null, .int64 7]]] ∧
    ¬ AllReturn [sampleOf [[.null, .int64 7]]] ⟨0, 1, -1⟩
      ([sampleOf [[.null, .int64 7]]].map (·.sqlResult ⟨0, 1, -1⟩)).sum := by
  have hbuilt : List.Forall₂ (BuiltFrom ⟨0, 1, -1⟩) [[[.null, .int64 7]]] [sampleOf [[.null, .int64 7]]] :=
    builtFrom_sample (by decide +kernel) (by decide)
  refine ⟨hbuilt, ?_⟩
  rw [allReturn_iff hbuilt, sqlResult_built hbuilt]
  decide +kernel

end

end CoreDB
