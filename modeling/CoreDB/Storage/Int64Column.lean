import CoreDB.Storage.Segment
import CoreDB.Storage.Widening

/-!
# What `Segment::Build` stores for an int64 column

The array holds the values, with 0 in place of NULL; the bitmap tells the two apart.
Min and max are NULL while there are no values; from then on the max is a value whose
double no other value's exceeds.
-/

namespace CoreDB

/-- What the array holds for the value. -/
def Value.raw : Value → BitVec 64
  | .int64 v => v
  | _ => 0#64

namespace Column

/-- The column of `n` rows after the values `pre`. -/
structure Int64To (n : Nat) (pre : List Value) (col : Column) (haveBounds : Bool) : Prop where
  type : col.type = .int64
  fits : pre.length ≤ n
  typed : ∀ v ∈ pre, v.conforms .int64 = true
  bitmap : col.validity.bytes.length = (n + 7) / 8
  data : col.int64Data = pre.map Value.raw ++ List.replicate (n - pre.length) 0#64
  valid : ∀ i, i < n → col.validity.isValid i = decide (pre[i]? ≠ some .null)
  noBounds : haveBounds = false → col.min = .null ∧ col.max = .null ∧ ∀ v ∈ pre, v = .null
  bounds : haveBounds = true → ∃ lo hi, col.min = .int64 lo ∧ col.max = .int64 hi ∧ .int64 hi ∈ pre ∧
    ∀ v, .int64 v ∈ pre → widen v.toInt ≤ widen hi.toInt

theorem int64To_blank (n : Nat) : Int64To n [] (blank .int64 n) false where
  type := rfl
  fits := Nat.zero_le n
  typed := fun v hv => by cases hv
  bitmap := Bitmap.length_new n true
  data := rfl
  valid := fun i hi => by
    rw [show (blank .int64 n).validity = Bitmap.new n true from rfl, Bitmap.isValid_new_true n i hi]
    simp
  noBounds := fun _ => ⟨rfl, rfl, fun v hv => by cases hv⟩
  bounds := fun h => by cases h

/-- The max moves on to a value whose double is larger. -/
theorem updateBounds_int64 {col : Column} {lo hi : BitVec 64} (hmin : col.min = .int64 lo) (hmax : col.max = .int64 hi)
    (x : BitVec 64) : ∃ lo', col.updateBounds (.int64 x) true =
      some { col with min := .int64 lo', max := .int64 (if widen hi.toInt < widen x.toInt then x else hi) } := by
  obtain ⟨type, validity, min, max, checksum, d32, d64, dd, codes, dict⟩ := col
  simp only at hmin hmax
  subst hmin hmax
  refine ⟨if widen x.toInt < widen lo.toInt then x else lo, ?_⟩
  simp only [updateBounds, if_true, compareValues_int64, Option.map_some, Option.bind_eq_bind, Option.bind_some]
  by_cases h1 : widen x.toInt < widen lo.toInt <;> by_cases h2 : widen lo.toInt < widen x.toInt <;>
    by_cases h3 : widen hi.toInt < widen x.toInt <;> by_cases h4 : widen x.toInt < widen hi.toInt <;>
    simp [h1, h2, h3, h4, compareValues_int64] <;> omega

section
variable {n : Nat} {pre : List Value} {col col' : Column} {hb hb' : Bool} (h : Int64To n pre col hb)
  (hn : pre.length < n)
include h hn

omit hn in
theorem isValid_concat {v : Value} {i : Nat} (hi : i < n) (hv : v ≠ .null) :
    col.validity.isValid i = decide ((pre ++ [v])[i]? ≠ some .null) := by
  rw [h.valid i hi]
  by_cases hlt : i < pre.length
  · rw [List.getElem?_append_left hlt]
  · rw [List.getElem?_eq_none (by omega)]
    by_cases heq : i = pre.length
    · subst heq
      simp [hv]
    · rw [List.getElem?_eq_none (by simp; omega)]

theorem int64To_null : Int64To n (pre ++ [.null])
    { col with validity := col.validity.setValid pre.length false } hb where
  type := h.type
  fits := by simp; omega
  typed := fun v hv => by
    rcases List.mem_append.mp hv with hv | hv
    · exact h.typed v hv
    · rw [List.mem_singleton.mp hv]
      rfl
  bitmap := by simp [h.bitmap]
  data := by
    have hsplit : n - pre.length = (n - (pre.length + 1)) + 1 := by omega
    rw [show ({ col with validity := col.validity.setValid pre.length false } : Column).int64Data = col.int64Data
      from rfl, h.data, hsplit, List.replicate_succ]
    simp [Value.raw]
  valid := fun i hi => by
    rw [Bitmap.isValid_setValid _ _ _ _ (by rw [h.bitmap]; omega), h.valid i hi]
    by_cases heq : i = pre.length
    · subst heq
      simp
    · by_cases hlt : i < pre.length
      · rw [if_neg heq, List.getElem?_append_left hlt]
      · rw [if_neg heq, List.getElem?_eq_none (by omega), List.getElem?_eq_none (by simp; omega)]
  noBounds := fun hb => by
    obtain ⟨hmin, hmax, hall⟩ := h.noBounds hb
    refine ⟨hmin, hmax, fun v hv => ?_⟩
    rcases List.mem_append.mp hv with hv | hv
    · exact hall v hv
    · exact List.mem_singleton.mp hv
  bounds := fun hb => by
    obtain ⟨lo, hi, hmin, hmax, hmem, hle⟩ := h.bounds hb
    refine ⟨lo, hi, hmin, hmax, List.mem_append_left _ hmem, fun v hv => ?_⟩
    rcases List.mem_append.mp hv with hv | hv
    · exact hle v hv
    · simp at hv

/-- Storing the next value keeps the array in step. -/
theorem int64Data_set (x : BitVec 64) : col.int64Data.set pre.length x =
    (pre ++ [Value.int64 x]).map Value.raw ++ List.replicate (n - (pre ++ [Value.int64 x]).length) 0#64 := by
  have hsplit : n - pre.length = (n - (pre.length + 1)) + 1 := by omega
  rw [h.data, hsplit, List.replicate_succ, List.set_append_right _ _ (by simp)]
  simp [Value.raw]

theorem int64To_value {x : BitVec 64}
    (hup : ({ col with int64Data := col.int64Data.set pre.length x } : Column).updateBounds (.int64 x) hb = some col') :
    Int64To n (pre ++ [.int64 x]) col' true := by
  have hfits : (pre ++ [Value.int64 x]).length ≤ n := by simp; omega
  have htyped : ∀ v ∈ pre ++ [Value.int64 x], v.conforms .int64 = true := by
    intro v hv
    rcases List.mem_append.mp hv with hv | hv
    · exact h.typed v hv
    · rw [List.mem_singleton.mp hv]
      rfl
  have hvalid : ∀ i, i < n → col.validity.isValid i = decide ((pre ++ [Value.int64 x])[i]? ≠ some .null) :=
    fun i hi => isValid_concat h hi (by simp)
  cases hb with
  | false =>
    obtain ⟨-, -, hall⟩ := h.noBounds rfl
    simp only [updateBounds, Bool.false_eq_true, if_false, Option.some.injEq] at hup
    subst hup
    refine ⟨h.type, hfits, htyped, h.bitmap, int64Data_set h hn x, hvalid, fun hc => by simp at hc,
      fun _ => ⟨x, x, rfl, rfl, by simp, fun v hv => ?_⟩⟩
    rcases List.mem_append.mp hv with hv | hv
    · exact absurd (hall _ hv) (by simp)
    · simp only [List.mem_singleton, Value.int64.injEq] at hv
      exact hv ▸ Int.le_refl _
  | true =>
    obtain ⟨lo, hi, hmin, hmax, hmem, hle⟩ := h.bounds rfl
    obtain ⟨lo', hhi⟩ := @updateBounds_int64 { col with int64Data := col.int64Data.set pre.length x } lo hi hmin hmax x
    rw [hup] at hhi
    obtain rfl := Option.some.inj hhi
    refine ⟨h.type, hfits, htyped, h.bitmap, int64Data_set h hn x, hvalid, fun hc => by simp at hc,
      fun _ => ⟨lo', _, rfl, rfl, ?_, fun v hv => ?_⟩⟩
    · split
      · simp
      · exact List.mem_append_left _ hmem
    · rcases List.mem_append.mp hv with hv | hv
      · have := hle v hv
        split <;> omega
      · simp only [List.mem_singleton, Value.int64.injEq] at hv
        rw [hv]
        split <;> omega

end

/-- An int64 column stores int64 values only. -/
theorem store_int64 {col col' : Column} {r : Nat} {v : Value} (ht : col.type = .int64)
    (h : col.store r v = some col') : ∃ x, v = .int64 x ∧ col' = { col with int64Data := col.int64Data.set r x } := by
  unfold store at h
  split at h
  case h_2 x htype => exact ⟨x, rfl, (Option.some.inj h).symm⟩
  case h_5 => cases h
  all_goals next htype => rw [ht] at htype; cases htype

/-- The row loop of `Build` on an int64 column. -/
theorem int64To_buildRows (c n : Nat) : ∀ (rows : List Row) (pre : List Value) (col col' : Column) (hb : Bool),
    Int64To n pre col hb → pre.length + rows.length = n → buildRows c rows pre.length col hb = some col' →
    ∃ hb', Int64To n (pre ++ rows.map fun row => row.getD c .null) col' hb' := by
  refine buildRows_invariant (P := Int64To n) c n (fun pre col hb hn h => int64To_null h hn) ?_
  intro pre col hb v col1 col2 hn h _ hstore hup
  obtain ⟨x, rfl, rfl⟩ := store_int64 h.type hstore
  exact int64To_value h hn hup

/-- The finished column over the values `vals`. -/
structure Int64Built (vals : List Value) (col : Column) : Prop where
  type : col.type = .int64
  typed : ∀ v ∈ vals, v.conforms .int64 = true
  data : col.int64Data = vals.map Value.raw
  cells : ∀ i (hi : i < vals.length), col.valueAt i = some vals[i]
  bounds : (col.min = .null ∧ col.max = .null ∧ ∀ v ∈ vals, v = .null) ∨
    ∃ lo hi, col.min = .int64 lo ∧ col.max = .int64 hi ∧ .int64 hi ∈ vals ∧
      ∀ v, .int64 v ∈ vals → widen v.toInt ≤ widen hi.toInt

/-- A value of an int64 column is the one that its array and its bitmap tell. -/
theorem eq_int64_raw {v : Value} (h : v.conforms .int64 = true) (hn : v ≠ .null) : v = .int64 v.raw := by
  cases v <;> simp_all [Value.conforms, Value.raw]

theorem int64Built_of_build {c : Nat} {rows : List Row} {col : Column} (h : build .int64 c rows = some col) :
    Int64Built (rows.map fun row => row.getD c .null) col := by
  obtain ⟨col1, hrows, rfl⟩ := Option.map_eq_some_iff.mp h
  obtain ⟨hb, hto⟩ := int64To_buildRows c rows.length rows [] _ col1 false (int64To_blank rows.length) (by simp) hrows
  rw [List.nil_append] at hto
  generalize hvals : (rows.map fun row => row.getD c .null) = vals at hto
  have hlen : vals.length = rows.length := by rw [← hvals, List.length_map]
  have hdata : col1.int64Data = vals.map Value.raw := by
    rw [hto.data, hlen]
    simp
  refine ⟨hto.type, hto.typed, hdata, fun i hi => ?_, ?_⟩
  · have hval := hto.valid i (by omega)
    rw [List.getElem?_eq_getElem hi] at hval
    show valueAt { col1 with checksum := col1.computeChecksum } i = _
    unfold valueAt
    simp only [hval, hto.type, hdata]
    by_cases hnull : vals[i] = .null
    · simp [hnull]
    · have hraw := eq_int64_raw (hto.typed _ (List.getElem_mem hi)) hnull
      simp only [ne_eq, Option.some.injEq, hnull, not_false_eq_true, decide_true, if_true]
      rw [List.getD_eq_getElem?_getD, List.getElem?_map, List.getElem?_eq_getElem hi, Option.map_some, Option.getD_some,
        ← hraw]
  · cases hb with
    | false => exact Or.inl (hto.noBounds rfl)
    | true => exact Or.inr (hto.bounds rfl)

end Column

namespace Segment

theorem buildColumns_getElem? (rows : List Row) : ∀ (schema : Schema) (c : Nat) (cols : List Column),
    buildColumns rows schema c = some cols → ∀ (i : Nat) (s : ColumnSchema), schema[i]? = some s →
    ∃ col, cols[i]? = some col ∧ Column.build s.type (c + i) rows = some col := by
  intro schema
  induction schema with
  | nil => intro c cols _ i s hs; simp at hs
  | cons s0 schema ih =>
    intro c cols h i s hs
    unfold buildColumns at h
    split at h
    · cases h
    · next col hcol =>
      obtain ⟨rest, hrest, rfl⟩ := Option.map_eq_some_iff.mp h
      cases i with
      | zero =>
        obtain rfl : s0 = s := by simpa using hs
        exact ⟨col, rfl, hcol⟩
      | succ i =>
        obtain ⟨col', hget, hbuild⟩ := ih (c + 1) rest hrest i s (by simpa using hs)
        exact ⟨col', by simpa using hget, by rw [show c + (i + 1) = c + 1 + i by omega]; exact hbuild⟩

/-- An int64 column of a segment that `Build` made. -/
theorem int64Built_of_build {segmentId : Nat} {schema : Schema} {rows : List Row} {seg : Segment} {c : Nat}
    {s : ColumnSchema} (h : build segmentId schema rows = some seg) (hs : schema[c]? = some s) (ht : s.type = .int64) :
    seg.numRows = rows.length ∧ ∃ col, seg.columns[c]? = some col ∧
      col.Int64Built (rows.map fun row => row.getD c .null) := by
  obtain ⟨cols, hcols, rfl⟩ := Option.map_eq_some_iff.mp h
  obtain ⟨col, hget, hbuild⟩ := buildColumns_getElem? rows schema 0 cols hcols c s hs
  rw [ht, Nat.zero_add] at hbuild
  exact ⟨rfl, col, hget, Column.int64Built_of_build hbuild⟩

end Segment

end CoreDB
