import CoreDB.Lib.RunningBounds
import CoreDB.Storage.Int64Column

/-!
# When `CanSkip` may skip

`CanSkip` compares the literal with the column's running min and max.  `CompareValues`
answers 0 when a NaN is involved, so a NaN that comes first stays both bounds, and one
that comes later is in no range and yet "equal" to every literal.
`canSkip_sound_iff`: without NaN a skipped segment has no matching row, whatever the
column type; with NaN exactly the cases of `nanHarmless` are safe.
-/

namespace CoreDB

open RunningBounds

namespace Value

def isNaN : Value → Bool
  | .double d => (doubleKey d).isNone
  | _ => false

/-- A value `CompareValues` accepts beside values of the column type. -/
def comparable : ColumnType → Value → Bool
  | .string, .string _ => true
  | .string, _ => false
  | _, .int32 _ => true
  | _, .int64 _ => true
  | _, .double _ => true
  | _, _ => false

/-- `CompareValues` finds the first below the second. -/
def less (a b : Value) : Bool := compareValues a b == some (-1)

/-- `less`, among values that compare with the column type. -/
def lessIn (t : ColumnType) (a b : Value) : Bool := a.comparable t && b.comparable t && less a b

/-- A value that compares with the column type and is not NaN. -/
def Regular (t : ColumnType) (v : Value) : Prop := v.comparable t = true ∧ v.isNaN = false

theorem comparable_of_conforms {t : ColumnType} {v : Value} (h : v.conforms t = true) (hn : v ≠ .null) :
    v.comparable t = true := by
  cases t <;> cases v <;> first | rfl | exact absurd rfl hn | cases h

theorem ne_null_of_comparable {t : ColumnType} {v : Value} (h : v.comparable t = true) : v ≠ .null := by
  rintro rfl
  cases t <;> cases h

/-! ## The order of `CompareValues` -/

/-- Order key of a number; `none` for NaN and for anything else. -/
def numKey (v : Value) : Option Int := (asDouble v).bind doubleKey

theorem less_string (a b : ByteCodec.Bytes) : less (.string a) (.string b) = decide (a < b) := by
  unfold less compareValues
  by_cases hab : a < b
  · simp [hab]
  · by_cases hba : b < a <;> simp [hab, hba]

/-- `CompareValues` on a column's values and literals, through `less`. -/
theorem compareValues_eq {t : ColumnType} {a b : Value} (ha : a.comparable t = true) (hb : b.comparable t = true) :
    compareValues a b = some (if less a b then -1 else if less b a then 1 else 0) := by
  have hnum : ∀ x y, asDouble a = some x → asDouble b = some y →
      compareValues a b = some (if doubleLt x y then -1 else if doubleLt y x then 1 else 0) →
      compareValues b a = some (if doubleLt y x then -1 else if doubleLt x y then 1 else 0) →
      compareValues a b = some (if less a b then -1 else if less b a then 1 else 0) := by
    intro x y hx hy hab hba
    rw [less, less, hab, hba]
    cases hxy : doubleLt x y with
    | true => simp
    | false => cases hyx : doubleLt y x <;> simp
  cases t with
  | string =>
    cases a <;> cases hb' : b <;> simp only [hb', comparable, Bool.false_eq_true] at ha hb
    next s u =>
      rw [less_string, less_string]
      simp [compareValues]
  | _ =>
    cases a <;> cases b <;> simp only [comparable, Bool.false_eq_true] at ha hb <;>
      exact hnum _ _ rfl rfl rfl rfl

theorem numKey_of_regular {t : ColumnType} (ht : t ≠ .string) {v : Value} (h : v.Regular t) :
    ∃ x, v.numKey = some x := by
  obtain ⟨hc, hn⟩ := h
  cases v with
  | int32 v =>
    have hle : v.toInt.natAbs ≤ 2 ^ 63 := by
      have h1 := BitVec.toInt_lt (x := v)
      have h2 := BitVec.le_toInt (x := v)
      omega
    exact ⟨_, doubleKey_intToDouble hle⟩
  | int64 v => exact ⟨_, doubleKey_intToDouble (natAbs_toInt_le v)⟩
  | double d => exact Option.isSome_iff_exists.mp (by simpa [isNaN, numKey, asDouble] using hn)
  | string s => cases t <;> first | exact absurd rfl ht | cases hc
  | null => cases t <;> cases hc

theorem less_num {t : ColumnType} (ht : t ≠ .string) {a b : Value} (ha : a.comparable t = true)
    (hb : b.comparable t = true) :
    less a b = true ↔ ∃ x y, a.numKey = some x ∧ b.numKey = some y ∧ x < y := by
  have hnum : ∀ u v, compareValues a b = some (if doubleLt u v then -1 else if doubleLt v u then 1 else 0) →
      (less a b = true ↔ ∃ x y, doubleKey u = some x ∧ doubleKey v = some y ∧ x < y) := by
    intro u v hcmp
    have hlt : less a b = doubleLt u v := by
      rw [less, hcmp]
      cases doubleLt u v with
      | true => rfl
      | false => cases doubleLt v u <;> rfl
    rw [hlt, doubleLt]
    cases doubleKey u <;> cases doubleKey v <;> simp
  cases t <;> first
    | exact absurd rfl ht
    | (cases a <;> cases b <;> simp only [comparable, Bool.false_eq_true] at ha hb <;> exact hnum _ _ rfl)

theorem eq_string_of_comparable {v : Value} (h : v.comparable .string = true) : ∃ s, v = .string s := by
  cases v <;> first | exact ⟨_, rfl⟩ | cases h

theorem lessIn_iff {t : ColumnType} {a b : Value} :
    lessIn t a b = true ↔ (a.comparable t = true ∧ b.comparable t = true) ∧ less a b = true := by
  rw [lessIn, Bool.and_eq_true, Bool.and_eq_true]

theorem not_isNaN_of_numKey {v : Value} {x : Int} (h : v.numKey = some x) : v.isNaN = false := by
  cases v with
  | double d => rw [isNaN, show doubleKey d = some x from h]; rfl
  | _ => rfl

/-- Numbers that are not NaN, and strings, are ordered; NaN is below and above nothing. -/
theorem regularOrder (t : ColumnType) : RegularOrder (Regular t) (lessIn t) := by
  by_cases ht : t = .string
  · subst ht
    refine ⟨fun h => ?_, fun h => ?_, fun b h hb => ?_⟩
    · obtain ⟨⟨ha, hb⟩, -⟩ := lessIn_iff.mp h
      obtain ⟨s, rfl⟩ := eq_string_of_comparable ha
      obtain ⟨u, rfl⟩ := eq_string_of_comparable hb
      exact ⟨⟨rfl, rfl⟩, rfl, rfl⟩
    · obtain ⟨⟨ha, hb⟩, hlt⟩ := lessIn_iff.mp h
      obtain ⟨s, rfl⟩ := eq_string_of_comparable ha
      obtain ⟨u, rfl⟩ := eq_string_of_comparable hb
      rw [less_string, decide_eq_true_iff] at hlt
      rw [lessIn, less_string, decide_eq_false (List.lt_asymm hlt), Bool.and_false]
    · obtain ⟨⟨ha, hc⟩, hlt⟩ := lessIn_iff.mp h
      obtain ⟨s, rfl⟩ := eq_string_of_comparable ha
      obtain ⟨u, rfl⟩ := eq_string_of_comparable hc
      obtain ⟨v, rfl⟩ := eq_string_of_comparable hb.1
      rw [less_string, decide_eq_true_iff] at hlt
      simp only [lessIn, comparable, Bool.true_and, less_string, decide_eq_true_iff]
      by_cases hsv : s < v
      · exact Or.inl hsv
      · exact Or.inr (List.lt_of_le_of_lt (List.not_lt.mp hsv) hlt)
  · refine ⟨fun h => ?_, fun h => ?_, fun b h hb => ?_⟩
    · obtain ⟨⟨ha, hb⟩, hlt⟩ := lessIn_iff.mp h
      obtain ⟨x, y, hx, hy, -⟩ := (less_num ht ha hb).mp hlt
      exact ⟨⟨ha, not_isNaN_of_numKey hx⟩, hb, not_isNaN_of_numKey hy⟩
    · obtain ⟨⟨ha, hb⟩, hlt⟩ := lessIn_iff.mp h
      obtain ⟨x, y, hx, hy, hxy⟩ := (less_num ht ha hb).mp hlt
      rw [Bool.eq_false_iff]
      intro hgt
      obtain ⟨y', x', hy', hx', hyx⟩ := (less_num ht hb ha).mp (lessIn_iff.mp hgt).2
      rw [hx] at hx'
      rw [hy] at hy'
      have := Option.some.inj hx'
      have := Option.some.inj hy'
      omega
    · obtain ⟨⟨ha, hc⟩, hlt⟩ := lessIn_iff.mp h
      obtain ⟨x, z, hx, hz, hxz⟩ := (less_num ht ha hc).mp hlt
      obtain ⟨y, hy⟩ := numKey_of_regular ht hb
      rw [lessIn_iff, lessIn_iff, less_num ht ha hb.1, less_num ht hb.1 hc]
      by_cases hxy : x < y
      · exact Or.inl ⟨⟨ha, hb.1⟩, x, y, hx, hy, hxy⟩
      · exact Or.inr ⟨⟨hb.1, hc⟩, y, z, hy, hz, by omega⟩

/-- `CompareValues` below zero, and above. -/
theorem compareValues_sign {t : ColumnType} {a b : Value} (ha : a.comparable t = true) (hb : b.comparable t = true) :
    ∃ c, compareValues a b = some c ∧ decide (c < 0) = less a b ∧ decide (0 < c) = less b a := by
  refine ⟨_, compareValues_eq ha hb, ?_, ?_⟩
  · cases hab : less a b with
    | true => rfl
    | false => cases less b a <;> rfl
  · cases hab : less a b with
    | true =>
      have hba : lessIn t b a = false := (regularOrder t).asymm (lessIn_iff.mpr ⟨⟨ha, hb⟩, hab⟩)
      rw [lessIn, ha, hb, Bool.true_and, Bool.true_and] at hba
      rw [hba]
      rfl
    | false => cases less b a <;> rfl

end Value

/-! ## Min and max of a built column -/

/-- The values `Build` compares. -/
def nonNulls (vals : List Value) : List Value := vals.filter fun v => decide (v ≠ .null)

theorem mem_nonNulls {vals : List Value} {v : Value} : v ∈ nonNulls vals ↔ v ∈ vals ∧ v ≠ .null := by
  simp [nonNulls]

theorem nonNulls_concat_null (vals : List Value) : nonNulls (vals ++ [.null]) = nonNulls vals := by
  simp [nonNulls]

theorem nonNulls_concat (vals : List Value) {v : Value} (hv : v ≠ .null) :
    nonNulls (vals ++ [v]) = nonNulls vals ++ [v] := by
  simp [nonNulls, hv]

namespace Column

/-- Min and max of a column of type `t` after the values `pre`. -/
structure RangeTo (t : ColumnType) (pre : List Value) (col : Column) (haveBounds : Bool) : Prop where
  type : col.type = t
  typed : ∀ v ∈ nonNulls pre, v.comparable t = true
  noBounds : haveBounds = false → col.min = .null ∧ col.max = .null ∧ nonNulls pre = []
  bounds : haveBounds = true → bounds (Value.lessIn t) (nonNulls pre) = some (col.min, col.max)

/-- `updateBounds` widens the range. -/
theorem updateBounds_widen {t : ColumnType} {col : Column} {v : Value} (hv : v.comparable t = true)
    (hmin : col.min.comparable t = true) (hmax : col.max.comparable t = true) :
    col.updateBounds v true = some { col with
      min := (RunningBounds.widen (Value.lessIn t) (col.min, col.max) v).1
      max := (RunningBounds.widen (Value.lessIn t) (col.min, col.max) v).2 } := by
  obtain ⟨c1, hc1, hlow, -⟩ := Value.compareValues_sign hv hmin
  obtain ⟨c2, hc2, -, hhigh⟩ := Value.compareValues_sign hv hmax
  have h1 : Value.lessIn t v col.min = decide (c1 < 0) := by rw [Value.lessIn, hv, hmin, hlow]; rfl
  have h2 : Value.lessIn t col.max v = decide (0 < c2) := by rw [Value.lessIn, hv, hmax, hhigh]; rfl
  simp only [RunningBounds.widen, h1, h2, updateBounds, if_true, hc1, Option.map_some, Option.bind_eq_bind, Option.bind_some]
  by_cases hneg : c1 < 0 <;> by_cases hpos : 0 < c2 <;> simp [hneg, hpos, hc2]

theorem rangeTo_value {t : ColumnType} {pre : List Value} {col col1 col2 : Column} {hb : Bool} {r : Nat} {v : Value}
    (h : RangeTo t pre col hb) (hnn : v ≠ .null) (hstore : col.store r v = some col1)
    (hup : col1.updateBounds v hb = some col2) : RangeTo t (pre ++ [v]) col2 true := by
  obtain ⟨hconf, htype, -, hmin, hmax⟩ := store_frame hstore
  have hcmp : v.comparable t = true := Value.comparable_of_conforms (h.type ▸ hconf) hnn
  have htyped : ∀ u ∈ nonNulls (pre ++ [v]), u.comparable t = true := by
    intro u hu
    rw [nonNulls_concat pre hnn] at hu
    rcases List.mem_append.mp hu with hu | hu
    · exact h.typed u hu
    · exact List.mem_singleton.mp hu ▸ hcmp
  cases hb with
  | false =>
    obtain ⟨-, -, hnone⟩ := h.noBounds rfl
    cases hup
    refine ⟨htype.trans h.type, htyped, fun hf => (by cases hf), fun _ => ?_⟩
    rw [nonNulls_concat pre hnn, hnone]
    rfl
  | true =>
    have hbounds := h.bounds rfl
    obtain ⟨hlow, hhigh⟩ := mem_bounds _ _ hbounds
    rw [updateBounds_widen hcmp (hmin ▸ h.typed _ hlow) (hmax ▸ h.typed _ hhigh)] at hup
    cases hup
    refine ⟨htype.trans h.type, htyped, fun hf => (by cases hf), fun _ => ?_⟩
    rw [nonNulls_concat pre hnn, bounds_concat, hbounds, hmin, hmax]
    rfl

/-- The range of a column that `Build` made. -/
theorem range_of_build {t : ColumnType} {c : Nat} {rows : List Row} {col : Column} (h : build t c rows = some col) :
    ∃ hb, RangeTo t (rows.map fun row => row.getD c .null) col hb := by
  obtain ⟨col1, hrows, rfl⟩ := Option.map_eq_some_iff.mp h
  have hblank : RangeTo t [] (blank t rows.length) false := by
    refine ⟨?_, fun v hv => (by cases hv), fun _ => ?_, fun hf => (by cases hf)⟩ <;> cases t
    all_goals first | rfl | exact ⟨rfl, rfl, rfl⟩
  obtain ⟨hb, hto⟩ := buildRows_invariant (P := RangeTo t) c rows.length
    (fun pre col hb _ h => ⟨h.type, by rw [nonNulls_concat_null]; exact h.typed,
      by rw [nonNulls_concat_null]; exact h.noBounds, by rw [nonNulls_concat_null]; exact h.bounds⟩)
    (fun pre col hb v col1 col2 _ h hnn hstore hup => rangeTo_value h hnn hstore hup)
    rows [] _ col1 false hblank (by simp) hrows
  rw [List.nil_append] at hto
  exact ⟨hb, hto.type, hto.typed, hto.noBounds, hto.bounds⟩

/-! ## Cells of a string column

A column of 2³² distinct strings or more reuses codes, so its cells need not read back.  What `CanSkip`
needs is weaker: each one reads as some string of the column. -/

/-- A string column of `n` rows after the values `pre`. -/
structure StringTo (n : Nat) (pre : List Value) (col : Column) : Prop where
  type : col.type = .string
  bitmap : col.validity.bytes.length = (n + 7) / 8
  codes : col.stringCodes.length = n
  interned : ∀ s code, col.dictionary.codeOf.lookup s = some code → code.toNat < col.dictionary.values.length
  coded : ∀ r, r < pre.length → col.validity.isValid r = true →
    (col.stringCodes.getD r 0#32).toNat < col.dictionary.values.length
  seen : ∀ s ∈ col.dictionary.values, .string s ∈ pre

theorem stringTo_null {n : Nat} {pre : List Value} {col : Column} (hn : pre.length < n) (h : StringTo n pre col) :
    StringTo n (pre ++ [.null]) { col with validity := col.validity.setValid pre.length false } where
  type := h.type
  bitmap := by simp [h.bitmap]
  codes := h.codes
  interned := h.interned
  coded := fun r hr hval => by
    rw [Bitmap.isValid_setValid _ _ _ _ (by rw [h.bitmap]; omega)] at hval
    by_cases heq : r = pre.length
    · simp [heq] at hval
    · rw [if_neg heq] at hval
      exact h.coded r (by simp at hr; omega) hval
  seen := fun s hs => List.mem_append_left _ (h.seen s hs)

/-- A string column stores strings only. -/
theorem store_string {col col' : Column} {r : Nat} {v : Value} (ht : col.type = .string)
    (h : col.store r v = some col') : ∃ s, v = .string s ∧ col' = { col with
      stringCodes := col.stringCodes.set r (col.dictionary.internOrGet s).1
      dictionary := (col.dictionary.internOrGet s).2 } := by
  unfold store at h
  split at h
  case h_4 s htype => exact ⟨s, rfl, (Option.some.inj h).symm⟩
  case h_5 => cases h
  all_goals next htype => rw [ht] at htype; cases htype

/-- Every code is below the dictionary's size, also once codes are reused. -/
theorem internOrGet_coded (d : Dictionary) (s : ByteCodec.Bytes)
    (hd : ∀ u code, d.codeOf.lookup u = some code → code.toNat < d.values.length) :
    (d.internOrGet s).1.toNat < (d.internOrGet s).2.values.length ∧
      d.values.length ≤ (d.internOrGet s).2.values.length ∧
      (∀ u code, (d.internOrGet s).2.codeOf.lookup u = some code → code.toNat < (d.internOrGet s).2.values.length) ∧
      ∀ u ∈ (d.internOrGet s).2.values, u ∈ d.values ∨ u = s := by
  unfold Dictionary.internOrGet
  cases hlook : d.codeOf.lookup s with
  | some code => exact ⟨hd s code hlook, Nat.le_refl _, hd, fun u hu => Or.inl hu⟩
  | none =>
    have hlast : (BitVec.ofNat 32 d.values.length).toNat < d.values.length + 1 := by
      rw [BitVec.toNat_ofNat]
      exact Nat.lt_succ_of_le (Nat.mod_le _ _)
    refine ⟨by simpa using hlast, by simp, fun u code hu => ?_, fun u hu => by simpa using hu⟩
    simp only [List.lookup_append, List.length_append, List.length_singleton] at hu ⊢
    cases hu' : d.codeOf.lookup u with
    | some code' =>
      rw [hu', Option.some_or, Option.some.injEq] at hu
      exact hu ▸ Nat.lt_succ_of_lt (hd u code' hu')
    | none =>
      rw [hu', Option.none_or, List.lookup_cons] at hu
      split at hu
      · exact Option.some.inj hu ▸ hlast
      · cases hu

theorem stringTo_value {n : Nat} {pre : List Value} {col col1 col2 : Column} {hb : Bool} {v : Value}
    (hn : pre.length < n) (h : StringTo n pre col) (hstore : col.store pre.length v = some col1)
    (hup : col1.updateBounds v hb = some col2) : StringTo n (pre ++ [v]) col2 := by
  obtain ⟨lo, hi, rfl⟩ := updateBounds_frame hup
  obtain ⟨s, rfl, rfl⟩ := store_string h.type hstore
  obtain ⟨hcode, hgrow, hinterned, hseen⟩ := internOrGet_coded col.dictionary s h.interned
  refine ⟨h.type, h.bitmap, by simp [h.codes], hinterned, fun r hr hval => ?_, fun u hu => ?_⟩
  · simp only at hval ⊢
    rw [getD_set _ _ _ _ _ (by rw [h.codes]; exact hn)]
    by_cases heq : r = pre.length
    · rw [if_pos heq]
      exact hcode
    · rw [if_neg heq]
      exact Nat.lt_of_lt_of_le (h.coded r (by simp at hr; omega) hval) hgrow
  · rcases hseen u hu with hu | rfl
    · exact List.mem_append_left _ (h.seen u hu)
    · simp

theorem string_cells_of_build {c : Nat} {rows : List Row} {col : Column} (h : build .string c rows = some col)
    {r : Nat} (hr : r < rows.length) :
    ∃ v, col.valueAt r = some v ∧ (v = .null ∨ v ∈ rows.map fun row => row.getD c .null) := by
  obtain ⟨col1, hrows, rfl⟩ := Option.map_eq_some_iff.mp h
  have hblank : StringTo rows.length [] (blank .string rows.length) :=
    ⟨rfl, Bitmap.length_new rows.length true, by simp [blank], fun s code hs => (by cases hs),
      fun r hr => (by cases hr), fun s hs => (by cases hs)⟩
  obtain ⟨-, hto⟩ := buildRows_invariant (P := fun pre col _ => StringTo rows.length pre col) c rows.length
    (fun pre col hb hn h => stringTo_null hn h)
    (fun pre col hb v col1 col2 hn h _ hstore hup => stringTo_value hn h hstore hup)
    rows [] _ col1 false hblank (by simp) hrows
  rw [List.nil_append] at hto
  show ∃ v, col1.valueAt r = some v ∧ _
  unfold valueAt
  rw [hto.type]
  by_cases hval : col1.validity.isValid r = true
  · have hcode := hto.coded r (by simpa using hr) hval
    rw [if_pos hval]
    refine ⟨.string (col1.dictionary.values[(col1.stringCodes.getD r 0#32).toNat]), ?_,
      Or.inr (hto.seen _ (List.getElem_mem hcode))⟩
    rw [Dictionary.valueOf, List.getElem?_eq_getElem hcode]
    rfl
  · rw [if_neg hval]
    exact ⟨.null, rfl, Or.inl rfl⟩

end Column

/-! ## Pruning against evaluation -/

/-- `CanSkip` on a column with bounds `lo` and `hi`. -/
def skips (op : PredicateOp) (literal lo hi : Value) : Bool :=
  match op with
  | .eq => literal.less lo || hi.less literal
  | .gt => !literal.less hi
  | .ge => hi.less literal
  | .lt => !lo.less literal
  | .le => literal.less lo
  | .ne => false

/-- `EvaluatePredicate` on a value that compares with the literal. -/
def passes (op : PredicateOp) (v literal : Value) : Bool :=
  match op with
  | .eq => !v.less literal && !literal.less v
  | .ne => v.less literal || literal.less v
  | .lt => v.less literal
  | .le => !literal.less v
  | .gt => literal.less v
  | .ge => !v.less literal

theorem evaluatePredicate_eq {t : ColumnType} {v literal : Value} (hv : v.comparable t = true)
    (hlit : literal.comparable t = true) (op : PredicateOp) :
    evaluatePredicate v op literal = some (passes op v literal) := by
  obtain ⟨c, hc, hneg, hpos⟩ := Value.compareValues_sign hv hlit
  rw [evaluatePredicate, if_neg (Value.ne_null_of_comparable hv), hc, Option.map_some]
  rw [Option.some.injEq, Bool.eq_iff_iff]
  cases op <;> simp only [passes, ← hneg, ← hpos, Bool.and_eq_true, Bool.or_eq_true, Bool.not_eq_true',
    decide_eq_false_iff_not, decide_eq_true_iff] <;> omega

theorem canSkip_eq {t : ColumnType} {seg : Segment} {c : Nat} {col : Column} (hcol : seg.columns[c]? = some col)
    (hmin : col.min.comparable t = true) (hmax : col.max.comparable t = true) {literal : Value}
    (hlit : literal.comparable t = true) (op : PredicateOp) :
    seg.canSkip c op literal = some (skips op literal col.min col.max) := by
  obtain ⟨c1, hc1, hneg1, hpos1⟩ := Value.compareValues_sign hlit hmin
  obtain ⟨c2, hc2, hneg2, hpos2⟩ := Value.compareValues_sign hlit hmax
  have hnull : ¬ (col.min = .null ∨ col.max = .null) :=
    not_or.mpr ⟨Value.ne_null_of_comparable hmin, Value.ne_null_of_comparable hmax⟩
  rw [Segment.canSkip, hcol]
  simp only [if_neg hnull, hc1, hc2]
  rw [Option.some.injEq, Bool.eq_iff_iff]
  cases op <;> simp only [skips, ← hneg1, ← hpos1, ← hneg2, ← hpos2, Bool.or_eq_true, Bool.not_eq_true',
    decide_eq_false_iff_not, decide_eq_true_iff, reduceCtorEq] <;> omega

/-- The column's first value is NaN. -/
def firstIsNaN (vals : List Value) : Bool := ((nonNulls vals).headD .null).isNaN

/-- Where NaN does no harm to pruning: there is none, or

* `<` and `>`: the first value is a number, or no value passes;
* `=`, `<=` and `>=`: the first value is NaN, or the literal is not past all numbers of the column on the side
  (for `=`, on either side) that the predicate excludes. -/
def nanHarmless (vals : List Value) (op : PredicateOp) (literal : Value) : Prop :=
  literal.isNaN = true ∨ (∀ v ∈ nonNulls vals, v.isNaN = false) ∨
    match op with
    | .ne => True
    | .gt => firstIsNaN vals = false ∨ ∀ v ∈ nonNulls vals, literal.less v = false
    | .lt => firstIsNaN vals = false ∨ ∀ v ∈ nonNulls vals, v.less literal = false
    | .ge => firstIsNaN vals = true ∨ ∃ v ∈ nonNulls vals, v.isNaN = false ∧ v.less literal = false
    | .le => firstIsNaN vals = true ∨ ∃ v ∈ nonNulls vals, v.isNaN = false ∧ literal.less v = false
    | .eq => firstIsNaN vals = true ∨
      (∃ v ∈ nonNulls vals, v.isNaN = false ∧ v.less literal = false) ∧
        ∃ v ∈ nonNulls vals, v.isNaN = false ∧ literal.less v = false

theorem Value.less_of_isNaN {t : ColumnType} {a b : Value} (ha : a.comparable t = true) (hb : b.comparable t = true)
    (h : a.isNaN = true ∨ b.isNaN = true) : a.less b = false := by
  rw [Bool.eq_false_iff]
  intro hlt
  obtain ⟨hra, hrb⟩ := (regularOrder t).domain (lessIn_iff.mpr ⟨⟨ha, hb⟩, hlt⟩)
  rcases h with h | h
  · rw [hra.2] at h
    cases h
  · rw [hrb.2] at h
    cases h

/-- A test that NaN fails and that all numbers pass is passed by all values only without NaN. -/
theorem all_numbers_imp_all_iff {l : List Value} {p q : Value → Bool} (hpq : ∀ v, p v = true → q v = true)
    (hq : ∀ v ∈ l, v.isNaN = true → q v = false) :
    ((∀ v ∈ l, v.isNaN = false → p v = true) → ∀ v ∈ l, q v = true) ↔
      (∀ v ∈ l, v.isNaN = false) ∨ ∃ v ∈ l, v.isNaN = false ∧ p v = false := by
  constructor
  · intro h
    by_cases hall : ∀ v ∈ l, v.isNaN = false → p v = true
    · left
      intro v hv
      rw [Bool.eq_false_iff]
      intro hn
      have := h hall v hv
      rw [hq v hv hn] at this
      cases this
    · right
      push Not at hall
      obtain ⟨v, hv, hn, hp⟩ := hall
      exact ⟨v, hv, hn, Bool.eq_false_iff.mpr hp⟩
  · rintro (h | ⟨v, hv, hn, hp⟩) hall u hu
    · exact hpq u (hall u hu (h u hu))
    · rw [hall v hv hn] at hp
      cases hp

section
variable {t : ColumnType} {vals : List Value} {literal lo hi : Value}
  (htyped : ∀ v ∈ nonNulls vals, v.comparable t = true) (hlit : literal.comparable t = true)
include htyped hlit

/-- Nothing is below or above a NaN literal. -/
theorem skips_sound_of_nan_literal (hlo : lo ∈ nonNulls vals) (hhi : hi ∈ nonNulls vals)
    (hnan : literal.isNaN = true) (op : PredicateOp) (hskip : skips op literal lo hi = true) :
    ∀ v ∈ nonNulls vals, passes op v literal = false := by
  intro v hv
  have hbelow : ∀ u ∈ nonNulls vals, literal.less u = false := fun u hu =>
    Value.less_of_isNaN hlit (htyped u hu) (Or.inl hnan)
  have habove : ∀ u ∈ nonNulls vals, u.less literal = false := fun u hu =>
    Value.less_of_isNaN (htyped u hu) hlit (Or.inr hnan)
  cases op <;> simp_all [skips, passes]

/-- With a NaN first, both bounds are NaN: `<` and `>` always skip, the others never. -/
theorem skips_sound_of_nan_first {x : Value} {xs : List Value} (hvals : nonNulls vals = x :: xs)
    (hnan : x.isNaN = true) (hreg : literal.isNaN = false) (op : PredicateOp) :
    (skips op literal x x = true → ∀ v ∈ nonNulls vals, passes op v literal = false) ↔
      nanHarmless vals op literal := by
  have hx : x ∈ nonNulls vals := hvals ▸ List.mem_cons_self
  have hbelow : literal.less x = false := Value.less_of_isNaN hlit (htyped x hx) (Or.inr hnan)
  have habove : x.less literal = false := Value.less_of_isNaN (htyped x hx) hlit (Or.inl hnan)
  have hsome : ¬ ∀ v ∈ nonNulls vals, v.isNaN = false := by
    intro hall
    rw [hall x hx] at hnan
    cases hnan
  have hfirst : firstIsNaN vals = true := by rw [firstIsNaN, hvals]; exact hnan
  unfold nanHarmless
  cases op <;> simp [skips, passes, hbelow, habove, hsome, hfirst, hreg]

/-- With a number first, the bounds are those of the column's numbers. -/
theorem skips_sound_of_number_first (henc : Encloses (Value.Regular t) (Value.lessIn t) (nonNulls vals) (lo, hi))
    (hfirst : firstIsNaN vals = false) (hreg : literal.isNaN = false) (op : PredicateOp) :
    (skips op literal lo hi = true → ∀ v ∈ nonNulls vals, passes op v literal = false) ↔
      nanHarmless vals op literal := by
  have hbelow : ∀ v ∈ nonNulls vals, Value.lessIn t literal v = literal.less v := fun v hv => by
    rw [Value.lessIn, hlit, htyped v hv]; rfl
  have habove : ∀ v ∈ nonNulls vals, Value.lessIn t v literal = v.less literal := fun v hv => by
    rw [Value.lessIn, hlit, htyped v hv]; rfl
  have hnanBelow : ∀ v ∈ nonNulls vals, v.isNaN = true → literal.less v = false := fun v hv hn =>
    Value.less_of_isNaN hlit (htyped v hv) (Or.inr hn)
  have hnanAbove : ∀ v ∈ nonNulls vals, v.isNaN = true → v.less literal = false := fun v hv hn =>
    Value.less_of_isNaN (htyped v hv) hlit (Or.inl hn)
  have hlow : literal.less lo = true ↔ ∀ v ∈ nonNulls vals, v.isNaN = false → literal.less v = true := by
    rw [← hbelow lo henc.low.2, henc.lt_low_iff (Value.regularOrder t) literal]
    exact forall₂_congr fun v hv => by rw [hbelow v hv, Value.Regular, htyped v hv]; simp
  have hhigh : hi.less literal = true ↔ ∀ v ∈ nonNulls vals, v.isNaN = false → v.less literal = true := by
    rw [← habove hi henc.high.2, henc.high_lt_iff (Value.regularOrder t) literal]
    exact forall₂_congr fun v hv => by rw [habove v hv, Value.Regular, htyped v hv]; simp
  unfold nanHarmless
  simp only [hreg, hfirst, Bool.false_eq_true, false_or]
  cases op with
  | ne => simp [skips]
  | gt =>
    -- below some value is below the high bound
    have hsome : ∀ v ∈ nonNulls vals, literal.less v = true → literal.less hi = true := fun v hv hlt => by
      rw [← hbelow hi henc.high.2]
      exact (henc.lt_high_iff (Value.regularOrder t) literal).mpr ⟨v, hv, (hbelow v hv).trans hlt⟩
    simp only [skips, passes, true_or, or_true, iff_true]
    intro hskip v hv
    rw [Bool.eq_false_iff]
    intro hlt
    rw [hsome v hv hlt] at hskip
    cases hskip
  | lt =>
    have hsome : ∀ v ∈ nonNulls vals, v.less literal = true → lo.less literal = true := fun v hv hlt => by
      rw [← habove lo henc.low.2]
      exact (henc.low_lt_iff (Value.regularOrder t) literal).mpr ⟨v, hv, (habove v hv).trans hlt⟩
    simp only [skips, passes, true_or, or_true, iff_true]
    intro hskip v hv
    rw [Bool.eq_false_iff]
    intro hlt
    rw [hsome v hv hlt] at hskip
    cases hskip
  | ge =>
    simp only [skips, passes, hhigh, Bool.not_eq_false']
    exact all_numbers_imp_all_iff (fun v h => h) hnanAbove
  | le =>
    simp only [skips, passes, hlow, Bool.not_eq_false']
    exact all_numbers_imp_all_iff (fun v h => h) hnanBelow
  | eq =>
    have hnan : ∀ v ∈ nonNulls vals, v.isNaN = true → (v.less literal || literal.less v) = false :=
      fun v hv hn => by rw [hnanAbove v hv hn, hnanBelow v hv hn]; rfl
    have hleft := all_numbers_imp_all_iff (p := fun v => v.less literal)
      (q := fun v => v.less literal || literal.less v) (fun v h => by simp [h]) hnan
    have hright := all_numbers_imp_all_iff (p := fun v => literal.less v)
      (q := fun v => v.less literal || literal.less v) (fun v h => by simp [h]) hnan
    have hpass : ∀ v, passes .eq v literal = false ↔ (v.less literal || literal.less v) = true := fun v => by
      simp only [passes]
      cases v.less literal <;> cases literal.less v <;> simp
    simp only [skips, Bool.or_eq_true, hlow, hhigh, hpass, or_imp]
    rw [and_comm, or_and_left]
    simp only [← Bool.or_eq_true]
    exact and_congr hleft hright

/-- Pruning on the bounds of a column's values. -/
theorem skips_sound_iff (hb : bounds (Value.lessIn t) (nonNulls vals) = some (lo, hi)) (op : PredicateOp) :
    (skips op literal lo hi = true → ∀ v ∈ nonNulls vals, passes op v literal = false) ↔
      nanHarmless vals op literal := by
  cases hreg : literal.isNaN with
  | true =>
    obtain ⟨hlo, hhi⟩ := mem_bounds _ _ hb
    exact iff_of_true (skips_sound_of_nan_literal htyped hlit hlo hhi hreg op) (Or.inl hreg)
  | false =>
    cases hvals : nonNulls vals with
    | nil => rw [hvals] at hb; cases hb
    | cons x xs =>
      have hx : x.comparable t = true := htyped x (hvals ▸ List.mem_cons_self)
      rw [← hvals]
      cases hnan : x.isNaN with
      | true =>
        have hirr : ¬ Value.Regular t x := fun hr => by rw [hr.2] at hnan; cases hnan
        rw [hvals, bounds_of_irregular (Value.regularOrder t) xs hirr, Option.some.injEq, Prod.mk.injEq] at hb
        obtain ⟨rfl, rfl⟩ := hb
        exact skips_sound_of_nan_first htyped hlit hvals hnan hreg op
      | false =>
        obtain ⟨b, hb', henc⟩ := bounds_of_regular (Value.regularOrder t) xs ⟨hx, hnan⟩
        rw [← hvals] at hb' henc
        rw [hb, Option.some.injEq] at hb'
        subst hb'
        have hfirst : firstIsNaN vals = false := by rw [firstIsNaN, hvals]; exact hnan
        exact skips_sound_of_number_first htyped hlit henc hfirst hreg op

end

/-- The cell of column `c` in row `r`. -/
def Segment.cellAt (seg : Segment) (c r : Nat) : Option Value := seg.columns[c]?.bind fun col => col.valueAt r

namespace Column

/-- The cells of a built column: each is NULL or a value of the column, and they are the column's values
unless it is a string column. -/
theorem cells_of_build {schema : Schema} {rows : List Row} (hconf : ∀ row ∈ rows, rowConforms schema row = true)
    {c : Nat} {s : ColumnSchema} (hs : schema[c]? = some s) {col : Column} (h : build s.type c rows = some col) :
    (∀ r, r < rows.length →
        ∃ v, col.valueAt r = some v ∧ (v = .null ∨ v ∈ rows.map fun row => row.getD c .null)) ∧
      (s.type ≠ .string → ∀ v ∈ rows.map fun row => row.getD c .null,
        ∃ r, r < rows.length ∧ col.valueAt r = some v) := by
  obtain ⟨hc, hget⟩ := List.getElem?_eq_some_iff.mp hs
  obtain ⟨hcol, htyp⟩ := Segment.rows_column schema rows hconf c hc
  rw [hget] at htyp
  by_cases ht : s.type = .string
  · exact ⟨fun r hr => string_cells_of_build (ht ▸ h) hr, fun hne => absurd ht hne⟩
  · obtain ⟨col', hbuild, -, hcells⟩ := build_column_spec s.type c rows _ (fun hst => absurd hst ht) hcol htyp
    rw [h, Option.some.injEq] at hbuild
    subst hbuild
    refine ⟨fun r hr => ?_, fun _ v hv => ?_⟩
    · have hr' : r < (rows.map fun row => row.getD c .null).length := by simpa using hr
      exact ⟨_, hcells r hr', Or.inr (List.getElem_mem hr')⟩
    · obtain ⟨r, hr, rfl⟩ := List.getElem_of_mem hv
      exact ⟨r, by simpa using hr, hcells r hr⟩

end Column

/-- **Skipping is safe** for a segment of conforming rows exactly where NaN does no harm: then, and only then,
no row of a column that `CanSkip` skips passes the predicate. -/
theorem canSkip_sound_iff {segmentId : Nat} {schema : Schema} {rows : List Row} {seg : Segment}
    (hconf : ∀ row ∈ rows, rowConforms schema row = true) (hbuild : Segment.build segmentId schema rows = some seg)
    {c : Nat} {s : ColumnSchema} (hs : schema[c]? = some s) (op : PredicateOp) {literal : Value}
    (hlit : literal.comparable s.type = true) :
    (seg.canSkip c op literal = some true →
      ∀ r, r < seg.numRows → ∃ v, seg.cellAt c r = some v ∧ evaluatePredicate v op literal = some false) ↔
      nanHarmless (rows.map fun row => row.getD c .null) op literal := by
  obtain ⟨cols, hcols, rfl⟩ := Option.map_eq_some_iff.mp hbuild
  obtain ⟨col, hget, hcol⟩ := Segment.buildColumns_getElem? rows schema 0 cols hcols c s hs
  rw [Nat.zero_add] at hcol
  obtain ⟨hb, hrange⟩ := Column.range_of_build hcol
  obtain ⟨hcells, hback⟩ := Column.cells_of_build hconf hs hcol
  have hcellAt : ∀ r, Segment.cellAt { segmentId, numRows := rows.length, schema, columns := cols } c r =
      col.valueAt r := fun r => by rw [Segment.cellAt, hget]; rfl
  simp only [hcellAt]
  generalize (rows.map fun row => row.getD c .null) = vals at hrange hcells hback ⊢
  cases hb with
  | false =>
    obtain ⟨hmin, -, hnone⟩ := hrange.noBounds rfl
    have hno : nanHarmless vals op literal := Or.inr (Or.inl fun v hv => by rw [hnone] at hv; cases hv)
    refine iff_of_true (fun hskip => ?_) hno
    simp [Segment.canSkip, hget, hmin] at hskip
  | true =>
    have hbounds := hrange.bounds rfl
    obtain ⟨hlo, hhi⟩ := mem_bounds _ _ hbounds
    rw [canSkip_eq hget (hrange.typed _ hlo) (hrange.typed _ hhi) hlit op, Option.some.injEq,
      ← skips_sound_iff hrange.typed hlit hbounds op]
    refine ⟨fun h hskip v hv => ?_, fun h hskip r hr => ?_⟩
    · by_cases ht : s.type = .string
      · -- a string is never NaN, so there is nothing to lose here
        refine (skips_sound_iff hrange.typed hlit hbounds op).mpr (Or.inr (Or.inl fun u hu => ?_)) hskip v hv
        have hu' := hrange.typed u hu
        rw [ht] at hu'
        obtain ⟨b, rfl⟩ := Value.eq_string_of_comparable hu'
        rfl
      · obtain ⟨r, hr, hcell⟩ := hback ht v (mem_nonNulls.mp hv).1
        obtain ⟨u, hu, heval⟩ := h hskip r hr
        rw [hcell, Option.some.injEq] at hu
        subst hu
        rw [evaluatePredicate_eq (hrange.typed v hv) hlit op, Option.some.injEq] at heval
        exact heval
    · obtain ⟨v, hcell, hv⟩ := hcells r hr
      refine ⟨v, hcell, ?_⟩
      by_cases hnull : v = .null
      · rw [evaluatePredicate, if_pos hnull]
      · have hmem := mem_nonNulls.mpr ⟨hv.resolve_left hnull, hnull⟩
        rw [evaluatePredicate_eq (hrange.typed v hmem) hlit op, h hskip v hmem]

/-- `d = 9.0` on the doubles 1.0 and 2.0, one of them after a NULL: skipped, and no row equals 9.0. -/
theorem canSkip_sound_iff_two :
    (((Segment.build 1 [⟨"d", .double⟩] [[.double 0x3FF0000000000000#64], [.null], [.double 0x4000000000000000#64]]).bind
        fun seg => seg.canSkip 0 .eq (.double 0x4022000000000000#64)) = some true) ∧
      ∀ seg, Segment.build 1 [⟨"d", .double⟩]
          [[.double 0x3FF0000000000000#64], [.null], [.double 0x4000000000000000#64]] = some seg →
        (seg.canSkip 0 .eq (.double 0x4022000000000000#64) = some true → ∀ r, r < seg.numRows →
          ∃ v, seg.cellAt 0 r = some v ∧ evaluatePredicate v .eq (.double 0x4022000000000000#64) = some false) := by
  refine ⟨by decide +kernel, fun seg hbuild => (canSkip_sound_iff (s := ⟨"d", .double⟩) (by decide +kernel) hbuild
    rfl .eq (by decide)).mpr (Or.inr (Or.inl ?_))⟩
  decide +kernel

/-- A NaN in front of 5.0: the segment is skipped for `d > 1.0`, which 5.0 passes.  A NaN behind 1.0: it is skipped
for `d = 9.0`, which NaN, "equal" to everything, passes. -/
theorem canSkip_drops_rows :
    (∀ bits, rowConforms [⟨"d", .double⟩] [.double bits] = true) ∧
    (∃ seg, Segment.build 1 [⟨"d", .double⟩] [[.double 0x7FF8000000000000#64], [.double 0x4014000000000000#64]] =
        some seg ∧
      seg.canSkip 0 .gt (.double 0x3FF0000000000000#64) = some true ∧
      ∃ v, seg.cellAt 0 1 = some v ∧ evaluatePredicate v .gt (.double 0x3FF0000000000000#64) = some true) ∧
    ∃ seg, Segment.build 1 [⟨"d", .double⟩] [[.double 0x3FF0000000000000#64], [.double 0x7FF8000000000000#64]] =
        some seg ∧
      seg.canSkip 0 .eq (.double 0x4022000000000000#64) = some true ∧
      ∃ v, seg.cellAt 0 1 = some v ∧ evaluatePredicate v .eq (.double 0x4022000000000000#64) = some true :=
  ⟨fun _ => rfl, ⟨_, rfl, by decide +kernel, _, rfl, by decide +kernel⟩,
    _, rfl, by decide +kernel, _, rfl, by decide +kernel⟩

end CoreDB
