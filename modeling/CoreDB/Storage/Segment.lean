import CoreDB.Storage.Types
import CoreDB.Util.Bitmap
import CoreDB.Util.Crc32c

/-!
# Segments (`storage/dictionary.h`, `storage/segment.h`, `storage/segment.cpp`)

A segment stores a list of rows column by column: a validity bitmap, one typed
array, a dictionary for strings, running min/max and a checksum.
`Segment.build` transposes rows into columns; `Column.valueAt` reads one cell
back.  `build_spec`: for rows that conform to the schema the transposition
does not throw and every row comes back unchanged.
-/

namespace CoreDB

open ByteCodec

/-! ## Dictionary -/

structure Dictionary where
  values : List Bytes := []
  codeOf : List (Bytes × BitVec 32) := []
deriving DecidableEq, Repr

namespace Dictionary

def internOrGet (d : Dictionary) (value : Bytes) : BitVec 32 × Dictionary :=
  match d.codeOf.lookup value with
  | some code => (code, d)
  | none =>
    let code := BitVec.ofNat 32 d.values.length
    (code, { values := d.values ++ [value], codeOf := d.codeOf ++ [(value, code)] })

/-- `values_.at(code)`; `none` is the thrown `std::out_of_range`. -/
def valueOf (d : Dictionary) (code : BitVec 32) : Option Bytes := d.values[code.toNat]?

/-- `code_of_.emplace(value, code)`: an existing entry stays. -/
def emplace (codeOf : List (Bytes × BitVec 32)) (value : Bytes) (code : Nat) : List (Bytes × BitVec 32) :=
  match codeOf.lookup value with
  | some _ => codeOf
  | none => codeOf ++ [(value, BitVec.ofNat 32 code)]

def fromValues (values : List Bytes) : Dictionary :=
  { values, codeOf := values.zipIdx.foldl (fun m p => emplace m p.1 p.2) [] }

end Dictionary

/-! ## Column -/

structure Column where
  type : ColumnType := .int32
  validity : Bitmap := {}
  min : Value := .null
  max : Value := .null
  checksum : BitVec 32 := 0#32
  int32Data : List (BitVec 32) := []
  int64Data : List (BitVec 64) := []
  doubleData : List (BitVec 64) := []
  stringCodes : List (BitVec 32) := []
  dictionary : Dictionary := {}
deriving DecidableEq, Repr

namespace Column

def valueAt (col : Column) (row : Nat) : Option Value :=
  if col.validity.isValid row then
    match col.type with
    | .int32 => some (.int32 (col.int32Data.getD row 0#32))
    | .int64 => some (.int64 (col.int64Data.getD row 0#64))
    | .double => some (.double (col.doubleData.getD row 0#64))
    | .string => (col.dictionary.valueOf (col.stringCodes.getD row 0#32)).map .string
  else some .null

/-- The raw data block: `num_rows * ElementWidth(type)` bytes at `DataPointer`. -/
def dataBytes (col : Column) : Bytes :=
  match col.type with
  | .int32 => words 4 col.int32Data
  | .int64 => words 8 col.int64Data
  | .double => words 8 col.doubleData
  | .string => words 4 col.stringCodes

/-- `ComputeColumnChecksum`: validity bitmap, data block and, for strings, the
dictionary's strings one after the other. -/
def computeChecksum (col : Column) : BitVec 32 :=
  let crc := crc32cExtend 0#32 col.validity.bytes
  let crc := crc32cExtend crc col.dataBytes
  if col.type = .string then col.dictionary.values.foldl crc32cExtend crc else crc

/-! ### Build, one column -/

/-- The column before its first row: all rows valid, data zeroed. -/
def blank (t : ColumnType) (n : Nat) : Column :=
  let col : Column := { type := t, validity := Bitmap.new n true }
  match t with
  | .int32 => { col with int32Data := List.replicate n 0#32 }
  | .int64 => { col with int64Data := List.replicate n 0#64 }
  | .double => { col with doubleData := List.replicate n 0#64 }
  | .string => { col with stringCodes := List.replicate n 0#32 }

/-- Store a non-NULL value; `none` is the thrown `std::bad_variant_access`. -/
def store (col : Column) (r : Nat) (v : Value) : Option Column :=
  match col.type, v with
  | .int32, .int32 x => some { col with int32Data := col.int32Data.set r x }
  | .int64, .int64 x => some { col with int64Data := col.int64Data.set r x }
  | .double, .double x => some { col with doubleData := col.doubleData.set r x }
  | .string, .string s =>
    let p := col.dictionary.internOrGet s
    some { col with stringCodes := col.stringCodes.set r p.1, dictionary := p.2 }
  | _, _ => none

/-- Min and max after one more stored value. -/
def updateBounds (col : Column) (v : Value) (haveBounds : Bool) : Option Column :=
  if haveBounds then do
    let col ← (compareValues v col.min).map fun c => if c < 0 then { col with min := v } else col
    (compareValues v col.max).map fun c => if 0 < c then { col with max := v } else col
  else some { col with min := v, max := v }

/-- One row of the column loop; `none` when the row is too short or the value
has another type. -/
def buildStep (c : Nat) (col : Column) (haveBounds : Bool) (r : Nat) (row : Row) :
    Option (Column × Bool) :=
  match row[c]? with
  | none => none
  | some .null => some ({ col with validity := col.validity.setValid r false }, haveBounds)
  | some v =>
    match col.store r v with
    | none => none
    | some col => (col.updateBounds v haveBounds).map fun col => (col, true)

def buildRows (c : Nat) : List Row → Nat → Column → Bool → Option Column
  | [], _, col, _ => some col
  | row :: rows, r, col, haveBounds =>
    match col.buildStep c haveBounds r row with
    | none => none
    | some (col, haveBounds) => buildRows c rows (r + 1) col haveBounds

def build (t : ColumnType) (c : Nat) (rows : List Row) : Option Column :=
  (buildRows c rows 0 (blank t rows.length) false).map fun col =>
    { col with checksum := col.computeChecksum }

end Column

/-! ## Segment -/

structure Segment where
  segmentId : Nat := 0
  numRows : Nat := 0
  schema : Schema := []
  columns : List Column := []
deriving DecidableEq, Repr

namespace Segment

/-- Columns `c, c+1, …` of the rows. -/
def buildColumns (rows : List Row) : Schema → Nat → Option (List Column)
  | [], _ => some []
  | s :: schema, c =>
    match Column.build s.type c rows with
    | none => none
    | some col => (buildColumns rows schema (c + 1)).map (col :: ·)

/-- `none` when a row does not fit the schema (`.at` or `std::get` throws). -/
def build (segmentId : Nat) (schema : Schema) (rows : List Row) : Option Segment :=
  (buildColumns rows schema 0).map fun columns =>
    { segmentId, numRows := rows.length, schema, columns }

/-- Row `row` of the given columns, cell by cell; `none` when a cell throws. -/
def cellsAt (row : Nat) : List Column → Option Row
  | [] => some []
  | col :: cols =>
    match col.valueAt row with
    | none => none
    | some v => (cellsAt row cols).map (v :: ·)

/-- `ExtractFullRow` of `table.cpp`. -/
def extractFullRow (seg : Segment) (row : Nat) : Option Row := cellsAt row seg.columns

/-- No row can satisfy `column op literal`, going by the column's min and max; `none`
when there is no such column or the comparison throws. -/
def canSkip (seg : Segment) (colIdx : Nat) (op : PredicateOp) (literal : Value) : Option Bool :=
  match seg.columns[colIdx]? with
  | none => none
  | some col =>
    if col.min = .null ∨ col.max = .null then some false
    else
      match compareValues literal col.min, compareValues literal col.max with
      | some cmpMin, some cmpMax =>
        some (match op with
          | .eq => decide (cmpMin < 0) || decide (0 < cmpMax)
          | .gt => decide (0 ≤ cmpMax)
          | .ge => decide (0 < cmpMax)
          | .lt => decide (cmpMin ≤ 0)
          | .le => decide (cmpMin < 0)
          | .ne => false)
      | _, _ => none

/-- The error text of the first column whose checksum is off. -/
def verifyIntegrity (seg : Segment) : Except String Unit :=
  seg.columns.zipIdx.forM fun p =>
    if p.1.computeChecksum = p.1.checksum then .ok ()
    else .error ("segment " ++ toString seg.segmentId ++ " column " ++ toString p.2 ++
      " failed integrity check (expected " ++ toString p.1.checksum.toNat ++ ", got " ++
      toString p.1.computeChecksum.toNat ++ ")")

end Segment

/-! ## The dictionary keeps its two directions in step -/

/-- Distinct values, and `code_of_` lists them with their positions. -/
structure Dictionary.Good (d : Dictionary) : Prop where
  nodup : d.values.Nodup
  codes : d.codeOf = d.values.zipIdx.map fun p => (p.1, BitVec.ofNat 32 p.2)

namespace Dictionary

theorem good_empty : ({} : Dictionary).Good := ⟨List.nodup_nil, rfl⟩

theorem lookup_zipIdx (f : Nat → BitVec 32) (s : Bytes) : ∀ (values : List Bytes) (k : Nat),
    (((values.zipIdx k).map fun p => (p.1, f p.2)).lookup s = none → s ∉ values) ∧
    (∀ c, ((values.zipIdx k).map fun p => (p.1, f p.2)).lookup s = some c →
      ∃ i, ∃ h : i < values.length, values[i] = s ∧ c = f (k + i))
  | [], k => by simp
  | v :: values, k => by
    obtain ⟨ihNone, ihSome⟩ := lookup_zipIdx f s values (k + 1)
    simp only [List.zipIdx_cons, List.map_cons, List.lookup_cons]
    by_cases hv : s = v
    · subst hv
      refine ⟨fun h => by simp at h, fun c hc => ?_⟩
      simp only [beq_self_eq_true, Option.some.injEq] at hc
      exact ⟨0, by simp, rfl, hc.symm⟩
    · have hb : (s == v) = false := by simpa using hv
      simp only [hb]
      refine ⟨fun h => by simp [hv, ihNone h], fun c hc => ?_⟩
      obtain ⟨i, hi, hget, hcode⟩ := ihSome c hc
      exact ⟨i + 1, by simpa using hi, by simpa using hget, by rw [hcode]; congr 1; omega⟩

/-- Interning keeps the dictionary good, returns a code that reads back as the
value, and keeps every earlier code's meaning. -/
theorem internOrGet_spec (d : Dictionary) (s : Bytes) (hd : d.Good) (hlen : d.values.length < 2 ^ 32) :
    (d.internOrGet s).2.Good ∧ (d.internOrGet s).2.valueOf (d.internOrGet s).1 = some s ∧
      (∀ code u, d.valueOf code = some u → (d.internOrGet s).2.valueOf code = some u) ∧
      (d.internOrGet s).2.values.length ≤ d.values.length + 1 := by
  have hlook := lookup_zipIdx (BitVec.ofNat 32) s d.values 0
  rw [← hd.codes] at hlook
  unfold internOrGet
  cases hc : d.codeOf.lookup s with
  | some code =>
    obtain ⟨i, hi, hget, rfl⟩ := hlook.2 code hc
    refine ⟨hd, ?_, fun _ _ h => h, by simp⟩
    simp only [valueOf, Nat.zero_add, BitVec.toNat_ofNat]
    rw [Nat.mod_eq_of_lt (by omega), List.getElem?_eq_getElem hi, hget]
  | none =>
    have hnot : s ∉ d.values := hlook.1 hc
    refine ⟨⟨?_, ?_⟩, ?_, ?_, by simp⟩
    · simp only [List.nodup_append, hd.nodup, List.nodup_cons, List.not_mem_nil, not_false_eq_true,
        List.nodup_nil, true_and, and_true]
      rintro a ha b hb rfl
      simp only [List.mem_singleton] at hb
      exact hnot (hb ▸ ha)
    · simp [List.zipIdx_append, hd.codes]
    · simp only [valueOf, BitVec.toNat_ofNat]
      rw [Nat.mod_eq_of_lt hlen]
      simp
    · intro code u hu
      simp only [valueOf] at hu ⊢
      rw [List.getElem?_append_left (List.getElem?_eq_some_iff.mp hu).1]
      exact hu

end Dictionary

/-! ## Columns under construction -/

namespace Column

/-- Storing a value takes a value of the column type and leaves the bitmap and the bounds. -/
theorem store_frame {col col' : Column} {r : Nat} {v : Value} (h : col.store r v = some col') :
    v.conforms col.type = true ∧ col'.type = col.type ∧ col'.validity = col.validity ∧
      col'.min = col.min ∧ col'.max = col.max := by
  unfold store at h
  split at h
  case h_5 => cases h
  all_goals
    next x htype =>
    obtain rfl := Option.some.inj h
    exact ⟨by rw [htype]; rfl, rfl, rfl, rfl, rfl⟩

/-- `updateBounds` leaves everything but the bounds. -/
theorem updateBounds_frame {col col' : Column} {v : Value} {hb : Bool} (h : col.updateBounds v hb = some col') :
    ∃ lo hi, col' = { col with min := lo, max := hi } := by
  unfold updateBounds at h
  split at h
  · obtain ⟨col1, h1, h2⟩ := Option.bind_eq_some_iff.mp h
    obtain ⟨c1, -, rfl⟩ := Option.map_eq_some_iff.mp h1
    obtain ⟨c2, -, rfl⟩ := Option.map_eq_some_iff.mp h2
    by_cases hneg : c1 < 0 <;> by_cases hpos : 0 < c2 <;> simp only [hneg, hpos, if_true, if_false] <;>
      exact ⟨_, _, rfl⟩
  · exact ⟨v, v, (Option.some.inj h).symm⟩

/-- A row the loop gets past has a value for the column. -/
theorem buildStep_typed {c r : Nat} {col col' : Column} {hb hb' : Bool} {row : Row}
    (h : col.buildStep c hb r row = some (col', hb')) :
    col'.type = col.type ∧ ∃ v, row[c]? = some v ∧ v.conforms col.type = true := by
  unfold buildStep at h
  split at h
  · cases h
  · next hv =>
    cases h
    exact ⟨rfl, .null, hv, by cases col.type <;> rfl⟩
  · next v _ hv =>
    split at h
    · cases h
    · next col1 hstore =>
      obtain ⟨col2, hup, heq⟩ := Option.map_eq_some_iff.mp h
      cases heq
      obtain ⟨hconf, htype, -⟩ := store_frame hstore
      obtain ⟨lo, hi, rfl⟩ := updateBounds_frame hup
      exact ⟨htype, v, hv, hconf⟩

theorem buildRows_typed (c : Nat) : ∀ (rows : List Row) (r : Nat) (col col' : Column) (hb : Bool),
    buildRows c rows r col hb = some col' → ∀ row ∈ rows, ∃ v, row[c]? = some v ∧ v.conforms col.type = true
  | [], _, _, _, _, _, row, hrow => by cases hrow
  | row0 :: rows, r, col, col', hb, h, row, hrow => by
    rw [buildRows] at h
    split at h
    · cases h
    · next col1 hb1 hstep =>
      obtain ⟨htype, hv⟩ := buildStep_typed hstep
      rcases List.mem_cons.mp hrow with rfl | hrow
      · exact hv
      · rw [← htype]
        exact buildRows_typed c rows (r + 1) col1 col' hb1 h row hrow

/-- The rule for the row loop: what a NULL and a stored value keep, of the values so far, the loop
leaves for all of them. -/
theorem buildRows_invariant {P : List Value → Column → Bool → Prop} (c n : Nat)
    (null : ∀ pre col hb, pre.length < n → P pre col hb →
      P (pre ++ [.null]) { col with validity := col.validity.setValid pre.length false } hb)
    (value : ∀ pre col hb v col1 col2, pre.length < n → P pre col hb → v ≠ .null →
      col.store pre.length v = some col1 → col1.updateBounds v hb = some col2 → P (pre ++ [v]) col2 true) :
    ∀ (rows : List Row) (pre : List Value) (col col' : Column) (hb : Bool), P pre col hb →
      pre.length + rows.length = n → buildRows c rows pre.length col hb = some col' →
      ∃ hb', P (pre ++ rows.map fun row => row.getD c .null) col' hb' := by
  intro rows
  induction rows with
  | nil =>
    intro pre col col' hb h _ hrows
    cases hrows
    exact ⟨hb, by simpa using h⟩
  | cons row rows ih =>
    intro pre col col' hb h hlen hrows
    rw [List.length_cons] at hlen
    have hn : pre.length < n := by omega
    have hnext : ∀ {v : Value} {col1 : Column} {hb1 : Bool}, row[c]? = some v → P (pre ++ [v]) col1 hb1 →
        buildRows c rows (pre.length + 1) col1 hb1 = some col' →
        ∃ hb', P (pre ++ (row :: rows).map fun row => row.getD c .null) col' hb' := by
      intro v col1 hb1 hv h1 hr
      obtain ⟨hb', h'⟩ := ih (pre ++ [v]) col1 col' hb1 h1 (by simp; omega) (by simpa using hr)
      have hcell : row.getD c .null = v := by simp [List.getD_eq_getElem?_getD, hv]
      refine ⟨hb', ?_⟩
      rw [List.map_cons, hcell]
      simpa using h'
    unfold buildRows buildStep at hrows
    split at hrows
    · cases hrows
    · next col1 hb1 hstep =>
      split at hstep
      · cases hstep
      · next hv =>
        cases hstep
        exact hnext hv (null pre col hb hn h) hrows
      · next v hnn hv =>
        split at hstep
        · cases hstep
        · next col2 hstore =>
          obtain ⟨col3, hup, heq⟩ := Option.map_eq_some_iff.mp hstep
          cases heq
          exact hnext hv (value pre col hb v col2 _ hn h hnn hstore hup) hrows

/-- The parts of a column of type `t` over `n` rows have the sizes `Build` and
`LoadFromFile` give them; only the array of its own type is in use. -/
structure Shape (t : ColumnType) (n : Nat) (col : Column) : Prop where
  type : col.type = t
  numRows : col.validity.numRows = n
  bitmap : col.validity.bytes.length = (n + 7) / 8
  int32 : col.int32Data.length = if t = .int32 then n else 0
  int64 : col.int64Data.length = if t = .int64 then n else 0
  double : col.doubleData.length = if t = .double then n else 0
  codes : col.stringCodes.length = if t = .string then n else 0
  dict : col.dictionary.Good
  noDict : t ≠ .string → col.dictionary = {}

theorem shape_blank (t : ColumnType) (n : Nat) : Shape t n (blank t n) := by
  cases t <;>
    exact ⟨rfl, rfl, Bitmap.length_new n true, by simp [blank], by simp [blank], by simp [blank],
      by simp [blank], Dictionary.good_empty, fun _ => rfl⟩

theorem getD_set {α : Type} (l : List α) (r i : Nat) (x d : α) (hr : r < l.length) :
    (l.set r x).getD i d = if i = r then x else l.getD i d := by
  simp only [List.getD_eq_getElem?_getD, List.getElem?_set]
  by_cases h : r = i
  · simp [h, h ▸ hr]
  · simp [h, Ne.symm h]

/-- What storing a value at row `r` does: cell `r` reads as the value, every
cell that could be read before reads the same. -/
theorem store_spec (t : ColumnType) (n : Nat) (col : Column) (r : Nat) (v : Value)
    (h : Shape t n col) (hr : r < n) (hv : v.conforms t = true) (hnn : v ≠ .null)
    (hlen : t = .string → col.dictionary.values.length < 2 ^ 32) :
    ∃ col', col.store r v = some col' ∧ Shape t n col' ∧ col'.validity = col.validity ∧
      col'.min = col.min ∧ col'.max = col.max ∧
      col'.dictionary.values.length ≤ col.dictionary.values.length + 1 ∧
      (col.validity.isValid r = true → col'.valueAt r = some v) ∧
      ∀ i u, i ≠ r → col.valueAt i = some u → col'.valueAt i = some u := by
  obtain ⟨htype, hnum, hbit, h32, h64, hdb, hcd, hdict, hno⟩ := h
  cases t <;> cases v <;> simp only [Value.conforms, Bool.false_eq_true] at hv <;>
    (try exact absurd rfl hnn) <;> simp only [if_true, if_false, reduceCtorEq] at h32 h64 hdb hcd
  case int32 x =>
    refine ⟨{ col with int32Data := col.int32Data.set r x }, by simp [store, htype],
      ⟨htype, hnum, hbit, by simp [h32], by simp [h64], by simp [hdb], by simp [hcd], hdict, hno⟩,
      rfl, rfl, rfl, by simp, fun hval => ?_, fun i u hne hu => ?_⟩
    · simp only [valueAt, hval, htype, if_true, getD_set _ r r x _ (show r < col.int32Data.length by omega)]
    · unfold valueAt at hu ⊢
      simp only [htype, getD_set _ r i x _ (show r < col.int32Data.length by omega), if_neg hne] at hu ⊢
      exact hu
  case int64 x =>
    refine ⟨{ col with int64Data := col.int64Data.set r x }, by simp [store, htype],
      ⟨htype, hnum, hbit, by simp [h32], by simp [h64], by simp [hdb], by simp [hcd], hdict, hno⟩,
      rfl, rfl, rfl, by simp, fun hval => ?_, fun i u hne hu => ?_⟩
    · simp only [valueAt, hval, htype, if_true, getD_set _ r r x _ (show r < col.int64Data.length by omega)]
    · unfold valueAt at hu ⊢
      simp only [htype, getD_set _ r i x _ (show r < col.int64Data.length by omega), if_neg hne] at hu ⊢
      exact hu
  case double x =>
    refine ⟨{ col with doubleData := col.doubleData.set r x }, by simp [store, htype],
      ⟨htype, hnum, hbit, by simp [h32], by simp [h64], by simp [hdb], by simp [hcd], hdict, hno⟩,
      rfl, rfl, rfl, by simp, fun hval => ?_, fun i u hne hu => ?_⟩
    · simp only [valueAt, hval, htype, if_true, getD_set _ r r x _ (show r < col.doubleData.length by omega)]
    · unfold valueAt at hu ⊢
      simp only [htype, getD_set _ r i x _ (show r < col.doubleData.length by omega), if_neg hne] at hu ⊢
      exact hu
  case string x =>
    obtain ⟨hgood, hback, hkeep, hsize⟩ := Dictionary.internOrGet_spec col.dictionary x hdict (hlen rfl)
    refine ⟨{ col with
        stringCodes := col.stringCodes.set r (col.dictionary.internOrGet x).1
        dictionary := (col.dictionary.internOrGet x).2 }, by simp [store, htype],
      ⟨htype, hnum, hbit, by simp [h32], by simp [h64], by simp [hdb], by simp [hcd], hgood,
        fun hc => absurd rfl hc⟩, rfl, rfl, rfl, hsize, fun hval => ?_, fun i u hne hu => ?_⟩
    · simp only [valueAt, hval, htype, if_true, hback, Option.map_some,
        getD_set _ r r _ _ (show r < col.stringCodes.length by omega)]
    · unfold valueAt at hu ⊢
      simp only [htype, getD_set _ r i _ _ (show r < col.stringCodes.length by omega), if_neg hne] at hu ⊢
      by_cases hval : col.validity.isValid i = true
      · simp only [hval, if_true, Option.map_eq_some_iff] at hu ⊢
        obtain ⟨s, hs, rfl⟩ := hu
        exact ⟨s, hkeep _ _ hs, rfl⟩
      · simp only [hval] at hu ⊢
        exact hu

/-- Min and max of a column of type `t`: both absent or both values of `t`. -/
def BoundsOk (t : ColumnType) (col : Column) (haveBounds : Bool) : Prop :=
  if haveBounds then
    (col.min ≠ .null ∧ col.min.conforms t = true) ∧ (col.max ≠ .null ∧ col.max.conforms t = true)
  else col.min = .null ∧ col.max = .null

/-- Updating the bounds touches nothing else. -/
theorem updateBounds_spec (t : ColumnType) (col : Column) (v : Value) (haveBounds : Bool)
    (hv : v.conforms t = true) (hnn : v ≠ .null) (hb : BoundsOk t col haveBounds) :
    ∃ lo hi, col.updateBounds v haveBounds = some { col with min := lo, max := hi } ∧
      BoundsOk t { col with min := lo, max := hi } true := by
  cases haveBounds with
  | false =>
    exact ⟨v, v, by simp [updateBounds], by simp [BoundsOk, hv, hnn]⟩
  | true =>
    simp only [BoundsOk, if_true] at hb
    obtain ⟨⟨hmin, hminc⟩, hmax, hmaxc⟩ := hb
    obtain ⟨c1, h1⟩ := compareValues_conforms t v col.min hv hminc hnn hmin
    obtain ⟨c2, h2⟩ := compareValues_conforms t v col.max hv hmaxc hnn hmax
    refine ⟨if c1 < 0 then v else col.min, if 0 < c2 then v else col.max, ?_, ?_⟩
    · simp only [updateBounds, if_true, h1, Option.map_some, Option.bind_eq_bind, Option.bind_some]
      by_cases hc1 : c1 < 0 <;> by_cases hc2 : 0 < c2 <;> simp [hc1, hc2, h2]
    · simp only [BoundsOk, if_true]
      constructor
      · split
        · exact ⟨hnn, hv⟩
        · exact ⟨hmin, hminc⟩
      · split
        · exact ⟨hnn, hv⟩
        · exact ⟨hmax, hmaxc⟩

/-- Column state after rows `0 ..< k` of the values `vals`. -/
structure BuiltTo (t : ColumnType) (vals : List Value) (k : Nat) (col : Column)
    (haveBounds : Bool) : Prop where
  shape : Shape t vals.length col
  cells : ∀ i (hi : i < vals.length), i < k → col.valueAt i = some vals[i]
  ahead : ∀ i, k ≤ i → i < vals.length → col.validity.isValid i = true
  small : col.dictionary.values.length ≤ k
  bounds : BoundsOk t col haveBounds

theorem builtTo_blank (t : ColumnType) (vals : List Value) :
    BuiltTo t vals 0 (blank t vals.length) false where
  shape := shape_blank t vals.length
  cells := fun i _ h => by omega
  ahead := fun i _ hi => by
    have hval : (blank t vals.length).validity = Bitmap.new vals.length true := by
      cases t <;> rfl
    rw [hval]
    exact Bitmap.isValid_new_true _ _ hi
  small := by cases t <;> simp [blank]
  bounds := by cases t <;> simp [BoundsOk, blank]

theorem buildStep_null (t : ColumnType) (vals : List Value) (c k : Nat) (col : Column)
    (hb : Bool) (row : Row) (hk : k < vals.length) (hrow : row[c]? = some .null)
    (hvk : vals[k] = .null) (h : BuiltTo t vals k col hb) :
    ∃ col' hb', col.buildStep c hb k row = some (col', hb') ∧ BuiltTo t vals (k + 1) col' hb' := by
  obtain ⟨hshape, hcells, hahead, hsmall, hbounds⟩ := h
  have hbyte : k / 8 < col.validity.bytes.length := by rw [hshape.bitmap]; omega
  refine ⟨{ col with validity := col.validity.setValid k false }, hb, by simp [buildStep, hrow], ?_⟩
  refine ⟨⟨hshape.type, hshape.numRows, by simp [hshape.bitmap], hshape.int32, hshape.int64,
    hshape.double, hshape.codes, hshape.dict, hshape.noDict⟩, ?_, ?_, by simp; omega, hbounds⟩
  · intro i hi hik
    by_cases hik' : i = k
    · subst hik'
      simp [valueAt, Bitmap.isValid_setValid _ _ _ _ hbyte, hvk]
    · have hold := hcells i hi (by omega)
      unfold valueAt at hold ⊢
      simp only [Bitmap.isValid_setValid _ _ _ _ hbyte, if_neg hik']
      exact hold
  · intro i h1 h2
    rw [Bitmap.isValid_setValid _ _ _ _ hbyte, if_neg (by omega)]
    exact hahead i (by omega) h2

theorem buildStep_value (t : ColumnType) (vals : List Value) (c k : Nat) (col : Column)
    (hb : Bool) (row : Row) (hk : k < vals.length) (hrow : row[c]? = some vals[k])
    (hnn : vals[k] ≠ .null) (hconf : (vals[k]).conforms t = true) (hbig : t = .string → vals.length < 2 ^ 32)
    (h : BuiltTo t vals k col hb) :
    ∃ col' hb', col.buildStep c hb k row = some (col', hb') ∧ BuiltTo t vals (k + 1) col' hb' := by
  obtain ⟨hshape, hcells, hahead, hsmall, hbounds⟩ := h
  obtain ⟨col1, hstore, hshape1, hval1, hmin1, hmax1, hsize1, hcell1, hkeep1⟩ :=
    store_spec t vals.length col k vals[k] hshape hk hconf hnn fun ht => by have := hbig ht; omega
  have hbounds1 : BoundsOk t col1 hb := by
    unfold BoundsOk at hbounds ⊢
    rw [hmin1, hmax1]
    exact hbounds
  obtain ⟨lo, hi, hupd, hbounds2⟩ := updateBounds_spec t col1 vals[k] hb hconf hnn hbounds1
  refine ⟨{ col1 with min := lo, max := hi }, true, ?_, ?_⟩
  · unfold buildStep
    rw [hrow]
    generalize hv : vals[k] = v at hnn hstore hupd ⊢
    cases v <;> first
      | exact absurd rfl hnn
      | simp [hstore, hupd]
  · refine ⟨⟨hshape1.type, hshape1.numRows, hshape1.bitmap, hshape1.int32, hshape1.int64,
      hshape1.double, hshape1.codes, hshape1.dict, hshape1.noDict⟩, ?_, ?_, ?_, hbounds2⟩
    · intro i hi' hik
      by_cases hik' : i = k
      · subst hik'
        exact hcell1 (hahead i (Nat.le_refl _) hk)
      · exact hkeep1 i _ hik' (hcells i hi' (by omega))
    · intro i h1 h2
      show col1.validity.isValid i = true
      rw [hval1]
      exact hahead i (by omega) h2
    · show col1.dictionary.values.length ≤ k + 1
      omega

/-- The row loop reads the whole column in. -/
theorem buildRows_spec (t : ColumnType) (vals : List Value) (c : Nat) (hbig : t = .string → vals.length < 2 ^ 32)
    (hconf : ∀ v ∈ vals, v.conforms t = true) : ∀ (rows : List Row) (k : Nat) (col : Column) (hb : Bool),
    rows.map (·[c]?) = (vals.drop k).map some → k ≤ vals.length → BuiltTo t vals k col hb →
    ∃ col' hb', buildRows c rows k col hb = some col' ∧ BuiltTo t vals vals.length col' hb'
  | [], k, col, hb, hrows, hk, h => by
    have hlen : vals.length ≤ k := by simpa using hrows.symm
    have hke : k = vals.length := by omega
    subst hke
    exact ⟨col, hb, rfl, h⟩
  | row :: rows, k, col, hb, hrows, hk, h => by
    have hlen := congrArg List.length hrows
    simp only [List.length_map, List.length_cons, List.length_drop] at hlen
    have hk' : k < vals.length := by omega
    rw [List.drop_eq_getElem_cons hk'] at hrows
    simp only [List.map_cons, List.cons.injEq] at hrows
    obtain ⟨hhead, htail⟩ := hrows
    have hstep : ∃ col' hb', col.buildStep c hb k row = some (col', hb') ∧
        BuiltTo t vals (k + 1) col' hb' := by
      by_cases hnull : vals[k] = .null
      · exact buildStep_null t vals c k col hb row hk' (by rw [hhead, hnull]) hnull h
      · exact buildStep_value t vals c k col hb row hk' hhead hnull
          (hconf _ (List.getElem_mem hk')) hbig h
    obtain ⟨col1, hb1, hs, h1⟩ := hstep
    obtain ⟨col2, hb2, hr, h2⟩ := buildRows_spec t vals c hbig hconf rows (k + 1) col1 hb1 htail hk' h1
    exact ⟨col2, hb2, by rw [buildRows, hs]; exact hr, h2⟩

/-- A finished column: its shape, its bounds and its own checksum. -/
structure WellFormed (t : ColumnType) (n : Nat) (col : Column) : Prop where
  shape : Shape t n col
  bounds : ∃ hb, BoundsOk t col hb
  checksum : col.checksum = col.computeChecksum

theorem build_column_spec (t : ColumnType) (c : Nat) (rows : List Row) (vals : List Value)
    (hbig : t = .string → rows.length < 2 ^ 32) (hvals : rows.map (·[c]?) = vals.map some)
    (hconf : ∀ v ∈ vals, v.conforms t = true) :
    ∃ col, build t c rows = some col ∧ WellFormed t rows.length col ∧
      ∀ i (hi : i < vals.length), col.valueAt i = some vals[i] := by
  have hlen : rows.length = vals.length := by simpa using congrArg List.length hvals
  obtain ⟨col, hb, hr, hbuilt⟩ := buildRows_spec t vals c (fun ht => hlen ▸ hbig ht) hconf rows 0
    (blank t vals.length) false (by simpa using hvals) (Nat.zero_le _) (builtTo_blank t vals)
  refine ⟨{ col with checksum := col.computeChecksum }, ?_, ?_, ?_⟩
  · rw [build, hlen, hr]; rfl
  · rw [hlen]
    obtain ⟨hs, -, -, -, hbd⟩ := hbuilt
    exact ⟨⟨hs.type, hs.numRows, hs.bitmap, hs.int32, hs.int64, hs.double, hs.codes, hs.dict, hs.noDict⟩,
      ⟨hb, hbd⟩, rfl⟩
  · intro i hi
    exact hbuilt.cells i hi hi

end Column

/-! ## Segments -/

namespace Segment

/-- Every column of the segment is finished and of its schema type. -/
structure WellFormed (schema : Schema) (seg : Segment) : Prop where
  schema_eq : seg.schema = schema
  columns : List.Forall₂ (fun s col => Column.WellFormed s.type seg.numRows col) schema seg.columns

theorem rows_column (schema : Schema) (rows : List Row) (hconf : ∀ row ∈ rows, rowConforms schema row = true)
    (c : Nat) (hc : c < schema.length) :
    rows.map (·[c]?) = (rows.map fun row => row.getD c .null).map some ∧
      ∀ v ∈ rows.map fun row => row.getD c .null, v.conforms (schema[c]).type = true := by
  have hin : ∀ row ∈ rows, c < row.length := fun row hrow => by
    rw [rowConforms_length schema row (hconf row hrow)]; exact hc
  constructor
  · rw [List.map_map]
    apply List.map_congr_left
    intro row hrow
    simp [List.getElem?_eq_getElem (hin row hrow)]
  · intro v hv
    obtain ⟨row, hrow, rfl⟩ := List.mem_map.mp hv
    have := rowConforms_getElem schema row (hconf row hrow) c hc (hin row hrow)
    simpa [List.getElem?_eq_getElem (hin row hrow)] using this

/-- Columns `c, c+1, …`: each is well formed, and row `r` of them is the tail of
row `r` from position `c`. -/
theorem buildColumns_spec (full : Schema) (rows : List Row) (hbig : rows.length < 2 ^ 32)
    (hconf : ∀ row ∈ rows, rowConforms full row = true) : ∀ (schema : Schema) (c : Nat),
    full.drop c = schema →
    ∃ cols, buildColumns rows schema c = some cols ∧
      List.Forall₂ (fun s col => Column.WellFormed s.type rows.length col) schema cols ∧
      ∀ r (hr : r < rows.length), cellsAt r cols = some ((rows[r]).drop c)
  | [], c, hd => by
    refine ⟨[], rfl, .nil, fun r hr => ?_⟩
    have hlen := rowConforms_length full rows[r] (hconf _ (List.getElem_mem hr))
    have hc : full.length ≤ c := by simpa using hd
    simp [cellsAt, List.drop_eq_nil_of_le (show (rows[r]).length ≤ c by omega)]
  | s :: schema, c, hd => by
    have hc : c < full.length := by
      apply Classical.byContradiction; intro h
      rw [List.drop_eq_nil_of_le (by omega)] at hd
      cases hd
    rw [List.drop_eq_getElem_cons hc] at hd
    obtain ⟨rfl, hd'⟩ := List.cons.inj hd
    obtain ⟨hcol, htyp⟩ := rows_column full rows hconf c hc
    obtain ⟨col, hbuild, hwf, hcell⟩ := Column.build_column_spec (full[c]).type c rows _ (fun _ => hbig) hcol htyp
    obtain ⟨cols, hcols, hwfs, hcells⟩ := buildColumns_spec full rows hbig hconf schema (c + 1) hd'
    refine ⟨col :: cols, by simp [buildColumns, hbuild, hcols], .cons hwf hwfs, fun r hr => ?_⟩
    have hlen := rowConforms_length full rows[r] (hconf _ (List.getElem_mem hr))
    have hv := hcell r (by simpa using hr)
    simp only [List.getElem_map] at hv
    rw [cellsAt, hv]
    simp only [hcells r hr, Option.map_some]
    rw [List.drop_eq_getElem_cons (show c < (rows[r]).length by omega)]
    simp [List.getElem?_eq_getElem (show c < (rows[r]).length by omega)]

/-- **Rows come back.**  A segment built from fewer than 2³² rows that conform to
the schema is well formed and returns every row unchanged. -/
theorem build_spec (segmentId : Nat) (schema : Schema) (rows : List Row)
    (hbig : rows.length < 2 ^ 32) (hconf : ∀ row ∈ rows, rowConforms schema row = true) :
    ∃ seg, build segmentId schema rows = some seg ∧ seg.segmentId = segmentId ∧
      seg.numRows = rows.length ∧ seg.WellFormed schema ∧
      ∀ r (hr : r < rows.length), seg.extractFullRow r = some rows[r] := by
  obtain ⟨cols, hcols, hwf, hcells⟩ := buildColumns_spec schema rows hbig hconf schema 0 (by simp)
  refine ⟨{ segmentId, numRows := rows.length, schema, columns := cols }, by simp [build, hcols],
    rfl, rfl, ⟨rfl, hwf⟩, fun r hr => ?_⟩
  simpa [extractFullRow] using hcells r hr

/-! ### What a build demands

`Build` reads the values at the schema's positions and no others: it throws unless these are there
and of the column's type, and drops what comes after them. -/

theorem buildColumns_takes (rows : List Row) : ∀ (schema : Schema) (c : Nat) (cols : List Column),
    buildColumns rows schema c = some cols → cols.length = schema.length ∧
      ∀ row ∈ rows, rowConforms schema ((row.drop c).take schema.length) = true
  | [], c, cols, h => by
    cases h
    exact ⟨rfl, fun row _ => by simp [rowConforms]⟩
  | s :: schema, c, cols, h => by
    rw [buildColumns] at h
    split at h
    · cases h
    · next col hcol =>
      obtain ⟨cols', hcols, rfl⟩ := Option.map_eq_some_iff.mp h
      obtain ⟨hlen, hrest⟩ := buildColumns_takes rows schema (c + 1) cols' hcols
      refine ⟨by simp [hlen], fun row hrow => ?_⟩
      obtain ⟨col1, hrows, -⟩ := Option.map_eq_some_iff.mp hcol
      obtain ⟨v, hv, hconf⟩ := Column.buildRows_typed c rows 0 _ _ _ hrows row hrow
      rw [(Column.shape_blank s.type rows.length).type] at hconf
      obtain ⟨hc, rfl⟩ := List.getElem?_eq_some_iff.mp hv
      rw [List.drop_eq_getElem_cons hc, List.length_cons, List.take_succ_cons, rowConforms, hconf, hrest row hrow]
      rfl

theorem build_takes {segmentId : Nat} {schema : Schema} {rows : List Row} {seg : Segment}
    (h : build segmentId schema rows = some seg) :
    seg.columns.length = schema.length ∧ ∀ row ∈ rows, rowConforms schema (row.take schema.length) = true := by
  obtain ⟨cols, hcols, rfl⟩ := Option.map_eq_some_iff.mp h
  exact buildColumns_takes rows schema 0 cols hcols

theorem length_cellsAt (r : Nat) : ∀ (cols : List Column) (row : Row), cellsAt r cols = some row →
    row.length = cols.length
  | [], row, h => by
    cases h
    rfl
  | col :: cols, row, h => by
    rw [cellsAt] at h
    split at h
    · cases h
    · obtain ⟨vs, hvs, rfl⟩ := Option.map_eq_some_iff.mp h
      simp [length_cellsAt r cols vs hvs]

end Segment

end CoreDB
