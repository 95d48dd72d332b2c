import CoreDB.Storage.SegmentMemory

/-!
# Loading arbitrary bytes

While `LoadFromFile` parses a file it indexes one thing by numbers the file gave: the
bitmap, byte by byte, in `CountValid`.  (The arrays are sized by the row count before
the data block is read into them, and the dictionary is filled from its own length.)
`Safe` says that these accesses are in range, and that the load ends with an error text
or with a segment of which every cell can be read.

`load_safe_iff`: loading is safe unless the row count is so large that `num_rows + 7`
wraps, and then the bitmap is empty, or a complete file has a string code that its
dictionary does not have, or the file declares more than can be allocated, and then
`std::bad_alloc` is thrown.
-/

namespace CoreDB

open ByteCodec

/-! ## What is accessed -/

/-- Every byte that `CountValid` looks at is there. -/
def Bitmap.InRange (b : Bitmap) : Prop := ∀ row, row < b.numRows → row / 8 < b.bytes.length

namespace Column

/-- The bitmap that `CountValid` runs over when a column is loaded, if the loader gets
that far. -/
def countedBitmap (t : ColumnType) (numRows : Nat) (bs : Bytes) : Option Bitmap :=
  (takeLE 1 bs).bind fun type =>
    if type.1 ≠ t.code then none
    else (takeLE 4 type.2).bind fun nullCount =>
      (takeBytes ((numRows + 7) % 2 ^ 32 / 8) nullCount.2).map fun bitmap => Bitmap.fromBytes numRows bitmap.1

/-- The length of the array in use. -/
def dataLength (col : Column) : Nat :=
  match col.type with
  | .int32 => col.int32Data.length
  | .int64 => col.int64Data.length
  | .double => col.doubleData.length
  | .string => col.stringCodes.length

/-- The code of a valid row is one of the dictionary's. -/
def CodeFits (col : Column) (row : Nat) : Prop :=
  col.type = .string → col.validity.isValid row = true →
    (col.stringCodes.getD row 0#32).toNat < col.dictionary.values.length

/-- Row `row` can be read: bitmap, array and dictionary have what `ValueAt` looks at. -/
structure Readable (col : Column) (row : Nat) : Prop where
  bitmap : row / 8 < col.validity.bytes.length
  data : row < col.dataLength
  code : col.CodeFits row
  value : ∃ v, col.valueAt row = some v

end Column

namespace Segment

/-- The bitmaps that are counted while the columns are loaded. -/
def countedColumns (path : String) (numRows : Nat) : Schema → Nat → Bytes → List Bitmap
  | [], _, _ => []
  | s :: schema, c, bs =>
    (Column.countedBitmap s.type numRows bs).toList ++
      match Column.load path c s.type numRows bs with
      | .error _ => []
      | .ok p => countedColumns path numRows schema (c + 1) p.2

/-- The row count and the rest of the file, if the header is accepted. -/
def readHeader (schema : Schema) (bs : Bytes) : Option (Nat × Bytes) := do
  let magic ← (takeBytes 8 bs).filter fun p => p.1 == kMagic
  let numColumns ← takeLE 4 magic.2
  let segmentId ← takeLE 8 numColumns.2
  let numRows ← takeLE 4 segmentId.2
  if numColumns.1 = schema.length then some numRows else none

/-- The bitmaps that are counted while the file is loaded, if there is memory for them. -/
def countedBitmaps (path : String) (schema : Schema) (bs : Bytes) : List Bitmap :=
  match readHeader schema bs with
  | none => []
  | some (numRows, rest) => countedColumns path numRows schema 0 rest

/-- No access is out of range, and `LoadFromFile` returns: `nullopt` with an error text, or a
segment of which every cell can be read. -/
def Safe (mem : Memory) (path : String) (schema : Schema) (bs : Bytes) : Prop :=
  (∀ b ∈ countedBitmaps path schema bs, b.InRange) ∧
    ((∃ e, loadFromFileIn mem path schema (some bs) = .error (.error e)) ∨
      ∃ seg, loadFromFileIn mem path schema (some bs) = .ok seg ∧
        ∀ col ∈ seg.columns, ∀ row, row < seg.numRows → col.Readable row)

/-- A file whose first column begins has a row count that leaves room for `num_rows + 7`. -/
def RowCountFits (schema : Schema) (bs : Bytes) : Prop :=
  ∀ s rest segmentId numRows nullCount, schema.head? = some s → schema.length < 2 ^ 32 → segmentId < 2 ^ 64 →
    numRows < 2 ^ 32 → nullCount < 2 ^ 32 →
    bs = header schema.length segmentId numRows ++ (leBytes 1 s.type.code ++ (leBytes 4 nullCount ++ rest)) →
    numRows + 7 < 2 ^ 32

/-- The codes of a complete file are below the sizes of their dictionaries. -/
def CodesFit (schema : Schema) (bs : Bytes) : Prop :=
  ∀ seg, Layout schema bs seg → ∀ col ∈ seg.columns, ∀ row, row < seg.numRows → col.CodeFits row

/-! ## In range -/

theorem readHeader_eq_some_iff {schema : Schema} {bs rest : Bytes} {numRows : Nat} :
    readHeader schema bs = some (numRows, rest) ↔ schema.length < 2 ^ 32 ∧ numRows < 2 ^ 32 ∧
      ∃ segmentId, segmentId < 2 ^ 64 ∧ bs = header schema.length segmentId numRows ++ rest := by
  unfold readHeader
  simp only [Option.bind_eq_bind, Option.bind_eq_some_iff, Option.ite_none_right_eq_some, ← not_ne_iff (a := Prod.fst _)]
  refine (header_reads_iff (P := fun _ n bs4 => some (n, bs4) = some (numRows, rest))).trans ?_
  constructor
  · rintro ⟨segmentId, n, bs4, hclt, hilt, hrlt, rfl, heq⟩
    cases heq
    exact ⟨hclt, hrlt, segmentId, hilt, rfl⟩
  · rintro ⟨hclt, hrlt, segmentId, hilt, rfl⟩
    exact ⟨segmentId, numRows, rest, hclt, hilt, hrlt, rfl, rfl⟩

theorem countedBitmap_eq_some {t : ColumnType} {n : Nat} {bs : Bytes} {b : Bitmap}
    (h : Column.countedBitmap t n bs = some b) :
    b.numRows = n ∧ b.bytes.length = (n + 7) % 2 ^ 32 / 8 ∧
      ∃ nullCount rest, nullCount < 2 ^ 32 ∧ bs = leBytes 1 t.code ++ (leBytes 4 nullCount ++ rest) := by
  unfold Column.countedBitmap at h
  obtain ⟨⟨type, bs1⟩, htype, h⟩ := Option.bind_eq_some_iff.mp h
  split at h
  · cases h
  · next hcode =>
    obtain ⟨⟨nullCount, bs2⟩, hnull, h⟩ := Option.bind_eq_some_iff.mp h
    obtain ⟨⟨bitmap, bs3⟩, hbitmap, rfl⟩ := Option.map_eq_some_iff.mp h
    obtain ⟨rfl, -⟩ := takeLE_eq_some 1 _ _ _ htype
    obtain ⟨rfl, hlt⟩ := takeLE_eq_some 4 _ _ _ hnull
    obtain ⟨rfl, hlen⟩ := takeBytes_eq_some _ _ _ _ hbitmap
    obtain rfl : type = t.code := Classical.byContradiction fun hne => hcode hne
    exact ⟨rfl, hlen, nullCount, _, hlt, rfl⟩

/-- A column that loads has begun. -/
theorem begins_of_load {path : String} {c n : Nat} {t : ColumnType} {bs : Bytes} {p : Column × Bytes}
    (h : Column.load path c t n bs = .ok p) :
    ∃ nullCount rest, nullCount < 2 ^ 32 ∧ bs = leBytes 1 t.code ++ (leBytes 4 nullCount ++ rest) := by
  obtain ⟨image, rfl, ⟨nullCount, bitmap, flag, bounds, data, dict, rfl, hlt, -⟩, -⟩ := Column.load_eq_ok_iff.mp h
  exact ⟨nullCount, bitmap ++ (flag :: (bounds ++ (crcBytes p.1.checksum ++ (data ++ dict))) ++ p.2), hlt, by simp⟩

theorem mem_countedColumns {path : String} {n : Nat} {b : Bitmap} : ∀ (schema : Schema) (c : Nat) (bs : Bytes),
    b ∈ countedColumns path n schema c bs →
    b.numRows = n ∧ b.bytes.length = (n + 7) % 2 ^ 32 / 8 ∧
      ∃ s, schema.head? = some s ∧
        ∃ nullCount rest, nullCount < 2 ^ 32 ∧ bs = leBytes 1 s.type.code ++ (leBytes 4 nullCount ++ rest) := by
  intro schema
  induction schema with
  | nil => intro c bs h; cases h
  | cons s schema ih =>
    intro c bs h
    unfold countedColumns at h
    rcases List.mem_append.mp h with h | h
    · obtain ⟨hrows, hlen, hbegin⟩ := countedBitmap_eq_some (Option.mem_toList.mp h)
      exact ⟨hrows, hlen, s, rfl, hbegin⟩
    · split at h
      · cases h
      · next p hload =>
        obtain ⟨hrows, hlen, -⟩ := ih _ _ h
        exact ⟨hrows, hlen, s, rfl, begins_of_load hload⟩

theorem inRange_of_rowCountFits {path : String} {schema : Schema} {bs : Bytes} (h : RowCountFits schema bs) :
    ∀ b ∈ countedBitmaps path schema bs, b.InRange := by
  intro b hb row hrow
  unfold countedBitmaps at hb
  split at hb
  · cases hb
  · next numRows rest hhead =>
    obtain ⟨hclt, hrlt, segmentId, hilt, rfl⟩ := readHeader_eq_some_iff.mp hhead
    obtain ⟨hnum, hlen, s, hs, nullCount, rest', hnlt, rfl⟩ := mem_countedColumns schema 0 rest hb
    have hfits := h s rest' segmentId numRows nullCount hs hclt hilt hrlt hnlt rfl
    rw [hlen, Nat.mod_eq_of_lt hfits]
    omega

/-- **The row count wraps**: then the bitmap has no bytes, and the first is looked at. -/
theorem not_inRange_of_wrap (path : String) {s : ColumnSchema} {schema : Schema} (rest : Bytes)
    {segmentId numRows nullCount : Nat} (hclt : (s :: schema).length < 2 ^ 32) (hilt : segmentId < 2 ^ 64)
    (hrlt : numRows < 2 ^ 32) (hnlt : nullCount < 2 ^ 32) (hwrap : 2 ^ 32 ≤ numRows + 7) :
    ∃ b ∈ countedBitmaps path (s :: schema)
      (header (s :: schema).length segmentId numRows ++ (leBytes 1 s.type.code ++ (leBytes 4 nullCount ++ rest))),
      ¬ b.InRange := by
  have hhead : readHeader (s :: schema) (header (s :: schema).length segmentId numRows ++
      (leBytes 1 s.type.code ++ (leBytes 4 nullCount ++ rest))) =
        some (numRows, leBytes 1 s.type.code ++ (leBytes 4 nullCount ++ rest)) :=
    readHeader_eq_some_iff.mpr ⟨hclt, hrlt, segmentId, hilt, rfl⟩
  have hzero : (numRows + 7) % 2 ^ 32 / 8 = 0 := by omega
  have hcount : Column.countedBitmap s.type numRows (leBytes 1 s.type.code ++ (leBytes 4 nullCount ++ rest)) =
      some (Bitmap.fromBytes numRows []) := by
    unfold Column.countedBitmap
    rw [takeLE_leBytes 1 _ _ s.type.code_lt, Option.bind_some, if_neg (by simp), takeLE_leBytes 4 _ _ hnlt,
      Option.bind_some, hzero]
    rfl
  refine ⟨Bitmap.fromBytes numRows [], ?_, fun hin => ?_⟩
  · unfold countedBitmaps countedColumns
    rw [hhead]
    simp [hcount]
  · have := hin 0 (show 0 < numRows by omega)
    simp [Bitmap.fromBytes] at this

/-! ## Readable -/

end Segment

namespace Column

@[simp] theorem ofData_type (t : ColumnType) (n : Nat) (data : Bytes) : (ofData t n data).type = t := by
  cases t <;> rfl

@[simp] theorem length_ofData (t : ColumnType) (n : Nat) (data : Bytes) : (ofData t n data).dataLength = n := by
  cases t <;> simp [ofData, dataLength]

/-- `ValueAt` is defined where a string's code is one of the dictionary's. -/
theorem valueAt_of_codeFits {col : Column} {row : Nat} (h : col.CodeFits row) : ∃ v, col.valueAt row = some v := by
  unfold valueAt
  by_cases hvalid : col.validity.isValid row = true
  · rw [if_pos hvalid]
    cases htype : col.type with
    | int32 => exact ⟨_, rfl⟩
    | int64 => exact ⟨_, rfl⟩
    | double => exact ⟨_, rfl⟩
    | string =>
      have hlt := h htype hvalid
      refine ⟨.string (col.dictionary.values.get ⟨_, hlt⟩), ?_⟩
      simp only [Dictionary.valueOf, List.getElem?_eq_getElem hlt, Option.map_some, List.get_eq_getElem]
  · rw [if_neg hvalid]
    exact ⟨_, rfl⟩

/-- A column of a file whose row count does not wrap can be read wherever the codes are
the dictionary's. -/
theorem Layout.readable {t : ColumnType} {n row : Nat} {image : Bytes} {col : Column} (h : Layout t n image col)
    (hn : n + 7 < 2 ^ 32) (hrow : row < n) (hcode : col.CodeFits row) : col.Readable row := by
  obtain ⟨_, bitmap, _, _, data, _, -, -, -, hlen, hval, -, -, -, hcol⟩ := h.parts
  refine ⟨?_, ?_, hcode, valueAt_of_codeFits hcode⟩
  · rw [hval]
    show row / 8 < bitmap.length
    rw [hlen, Nat.mod_eq_of_lt hn]
    omega
  · have hdata : col.dataLength = (ofData t n data).dataLength := by
      rw [hcol]
      rfl
    rw [hdata, length_ofData]
    exact hrow

end Column

namespace Segment

/-- The row count of a complete file with a column does not wrap. -/
theorem RowCountFits.of_layout {schema : Schema} {bs : Bytes} {seg : Segment} {col : Column}
    (h : RowCountFits schema bs) (hl : Layout schema bs seg) (hcol : col ∈ seg.columns) : seg.numRows + 7 < 2 ^ 32 := by
  obtain ⟨images, rest, rfl, hcols⟩ := hl.parts
  cases hcols' : seg.columns with
  | nil => rw [hcols'] at hcol; cases hcol
  | cons first cols =>
    rw [hcols'] at hcols
    cases hcols with
    | @cons s schema image images _ _ hfirst _ =>
      have hload : Column.load "" 0 s.type seg.numRows (image ++ (images ++ rest)) = .ok (first, images ++ rest) :=
        Column.load_eq_ok_iff.mpr ⟨image, rfl, hfirst⟩
      obtain ⟨nullCount, tail, hlt, heq⟩ := begins_of_load hload
      refine h s tail seg.segmentId seg.numRows nullCount rfl hl.numColumns hl.segmentId hl.numRows hlt ?_
      rw [← heq, List.append_assoc]

/-- **Loading arbitrary bytes**: no access is out of range, and the load ends with an error
text or a segment of which every cell can be read, if and only if the row count of a file
whose first column begins leaves room for `num_rows + 7`, the string codes of a complete file
are below the sizes of their dictionaries, and what the file declares can be allocated. -/
theorem load_safe_iff (mem : Memory) (path : String) (schema : Schema) (bs : Bytes) :
    Safe mem path schema bs ↔ RowCountFits schema bs ∧ CodesFit schema bs ∧ MemorySuffices mem schema bs := by
  have hasks := loadFromFileIn_asks mem path schema bs
  constructor
  · rintro ⟨hrange, hends⟩
    refine ⟨?_, ?_, ?_⟩
    · intro s rest segmentId numRows nullCount hs hclt hilt hrlt hnlt hbs
      rcases Nat.lt_or_ge (numRows + 7) (2 ^ 32) with hlt | hwrap
      · exact hlt
      · cases schema with
        | nil => cases hs
        | cons s' schema =>
          cases hs
          obtain ⟨b, hb, hout⟩ := not_inRange_of_wrap path rest hclt hilt hrlt hnlt hwrap
          rw [← hbs] at hb
          exact absurd (hrange b hb) hout
    · intro seg hl col hcol row hrow
      have hload : loadFromFile path schema (some bs) = .ok seg := load_eq_ok_iff.mpr hl
      rcases hends with ⟨e, he⟩ | ⟨seg', hok, hread⟩
      · rw [(hasks.eq_error_iff.mp he).1] at hload
        cases hload
      · rw [(hasks.eq_ok_iff.mp hok).1] at hload
        cases hload
        exact (hread col hcol row hrow).code
    · rcases hends with ⟨e, he⟩ | ⟨seg, hok, -⟩
      · exact (hasks.eq_error_iff.mp he).2
      · exact (hasks.eq_ok_iff.mp hok).2
  · rintro ⟨hrows, hcodes, hmem⟩
    refine ⟨inRange_of_rowCountFits hrows, ?_⟩
    cases hload : loadFromFile path schema (some bs) with
    | error e => exact Or.inl ⟨e, hasks.eq_error_iff.mpr ⟨hload, hmem⟩⟩
    | ok seg =>
      refine Or.inr ⟨seg, hasks.eq_ok_iff.mpr ⟨hload, hmem⟩, fun col hcol row hrow => ?_⟩
      have hl : Layout schema bs seg := load_eq_ok_iff.mp hload
      obtain ⟨images, rest, -, hcols⟩ := hl.parts
      obtain ⟨s, -, image, hcl⟩ := mem_columnsLayout hcols col hcol
      exact hcl.readable (hrows.of_layout hl hcol) hrow (hcodes seg hl col hcol row hrow)

/-- One string column over one row, whose code is 5; the dictionary is empty and the
checksum is right. -/
def danglingCode : Bytes :=
  kMagic ++ [1, 0, 0, 0] ++ [0, 0, 0, 0, 0, 0, 0, 0] ++ [1, 0, 0, 0] ++
    ([3] ++ [0, 0, 0, 0] ++ [1] ++ [0] ++ [210, 130, 4, 219] ++ [5, 0, 0, 0] ++ [0, 0, 0, 0])

/-- A header of 2³² - 1 rows, and the beginning of an int32 column. -/
def wrappingRowCount : Bytes :=
  kMagic ++ [1, 0, 0, 0] ++ [0, 0, 0, 0, 0, 0, 0, 0] ++ [255, 255, 255, 255] ++ ([0] ++ [0, 0, 0, 0])

/-- The first file cut off behind a dictionary size of 2³² - 1: 43 bytes that ask for 128 GiB. -/
def hugeDictionary : Bytes := danglingCode.take 39 ++ [255, 255, 255, 255]

/-- In 16 GiB. -/
theorem load_unsafe :
    ¬ Safe (Memory.upTo (2 ^ 34)) "segment_0.seg" [⟨"name", .string⟩] danglingCode ∧
      ¬ Safe (Memory.upTo (2 ^ 34)) "segment_0.seg" [⟨"v", .int32⟩] wrappingRowCount ∧
      ¬ Safe (Memory.upTo (2 ^ 34)) "segment_0.seg" [⟨"name", .string⟩] hugeDictionary := by
  refine ⟨fun ⟨_, hends⟩ => ?_, fun ⟨hrange, _⟩ => ?_, fun ⟨_, hends⟩ => ?_⟩
  · have hnone : ((loadFromFileIn (Memory.upTo (2 ^ 34)) "segment_0.seg" [⟨"name", .string⟩]
        (some danglingCode)).toOption.map fun seg => (seg.numRows, seg.columns.map fun col => col.valueAt 0)) =
          some (1, [none]) := by decide +kernel
    rcases hends with ⟨e, he⟩ | ⟨seg, hok, hread⟩
    · rw [he] at hnone
      cases hnone
    · rw [hok] at hnone
      obtain ⟨hrows, hcols⟩ := Prod.mk.inj (Option.some.inj hnone)
      obtain ⟨col, hcol, hat⟩ := List.mem_map.mp
        (show none ∈ seg.columns.map fun col => col.valueAt 0 by simp [hcols])
      obtain ⟨v, hv⟩ := (hread col hcol 0 (by omega)).value
      rw [hat] at hv
      cases hv
  · obtain ⟨b, hb, hout⟩ : ∃ b ∈ countedBitmaps "segment_0.seg" [⟨"v", .int32⟩]
        (header [(⟨"v", .int32⟩ : ColumnSchema)].length 0 (2 ^ 32 - 1) ++
          (leBytes 1 ColumnType.int32.code ++ (leBytes 4 0 ++ []))), ¬ b.InRange :=
      not_inRange_of_wrap _ _ (by decide) (by decide) (by decide) (by decide) (by decide)
    have hbytes : header [(⟨"v", .int32⟩ : ColumnSchema)].length 0 (2 ^ 32 - 1) ++
        (leBytes 1 ColumnType.int32.code ++ (leBytes 4 0 ++ [])) = wrappingRowCount := by decide +kernel
    rw [hbytes] at hb
    exact hout (hrange b hb)
  · have hthrows : loadFromFileIn (Memory.upTo (2 ^ 34)) "segment_0.seg" [⟨"name", .string⟩]
        (some hugeDictionary) = .error .badAlloc := by decide +kernel
    rw [hthrows] at hends
    simp at hends

end Segment

end CoreDB
