import CoreDB.Storage.SegmentFile

/-!
# Building a segment, saving it and loading it again

What `Build` makes of rows whose strings fit the file's 32-bit lengths fits the file:
its dictionaries and bounds hold strings of the rows and no more of them than there
are rows.  So the file loads as the segment it was saved from: `build_save_load`.
-/

namespace CoreDB

open ByteCodec

namespace Column

/-- After `k` rows: the strings are short, and there are at most `k`. -/
structure Short (k : Nat) (col : Column) : Prop where
  min : col.min.shortString = true
  max : col.max.shortString = true
  size : col.dictionary.values.length ≤ k
  strings : ∀ s ∈ col.dictionary.values, s.length < 2 ^ 32

theorem short_blank (t : ColumnType) (n : Nat) : Short 0 (blank t n) := by
  cases t <;> exact ⟨rfl, rfl, Nat.le_refl 0, fun s hs => by cases hs⟩

theorem short_store {col col' : Column} {k r : Nat} {v : Value} (h : Short k col) (hv : v.shortString = true)
    (hs : col.store r v = some col') : Short (k + 1) col' := by
  have hsize := h.size
  unfold store at hs
  split at hs
  case h_4 s _ =>
    cases hs
    have hintern : ∀ u ∈ (col.dictionary.internOrGet s).2.values, u ∈ col.dictionary.values ∨ u = s := by
      intro u hu
      unfold Dictionary.internOrGet at hu
      split at hu
      · exact Or.inl hu
      · simpa using hu
    refine ⟨h.min, h.max, ?_, fun u hu => ?_⟩
    · show (col.dictionary.internOrGet s).2.values.length ≤ k + 1
      unfold Dictionary.internOrGet
      split
      · exact Nat.le_succ_of_le hsize
      · simpa using hsize
    · rcases hintern u hu with hu | rfl
      · exact h.strings u hu
      · simpa [Value.shortString] using hv
  case h_5 => cases hs
  all_goals
    cases hs
    exact ⟨h.min, h.max, Nat.le_succ_of_le hsize, h.strings⟩

theorem short_updateBounds {col col' : Column} {k : Nat} {v : Value} {hb : Bool} (h : Short k col)
    (hv : v.shortString = true) (hs : col.updateBounds v hb = some col') : Short k col' := by
  unfold updateBounds at hs
  split at hs
  · simp only [Option.bind_eq_bind, Option.bind_eq_some_iff, Option.map_eq_some_iff] at hs
    obtain ⟨col1, ⟨c1, -, rfl⟩, c2, -, rfl⟩ := hs
    have h1 : Short k (if c1 < 0 then { col with min := v } else col) := by
      split
      · exact ⟨hv, h.max, h.size, h.strings⟩
      · exact h
    split
    · exact ⟨h1.min, hv, h1.size, h1.strings⟩
    · exact h1
  · cases hs
    exact ⟨hv, hv, h.size, h.strings⟩

theorem short_buildRows {c : Nat} {rows : List Row} {col col' : Column}
    (hrows : ∀ row ∈ rows, ∀ v ∈ row, v.shortString = true) (h : Short 0 col)
    (hbuild : buildRows c rows 0 col false = some col') : Short rows.length col' := by
  have hcells : ∀ v ∈ rows.map (fun row => row.getD c .null), v.shortString = true := by
    intro v hv
    obtain ⟨row, hrow, rfl⟩ := List.mem_map.mp hv
    rw [List.getD_eq_getElem?_getD]
    cases hcell : row[c]? with
    | none => rfl
    | some v => exact hrows row hrow v (List.mem_of_getElem? hcell)
  obtain ⟨-, hshort⟩ := buildRows_invariant
    (P := fun pre col _ => (∀ v ∈ pre, v.shortString = true) → Short pre.length col) c rows.length
    (fun pre col hb _ h hpre => by
      have hk := h fun v hv => hpre v (List.mem_append_left _ hv)
      rw [List.length_append]
      exact ⟨hk.min, hk.max, Nat.le_succ_of_le hk.size, hk.strings⟩)
    (fun pre col hb v col1 col2 _ h _ hstore hup hpre => by
      have hv := hpre v (by simp)
      have hk := h fun u hu => hpre u (List.mem_append_left _ hu)
      rw [List.length_append]
      exact short_updateBounds (short_store hk hv hstore) hv hup)
    rows [] col col' false (fun _ => h) (by simp) hbuild
  simpa using hshort hcells

theorem fitsFile_of_build {t : ColumnType} {c : Nat} {rows : List Row} {col : Column} (hbig : rows.length < 2 ^ 32)
    (hrows : ∀ row ∈ rows, ∀ v ∈ row, v.shortString = true) (h : build t c rows = some col) : col.fitsFile = true := by
  obtain ⟨col1, hbuild, rfl⟩ := Option.map_eq_some_iff.mp h
  have hshort := short_buildRows hrows (short_blank t rows.length) hbuild
  have hsize := hshort.size
  unfold fitsFile
  simp only [Bool.and_eq_true, decide_eq_true_iff, List.all_eq_true]
  exact ⟨⟨⟨hshort.min, hshort.max⟩, by omega⟩, hshort.strings⟩

end Column

namespace Segment

theorem fitsFile_buildColumns {rows : List Row} (hbig : rows.length < 2 ^ 32)
    (hrows : ∀ row ∈ rows, ∀ v ∈ row, v.shortString = true) : ∀ (schema : Schema) (c : Nat) (cols : List Column),
    buildColumns rows schema c = some cols → cols.all Column.fitsFile = true := by
  intro schema
  induction schema with
  | nil =>
    intro c cols h
    cases h
    rfl
  | cons s schema ih =>
    intro c cols h
    unfold buildColumns at h
    split at h
    · cases h
    · next col hcol =>
      obtain ⟨rest, hrest, rfl⟩ := Option.map_eq_some_iff.mp h
      rw [List.all_cons, Column.fitsFile_of_build hbig hrows hcol, ih (c + 1) rest hrest]
      rfl

/-- The numbers of a built segment fit the fields of its file. -/
theorem fitsFile_build {segmentId : Nat} {schema : Schema} {rows : List Row} {seg : Segment} (hid : segmentId < 2 ^ 64)
    (hschema : schema.length < 2 ^ 32) (hrows : rows.length + 7 < 2 ^ 32)
    (hshort : ∀ row ∈ rows, ∀ v ∈ row, v.shortString = true) (h : build segmentId schema rows = some seg) :
    seg.fitsFile = true := by
  obtain ⟨cols, hcols, rfl⟩ := Option.map_eq_some_iff.mp h
  have hall := fitsFile_buildColumns (by omega) hshort schema 0 cols hcols
  have hlen := (buildColumns_takes rows schema 0 cols hcols).1
  unfold fitsFile
  simp only [Bool.and_eq_true, decide_eq_true_iff]
  exact ⟨⟨hid, hrows, by omega⟩, hall⟩

/-- Every column of a well-formed segment passes the integrity check. -/
theorem verifyIntegrity_of_wellFormed {schema : Schema} {seg : Segment} (h : seg.WellFormed schema) :
    seg.verifyIntegrity = .ok () := by
  have hcols : ∀ col ∈ seg.columns, col.computeChecksum = col.checksum := by
    intro col hcol
    obtain ⟨i, hi, rfl⟩ := List.mem_iff_getElem.mp hcol
    exact (((List.forall₂_iff_get.mp h.columns).2 i (by rw [h.columns.length_eq]; exact hi) hi).checksum).symm
  have hpairs : ∀ p ∈ seg.columns.zipIdx, p.1.computeChecksum = p.1.checksum := fun p hp =>
    hcols p.1 (List.fst_mem_of_mem_zipIdx hp)
  unfold verifyIntegrity
  generalize seg.columns.zipIdx = l at hpairs
  induction l with
  | nil => rfl
  | cons p l ih =>
    unfold List.forM
    rw [if_pos (hpairs p List.mem_cons_self)]
    exact ih fun q hq => hpairs q (List.mem_cons_of_mem _ hq)

/-- **Build, save, load.**  Rows that conform to a schema of fewer than 2³² columns, with
strings below 2³² bytes and `n + 7` below 2³² for their number `n`: the file loads as
the very segment that was built, which passes the integrity check and gives every row
back. -/
theorem build_save_load (path : String) {segmentId : Nat} {schema : Schema} {rows : List Row} (hid : segmentId < 2 ^ 64)
    (hschema : schema.length < 2 ^ 32) (hrows : rows.length + 7 < 2 ^ 32)
    (hconf : ∀ row ∈ rows, rowConforms schema row = true) (hshort : ∀ row ∈ rows, ∀ v ∈ row, v.shortString = true) :
    ∃ seg bs, build segmentId schema rows = some seg ∧ seg.save = some bs ∧
      loadFromFile path schema (some bs) = .ok seg ∧ seg.verifyIntegrity = .ok () ∧
      seg.numRows = rows.length ∧ ∀ r (hr : r < rows.length), seg.extractFullRow r = some rows[r] := by
  obtain ⟨seg, hbuild, hsid, hnum, hwf, hback⟩ := build_spec segmentId schema rows (by omega) hconf
  have hfits := fitsFile_build hid hschema hrows hshort hbuild
  obtain ⟨bs, hsave, hload⟩ := load_save hwf hfits path
  exact ⟨seg, bs, hbuild, hsave, hload, verifyIntegrity_of_wellFormed hwf, hnum, hback⟩

/-- Two rows with a NULL in each column. -/
theorem build_save_load_twoRows : ∃ seg bs,
    build 1 [⟨"id", .int64⟩, ⟨"name", .string⟩] [[.int64 4, .null], [.null, .string [104, 105]]] = some seg ∧
      seg.save = some bs ∧ loadFromFile "segment_1.seg" [⟨"id", .int64⟩, ⟨"name", .string⟩] (some bs) = .ok seg ∧
      seg.verifyIntegrity = .ok () ∧ seg.numRows = 2 ∧
      ∀ r (hr : r < [[Value.int64 4, .null], [.null, .string [104, 105]]].length),
        seg.extractFullRow r = some ([[Value.int64 4, .null], [.null, .string [104, 105]]][r]) :=
  build_save_load "segment_1.seg" (by decide) (by decide) (by decide) (by decide) (by decide)

/-- The header's column count is 32-bit: with 2³² columns it says 0. -/
theorem load_wide {schema : Schema} (hlen : schema.length = 2 ^ 32) : ∃ seg bs e,
    build 1 schema [] = some seg ∧ seg.save = some bs ∧ loadFromFile "segment_1.seg" schema (some bs) = .error e := by
  obtain ⟨seg, hbuild, hsid, hnum, hwf, -⟩ := build_spec 1 schema [] (by decide) (by simp)
  have hcols : seg.columns.all Column.fitsFile = true := by
    obtain ⟨cols, hcols, rfl⟩ := Option.map_eq_some_iff.mp hbuild
    exact fitsFile_buildColumns (show ([] : List Row).length < 2 ^ 32 by decide) (by simp) _ 0 cols hcols
  obtain ⟨cs, hsave, -⟩ := loadColumns_save "segment_1.seg" (by rw [hnum]; decide) _ seg.columns 0 hwf.columns hcols
  refine ⟨seg, _, "'" ++ "segment_1.seg" ++ "': column count " ++ toString 0 ++ " does not match schema size " ++
    toString schema.length, hbuild, by rw [save, hsave]; rfl, ?_⟩
  have hmagic : ∀ g : Bytes, takeBytes 8 (kMagic ++ g) = some (kMagic, g) := fun g =>
    takeBytes_append_of_length 8 kMagic g rfl
  have hzero : leBytes 4 seg.columns.length = leBytes 4 0 := by
    rw [← hwf.columns.length_eq, hlen]
    rfl
  unfold loadFromFile load
  simp only [hmagic, Option.filter_some, beq_self_eq_true, if_true, orError, bind, Except.bind, hzero]
  rw [takeLE_leBytes 4 0 _ (by decide)]
  simp only
  rw [takeLE_leBytes 8 _ _ (by rw [hsid]; decide)]
  simp only
  rw [takeLE_leBytes 4 _ _ (by rw [hnum]; decide)]
  simp only
  rw [if_pos (by rw [hlen]; decide)]

theorem load_fails_on_wide_schema : ∃ schema : Schema, schema = List.replicate (2 ^ 32) ⟨"c", .int32⟩ ∧
    ∃ seg bs e, build 1 schema [] = some seg ∧ seg.save = some bs ∧
      loadFromFile "segment_1.seg" schema (some bs) = .error e :=
  ⟨_, rfl, load_wide List.length_replicate⟩

end Segment

end CoreDB
