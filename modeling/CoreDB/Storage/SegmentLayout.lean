import CoreDB.Lib.Readers
import CoreDB.Storage.SegmentFile

/-!
# What `LoadFromFile` accepts

The layout of a segment file as a relation between its bytes and the segment they
describe: the header, then for each column its type, null count, bitmap, bounds,
checksum, data block and dictionary, with the counts and checksums right.  The loader
accepts exactly the files that begin with such a layout, and returns the segment they
describe: `load_eq_ok_iff`.  A saved file is such a layout and nothing else, so no part
of it loads: `load_take_save`.
-/

namespace CoreDB

open ByteCodec

/-! ## Steps of the loader -/

section
variable {α β : Type}

theorem bind_eq_ok {x : Except String α} {f : α → Except String β} {b : β} :
    (x >>= f) = .ok b ↔ ∃ a, x = .ok a ∧ f a = .ok b := by
  constructor
  · intro h
    cases x with
    | error e => cases h
    | ok a => exact ⟨a, rfl, h⟩
  · rintro ⟨a, rfl, h⟩
    exact h

theorem orError_eq_ok {msg : String} {o : Option α} {a : α} : orError msg o = .ok a ↔ o = some a := by
  cases o with
  | none => simp [orError]
  | some b => simp [orError]

theorem check_eq_ok {c : Prop} [Decidable c] {e : String} {x : Except String α} {a : α} :
    (if c then .error e else x) = .ok a ↔ ¬ c ∧ x = .ok a := by
  by_cases hc : c <;> simp [hc]

theorem forM_eq_ok {f : α → Except String Unit} {l : List α} (h : ∀ a ∈ l, f a = .ok ()) : l.forM f = .ok () := by
  induction l with
  | nil => rfl
  | cons a l ih =>
    rw [List.forM, h a List.mem_cons_self]
    exact ih fun b hb => h b (List.mem_cons_of_mem _ hb)

end

theorem local_readTypedValue (t : ColumnType) : Local (readTypedValue t) := by
  cases t with
  | int32 => exact local_map (fun v => Value.int32 (BitVec.ofNat 32 v)) (local_takeLE 4)
  | int64 => exact local_map (fun v => Value.int64 (BitVec.ofNat 64 v)) (local_takeLE 8)
  | double => exact local_map (fun v => Value.double (BitVec.ofNat 64 v)) (local_takeLE 8)
  | string => exact local_map (fun s => Value.string s) local_takeString

theorem local_readBounds (t : ColumnType) (flag : Nat) : Local (readBounds t flag) := by
  by_cases hf : flag = 0
  · have heq : readBounds t flag = fun bs => some ((.null, .null), bs) := by
      funext bs
      rw [readBounds, if_pos hf]
    rw [heq]
    exact local_some _
  · have heq : readBounds t flag = fun bs => (readTypedValue t bs).bind fun lo =>
        (readTypedValue t lo.2).map fun hi => ((lo.1, hi.1), hi.2) := by
      funext bs
      rw [readBounds, if_neg hf]
    rw [heq]
    exact local_bind Prod.mk (local_readTypedValue t) (local_readTypedValue t)

theorem local_readStrings : ∀ n, Local (readStrings n) := by
  intro n
  induction n with
  | zero => exact local_some []
  | succ n ih => exact local_bind List.cons local_takeString ih

/-! ## Columns -/

namespace Column

/-- The dictionary of a column of type `t` in a file: the size and that many strings, or
nothing. -/
def DictLayout (t : ColumnType) (image : Bytes) (dict : Dictionary) : Prop :=
  if t = .string then ∃ size strings values, size < 2 ^ 32 ∧ image = leBytes 4 size ++ strings ∧
    Reads (readStrings size) strings values ∧ dict = Dictionary.fromValues values
  else image = [] ∧ dict = {}

/-- A column of type `t` over `n` rows in a file. -/
structure Layout (t : ColumnType) (n : Nat) (image : Bytes) (col : Column) : Prop where
  parts : ∃ nullCount bitmap flag bounds data dict, image =
      leBytes 1 t.code ++ (leBytes 4 nullCount ++ (bitmap ++ (flag :: (bounds ++ (crcBytes col.checksum ++
        (data ++ dict)))))) ∧
    nullCount < 2 ^ 32 ∧ n - col.validity.countValid = nullCount ∧
    bitmap.length = (n + 7) % 2 ^ 32 / 8 ∧ col.validity = Bitmap.fromBytes n bitmap ∧
    Reads (readBounds t flag.toNat) bounds (col.min, col.max) ∧
    data.length = n * t.elementWidth ∧ DictLayout t dict col.dictionary ∧
    col = { ofData t n data with
      validity := col.validity, min := col.min, max := col.max, dictionary := col.dictionary, checksum := col.checksum }
  checksum : col.checksum = col.computeChecksum

theorem loadDictionary_eq_ok_iff {path : String} {c : Nat} {t : ColumnType} {bs rest : Bytes} {dict : Dictionary} :
    loadDictionary path c t bs = .ok (dict, rest) ↔ ∃ image, bs = image ++ rest ∧ DictLayout t image dict := by
  unfold loadDictionary DictLayout
  by_cases ht : t = .string
  · simp only [if_pos ht, bind_eq_ok, orError_eq_ok]
    constructor
    · rintro ⟨⟨size, bs1⟩, hsize, ⟨values, bs2⟩, hvalues, heq⟩
      cases heq
      obtain ⟨rfl, hlt⟩ := takeLE_eq_some 4 _ _ _ hsize
      obtain ⟨strings, rfl, hreads⟩ := local_readStrings _ _ _ _ hvalues
      exact ⟨leBytes 4 size ++ strings, by simp, size, strings, values, hlt, rfl, hreads, rfl⟩
    · rintro ⟨image, rfl, size, strings, values, hlt, rfl, hreads, rfl⟩
      exact ⟨_, by rw [List.append_assoc]; exact takeLE_leBytes 4 size _ hlt, _, hreads rest, rfl⟩
  · simp only [if_neg ht]
    constructor
    · intro h
      cases h
      exact ⟨[], rfl, rfl, rfl⟩
    · rintro ⟨image, rfl, rfl, rfl⟩
      rfl

/-- The byte in front of the bounds. -/
theorem takeLE_one {bs : Bytes} {v : Nat} {rest : Bytes} :
    takeLE 1 bs = some (v, rest) ↔ ∃ b : UInt8, bs = b :: rest ∧ v = b.toNat := by
  constructor
  · intro h
    obtain ⟨rfl, hlt⟩ := takeLE_eq_some 1 _ _ _ h
    refine ⟨UInt8.ofNat v, rfl, ?_⟩
    rw [UInt8.toNat_ofNat']
    exact (Nat.mod_eq_of_lt hlt).symm
  · rintro ⟨b, rfl, rfl⟩
    simp [takeLE, takeBytes, leVal]

/-- The part in front of the data. -/
theorem loadHead_eq_ok_iff {path : String} {c : Nat} {t : ColumnType} {n : Nat} {bs rest : Bytes} {validity : Bitmap}
    {lo hi : Value} {checksum : Nat} :
    loadHead path c t n bs = .ok ((validity, (lo, hi), checksum), rest) ↔
      ∃ nullCount bitmap flag bounds, bs = leBytes 1 t.code ++ (leBytes 4 nullCount ++ (bitmap ++ (flag ::
          (bounds ++ (leBytes 4 checksum ++ rest))))) ∧
        nullCount < 2 ^ 32 ∧ n - validity.countValid = nullCount ∧ bitmap.length = (n + 7) % 2 ^ 32 / 8 ∧
        validity = Bitmap.fromBytes n bitmap ∧ Reads (readBounds t flag.toNat) bounds (lo, hi) ∧ checksum < 2 ^ 32 := by
  unfold loadHead
  simp only [bind_eq_ok, orError_eq_ok]
  constructor
  · rintro ⟨⟨type, bs1⟩, htype, h⟩
    split at h
    · cases h
    · next hcode =>
      simp only [bind_eq_ok, orError_eq_ok] at h
      obtain ⟨⟨nullCount, bs2⟩, hnull, ⟨bitmap, bs3⟩, hbitmap, h⟩ := h
      split at h
      · cases h
      · next hcount =>
        simp only [bind_eq_ok, orError_eq_ok] at h
        obtain ⟨⟨flag, bs4⟩, hflag, ⟨bounds, bs5⟩, hbounds, ⟨sum, bs6⟩, hsum, heq⟩ := h
        cases heq
        obtain ⟨rfl, -⟩ := takeLE_eq_some 1 _ _ _ htype
        obtain ⟨rfl, hnlt⟩ := takeLE_eq_some 4 _ _ _ hnull
        obtain ⟨rfl, hblen⟩ := takeBytes_eq_some _ _ _ _ hbitmap
        obtain ⟨b, rfl, rfl⟩ := takeLE_one.mp hflag
        obtain ⟨used, rfl, hreads⟩ := local_readBounds _ _ _ _ _ hbounds
        obtain ⟨rfl, hslt⟩ := takeLE_eq_some 4 _ _ _ hsum
        have hcode : type = t.code := Classical.byContradiction fun hne => hcode hne
        exact ⟨nullCount, bitmap, b, used, by rw [hcode], hnlt, Classical.byContradiction fun hne => hcount hne, hblen,
          rfl, hreads, hslt⟩
  · rintro ⟨nullCount, bitmap, flag, bounds, rfl, hnlt, hcount, hblen, rfl, hreads, hslt⟩
    refine ⟨_, takeLE_leBytes 1 _ _ t.code_lt, ?_⟩
    rw [if_neg (by simp)]
    simp only [bind_eq_ok, orError_eq_ok]
    refine ⟨_, takeLE_leBytes 4 _ _ hnlt, _, takeBytes_append_of_length _ _ _ hblen, ?_⟩
    rw [if_neg (by simpa using hcount)]
    simp only [bind_eq_ok, orError_eq_ok]
    exact ⟨_, takeLE_one.mpr ⟨flag, rfl, rfl⟩, _, hreads _, _, takeLE_leBytes 4 _ _ hslt, rfl⟩

/-- **A column is accepted** iff the bytes begin with its layout. -/
theorem load_eq_ok_iff {path : String} {c : Nat} {t : ColumnType} {n : Nat} {bs rest : Bytes} {col : Column} :
    load path c t n bs = .ok (col, rest) ↔ ∃ image, bs = image ++ rest ∧ Layout t n image col := by
  unfold load
  simp only [bind_eq_ok, orError_eq_ok]
  constructor
  · rintro ⟨⟨⟨validity, ⟨lo, hi⟩, checksum⟩, bs1⟩, hhead, ⟨data, bs2⟩, hdata, ⟨dict, bs3⟩, hdict, h⟩
    split at h
    · cases h
    · next hsum =>
      cases h
      obtain ⟨nullCount, bitmap, flag, bounds, rfl, hnlt, hcount, hblen, rfl, hreads, hslt⟩ :=
        loadHead_eq_ok_iff.mp hhead
      obtain ⟨rfl, hdlen⟩ := takeBytes_eq_some _ _ _ _ hdata
      obtain ⟨image, rfl, hlayout⟩ := loadDictionary_eq_ok_iff.mp hdict
      have hcrc : leBytes 4 checksum = crcBytes (BitVec.ofNat 32 checksum) := by
        unfold crcBytes
        rw [BitVec.toNat_ofNat, Nat.mod_eq_of_lt hslt]
      refine ⟨_, ?_, ⟨⟨nullCount, bitmap, flag, bounds, data, image, rfl, hnlt, hcount, hblen, rfl, hreads, hdlen,
        hlayout, rfl⟩, ?_⟩⟩
      · rw [hcrc]
        simp
      · have heq := congrArg (BitVec.ofNat 32) (Classical.byContradiction fun hne => hsum hne)
        rw [BitVec.ofNat_toNat, BitVec.setWidth_eq] at heq
        exact heq.symm
  · rintro ⟨image, rfl, ⟨nullCount, bitmap, flag, bounds, data, dict, rfl, hnlt, hcount, hblen, hval, hreads, hdlen,
      hdict, hcol⟩, hsum⟩
    have hhead : loadHead path c t n (leBytes 1 t.code ++ (leBytes 4 nullCount ++ (bitmap ++ (flag :: (bounds ++
        (crcBytes col.checksum ++ (data ++ dict)))))) ++ rest) =
        .ok ((col.validity, (col.min, col.max), col.checksum.toNat), data ++ dict ++ rest) := by
      rw [loadHead_eq_ok_iff]
      exact ⟨nullCount, bitmap, flag, bounds, by simp [crcBytes], hnlt, hcount, hblen, hval, hreads, col.checksum.isLt⟩
    refine ⟨_, hhead, _, by rw [List.append_assoc]; exact takeBytes_append_of_length _ _ _ hdlen, _,
      loadDictionary_eq_ok_iff.mpr ⟨dict, rfl, hdict⟩, ?_⟩
    have hsame : ({ ofData t n data with
        validity := col.validity, min := col.min, max := col.max, dictionary := col.dictionary } :
          Column).computeChecksum = col.checksum := by
      rw [hsum]
      conv => rhs; rw [hcol]
      rfl
    dsimp only
    rw [if_neg (by rw [hsame]; simp), BitVec.ofNat_toNat, BitVec.setWidth_eq, ← hcol]

end Column

/-! ## Segments -/

namespace Segment

/-- The columns of a file, one after the other. -/
inductive ColumnsLayout (n : Nat) : Schema → Bytes → List Column → Prop
  | nil : ColumnsLayout n [] [] []
  | cons {s : ColumnSchema} {schema : Schema} {image images : Bytes} {col : Column} {cols : List Column} :
      Column.Layout s.type n image col → ColumnsLayout n schema images cols →
      ColumnsLayout n (s :: schema) (image ++ images) (col :: cols)

/-- The header of a file with these counts. -/
def header (numColumns segmentId numRows : Nat) : Bytes :=
  kMagic ++ (leBytes 4 numColumns ++ (leBytes 8 segmentId ++ leBytes 4 numRows))

/-- The bytes begin with the layout of the segment. -/
structure Layout (schema : Schema) (bs : Bytes) (seg : Segment) : Prop where
  schema_eq : seg.schema = schema
  numColumns : schema.length < 2 ^ 32
  segmentId : seg.segmentId < 2 ^ 64
  numRows : seg.numRows < 2 ^ 32
  parts : ∃ images rest, bs = header schema.length seg.segmentId seg.numRows ++ (images ++ rest) ∧
    ColumnsLayout seg.numRows schema images seg.columns

theorem mem_columnsLayout {n : Nat} {schema : Schema} {images : Bytes} {cols : List Column}
    (h : ColumnsLayout n schema images cols) :
    ∀ col ∈ cols, ∃ s ∈ schema, ∃ image, Column.Layout s.type n image col := by
  induction h with
  | nil => intro col hcol; cases hcol
  | @cons s schema image images col cols hl _ ih =>
    intro col' hcol
    rcases List.mem_cons.mp hcol with rfl | hcol
    · exact ⟨s, List.mem_cons_self, image, hl⟩
    · obtain ⟨s', hs, image', hl'⟩ := ih col' hcol
      exact ⟨s', List.mem_cons_of_mem _ hs, image', hl'⟩

theorem loadColumns_eq_ok_iff {path : String} {n : Nat} : ∀ {schema : Schema} {c : Nat} {bs : Bytes}
    {cols : List Column}, loadColumns path n schema c bs = .ok cols ↔
      ∃ images rest, bs = images ++ rest ∧ ColumnsLayout n schema images cols := by
  intro schema
  induction schema with
  | nil =>
    intro c bs cols
    unfold loadColumns
    constructor
    · intro h
      cases h
      exact ⟨[], bs, rfl, .nil⟩
    · rintro ⟨images, rest, -, h⟩
      cases h
      rfl
  | cons s schema ih =>
    intro c bs cols
    unfold loadColumns
    simp only [bind_eq_ok]
    constructor
    · rintro ⟨⟨col, bs1⟩, hcol, cols', hcols, heq⟩
      cases heq
      obtain ⟨image, rfl, hl⟩ := Column.load_eq_ok_iff.mp hcol
      obtain ⟨images, rest, rfl, hls⟩ := ih.mp hcols
      exact ⟨image ++ images, rest, by simp, .cons hl hls⟩
    · rintro ⟨images, rest, rfl, h⟩
      cases h with
      | @cons _ _ image images col cols hl hls =>
        exact ⟨(col, images ++ rest), Column.load_eq_ok_iff.mpr ⟨image, by simp, hl⟩, cols,
          ih.mpr ⟨images, rest, rfl, hls⟩, rfl⟩

/-- What `P` says of the header's counts and the rest of the file, once the header is accepted. -/
theorem header_reads_iff {schema : Schema} {bs : Bytes} {P : Nat → Nat → Bytes → Prop} :
    (∃ magic, ((takeBytes 8 bs).filter fun p => p.1 == kMagic) = some magic ∧
      ∃ numColumns, takeLE 4 magic.2 = some numColumns ∧ ∃ segmentId, takeLE 8 numColumns.2 = some segmentId ∧
        ∃ numRows, takeLE 4 segmentId.2 = some numRows ∧ ¬ numColumns.1 ≠ schema.length ∧
          P segmentId.1 numRows.1 numRows.2) ↔
    ∃ segmentId n rest, schema.length < 2 ^ 32 ∧ segmentId < 2 ^ 64 ∧ n < 2 ^ 32 ∧
      bs = header schema.length segmentId n ++ rest ∧ P segmentId n rest := by
  constructor
  · rintro ⟨⟨magic, bs1⟩, hmagic, ⟨numColumns, bs2⟩, hcols, ⟨segmentId, bs3⟩, hid, ⟨n, bs4⟩, hrows, hcount, h⟩
    obtain ⟨htake, hm⟩ := Option.filter_eq_some_iff.mp hmagic
    obtain ⟨rfl, -⟩ := takeBytes_eq_some _ _ _ _ htake
    obtain rfl : magic = kMagic := by simpa using hm
    obtain ⟨rfl, hclt⟩ := takeLE_eq_some 4 _ _ _ hcols
    obtain ⟨rfl, hilt⟩ := takeLE_eq_some 8 _ _ _ hid
    obtain ⟨rfl, hrlt⟩ := takeLE_eq_some 4 _ _ _ hrows
    obtain rfl : numColumns = schema.length := Classical.not_not.mp hcount
    exact ⟨segmentId, n, bs4, hclt, hilt, hrlt, by simp [header], h⟩
  · rintro ⟨segmentId, n, rest, hclt, hilt, hrlt, rfl, h⟩
    have hmagic : takeBytes 8 (header schema.length segmentId n ++ rest) =
        some (kMagic, leBytes 4 schema.length ++ (leBytes 8 segmentId ++ (leBytes 4 n ++ rest))) := by
      rw [header, List.append_assoc, List.append_assoc, List.append_assoc]
      exact takeBytes_append_of_length 8 kMagic _ rfl
    exact ⟨_, by rw [hmagic]; rfl, _, takeLE_leBytes 4 _ _ hclt, _, takeLE_leBytes 8 _ _ hilt, _,
      takeLE_leBytes 4 _ _ hrlt, not_not_intro rfl, h⟩

/-- **A file is accepted** iff it begins with the layout of a segment, which is the one
returned. -/
theorem load_eq_ok_iff {path : String} {schema : Schema} {bs : Bytes} {seg : Segment} :
    load path schema bs = .ok seg ↔ Layout schema bs seg := by
  unfold load
  simp only [bind_eq_ok, orError_eq_ok, check_eq_ok]
  refine (header_reads_iff (P := fun segmentId n rest => ∃ columns, loadColumns path n schema 0 rest = .ok columns ∧
    (Except.ok { segmentId, numRows := n, schema, columns } : Except String Segment) = .ok seg)).trans ?_
  constructor
  · rintro ⟨segmentId, n, rest, hclt, hilt, hrlt, rfl, columns, hload, heq⟩
    cases heq
    obtain ⟨images, rest, rfl, hl⟩ := loadColumns_eq_ok_iff.mp hload
    exact ⟨rfl, hclt, hilt, hrlt, images, rest, rfl, hl⟩
  · rintro ⟨rfl, hclt, hilt, hrlt, images, rest, rfl, hl⟩
    exact ⟨seg.segmentId, seg.numRows, images ++ rest, hclt, hilt, hrlt, rfl, seg.columns,
      loadColumns_eq_ok_iff.mpr ⟨images, rest, rfl, hl⟩, rfl⟩

/-! ## A file that is cut off -/

/-- Where a column ends does not depend on what follows it. -/
theorem columnsLayout_unique {n : Nat} {schema : Schema} {images : Bytes} {cols : List Column}
    (h : ColumnsLayout n schema images cols) : ∀ {images' rest rest' : Bytes} {cols' : List Column},
    ColumnsLayout n schema images' cols' → images ++ rest = images' ++ rest' → images = images' := by
  induction h with
  | nil =>
    intro images' rest rest' cols' h' _
    cases h'
    rfl
  | @cons s schema image images col cols hl _ ih =>
    intro images' rest rest' cols' h' heq
    cases h' with
    | @cons _ _ image' images' col' cols' hl' hls' =>
      rw [List.append_assoc, List.append_assoc] at heq
      have hload : Column.load "" 0 s.type n (image ++ (images ++ rest)) = .ok (col, images ++ rest) :=
        Column.load_eq_ok_iff.mpr ⟨image, rfl, hl⟩
      have hload' : Column.load "" 0 s.type n (image' ++ (images' ++ rest')) = .ok (col', images' ++ rest') :=
        Column.load_eq_ok_iff.mpr ⟨image', rfl, hl'⟩
      rw [heq, hload'] at hload
      have hrest : images' ++ rest' = images ++ rest := congrArg Prod.snd (Except.ok.inj hload)
      rw [hrest] at heq
      rw [List.append_cancel_right heq, ih hls' hrest.symm]

theorem columnsLayout_save {n : Nat} (hn : n + 7 < 2 ^ 32) : ∀ {schema : Schema} {cols : List Column} {bs : Bytes},
    List.Forall₂ (fun s col => Column.WellFormed s.type n col) schema cols → cols.all Column.fitsFile = true →
    saveColumns n cols = some bs → ColumnsLayout n schema bs cols := by
  intro schema
  induction schema with
  | nil =>
    intro cols bs hwf _ hsave
    cases hwf
    cases hsave
    exact .nil
  | cons s schema ih =>
    intro cols bs hwf hfits hsave
    cases hwf with
    | cons hcol hcols =>
      rw [List.all_cons, Bool.and_eq_true] at hfits
      obtain ⟨bs1, hsave1, hload⟩ := Column.load_save hcol hfits.1 "" 0 hn
      unfold saveColumns at hsave
      rw [hsave1, Option.bind_some] at hsave
      obtain ⟨bs2, hsave2, rfl⟩ := Option.map_eq_some_iff.mp hsave
      obtain ⟨image, heq, hl⟩ := Column.load_eq_ok_iff.mp (hload [])
      rw [List.append_cancel_right heq]
      exact .cons hl (ih hcols hfits.2 hsave2)

/-- **A saved file that is cut off does not load.** -/
theorem load_take_save (path : String) {schema : Schema} {seg seg' : Segment} {bs : Bytes} {k : Nat}
    (h : seg.WellFormed schema) (hf : seg.fitsFile = true) (hsave : seg.save = some bs) (hk : k < bs.length) :
    load path schema (bs.take k) ≠ .ok seg' := by
  intro hcut
  obtain ⟨bs', hsave', hload⟩ := load_save h hf path
  rw [hsave] at hsave'
  obtain rfl := Option.some.inj hsave'
  obtain ⟨hschema, hcount, hid, hrows, images, rest, heq, hlayout⟩ := load_eq_ok_iff.mp hcut
  -- the bytes behind the cut are ignored, so both loads return the segment
  have hwhole : bs = header schema.length seg'.segmentId seg'.numRows ++ (images ++ (rest ++ bs.drop k)) := by
    conv => lhs; rw [← List.take_append_drop k bs, heq]
    simp only [List.append_assoc]
  have hsame : load path schema bs = .ok seg' :=
    load_eq_ok_iff.mpr ⟨hschema, hcount, hid, hrows, images, rest ++ bs.drop k, hwhole, hlayout⟩
  rw [hload] at hsame
  obtain rfl := Except.ok.inj hsame
  unfold fitsFile at hf
  rw [Bool.and_eq_true, decide_eq_true_iff] at hf
  unfold save at hsave
  obtain ⟨saved, hcols, hbytes⟩ := Option.map_eq_some_iff.mp hsave
  have hfull : header schema.length seg.segmentId seg.numRows ++ saved = bs := by
    rw [← hbytes, ← h.columns.length_eq]
    simp [header]
  have htail := List.append_cancel_left (hfull.trans hwhole)
  have himages := columnsLayout_unique (columnsLayout_save hf.1.2.1 h.columns hf.2 hcols) hlayout
    (by rw [List.append_nil]; exact htail)
  rw [himages] at htail
  have hnil : rest ++ bs.drop k = [] := List.append_cancel_left (htail.symm.trans (List.append_nil images).symm)
  have hdrop := List.drop_eq_nil_iff.mp (List.append_eq_nil_iff.mp hnil).2
  omega

end Segment

end CoreDB
