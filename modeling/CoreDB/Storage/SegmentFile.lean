import CoreDB.Storage.Segment
import Mathlib.Data.List.Forall2

/-!
# Segment files (`storage/segment.cpp`, `SaveToFile` and `LoadFromFile`)

A file is the magic bytes, a header, and the columns one after the other.  The
loader checks what it reads against the schema, the null counts against the bitmaps
and each column's checksum; its errors name the file and the column.

The functions take memory as granted; `LoadFromFile` with its allocations is in
`Storage.SegmentMemory`, and agrees with this one wherever they succeed.

`load_save`: what was saved from a well-formed segment whose sizes fit their fields
loads as the same segment.
-/

namespace CoreDB

open ByteCodec

/-- `CDBSEG1` and a zero byte. -/
def kMagic : Bytes := [67, 68, 66, 83, 69, 71, 49, 0]

namespace ColumnType

def code : ColumnType → Nat
  | .int32 => 0
  | .int64 => 1
  | .double => 2
  | .string => 3

/-- `ToString` of the type a byte is cast to. -/
def nameOf : Nat → String
  | 0 => "int32"
  | 1 => "int64"
  | 2 => "double"
  | 3 => "string"
  | _ => "unknown"

def elementWidth : ColumnType → Nat
  | .int32 => 4
  | .int64 => 8
  | .double => 8
  | .string => 4

theorem code_lt (t : ColumnType) : t.code < 256 ^ 1 := by cases t <;> decide

end ColumnType

/-! ## Saving -/

/-- The length is cast to 32 bits, and that many bytes are written. -/
def writeString (s : Bytes) : Bytes := leBytes 4 s.length ++ s.take (s.length % 2 ^ 32)

/-- `none` is the thrown `std::bad_variant_access`. -/
def writeTypedValue : ColumnType → Value → Option Bytes
  | .int32, .int32 v => some (leBytes 4 v.toNat)
  | .int64, .int64 v => some (leBytes 8 v.toNat)
  | .double, .double d => some (leBytes 8 d.toNat)
  | .string, .string s => some (writeString s)
  | _, _ => none

namespace Column

/-- The min/max flag and, if it is set, the two values. -/
def saveBounds (col : Column) : Option Bytes :=
  if col.min = .null then some [0]
  else
    (writeTypedValue col.type col.min).bind fun lo =>
      (writeTypedValue col.type col.max).map fun hi => 1 :: (lo ++ hi)

def saveDictionary (col : Column) : Bytes :=
  if col.type = .string then
    leBytes 4 col.dictionary.values.length ++ col.dictionary.values.flatMap writeString
  else []

def save (numRows : Nat) (col : Column) : Option Bytes :=
  col.saveBounds.map fun bounds =>
    leBytes 1 col.type.code ++ (leBytes 4 (numRows - col.validity.countValid) ++ (col.validity.bytes ++
      (bounds ++ (crcBytes col.checksum ++ (col.dataBytes ++ col.saveDictionary)))))

end Column

namespace Segment

def saveColumns (numRows : Nat) : List Column → Option Bytes
  | [] => some []
  | col :: cols => (col.save numRows).bind fun bs => (saveColumns numRows cols).map (bs ++ ·)

/-- The bytes of the file; `none` when a min or max has another type than its column. -/
def save (seg : Segment) : Option Bytes :=
  (saveColumns seg.numRows seg.columns).map fun cols =>
    kMagic ++ (leBytes 4 seg.columns.length ++ (leBytes 8 seg.segmentId ++ (leBytes 4 seg.numRows ++ cols)))

end Segment

/-! ## Loading -/

/-- What was read, or the error. -/
def orError {α : Type} (msg : String) : Option α → Except String α
  | some a => .ok a
  | none => .error msg

def readTypedValue (t : ColumnType) (bs : Bytes) : Option (Value × Bytes) :=
  match t with
  | .int32 => (takeLE 4 bs).map fun p => (.int32 (BitVec.ofNat 32 p.1), p.2)
  | .int64 => (takeLE 8 bs).map fun p => (.int64 (BitVec.ofNat 64 p.1), p.2)
  | .double => (takeLE 8 bs).map fun p => (.double (BitVec.ofNat 64 p.1), p.2)
  | .string => (takeString bs).map fun p => (.string p.1, p.2)

/-- Min and max; both stay NULL if the flag is 0. -/
def readBounds (t : ColumnType) (hasMinMax : Nat) (bs : Bytes) : Option ((Value × Value) × Bytes) :=
  if hasMinMax = 0 then some ((.null, .null), bs)
  else (readTypedValue t bs).bind fun lo => (readTypedValue t lo.2).map fun hi => ((lo.1, hi.1), hi.2)

def readStrings : Nat → Bytes → Option (List Bytes × Bytes)
  | 0, bs => some ([], bs)
  | n + 1, bs => (takeString bs).bind fun s => (readStrings n s.2).map fun r => (s.1 :: r.1, r.2)

namespace Column

/-- A column of type `t` with the data block `data`. -/
def ofData (t : ColumnType) (numRows : Nat) (data : Bytes) : Column :=
  match t with
  | .int32 => { type := t, int32Data := takeWords 4 32 numRows data }
  | .int64 => { type := t, int64Data := takeWords 8 64 numRows data }
  | .double => { type := t, doubleData := takeWords 8 64 numRows data }
  | .string => { type := t, stringCodes := takeWords 4 32 numRows data }

/-- `'path': what at column c`. -/
def truncatedAt (path what : String) (c : Nat) : String :=
  "'" ++ path ++ "': truncated " ++ what ++ " at column " ++ toString c

/-- With memory for `dict_size` strings, which the source allocates before it reads the first
(`loadDictionaryIn`). -/
def loadDictionary (path : String) (c : Nat) (t : ColumnType) (bs : Bytes) : Except String (Dictionary × Bytes) :=
  if t = .string then do
    let size ← orError (truncatedAt path "dictionary size" c) (takeLE 4 bs)
    let entries ← orError (truncatedAt path "dictionary entry" c) (readStrings size.1 size.2)
    .ok (Dictionary.fromValues entries.1, entries.2)
  else .ok ({}, bs)

/-- The part of a column in front of its data: validity, bounds and checksum. -/
def loadHead (path : String) (c : Nat) (t : ColumnType) (numRows : Nat) (bs : Bytes) :
    Except String ((Bitmap × (Value × Value) × Nat) × Bytes) := do
  let type ← orError (truncatedAt path "column header" c) (takeLE 1 bs)
  if type.1 ≠ t.code then
    .error ("'" ++ path ++ "': column " ++ toString c ++ " type mismatch (file has " ++
      ColumnType.nameOf type.1 ++ ", schema expects " ++ ColumnType.nameOf t.code ++ ")")
  else
    let nullCount ← orError (truncatedAt path "null count" c) (takeLE 4 type.2)
    -- `num_rows + 7` is 32-bit arithmetic
    let bitmap ← orError (truncatedAt path "validity bitmap" c)
      (takeBytes ((numRows + 7) % 2 ^ 32 / 8) nullCount.2)
    let validity := Bitmap.fromBytes numRows bitmap.1
    if numRows - validity.countValid ≠ nullCount.1 then
      .error ("'" ++ path ++ "': null count mismatch at column " ++ toString c ++
        " (bitmap disagrees with stored count -> corruption)")
    else
      let flag ← orError (truncatedAt path "min/max flag" c) (takeLE 1 bitmap.2)
      let bounds ← orError (truncatedAt path "min/max" c) (readBounds t flag.1 flag.2)
      let checksum ← orError (truncatedAt path "checksum" c) (takeLE 4 bounds.2)
      .ok ((validity, bounds.1, checksum.1), checksum.2)

def load (path : String) (c : Nat) (t : ColumnType) (numRows : Nat) (bs : Bytes) :
    Except String (Column × Bytes) := do
  let head ← loadHead path c t numRows bs
  let data ← orError (truncatedAt path "data block" c) (takeBytes (numRows * t.elementWidth) head.2)
  let dict ← loadDictionary path c t data.2
  let col : Column :=
    { ofData t numRows data.1 with
      validity := head.1.1
      min := head.1.2.1.1
      max := head.1.2.1.2
      dictionary := dict.1 }
  if col.computeChecksum.toNat ≠ head.1.2.2 then
    .error ("'" ++ path ++ "': checksum mismatch at column " ++ toString c ++ " (expected " ++
      toString head.1.2.2 ++ ", got " ++ toString col.computeChecksum.toNat ++ ") -> data corruption detected")
  else .ok ({ col with checksum := BitVec.ofNat 32 head.1.2.2 }, dict.2)

end Column

namespace Segment

def loadColumns (path : String) (numRows : Nat) : Schema → Nat → Bytes → Except String (List Column)
  | [], _, _ => .ok []
  | s :: schema, c, bs => do
    let p ← Column.load path c s.type numRows bs
    let cols ← loadColumns path numRows schema (c + 1) p.2
    .ok (p.1 :: cols)

/-- `LoadFromFile` on a file of these bytes. -/
def load (path : String) (schema : Schema) (bs : Bytes) : Except String Segment := do
  let magic ← orError ("'" ++ path ++ "': bad magic (not a CoreDB segment file, or file is truncated)")
    ((takeBytes 8 bs).filter fun p => p.1 == kMagic)
  let header := "'" ++ path ++ "': truncated header"
  let numColumns ← orError header (takeLE 4 magic.2)
  let segmentId ← orError header (takeLE 8 numColumns.2)
  let numRows ← orError header (takeLE 4 segmentId.2)
  if numColumns.1 ≠ schema.length then
    .error ("'" ++ path ++ "': column count " ++ toString numColumns.1 ++ " does not match schema size " ++
      toString schema.length)
  else
    let columns ← loadColumns path numRows.1 schema 0 numRows.2
    .ok { segmentId := segmentId.1, numRows := numRows.1, schema, columns }

/-- The file may be missing. -/
def loadFromFile (path : String) (schema : Schema) : Option Bytes → Except String Segment
  | none => .error ("failed to open '" ++ path ++ "' for reading")
  | some bs => load path schema bs

end Segment

/-! ## What fits the fields of a file -/

def Value.shortString : Value → Bool
  | .string s => decide (s.length < 2 ^ 32)
  | _ => true

def Column.fitsFile (col : Column) : Bool :=
  col.min.shortString && col.max.shortString && decide (col.dictionary.values.length < 2 ^ 32) &&
    col.dictionary.values.all fun s => decide (s.length < 2 ^ 32)

/-- Sizes fit their 32-bit fields, with room for the loader's `num_rows + 7`. -/
def Segment.fitsFile (seg : Segment) : Bool :=
  decide (seg.segmentId < 2 ^ 64 ∧ seg.numRows + 7 < 2 ^ 32 ∧ seg.columns.length < 2 ^ 32) &&
    seg.columns.all Column.fitsFile

/-! ## What was saved loads -/

theorem writeString_eq {s : Bytes} (h : s.length < 2 ^ 32) : writeString s = leBytes 4 s.length ++ s := by
  unfold writeString
  rw [Nat.mod_eq_of_lt h, List.take_length]

theorem takeString_writeString {s : Bytes} (h : s.length < 2 ^ 32) (rest : Bytes) :
    takeString (writeString s ++ rest) = some (s, rest) := by
  rw [writeString_eq h]
  exact takeString_append s rest h

theorem writeTypedValue_spec {t : ColumnType} {v : Value} (hc : v.conforms t = true) (hn : v ≠ .null)
    (hs : v.shortString = true) : ∃ bs, writeTypedValue t v = some bs ∧
      ∀ rest, readTypedValue t (bs ++ rest) = some (v, rest) := by
  cases t <;> cases v <;> simp only [Value.conforms, Bool.false_eq_true] at hc <;>
    (try exact absurd rfl hn)
  case int32 x =>
    refine ⟨_, rfl, fun rest => ?_⟩
    have hlt : x.toNat < 256 ^ 4 := x.isLt
    simp [readTypedValue, takeLE_leBytes 4 _ _ hlt]
  case int64 x =>
    refine ⟨_, rfl, fun rest => ?_⟩
    have hlt : x.toNat < 256 ^ 8 := x.isLt
    simp [readTypedValue, takeLE_leBytes 8 _ _ hlt]
  case double x =>
    refine ⟨_, rfl, fun rest => ?_⟩
    have hlt : x.toNat < 256 ^ 8 := x.isLt
    simp [readTypedValue, takeLE_leBytes 8 _ _ hlt]
  case string s =>
    refine ⟨_, rfl, fun rest => ?_⟩
    rw [readTypedValue, takeString_writeString (by simpa [Value.shortString] using hs)]
    rfl

theorem readStrings_append (values : List Bytes) (h : ∀ s ∈ values, s.length < 2 ^ 32) (rest : Bytes) :
    readStrings values.length (values.flatMap writeString ++ rest) = some (values, rest) := by
  induction values with
  | nil => rfl
  | cons s values ih =>
    rw [List.flatMap_cons, List.append_assoc, List.length_cons, readStrings,
      takeString_writeString (h s List.mem_cons_self)]
    simp [ih fun u hu => h u (List.mem_cons_of_mem _ hu)]

namespace Dictionary

theorem lookup_eq_none_of_not_mem (s : Bytes) : ∀ (l : List (Bytes × BitVec 32)), s ∉ l.map (·.1) →
    l.lookup s = none := by
  intro l
  induction l with
  | nil => intro _; rfl
  | cons p l ih =>
    intro h
    simp only [List.map_cons, List.mem_cons, not_or] at h
    rw [List.lookup_cons, beq_eq_false_iff_ne.mpr h.1]
    exact ih h.2

theorem foldl_emplace : ∀ (values : List Bytes) (k : Nat) (m : List (Bytes × BitVec 32)),
    values.Nodup → (∀ s ∈ values, s ∉ m.map (·.1)) →
    (values.zipIdx k).foldl (fun m p => emplace m p.1 p.2) m =
      m ++ (values.zipIdx k).map fun p => (p.1, BitVec.ofNat 32 p.2) := by
  intro values
  induction values with
  | nil => intro k m _ _; simp
  | cons s values ih =>
    intro k m hnodup hfresh
    obtain ⟨hs, hnodup⟩ := List.nodup_cons.mp hnodup
    have hput : emplace m s k = m ++ [(s, BitVec.ofNat 32 k)] := by
      unfold emplace
      rw [lookup_eq_none_of_not_mem s m (hfresh s List.mem_cons_self)]
    rw [List.zipIdx_cons, List.foldl_cons, hput, ih (k + 1) _ hnodup]
    · simp
    · intro u hu hmem
      simp only [List.map_append, List.map_cons, List.map_nil, List.mem_append, List.mem_singleton] at hmem
      rcases hmem with hmem | rfl
      · exact hfresh u (List.mem_cons_of_mem _ hu) hmem
      · exact hs hu

theorem fromValues_of_good {d : Dictionary} (h : d.Good) : fromValues d.values = d := by
  unfold fromValues
  rw [foldl_emplace d.values 0 [] h.nodup (by simp), List.nil_append, ← h.codes]

end Dictionary

namespace Column

section
variable {t : ColumnType} {n : Nat} {col : Column} (h : WellFormed t n col) (hf : col.fitsFile = true)
include h

theorem length_dataBytes : col.dataBytes.length = n * t.elementWidth := by
  obtain ⟨⟨htype, -, -, h32, h64, hdb, hcd, -, -⟩, -, -⟩ := h
  unfold dataBytes
  rw [htype]
  cases t <;> simp only [length_words, ColumnType.elementWidth] <;> simp_all

/-- A column is determined by its data block, its bitmap, its bounds and its dictionary. -/
theorem ofData_eq : { ofData t n col.dataBytes with
      validity := col.validity, min := col.min, max := col.max, dictionary := col.dictionary,
      checksum := col.checksum } = col := by
  obtain ⟨type, validity, lo, hi, checksum, d32, d64, dd, codes, dict⟩ := col
  obtain ⟨⟨htype, -, -, h32, h64, hdb, hcd, -, -⟩, -, -⟩ := h
  dsimp only at htype h32 h64 hdb hcd
  subst htype
  cases type with
  | int32 =>
    simp only [if_true, if_false, reduceCtorEq, List.length_eq_zero_iff] at h32 h64 hdb hcd
    subst h32 h64 hdb hcd
    simp [ofData, dataBytes, takeWords_words 4 32 (by decide)]
  | int64 =>
    simp only [if_true, if_false, reduceCtorEq, List.length_eq_zero_iff] at h32 h64 hdb hcd
    subst h32 h64 hdb hcd
    simp [ofData, dataBytes, takeWords_words 8 64 (by decide)]
  | double =>
    simp only [if_true, if_false, reduceCtorEq, List.length_eq_zero_iff] at h32 h64 hdb hcd
    subst h32 h64 hdb hcd
    simp [ofData, dataBytes, takeWords_words 8 64 (by decide)]
  | string =>
    simp only [if_true, if_false, reduceCtorEq, List.length_eq_zero_iff] at h32 h64 hdb hcd
    subst h32 h64 hdb hcd
    simp [ofData, dataBytes, takeWords_words 4 32 (by decide)]

include hf

theorem loadDictionary_save (path : String) (c : Nat) (rest : Bytes) :
    loadDictionary path c t (col.saveDictionary ++ rest) = .ok (col.dictionary, rest) := by
  unfold fitsFile at hf
  simp only [Bool.and_eq_true, decide_eq_true_iff, List.all_eq_true] at hf
  unfold loadDictionary saveDictionary
  rw [h.shape.type]
  by_cases ht : t = .string
  · have hsize : col.dictionary.values.length < 256 ^ 4 := hf.1.2
    rw [if_pos ht, if_pos ht, List.append_assoc, takeLE_leBytes 4 _ _ hsize]
    simp [orError, readStrings_append _ hf.2 rest, Dictionary.fromValues_of_good h.shape.dict, bind, Except.bind]
  · rw [if_neg ht, if_neg ht, h.shape.noDict ht]
    rfl

theorem saveBounds_spec : ∃ bs, col.saveBounds = some bs ∧ ∃ flag more, bs = flag :: more ∧
    ∀ rest, readBounds t flag.toNat (more ++ rest) = some ((col.min, col.max), rest) := by
  unfold fitsFile at hf
  simp only [Bool.and_eq_true] at hf
  obtain ⟨hb, hbounds⟩ := h.bounds
  unfold saveBounds
  rw [h.shape.type]
  cases hb with
  | false =>
    obtain ⟨hmin, hmax⟩ := hbounds
    exact ⟨_, if_pos hmin, 0, [], rfl, fun rest => by simp [readBounds, hmin, hmax]⟩
  | true =>
    obtain ⟨⟨hmin, hminc⟩, hmax, hmaxc⟩ := hbounds
    obtain ⟨lo, hlo, hrlo⟩ := writeTypedValue_spec hminc hmin hf.1.1.1
    obtain ⟨hi, hhi, hrhi⟩ := writeTypedValue_spec hmaxc hmax hf.1.1.2
    refine ⟨1 :: (lo ++ hi), ?_, 1, lo ++ hi, rfl, fun rest => ?_⟩
    · rw [if_neg hmin, hlo, hhi]
      rfl
    · rw [List.append_assoc]
      simp [readBounds, hrlo, hrhi]

/-- **A column reads back.** -/
theorem load_save (path : String) (c : Nat) (hn : n + 7 < 2 ^ 32) :
    ∃ bs, col.save n = some bs ∧ ∀ rest, load path c t n (bs ++ rest) = .ok (col, rest) := by
  obtain ⟨bounds, hbounds, flag, more, rfl, hread⟩ := saveBounds_spec h hf
  refine ⟨_, by rw [save, hbounds]; rfl, fun rest => ?_⟩
  have hnull : n - col.validity.countValid < 256 ^ 4 := by
    have hlt : n < 256 ^ 4 := by
      have : (256 : Nat) ^ 4 = 2 ^ 32 := by decide
      omega
    omega
  have hbit : takeBytes ((n + 7) % 2 ^ 32 / 8) (col.validity.bytes ++ (flag :: more ++
      (crcBytes col.checksum ++ (col.dataBytes ++ col.saveDictionary)) ++ rest)) = some (col.validity.bytes,
        flag :: more ++ (crcBytes col.checksum ++ (col.dataBytes ++ col.saveDictionary)) ++ rest) :=
    takeBytes_append_of_length _ _ _ (by rw [h.shape.bitmap, Nat.mod_eq_of_lt hn])
  have hval : Bitmap.fromBytes n col.validity.bytes = col.validity := by
    rw [← h.shape.numRows]
    rfl
  have hflag : ∀ g : Bytes, takeLE 1 (flag :: g) = some (flag.toNat, g) := by
    intro g
    simp [takeLE, takeBytes, leVal]
  have hcrc : col.checksum.toNat < 256 ^ 4 := col.checksum.isLt
  have hdata : takeBytes (n * t.elementWidth) (col.dataBytes ++ (col.saveDictionary ++ rest)) =
      some (col.dataBytes, col.saveDictionary ++ rest) :=
    takeBytes_append_of_length _ _ _ (length_dataBytes h)
  have hhead : loadHead path c t n (leBytes 1 col.type.code ++ (leBytes 4 (n - col.validity.countValid) ++
      (col.validity.bytes ++ (flag :: more ++ (crcBytes col.checksum ++ (col.dataBytes ++ col.saveDictionary))))) ++
        rest) = .ok ((col.validity, (col.min, col.max), col.checksum.toNat),
          col.dataBytes ++ (col.saveDictionary ++ rest)) := by
    unfold loadHead
    rw [h.shape.type]
    simp only [List.append_assoc, List.cons_append] at hbit ⊢
    rw [takeLE_leBytes 1 _ _ t.code_lt]
    simp only [orError, bind, Except.bind, ne_eq, not_true_eq_false, if_false]
    rw [takeLE_leBytes 4 _ _ hnull]
    simp only [hbit, hval, hflag, hread, not_true_eq_false, if_false]
    rw [show takeLE 4 (crcBytes col.checksum ++ (col.dataBytes ++ (col.saveDictionary ++ rest))) = _ from
      takeLE_leBytes 4 _ _ hcrc]
  have hof := ofData_eq h
  have hsum : ({ ofData t n col.dataBytes with
      validity := col.validity, min := col.min, max := col.max, dictionary := col.dictionary } :
        Column).computeChecksum = col.checksum := by
    rw [h.checksum]
    conv => rhs; rw [← hof]
    rfl
  unfold load
  rw [hhead]
  simp only [bind, Except.bind, hdata, orError, loadDictionary_save h hf]
  rw [if_neg (by simp [hsum])]
  simp only [BitVec.ofNat_toNat, BitVec.setWidth_eq]
  rw [hof]

end

end Column

namespace Segment

theorem loadColumns_save {n : Nat} (path : String) (hn : n + 7 < 2 ^ 32) : ∀ (schema : Schema) (cols : List Column)
    (c : Nat), List.Forall₂ (fun s col => Column.WellFormed s.type n col) schema cols →
    cols.all Column.fitsFile = true → ∃ bs, saveColumns n cols = some bs ∧
      ∀ rest, loadColumns path n schema c (bs ++ rest) = .ok cols := by
  intro schema
  induction schema with
  | nil =>
    intro cols c hwf _
    cases hwf
    exact ⟨[], rfl, fun rest => rfl⟩
  | cons s schema ih =>
    intro cols c hwf hfits
    cases hwf with
    | cons hcol hcols =>
      rw [List.all_cons, Bool.and_eq_true] at hfits
      obtain ⟨bs1, hsave1, hload1⟩ := Column.load_save hcol hfits.1 path c hn
      obtain ⟨bs2, hsave2, hload2⟩ := ih _ (c + 1) hcols hfits.2
      refine ⟨bs1 ++ bs2, by simp [saveColumns, hsave1, hsave2], fun rest => ?_⟩
      simp [loadColumns, List.append_assoc, hload1, hload2, bind, Except.bind]

/-- **A segment file reads back.** -/
theorem load_save {schema : Schema} {seg : Segment} (h : seg.WellFormed schema) (hf : seg.fitsFile = true)
    (path : String) : ∃ bs, seg.save = some bs ∧ load path schema bs = .ok seg := by
  unfold fitsFile at hf
  rw [Bool.and_eq_true, decide_eq_true_iff] at hf
  obtain ⟨⟨hid, hn, hlen⟩, hcols⟩ := hf
  obtain ⟨bs, hsave, hload⟩ := loadColumns_save path hn schema seg.columns 0 h.columns hcols
  refine ⟨_, by rw [save, hsave]; rfl, ?_⟩
  have hrows : seg.numRows < 256 ^ 4 := by
    have : (256 : Nat) ^ 4 = 2 ^ 32 := by decide
    omega
  have hmagic : ∀ g : Bytes, takeBytes 8 (kMagic ++ g) = some (kMagic, g) := fun g =>
    takeBytes_append_of_length 8 kMagic g rfl
  have hl := hload []
  rw [List.append_nil] at hl
  unfold load
  simp only [hmagic, Option.filter_some, beq_self_eq_true, if_true, orError, bind, Except.bind]
  rw [takeLE_leBytes 4 _ _ (show seg.columns.length < 256 ^ 4 from hlen)]
  simp only
  rw [takeLE_leBytes 8 _ _ (show seg.segmentId < 256 ^ 8 from hid)]
  simp only
  rw [takeLE_leBytes 4 _ _ hrows]
  simp only [hl]
  rw [if_neg (by simp [h.columns.length_eq])]
  obtain rfl := h.schema_eq
  rfl

end Segment

end CoreDB
