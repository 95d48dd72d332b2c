import CoreDB.Storage.SegmentLayout
import CoreDB.Util.Memory

/-!
# Loading a segment in a given memory

`LoadFromFile` with its allocations: each string is resized to its length before its bytes
are read, the bitmap and the data block are sized by the row count, and the dictionary by
its own size, each by a number that nothing has been compared with yet.  A request that is
refused ends the load with `std::bad_alloc`: neither a segment nor an error text.

`loadIn_asks`: apart from memory this is `load`, and the requests are the ones that the
bytes declare (`Segment.Declares`).
-/

namespace CoreDB

open ByteCodec Allocation

/-! ## The loader -/

/-- `ReadString`: the string has its length before its bytes are read. -/
def readStringIn (mem : Memory) (msg : String) (bs : Bytes) : Except (Failure String) (Bytes × Bytes) := do
  let len ← lift (orError msg (takeLE 4 bs))
  request mem ⟨.bytes len.1, len.2.length⟩
  lift (orError msg (takeBytes len.1 len.2))

def readTypedValueIn (mem : Memory) (msg : String) (t : ColumnType) (bs : Bytes) :
    Except (Failure String) (Value × Bytes) :=
  if t = .string then do
    let s ← readStringIn mem msg bs
    .ok (.string s.1, s.2)
  else lift (orError msg (readTypedValue t bs))

def readBoundsIn (mem : Memory) (msg : String) (t : ColumnType) (hasMinMax : Nat) (bs : Bytes) :
    Except (Failure String) ((Value × Value) × Bytes) :=
  if hasMinMax = 0 then .ok ((.null, .null), bs)
  else do
    let lo ← readTypedValueIn mem msg t bs
    let hi ← readTypedValueIn mem msg t lo.2
    .ok ((lo.1, hi.1), hi.2)

def readStringsIn (mem : Memory) (msg : String) : Nat → Bytes → Except (Failure String) (List Bytes × Bytes)
  | 0, bs => .ok ([], bs)
  | n + 1, bs => do
    let s ← readStringIn mem msg bs
    let r ← readStringsIn mem msg n s.2
    .ok (s.1 :: r.1, r.2)

namespace Column

/-- `std::vector<std::string> values(dict_size)` comes before the first entry. -/
def loadDictionaryIn (mem : Memory) (path : String) (c : Nat) (t : ColumnType) (bs : Bytes) :
    Except (Failure String) (Dictionary × Bytes) :=
  if t = .string then do
    let size ← lift (orError (truncatedAt path "dictionary size" c) (takeLE 4 bs))
    request mem ⟨.strings size.1, size.2.length⟩
    let entries ← readStringsIn mem (truncatedAt path "dictionary entry" c) size.1 size.2
    .ok (Dictionary.fromValues entries.1, entries.2)
  else .ok ({}, bs)

def loadHeadIn (mem : Memory) (path : String) (c : Nat) (t : ColumnType) (numRows : Nat) (bs : Bytes) :
    Except (Failure String) ((Bitmap × (Value × Value) × Nat) × Bytes) := do
  let type ← lift (orError (truncatedAt path "column header" c) (takeLE 1 bs))
  if type.1 ≠ t.code then
    .error (.error ("'" ++ path ++ "': column " ++ toString c ++ " type mismatch (file has " ++
      ColumnType.nameOf type.1 ++ ", schema expects " ++ ColumnType.nameOf t.code ++ ")"))
  else
    let nullCount ← lift (orError (truncatedAt path "null count" c) (takeLE 4 type.2))
    -- `std::vector<uint8_t> bitmap_bytes((num_rows + 7) / 8)`, in 32-bit arithmetic
    request mem ⟨.bytes ((numRows + 7) % 2 ^ 32 / 8), nullCount.2.length⟩
    let bitmap ← lift (orError (truncatedAt path "validity bitmap" c)
      (takeBytes ((numRows + 7) % 2 ^ 32 / 8) nullCount.2))
    let validity := Bitmap.fromBytes numRows bitmap.1
    if numRows - validity.countValid ≠ nullCount.1 then
      .error (.error ("'" ++ path ++ "': null count mismatch at column " ++ toString c ++
        " (bitmap disagrees with stored count -> corruption)"))
    else
      let flag ← lift (orError (truncatedAt path "min/max flag" c) (takeLE 1 bitmap.2))
      let bounds ← readBoundsIn mem (truncatedAt path "min/max" c) t flag.1 flag.2
      let checksum ← lift (orError (truncatedAt path "checksum" c) (takeLE 4 bounds.2))
      .ok ((validity, bounds.1, checksum.1), checksum.2)

def loadIn (mem : Memory) (path : String) (c : Nat) (t : ColumnType) (numRows : Nat) (bs : Bytes) :
    Except (Failure String) (Column × Bytes) := do
  let head ← loadHeadIn mem path c t numRows bs
  -- the array is resized to `num_rows`
  request mem ⟨.bytes (numRows * t.elementWidth), head.2.length⟩
  let data ← lift (orError (truncatedAt path "data block" c) (takeBytes (numRows * t.elementWidth) head.2))
  let dict ← loadDictionaryIn mem path c t data.2
  let col : Column :=
    { ofData t numRows data.1 with
      validity := head.1.1
      min := head.1.2.1.1
      max := head.1.2.1.2
      dictionary := dict.1 }
  if col.computeChecksum.toNat ≠ head.1.2.2 then
    .error (.error ("'" ++ path ++ "': checksum mismatch at column " ++ toString c ++ " (expected " ++
      toString head.1.2.2 ++ ", got " ++ toString col.computeChecksum.toNat ++ ") -> data corruption detected"))
  else .ok ({ col with checksum := BitVec.ofNat 32 head.1.2.2 }, dict.2)

end Column

namespace Segment

def loadColumnsIn (mem : Memory) (path : String) (numRows : Nat) :
    Schema → Nat → Bytes → Except (Failure String) (List Column)
  | [], _, _ => .ok []
  | s :: schema, c, bs => do
    let p ← Column.loadIn mem path c s.type numRows bs
    let cols ← loadColumnsIn mem path numRows schema (c + 1) p.2
    .ok (p.1 :: cols)

def loadIn (mem : Memory) (path : String) (schema : Schema) (bs : Bytes) : Except (Failure String) Segment := do
  let magic ← lift (orError ("'" ++ path ++ "': bad magic (not a CoreDB segment file, or file is truncated)")
    ((takeBytes 8 bs).filter fun p => p.1 == kMagic))
  let header := "'" ++ path ++ "': truncated header"
  let numColumns ← lift (orError header (takeLE 4 magic.2))
  let segmentId ← lift (orError header (takeLE 8 numColumns.2))
  let numRows ← lift (orError header (takeLE 4 segmentId.2))
  if numColumns.1 ≠ schema.length then
    .error (.error ("'" ++ path ++ "': column count " ++ toString numColumns.1 ++ " does not match schema size " ++
      toString schema.length))
  else
    let columns ← loadColumnsIn mem path numRows.1 schema 0 numRows.2
    .ok { segmentId := segmentId.1, numRows := numRows.1, schema, columns }

/-- `LoadFromFile` in a given memory; the file may be missing. -/
def loadFromFileIn (mem : Memory) (path : String) (schema : Schema) : Option Bytes → Except (Failure String) Segment
  | none => .error (.error ("failed to open '" ++ path ++ "' for reading"))
  | some bs => loadIn mem path schema bs

end Segment

/-! ## What a file declares -/

/-- The bytes begin with the length of a string. -/
def DeclaresString (bs : Bytes) (r : Request) : Prop :=
  ∃ len rest, len < 2 ^ 32 ∧ bs = leBytes 4 len ++ rest ∧ r = ⟨.bytes len, rest.length⟩

/-- Behind fewer than `n` strings there is the length of another. -/
def DeclaresStrings (n : Nat) (bs : Bytes) (r : Request) : Prop :=
  ∃ (values : List Bytes) (rest : Bytes), values.length < n ∧ (∀ s ∈ values, s.length < 2 ^ 32) ∧
    bs = values.flatMap writeString ++ rest ∧ DeclaresString rest r

namespace Column

/-- A size in front of the dictionary, or the length of one of its entries. -/
def DictionaryDeclares (t : ColumnType) (bs : Bytes) (r : Request) : Prop :=
  t = .string ∧ ∃ size rest, size < 2 ^ 32 ∧ bs = leBytes 4 size ++ rest ∧
    (r = ⟨.strings size, rest.length⟩ ∨ DeclaresStrings size rest r)

/-- The bitmap, once the type and a null count are there; a string minimum or maximum, once the
bitmap is there and agrees with the null count. -/
def HeadDeclares (t : ColumnType) (n : Nat) (bs : Bytes) (r : Request) : Prop :=
  ∃ nullCount rest, nullCount < 2 ^ 32 ∧ bs = leBytes 1 t.code ++ (leBytes 4 nullCount ++ rest) ∧
    (r = ⟨.bytes ((n + 7) % 2 ^ 32 / 8), rest.length⟩ ∨
      ∃ bitmap flag more, rest = bitmap ++ flag :: more ∧ bitmap.length = (n + 7) % 2 ^ 32 / 8 ∧
        n - (Bitmap.fromBytes n bitmap).countValid = nullCount ∧ flag ≠ 0 ∧ t = .string ∧ DeclaresStrings 2 more r)

/-- The part of a column in front of its data. -/
def HeadLayout (t : ColumnType) (n : Nat) (image : Bytes) : Prop :=
  ∃ nullCount bitmap flag bounds minMax checksum,
    image = leBytes 1 t.code ++ (leBytes 4 nullCount ++ (bitmap ++ (flag :: (bounds ++ leBytes 4 checksum)))) ∧
      nullCount < 2 ^ 32 ∧ n - (Bitmap.fromBytes n bitmap).countValid = nullCount ∧
      bitmap.length = (n + 7) % 2 ^ 32 / 8 ∧ Reads (readBounds t flag.toNat) bounds minMax ∧ checksum < 2 ^ 32

/-- What a column of type `t` over `n` rows declares. -/
def Declares (t : ColumnType) (n : Nat) (bs : Bytes) (r : Request) : Prop :=
  HeadDeclares t n bs r ∨ ∃ head rest, HeadLayout t n head ∧ bs = head ++ rest ∧
    (r = ⟨.bytes (n * t.elementWidth), rest.length⟩ ∨
      ∃ data more, data.length = n * t.elementWidth ∧ rest = data ++ more ∧ DictionaryDeclares t more r)

end Column

namespace Segment

/-- Behind the complete columns `pre` the next one declares the buffer. -/
def ColumnsDeclare (n : Nat) (schema : Schema) (bs : Bytes) (r : Request) : Prop :=
  ∃ pre s post images cols rest, schema = pre ++ s :: post ∧ bs = images ++ rest ∧ ColumnsLayout n pre images cols ∧
    Column.Declares s.type n rest r

/-- The file declares the buffer: it begins with a header for the schema and some complete
columns, and the next column gets as far as a number that sizes the buffer. -/
def Declares (schema : Schema) (bs : Bytes) (r : Request) : Prop :=
  ∃ segmentId n rest, schema.length < 2 ^ 32 ∧ segmentId < 2 ^ 64 ∧ n < 2 ^ 32 ∧
    bs = header schema.length segmentId n ++ rest ∧ ColumnsDeclare n schema rest r

/-- Everything the file declares can be allocated. -/
def MemorySuffices (mem : Memory) (schema : Schema) (bs : Bytes) : Prop := ∀ r, Declares schema bs r → mem r = true

end Segment

/-! ## Strings -/

theorem takeLE_four_iff {bs rest : Bytes} {v : Nat} :
    takeLE 4 bs = some (v, rest) ↔ v < 2 ^ 32 ∧ bs = leBytes 4 v ++ rest := by
  constructor
  · intro h
    obtain ⟨hbs, hlt⟩ := takeLE_eq_some 4 _ _ _ h
    exact ⟨hlt, hbs⟩
  · rintro ⟨hlt, rfl⟩
    exact takeLE_leBytes 4 v rest hlt

theorem takeString_iff {bs s rest : Bytes} :
    takeString bs = some (s, rest) ↔ s.length < 2 ^ 32 ∧ bs = writeString s ++ rest := by
  constructor
  · intro h
    obtain ⟨rfl, hlt⟩ := takeString_eq_some h
    rw [writeString_eq hlt]
    exact ⟨hlt, rfl⟩
  · rintro ⟨hlt, rfl⟩
    exact takeString_writeString hlt rest

theorem declaresStrings_succ {n : Nat} {bs : Bytes} {r : Request} : DeclaresStrings (n + 1) bs r ↔
    DeclaresString bs r ∨ ∃ s rest, s.length < 2 ^ 32 ∧ bs = writeString s ++ rest ∧ DeclaresStrings n rest r := by
  constructor
  · rintro ⟨values, rest, hlt, hshort, rfl, hr⟩
    cases values with
    | nil => exact Or.inl hr
    | cons s values =>
      refine Or.inr ⟨s, values.flatMap writeString ++ rest, hshort s List.mem_cons_self, by simp, values, rest, ?_,
        fun u hu => hshort u (List.mem_cons_of_mem _ hu), rfl, hr⟩
      rw [List.length_cons] at hlt
      omega
  · rintro (hr | ⟨s, rest, hs, rfl, values, more, hlt, hshort, rfl, hr⟩)
    · exact ⟨[], bs, Nat.succ_pos n, by simp, rfl, hr⟩
    · refine ⟨s :: values, more, by simpa using hlt, fun u hu => ?_, by simp, hr⟩
      rcases List.mem_cons.mp hu with rfl | hu
      · exact hs
      · exact hshort u hu

theorem declaresStrings_zero {bs : Bytes} {r : Request} : ¬ DeclaresStrings 0 bs r := by
  rintro ⟨values, rest, hlt, -⟩
  exact Nat.not_lt_zero _ hlt

section
variable {α β : Type} (msg : String)

theorem orError_bind (o : Option α) (f : α → Option β) :
    orError msg (o.bind f) = orError msg o >>= fun a => orError msg (f a) := by
  cases o <;> rfl

theorem orError_map (o : Option α) (f : α → β) : orError msg (o.map f) = orError msg o >>= fun a => .ok (f a) := by
  cases o <;> rfl

end

section
variable (mem : Memory) (msg : String)

theorem readStringIn_asks (bs : Bytes) :
    Asks mem (readStringIn mem msg bs) (orError msg (takeString bs)) (DeclaresString bs) := by
  unfold readStringIn takeString
  rw [orError_bind]
  refine (asks_step fun len _ => asks_request_then (asks_lift _)).congr fun r => ?_
  simp only [orError_eq_ok, or_false, Prod.exists, takeLE_four_iff, DeclaresString, and_assoc]

theorem readTypedValueIn_asks (bs : Bytes) :
    Asks mem (readTypedValueIn mem msg .string bs) (orError msg (readTypedValue .string bs)) (DeclaresString bs) := by
  unfold readTypedValueIn readTypedValue
  rw [if_pos rfl, orError_map]
  exact (readStringIn_asks mem msg bs).map fun s => (Value.string s.1, s.2)

theorem readStringsIn_asks : ∀ (n : Nat) (bs : Bytes),
    Asks mem (readStringsIn mem msg n bs) (orError msg (readStrings n bs)) (DeclaresStrings n bs) := by
  intro n
  induction n with
  | zero =>
    intro bs
    exact (asks_lift (.ok ([], bs))).congr fun r => iff_of_false id declaresStrings_zero
  | succ n ih =>
    intro bs
    unfold readStringsIn readStrings
    rw [orError_bind]
    simp only [orError_map]
    refine ((readStringIn_asks mem msg bs).bind fun s _ => (ih s.2).map fun r => (s.1 :: r.1, r.2)).congr fun r => ?_
    simp only [declaresStrings_succ, orError_eq_ok, Prod.exists, takeString_iff, and_assoc]

theorem readBoundsIn_asks (t : ColumnType) (flag : Nat) (bs : Bytes) :
    Asks mem (readBoundsIn mem msg t flag bs) (orError msg (readBounds t flag bs))
      fun r => flag ≠ 0 ∧ t = .string ∧ DeclaresStrings 2 bs r := by
  unfold readBoundsIn readBounds
  by_cases hflag : flag = 0
  · rw [if_pos hflag, if_pos hflag]
    exact (asks_lift (.ok _)).congr fun r => by simp [hflag]
  · rw [if_neg hflag, if_neg hflag, orError_bind]
    simp only [orError_map]
    by_cases ht : t = .string
    · subst ht
      refine ((readTypedValueIn_asks mem msg bs).bind fun lo _ =>
        (readTypedValueIn_asks mem msg lo.2).map fun hi => ((lo.1, hi.1), hi.2)).congr fun r => ?_
      simp only [declaresStrings_succ, declaresStrings_zero, readTypedValue, orError_eq_ok, Option.map_eq_some_iff,
        Prod.exists, takeString_iff, ne_eq, hflag, not_false_eq_true, true_and, and_false, exists_false, or_false]
      refine or_congr_right ⟨?_, ?_⟩
      · rintro ⟨v, more, ⟨s, _, ⟨hs, rfl⟩, heq⟩, hr⟩
        cases heq
        exact ⟨s, more, hs, rfl, hr⟩
      · rintro ⟨s, more, hs, rfl, hr⟩
        exact ⟨_, _, ⟨s, more, ⟨hs, rfl⟩, rfl⟩, hr⟩
    · simp only [readTypedValueIn, if_neg ht]
      refine (asks_step fun lo _ => (asks_lift (orError msg (readTypedValue t lo.2))).map fun hi => ((lo.1, hi.1), hi.2)).congr fun r => ?_
      simp [ht]

end

/-! ## Columns -/

namespace Column

section
variable (mem : Memory) (path : String) (c : Nat) (t : ColumnType) (n : Nat)

theorem loadDictionaryIn_asks (bs : Bytes) :
    Asks mem (loadDictionaryIn mem path c t bs) (loadDictionary path c t bs) (DictionaryDeclares t bs) := by
  unfold loadDictionaryIn loadDictionary
  by_cases ht : t = .string
  · rw [if_pos ht, if_pos ht]
    refine (asks_step fun size _ => asks_request_then ((readStringsIn_asks mem _ size.1 size.2).map
      fun entries => (Dictionary.fromValues entries.1, entries.2))).congr fun r => ?_
    simp only [orError_eq_ok, Prod.exists, takeLE_four_iff, DictionaryDeclares, ht, true_and, and_assoc]
  · rw [if_neg ht, if_neg ht]
    exact (asks_lift (.ok (({} : Dictionary), bs))).congr fun r => by simp [DictionaryDeclares, ht]

theorem loadHeadIn_asks (bs : Bytes) :
    Asks mem (loadHeadIn mem path c t n bs) (loadHead path c t n bs) (HeadDeclares t n bs) := by
  unfold loadHeadIn loadHead
  refine (asks_step fun type _ => asks_check fun _ => asks_step fun nullCount _ => asks_request_then <|
    asks_step fun bitmap _ => asks_check fun _ => asks_step fun flag _ =>
      (readBoundsIn_asks mem (truncatedAt path "min/max" c) t flag.1 flag.2).bind fun bounds _ =>
        (asks_lift _).map fun checksum : Nat × Bytes =>
          ((Bitmap.fromBytes n bitmap.1, bounds.1, checksum.1), checksum.2)).congr fun r => ?_
  simp only [orError_eq_ok, Prod.exists, takeLE_four_iff, HeadDeclares, and_assoc, and_false, exists_false, or_false]
  constructor
  · rintro ⟨type, _, htype, hcode, nullCount, rest, hnlt, rfl, h⟩
    obtain ⟨rfl, -⟩ := takeLE_eq_some 1 _ _ _ htype
    obtain rfl : type = t.code := Classical.not_not.mp hcode
    refine ⟨nullCount, rest, hnlt, rfl, h.imp_right fun hr => ?_⟩
    obtain ⟨bitmap, _, hbitmap, hcount, _, more, hflag, hne, ht, hr⟩ := hr
    obtain ⟨rfl, hlen⟩ := takeBytes_eq_some _ _ _ _ hbitmap
    obtain ⟨flag, rfl, rfl⟩ := takeLE_one.mp hflag
    refine ⟨bitmap, flag, more, rfl, hlen, Classical.not_not.mp hcount, ?_, ht, hr⟩
    rintro rfl
    exact hne rfl
  · rintro ⟨nullCount, rest, hnlt, rfl, h⟩
    refine ⟨_, _, takeLE_leBytes 1 _ _ t.code_lt, fun h => h rfl, nullCount, rest, hnlt, rfl, h.imp_right fun hr => ?_⟩
    obtain ⟨bitmap, flag, more, rfl, hlen, hcount, hne, ht, hr⟩ := hr
    exact ⟨bitmap, _, takeBytes_append_of_length _ _ _ hlen, fun h => h hcount, _, more,
      takeLE_one.mpr ⟨flag, rfl, rfl⟩, fun h => hne (UInt8.toNat_inj.mp h), ht, hr⟩

theorem loadHead_reads {path : String} {c : Nat} {t : ColumnType} {n : Nat} {bs rest : Bytes} :
    (∃ head, loadHead path c t n bs = .ok (head, rest)) ↔ ∃ image, HeadLayout t n image ∧ bs = image ++ rest := by
  constructor
  · rintro ⟨⟨validity, ⟨lo, hi⟩, checksum⟩, hhead⟩
    obtain ⟨nullCount, bitmap, flag, bounds, rfl, hnlt, hcount, hlen, rfl, hreads, hslt⟩ := loadHead_eq_ok_iff.mp hhead
    exact ⟨_, ⟨nullCount, bitmap, flag, bounds, (lo, hi), checksum, rfl, hnlt, hcount, hlen, hreads, hslt⟩, by simp⟩
  · rintro ⟨image, ⟨nullCount, bitmap, flag, bounds, ⟨lo, hi⟩, checksum, rfl, hnlt, hcount, hlen, hreads, hslt⟩, rfl⟩
    exact ⟨_, loadHead_eq_ok_iff.mpr ⟨nullCount, bitmap, flag, bounds, by simp, hnlt, hcount, hlen, rfl, hreads, hslt⟩⟩

/-- **A column** asks for what it declares. -/
theorem loadIn_asks (bs : Bytes) : Asks mem (loadIn mem path c t n bs) (load path c t n bs) (Declares t n bs) := by
  unfold loadIn load
  refine ((loadHeadIn_asks mem path c t n bs).bind fun head _ => asks_request_then <| asks_step fun data _ =>
    (loadDictionaryIn_asks mem path c t data.2).bind fun dict _ => asks_check fun _ => asks_lift (.ok _)).congr
      fun r => or_congr_right ?_
  simp only [orError_eq_ok, and_false, exists_false, or_false]
  constructor
  · rintro ⟨⟨head, rest⟩, hhead, h⟩
    obtain ⟨image, hlayout, rfl⟩ := loadHead_reads.mp ⟨head, hhead⟩
    refine ⟨image, rest, hlayout, rfl, h.imp_right fun hr => ?_⟩
    obtain ⟨⟨data, more⟩, hdata, hr⟩ := hr
    obtain ⟨heq, hlen⟩ := takeBytes_eq_some _ _ _ _ hdata
    exact ⟨data, more, hlen, heq, hr⟩
  · rintro ⟨image, rest, hlayout, rfl, h⟩
    obtain ⟨head, hhead⟩ := loadHead_reads.mpr ⟨image, hlayout, rfl⟩
    refine ⟨(head, rest), hhead, h.imp_right fun hr => ?_⟩
    obtain ⟨data, more, hlen, rfl, hr⟩ := hr
    exact ⟨(data, more), takeBytes_append_of_length _ _ _ hlen, hr⟩

end

end Column

/-! ## Segments -/

namespace Segment

theorem columnsDeclare_cons {n : Nat} {s : ColumnSchema} {schema : Schema} {bs : Bytes} {r : Request} :
    ColumnsDeclare n (s :: schema) bs r ↔ Column.Declares s.type n bs r ∨
      ∃ image col rest, bs = image ++ rest ∧ Column.Layout s.type n image col ∧ ColumnsDeclare n schema rest r := by
  constructor
  · rintro ⟨pre, s', post, images, cols, rest, hschema, rfl, hlayout, hr⟩
    cases hlayout with
    | nil =>
      obtain ⟨rfl, rfl⟩ := List.cons.inj hschema
      exact Or.inl hr
    | @cons s0 pre image images col cols hl hls =>
      obtain ⟨rfl, rfl⟩ := List.cons.inj hschema
      exact Or.inr ⟨image, col, images ++ rest, by simp, hl, pre, s', post, images, cols, rest, rfl, rfl, hls, hr⟩
  · rintro (hr | ⟨image, col, _, rfl, hl, pre, s', post, images, cols, rest, rfl, rfl, hls, hr⟩)
    · exact ⟨[], s, schema, [], [], bs, rfl, rfl, .nil, hr⟩
    · exact ⟨s :: pre, s', post, image ++ images, col :: cols, rest, rfl, by simp, .cons hl hls, hr⟩

section
variable (mem : Memory) (path : String)

theorem loadColumnsIn_asks (n : Nat) : ∀ (schema : Schema) (c : Nat) (bs : Bytes),
    Asks mem (loadColumnsIn mem path n schema c bs) (loadColumns path n schema c bs) (ColumnsDeclare n schema bs) := by
  intro schema
  induction schema with
  | nil =>
    intro c bs
    refine (asks_lift (.ok [])).congr fun r => iff_of_false id ?_
    rintro ⟨pre, s, post, images, cols, rest, hschema, -⟩
    simp at hschema
  | cons s schema ih =>
    intro c bs
    unfold loadColumnsIn loadColumns
    refine ((Column.loadIn_asks mem path c s.type n bs).bind fun p _ =>
      (ih (c + 1) p.2).map fun cols => p.1 :: cols).congr fun r => ?_
    simp only [columnsDeclare_cons, Prod.exists, Column.load_eq_ok_iff]
    refine or_congr_right ⟨?_, ?_⟩
    · rintro ⟨col, rest, ⟨image, hbs, hl⟩, hr⟩
      exact ⟨image, col, rest, hbs, hl, hr⟩
    · rintro ⟨image, col, rest, hbs, hl, hr⟩
      exact ⟨col, rest, ⟨image, hbs, hl⟩, hr⟩

/-- **A file** asks for what it declares, and apart from memory loads as before. -/
theorem loadIn_asks (schema : Schema) (bs : Bytes) :
    Asks mem (loadIn mem path schema bs) (load path schema bs) (Declares schema bs) := by
  unfold loadIn load
  refine (asks_step fun magic _ => asks_step fun numColumns _ => asks_step fun segmentId _ =>
    asks_step fun numRows _ => asks_check fun _ =>
      (loadColumnsIn_asks mem path numRows.1 schema 0 numRows.2).map fun columns =>
        ({ segmentId := segmentId.1, numRows := numRows.1, schema, columns } : Segment)).congr fun r => ?_
  simp only [orError_eq_ok]
  exact header_reads_iff (P := fun _ n rest => ColumnsDeclare n schema rest r)

/-- A file that is there. -/
theorem loadFromFileIn_asks (schema : Schema) (bs : Bytes) :
    Asks mem (loadFromFileIn mem path schema (some bs)) (loadFromFile path schema (some bs)) (Declares schema bs) :=
  loadIn_asks mem path schema bs

end

end Segment

end CoreDB
