import CoreDB.Lib.Damage
import CoreDB.Storage.SegmentMemory
import CoreDB.Storage.SegmentRoundTrip

/-!
# One flipped bit in a segment file

A column's checksum covers its bitmap, its data block and its dictionary strings one
after the other.  A flip in any of these changes the checksum, and one in the null count
or the stored checksum is a mismatch.  The dictionary's size and the lengths of its
entries are not covered: a flip there frames the following bytes anew, and goes
unnoticed when the strings read then have the same checksum and the remaining columns
still follow (`Segment.Reframes`), or asks for more memory than there is, and then the load
throws instead of returning an error.  `bit_flip_detected_iff`: these are the only ways.
-/

namespace CoreDB

open ByteCodec

/-! ## The parts of a saved column -/

/-- What a byte of a saved column belongs to. -/
inductive Part where
  | type
  | nullCount
  | bitmap
  | minMax
  | checksum
  | data
  | dictSize
  | entryLength
  | entryBytes
deriving DecidableEq, Repr

/-- Column contents: everything but the type byte and min/max. -/
def Part.isContent : Part → Bool
  | .type => false
  | .minMax => false
  | _ => true

/-- The fields that say where the dictionary strings begin and end. -/
def Part.isFraming : Part → Bool
  | .dictSize => true
  | .entryLength => true
  | _ => false

namespace Column

/-- The parts in front of the dictionary. -/
def frontParts (numRows : Nat) (col : Column) : Option (List (Part × Bytes)) :=
  col.saveBounds.map fun bounds =>
    [(.type, leBytes 1 col.type.code), (.nullCount, leBytes 4 (numRows - col.validity.countValid)),
      (.bitmap, col.validity.bytes), (.minMax, bounds), (.checksum, crcBytes col.checksum), (.data, col.dataBytes)]

def entryParts (s : Bytes) : List (Part × Bytes) :=
  [(.entryLength, leBytes 4 s.length), (.entryBytes, s.take (s.length % 2 ^ 32))]

def dictParts (col : Column) : List (Part × Bytes) :=
  if col.type = .string then
    (.dictSize, leBytes 4 col.dictionary.values.length) :: col.dictionary.values.flatMap entryParts
  else []

def parts (numRows : Nat) (col : Column) : Option (List (Part × Bytes)) :=
  (col.frontParts numRows).map fun front => front ++ col.dictParts

theorem bytesOf_entryParts (values : List Bytes) : bytesOf (values.flatMap entryParts) = values.flatMap writeString := by
  induction values with
  | nil => rfl
  | cons s values ih =>
    rw [List.flatMap_cons, List.flatMap_cons, bytesOf_append, ih]
    simp [entryParts, bytesOf, writeString]

theorem mem_dictParts {col : Column} {p : Part × Bytes} (h : p ∈ col.dictParts) :
    col.type = .string ∧ (p.1.isFraming = true ∨ p.1 = .entryBytes) := by
  unfold dictParts at h
  split at h
  · next ht =>
    refine ⟨ht, ?_⟩
    rcases List.mem_cons.mp h with rfl | h
    · exact Or.inl rfl
    · obtain ⟨s, -, hs⟩ := List.mem_flatMap.mp h
      simp only [entryParts, List.mem_cons, List.not_mem_nil, or_false] at hs
      rcases hs with rfl | rfl
      · exact Or.inl rfl
      · exact Or.inr rfl
  · cases h

theorem mem_frontParts {numRows : Nat} {col : Column} {front : List (Part × Bytes)}
    (hfront : col.frontParts numRows = some front) {p : Part × Bytes} (h : p ∈ front) : p.1.isFraming = false := by
  obtain ⟨bounds, -, rfl⟩ := Option.map_eq_some_iff.mp hfront
  simp only [List.mem_cons, List.not_mem_nil, or_false] at h
  rcases h with rfl | rfl | rfl | rfl | rfl | rfl <;> rfl

theorem bytesOf_dictParts (col : Column) : bytesOf col.dictParts = col.saveDictionary := by
  unfold dictParts saveDictionary
  split
  · rw [bytesOf_cons, bytesOf_entryParts]
  · rfl

/-- The parts are what `SaveToFile` writes for the column. -/
theorem save_eq_parts (numRows : Nat) (col : Column) : col.save numRows = (col.parts numRows).map bytesOf := by
  unfold save parts frontParts
  cases col.saveBounds with
  | none => rfl
  | some bounds =>
    simp only [Option.map_some, bytesOf_append, bytesOf_dictParts]
    simp [bytesOf]

end Column

namespace Segment

/-- The parts of column `c`. -/
def numbered (c : Nat) (parts : List (Part × Bytes)) : List (Option (Nat × Part) × Bytes) :=
  parts.map fun p => (some (c, p.1), p.2)

/-- The parts of the columns `c, c+1, …`, with the column's number. -/
def columnParts (numRows : Nat) : List Column → Nat → Option (List (Option (Nat × Part) × Bytes))
  | [], _ => some []
  | col :: cols, c => (col.parts numRows).bind fun parts =>
    (columnParts numRows cols (c + 1)).map (numbered c parts ++ ·)

/-- The parts of the file; `none` labels the file header. -/
def parts (seg : Segment) : Option (List (Option (Nat × Part) × Bytes)) :=
  (columnParts seg.numRows seg.columns 0).map
    ((none, header seg.columns.length seg.segmentId seg.numRows) :: ·)

/-- The part that byte `pos` of the saved file is in. -/
def partAt (seg : Segment) (pos : Nat) : Option (Option (Nat × Part)) := seg.parts.bind fun parts => labelAt parts pos

/-- Where the dictionary of column `c` starts in the saved file. -/
def dictStart (seg : Segment) (c : Nat) : Nat :=
  (header seg.columns.length seg.segmentId seg.numRows).length +
    ((saveColumns seg.numRows (seg.columns.take c)).getD []).length +
    (((seg.columns[c]?.bind fun col => col.frontParts seg.numRows).map bytesOf).getD []).length

theorem bytesOf_numbered (c : Nat) (parts : List (Part × Bytes)) : bytesOf (numbered c parts) = bytesOf parts := by
  simp [bytesOf, numbered, List.flatMap_map]

theorem saveColumns_eq_parts (numRows : Nat) : ∀ (cols : List Column) (c : Nat),
    saveColumns numRows cols = (columnParts numRows cols c).map bytesOf := by
  intro cols
  induction cols with
  | nil => intro c; rfl
  | cons col cols ih =>
    intro c
    rw [saveColumns, columnParts, Column.save_eq_parts, ih (c + 1)]
    cases col.parts numRows with
    | none => rfl
    | some parts =>
      cases columnParts numRows cols (c + 1) with
      | none => rfl
      | some rest => simp [bytesOf_append, bytesOf_numbered]

/-- The parts are what `SaveToFile` writes. -/
theorem save_eq_bytesOf_parts (seg : Segment) : seg.save = seg.parts.map bytesOf := by
  rw [save, parts, saveColumns_eq_parts seg.numRows seg.columns 0]
  cases columnParts seg.numRows seg.columns 0 with
  | none => rfl
  | some parts => simp [bytesOf_cons, header]

/-- The column of a labelled part. -/
theorem columnParts_split {numRows : Nat} {label : Nat × Part} {piece : Bytes} : ∀ {cols : List Column} {k : Nat}
    {before after : List (Option (Nat × Part) × Bytes)},
    columnParts numRows cols k = some (before ++ (some label, piece) :: after) →
    ∃ cols1 col cols2 saved1 saved2 before' after', cols = cols1 ++ col :: cols2 ∧ label.1 = k + cols1.length ∧
      saveColumns numRows cols1 = some saved1 ∧ saveColumns numRows cols2 = some saved2 ∧
      col.parts numRows = some (before' ++ (label.2, piece) :: after') ∧
      bytesOf before = saved1 ++ bytesOf before' ∧ bytesOf after = bytesOf after' ++ saved2 := by
  intro cols
  induction cols with
  | nil => intro k before after h; simp [columnParts] at h
  | cons col cols ih =>
    intro k before after h
    obtain ⟨parts, hparts, hrest⟩ := Option.bind_eq_some_iff.mp h
    obtain ⟨rest, hcols, heq⟩ := Option.map_eq_some_iff.mp hrest
    have hsave := saveColumns_eq_parts numRows cols (k + 1)
    rw [hcols, Option.map_some] at hsave
    rcases append_eq_append_cons heq with ⟨mid, hbefore, hmid⟩ | ⟨mid, hfront, hafter⟩
    · obtain ⟨cols1, col', cols2, saved1, saved2, before', after', rfl, hc, hs1, hs2, hp, hb, ha⟩ :=
        ih (hcols.trans (congrArg some hmid))
      refine ⟨col :: cols1, col', cols2, bytesOf parts ++ saved1, saved2, before', after', rfl, ?_, ?_, hs2, hp, ?_, ha⟩
      · rw [hc, List.length_cons]
        omega
      · rw [saveColumns, Column.save_eq_parts, hparts, hs1]
        rfl
      · rw [hbefore, bytesOf_append, bytesOf_numbered, hb, List.append_assoc]
    · obtain ⟨before', parts', rfl, rfl, hparts'⟩ := List.map_eq_append_iff.mp hfront
      obtain ⟨p, after', rfl, hp, rfl⟩ := List.map_eq_cons_iff.mp hparts'
      obtain ⟨hlabel, rfl⟩ := Prod.mk.inj hp
      obtain rfl := Option.some.inj hlabel
      refine ⟨[], col, cols, [], bytesOf rest, before', after', rfl, rfl, rfl, hsave, hparts,
        (bytesOf_numbered k before').trans (List.nil_append _).symm, ?_⟩
      rw [hafter, bytesOf_append]
      exact congrArg (· ++ bytesOf rest) (bytesOf_numbered k after')

end Segment

/-! ## Loading a column with other contents -/

namespace Column

theorem foldl_crc32cExtend (values : List Bytes) (crc : BitVec 32) :
    values.foldl crc32cExtend crc = crc32cExtend crc values.flatten := by
  induction values generalizing crc with
  | nil => exact (BitVec.not_not).symm
  | cons s values ih => rw [List.foldl_cons, ih, List.flatten_cons, crc32cExtend_append]

/-- The dictionary bytes under the checksum. -/
def coveredStrings (t : ColumnType) (dict : Dictionary) : Bytes := if t = .string then dict.values.flatten else []

theorem computeChecksum_eq (col : Column) :
    col.computeChecksum = crc32c (col.validity.bytes ++ col.dataBytes ++ coveredStrings col.type col.dictionary) := by
  unfold computeChecksum coveredStrings crc32c
  split
  · rw [foldl_crc32cExtend, crc32cExtend_append, crc32cExtend_append, List.append_assoc]
  · rw [List.append_nil]
    exact crc32cExtend_append 0#32 col.validity.bytes col.dataBytes

theorem dataBytes_ofData {t : ColumnType} {n : Nat} {data : Bytes} (h : data.length = n * t.elementWidth) :
    (ofData t n data).dataBytes = data := by
  cases t
  · exact words_takeWords 4 32 (by decide) n data h
  · exact words_takeWords 8 64 (by decide) n data h
  · exact words_takeWords 8 64 (by decide) n data h
  · exact words_takeWords 4 32 (by decide) n data h

section
variable {t : ColumnType} {n : Nat} {flag : UInt8} {more : Bytes} {lo hi : Value}
  (hn : n + 7 < 2 ^ 32) (hread : ∀ rest, readBounds t flag.toNat (more ++ rest) = some ((lo, hi), rest))
include hn hread

theorem loadHead_parts (path : String) (c : Nat) {nullCount sum : Nat} {bitmap : Bytes} (hnull : nullCount < 2 ^ 32)
    (hbit : bitmap.length = (n + 7) / 8) (hsum : sum < 2 ^ 32) (tail : Bytes) (r : (Bitmap × (Value × Value) × Nat) × Bytes) :
    loadHead path c t n (leBytes 1 t.code ++ (leBytes 4 nullCount ++ (bitmap ++ (flag :: more ++
      (leBytes 4 sum ++ tail))))) = .ok r ↔
      n - (Bitmap.fromBytes n bitmap).countValid = nullCount ∧ r = ((Bitmap.fromBytes n bitmap, (lo, hi), sum), tail) := by
  have hbitmap : ∀ g : Bytes, takeBytes ((n + 7) % 2 ^ 32 / 8) (bitmap ++ g) = some (bitmap, g) := fun g =>
    takeBytes_append_of_length _ _ _ (by rw [hbit, Nat.mod_eq_of_lt hn])
  unfold loadHead
  rw [takeLE_leBytes 1 _ _ t.code_lt]
  simp only [orError, bind, Except.bind, ne_eq, not_true_eq_false, if_false]
  rw [takeLE_leBytes 4 _ _ hnull]
  simp only [hbitmap]
  split
  · next hne => exact iff_of_false (fun h => by cases h) fun h => hne h.1
  · next heq =>
    have hflag : takeLE 1 (flag :: more ++ (leBytes 4 sum ++ tail)) = some (flag.toNat, more ++ (leBytes 4 sum ++ tail)) :=
      takeLE_one.mpr ⟨flag, rfl, rfl⟩
    simp only [hflag, hread, takeLE_leBytes 4 sum tail hsum, Except.ok.injEq]
    exact ⟨fun h => ⟨Classical.not_not.mp heq, h.symm⟩, fun h => h.2.symm⟩

/-- A column of these parts loads iff the null count and the checksum are those of its contents. -/
theorem load_parts_iff (path : String) (c : Nat) {nullCount sum : Nat} {bitmap data : Bytes} (hnull : nullCount < 2 ^ 32)
    (hbit : bitmap.length = (n + 7) / 8) (hsum : sum < 2 ^ 32) (hdata : data.length = n * t.elementWidth)
    (tail rest : Bytes) :
    (∃ col, load path c t n (leBytes 1 t.code ++ (leBytes 4 nullCount ++ (bitmap ++ (flag :: more ++
        (leBytes 4 sum ++ (data ++ tail)))))) = .ok (col, rest)) ↔
      n - (Bitmap.fromBytes n bitmap).countValid = nullCount ∧ ∃ dict, loadDictionary path c t tail = .ok (dict, rest) ∧
        (crc32c (bitmap ++ data ++ coveredStrings t dict)).toNat = sum := by
  have hcrc : ∀ dict : Dictionary, ({ ofData t n data with
      validity := Bitmap.fromBytes n bitmap, min := lo, max := hi, dictionary := dict } : Column).computeChecksum =
        crc32c (bitmap ++ data ++ coveredStrings t dict) := by
    intro dict
    rw [computeChecksum_eq]
    have htype : (ofData t n data).type = t := by cases t <;> rfl
    show crc32c (bitmap ++ (ofData t n data).dataBytes ++ coveredStrings (ofData t n data).type dict) = _
    rw [dataBytes_ofData hdata, htype]
  unfold load
  simp only [bind_eq_ok, orError_eq_ok, loadHead_parts hn hread path c hnull hbit hsum]
  constructor
  · rintro ⟨col, r, ⟨hcount, rfl⟩, ⟨data', tail'⟩, htake, ⟨dict, rest'⟩, hdict, hload⟩
    rw [takeBytes_append_of_length _ _ _ hdata] at htake
    cases htake
    split at hload
    · cases hload
    · next hok =>
      cases hload
      refine ⟨hcount, dict, hdict, ?_⟩
      rw [← hcrc dict]
      exact Classical.not_not.mp hok
  · rintro ⟨hcount, dict, hdict, hok⟩
    rw [← hcrc dict] at hok
    exact ⟨_, _, ⟨hcount, rfl⟩, _, takeBytes_append_of_length _ _ _ hdata, _, hdict, if_neg fun hne => hne hok⟩

end

/-! ### The dictionary -/

/-- The bytes are a dictionary of these strings, as `SaveToFile` writes it, and a rest. -/
def Spells (values : List Bytes) (bs rest : Bytes) : Prop :=
  values.length < 2 ^ 32 ∧ (∀ s ∈ values, s.length < 2 ^ 32) ∧
    bs = leBytes 4 values.length ++ values.flatMap writeString ++ rest

theorem readStrings_eq_some {k : Nat} {bs rest : Bytes} {values : List Bytes}
    (h : readStrings k bs = some (values, rest)) :
    values.length = k ∧ (∀ s ∈ values, s.length < 2 ^ 32) ∧ bs = values.flatMap writeString ++ rest := by
  induction k generalizing bs values with
  | zero =>
    cases h
    exact ⟨rfl, by simp, rfl⟩
  | succ k ih =>
    obtain ⟨⟨s, bs1⟩, hs, hrest⟩ := Option.bind_eq_some_iff.mp h
    obtain ⟨⟨values1, rest1⟩, hvalues, heq⟩ := Option.map_eq_some_iff.mp hrest
    cases heq
    obtain ⟨rfl, hlt⟩ := takeString_eq_some hs
    obtain ⟨hlen, hshort, rfl⟩ := ih hvalues
    refine ⟨by rw [List.length_cons, hlen], ?_, ?_⟩
    · intro u hu
      rcases List.mem_cons.mp hu with rfl | hu
      · exact hlt
      · exact hshort u hu
    · rw [List.flatMap_cons, writeString_eq hlt, List.append_assoc, List.append_assoc, List.append_assoc]

theorem loadDictionary_string_iff {path : String} {c : Nat} {bs rest : Bytes} {dict : Dictionary} :
    loadDictionary path c .string bs = .ok (dict, rest) ↔
      ∃ values, Spells values bs rest ∧ dict = Dictionary.fromValues values := by
  unfold loadDictionary
  simp only [if_true, bind_eq_ok, orError_eq_ok]
  constructor
  · rintro ⟨⟨size, bs1⟩, hsize, ⟨values, bs2⟩, hvalues, heq⟩
    cases heq
    obtain ⟨rfl, hlt⟩ := takeLE_eq_some 4 _ _ _ hsize
    obtain ⟨rfl, hshort, rfl⟩ := readStrings_eq_some hvalues
    exact ⟨values, ⟨hlt, hshort, (List.append_assoc _ _ _).symm⟩, rfl⟩
  · rintro ⟨values, ⟨hlt, hshort, rfl⟩, rfl⟩
    refine ⟨_, by rw [List.append_assoc]; exact takeLE_leBytes 4 _ _ hlt, _, readStrings_append values hshort rest, rfl⟩

/-- The string of an entry. -/
theorem entryParts_split {values : List Bytes} {before after : List (Part × Bytes)} {piece : Bytes}
    (h : values.flatMap entryParts = before ++ (.entryBytes, piece) :: after) :
    ∃ front s back, values = front ++ s :: back ∧ piece = s.take (s.length % 2 ^ 32) ∧
      bytesOf before = front.flatMap writeString ++ leBytes 4 s.length ∧ bytesOf after = back.flatMap writeString := by
  induction values generalizing before with
  | nil => simp at h
  | cons s values ih =>
    rw [List.flatMap_cons, entryParts] at h
    match before with
    | [] => cases (List.cons.inj h).1
    | [p] =>
      obtain ⟨rfl, htail⟩ := List.cons.inj h
      obtain ⟨hpiece, hafter⟩ := List.cons.inj htail
      cases hpiece
      exact ⟨[], s, values, rfl, rfl, by simp [bytesOf], by rw [← hafter]; exact bytesOf_entryParts values⟩
    | p :: q :: before =>
      obtain ⟨rfl, htail⟩ := List.cons.inj h
      obtain ⟨rfl, hrest⟩ := List.cons.inj htail
      obtain ⟨front, u, back, rfl, hpiece, hbefore, hafter⟩ := ih hrest
      refine ⟨s :: front, u, back, rfl, hpiece, ?_, hafter⟩
      rw [bytesOf_cons, bytesOf_cons, hbefore, List.flatMap_cons, writeString]
      simp only [List.append_assoc]

/-! ### Flips in a column -/

theorem crc32c_flipBit (pre x post : Bytes) {i : Nat} (h : i < 8 * x.length) :
    crc32c (pre ++ flipBit x i ++ post) ≠ crc32c (pre ++ x ++ post) := by
  obtain ⟨a, b, b', z, rfl, hflip, hne⟩ := flipBit_split x i h
  rw [hflip]
  have hburst := crc32cExtend_burst 0#32 (pre ++ a) [b'] [b] (z ++ post) rfl (by simp)
    fun heq => hne (List.cons.inj heq).1.symm
  simpa only [crc32c, List.append_assoc] using hburst

/-- The content parts in front of the dictionary, and the column with another one in the place of each. -/
theorem frontParts_content {type nullCount bitmap bounds sum data : Bytes} {before after : List (Part × Bytes)}
    {part : Part} {piece : Bytes} (h : [(Part.type, type), (.nullCount, nullCount), (.bitmap, bitmap), (.minMax, bounds),
      (.checksum, sum), (.data, data)] = before ++ (part, piece) :: after) (hpart : part.isContent = true) :
    (piece = nullCount ∧ ∀ x tail, bytesOf before ++ x ++ bytesOf after ++ tail =
      type ++ (x ++ (bitmap ++ (bounds ++ (sum ++ (data ++ tail)))))) ∨
    (piece = bitmap ∧ ∀ x tail, bytesOf before ++ x ++ bytesOf after ++ tail =
      type ++ (nullCount ++ (x ++ (bounds ++ (sum ++ (data ++ tail)))))) ∨
    (piece = sum ∧ ∀ x tail, bytesOf before ++ x ++ bytesOf after ++ tail =
      type ++ (nullCount ++ (bitmap ++ (bounds ++ (x ++ (data ++ tail)))))) ∨
    (piece = data ∧ ∀ x tail, bytesOf before ++ x ++ bytesOf after ++ tail =
      type ++ (nullCount ++ (bitmap ++ (bounds ++ (sum ++ (x ++ tail)))))) := by
  match before with
  | [] =>
    simp only [List.nil_append, List.cons.injEq, Prod.mk.injEq] at h
    obtain ⟨⟨rfl, -⟩, -⟩ := h
    cases hpart
  | [p0] =>
    simp only [List.cons_append, List.nil_append, List.cons.injEq, Prod.mk.injEq] at h
    obtain ⟨rfl, ⟨rfl, rfl⟩, rfl⟩ := h
    exact Or.inl ⟨rfl, fun x tail => by simp [bytesOf]⟩
  | [p0, p1] =>
    simp only [List.cons_append, List.nil_append, List.cons.injEq, Prod.mk.injEq] at h
    obtain ⟨rfl, rfl, ⟨rfl, rfl⟩, rfl⟩ := h
    exact Or.inr (Or.inl ⟨rfl, fun x tail => by simp [bytesOf]⟩)
  | [p0, p1, p2] =>
    simp only [List.cons_append, List.nil_append, List.cons.injEq, Prod.mk.injEq] at h
    obtain ⟨-, -, -, ⟨rfl, -⟩, -⟩ := h
    cases hpart
  | [p0, p1, p2, p3] =>
    simp only [List.cons_append, List.nil_append, List.cons.injEq, Prod.mk.injEq] at h
    obtain ⟨rfl, rfl, rfl, rfl, ⟨rfl, rfl⟩, rfl⟩ := h
    exact Or.inr (Or.inr (Or.inl ⟨rfl, fun x tail => by simp [bytesOf]⟩))
  | [p0, p1, p2, p3, p4] =>
    simp only [List.cons_append, List.nil_append, List.cons.injEq, Prod.mk.injEq] at h
    obtain ⟨rfl, rfl, rfl, rfl, rfl, ⟨rfl, rfl⟩, rfl⟩ := h
    exact Or.inr (Or.inr (Or.inr ⟨rfl, fun x tail => by simp [bytesOf]⟩))
  | p0 :: p1 :: p2 :: p3 :: p4 :: p5 :: before =>
    have hlen := congrArg List.length h
    simp only [List.length_cons, List.length_nil, List.length_append] at hlen
    omega

section
variable {t : ColumnType} {n : Nat} {col : Column} (h : WellFormed t n col) (hf : col.fitsFile = true)
  (hn : n + 7 < 2 ^ 32)
include h

theorem WellFormed.fromBytes_eq : Bitmap.fromBytes n col.validity.bytes = col.validity := by
  rw [← h.shape.numRows]
  rfl

theorem WellFormed.checksum_eq :
    col.checksum = crc32c (col.validity.bytes ++ col.dataBytes ++ coveredStrings t col.dictionary) := by
  rw [h.checksum, computeChecksum_eq, h.shape.type]

include hf hn

/-- The column's own front, followed by any dictionary. -/
theorem load_front_iff (path : String) (c : Nat) {front : List (Part × Bytes)} (hfront : col.frontParts n = some front)
    (tail rest : Bytes) :
    (∃ col', load path c t n (bytesOf front ++ tail) = .ok (col', rest)) ↔
      ∃ dict, loadDictionary path c t tail = .ok (dict, rest) ∧
        crc32c (col.validity.bytes ++ col.dataBytes ++ coveredStrings t dict) =
          crc32c (col.validity.bytes ++ col.dataBytes ++ coveredStrings t col.dictionary) := by
  obtain ⟨bounds, hbounds, flag, more, rfl, hread⟩ := saveBounds_spec h hf
  rw [frontParts, hbounds, Option.map_some, Option.some.injEq] at hfront
  subst hfront
  have hbytes : bytesOf [(Part.type, leBytes 1 col.type.code),
      (.nullCount, leBytes 4 (n - col.validity.countValid)), (.bitmap, col.validity.bytes), (.minMax, flag :: more),
      (.checksum, crcBytes col.checksum), (.data, col.dataBytes)] ++ tail =
      leBytes 1 t.code ++ (leBytes 4 (n - col.validity.countValid) ++ (col.validity.bytes ++ (flag :: more ++
        (leBytes 4 col.checksum.toNat ++ (col.dataBytes ++ tail))))) := by
    rw [h.shape.type]
    simp [bytesOf, crcBytes]
  rw [hbytes, load_parts_iff hn hread path c (by omega) h.shape.bitmap col.checksum.isLt (length_dataBytes h), h.fromBytes_eq]
  rw [h.checksum_eq]
  simp only [true_and, BitVec.toNat_inj]

/-- A flip in the null count, the bitmap, the stored checksum or the data. -/
theorem load_flip_front (path : String) (c : Nat) {before after : List (Part × Bytes)} {part : Part} {piece : Bytes}
    (hfront : col.frontParts n = some (before ++ (part, piece) :: after)) (hpart : part.isContent = true) {i : Nat}
    (hi : i < 8 * piece.length) {tail rest : Bytes} (htail : loadDictionary path c t tail = .ok (col.dictionary, rest)) :
    ¬ ∃ p, load path c t n (bytesOf before ++ flipBit piece i ++ bytesOf after ++ tail) = .ok p := by
  obtain ⟨bounds, hbounds, flag, more, rfl, hread⟩ := saveBounds_spec h hf
  rw [frontParts, hbounds, Option.map_some, Option.some.injEq, h.shape.type] at hfront
  have hnull : n - col.validity.countValid < 2 ^ 32 := by omega
  -- the dictionary is read as it was
  have hparts : ∀ {nullCount sum : Nat} {bitmap data : Bytes}, nullCount < 2 ^ 32 → bitmap.length = (n + 7) / 8 →
      sum < 2 ^ 32 → data.length = n * t.elementWidth → (∃ p, load path c t n (leBytes 1 t.code ++
        (leBytes 4 nullCount ++ (bitmap ++ (flag :: more ++ (leBytes 4 sum ++ (data ++ tail)))))) = .ok p) →
      n - (Bitmap.fromBytes n bitmap).countValid = nullCount ∧
        (crc32c (bitmap ++ data ++ coveredStrings t col.dictionary)).toNat = sum := by
    rintro nullCount sum bitmap data h1 h2 h3 h4 ⟨⟨col', rest'⟩, hload⟩
    obtain ⟨hcount, dict, hdict, hcrc⟩ := (load_parts_iff hn hread path c h1 h2 h3 h4 tail rest').mp ⟨col', hload⟩
    rw [htail] at hdict
    cases hdict
    exact ⟨hcount, hcrc⟩
  intro hload
  rcases frontParts_content hfront hpart with ⟨rfl, hbytes⟩ | ⟨rfl, hbytes⟩ | ⟨rfl, hbytes⟩ | ⟨rfl, hbytes⟩ <;>
    rw [hbytes] at hload
  · obtain ⟨v, hlt, hflip, hne⟩ := flipBit_leBytes 4 (n - col.validity.countValid) (by simpa using hi)
    rw [hflip] at hload
    obtain ⟨hcount, -⟩ := hparts hlt h.shape.bitmap col.checksum.isLt (length_dataBytes h) hload
    rw [h.fromBytes_eq] at hcount
    exact hne hcount.symm
  · obtain ⟨-, hcrc⟩ := hparts hnull (by rw [length_flipBit]; exact h.shape.bitmap) col.checksum.isLt
      (length_dataBytes h) hload
    rw [h.checksum_eq, BitVec.toNat_inj, List.append_assoc, List.append_assoc] at hcrc
    exact crc32c_flipBit [] col.validity.bytes _ hi hcrc
  · obtain ⟨v, hlt, hflip, hne⟩ := flipBit_leBytes 4 col.checksum.toNat (i := i) (by simpa [crcBytes] using hi)
    rw [crcBytes, hflip] at hload
    obtain ⟨-, hcrc⟩ := hparts hnull h.shape.bitmap hlt (length_dataBytes h) hload
    rw [← h.checksum_eq] at hcrc
    exact hne hcrc.symm
  · obtain ⟨-, hcrc⟩ := hparts hnull h.shape.bitmap col.checksum.isLt
      (by rw [length_flipBit]; exact length_dataBytes h) hload
    rw [h.checksum_eq, BitVec.toNat_inj] at hcrc
    exact crc32c_flipBit _ col.dataBytes _ hi hcrc

/-- A flip in a dictionary string. -/
theorem load_flip_entry (path : String) (c : Nat) {front before after : List (Part × Bytes)} {piece : Bytes}
    (hfront : col.frontParts n = some front) (hdict : col.dictParts = before ++ (.entryBytes, piece) :: after) {i : Nat}
    (hi : i < 8 * piece.length) (tail : Bytes) :
    ¬ ∃ p, load path c t n (bytesOf front ++ (bytesOf before ++ flipBit piece i ++ bytesOf after ++ tail)) = .ok p := by
  rintro ⟨⟨col', rest⟩, hload⟩
  obtain ⟨dict, hread, hcrc⟩ := (load_front_iff h hf hn path c hfront _ _).mp ⟨col', hload⟩
  unfold fitsFile at hf
  simp only [Bool.and_eq_true, decide_eq_true_iff, List.all_eq_true] at hf
  obtain ⟨⟨-, hsize⟩, hshort⟩ := hf
  unfold dictParts at hdict
  split at hdict
  · next htype =>
    rw [h.shape.type] at htype
    subst htype
    obtain ⟨before, rfl, hentries⟩ : ∃ before', before = (.dictSize, leBytes 4 col.dictionary.values.length) :: before' ∧
        col.dictionary.values.flatMap entryParts = before' ++ (.entryBytes, piece) :: after := by
      cases before with
      | nil => cases (List.cons.inj hdict).1
      | cons p before =>
        obtain ⟨rfl, hentries⟩ := List.cons.inj hdict
        exact ⟨before, rfl, hentries⟩
    obtain ⟨strings, s, back, hvalues, rfl, hbefore, hafter⟩ := entryParts_split hentries
    rw [hvalues] at hsize hshort
    have hs : s.length < 2 ^ 32 := hshort s (by simp)
    rw [Nat.mod_eq_of_lt hs, List.take_length] at hi hread
    have hspells : Spells (strings ++ flipBit s i :: back) (bytesOf ((.dictSize,
        leBytes 4 col.dictionary.values.length) :: before) ++ flipBit s i ++ bytesOf after ++ tail) tail := by
      refine ⟨by simpa using hsize, fun u hu => ?_, ?_⟩
      · rcases List.mem_append.mp hu with hu | hu
        · exact hshort u (List.mem_append_left _ hu)
        · rcases List.mem_cons.mp hu with rfl | hu
          · rw [length_flipBit]
            exact hs
          · exact hshort u (List.mem_append_right _ (List.mem_cons_of_mem _ hu))
      · rw [bytesOf_cons, hbefore, hafter, hvalues, List.flatMap_append, List.flatMap_cons,
          writeString_eq (s := flipBit s i) (by rw [length_flipBit]; exact hs), length_flipBit]
        simp only [List.append_assoc, List.length_append, List.length_cons]
    rw [loadDictionary_string_iff.mpr ⟨_, hspells, rfl⟩] at hread
    cases hread
    simp only [coveredStrings, if_true, Dictionary.fromValues, hvalues, List.flatten_append, List.flatten_cons] at hcrc
    refine crc32c_flipBit (col.validity.bytes ++ col.dataBytes ++ strings.flatten) s back.flatten hi ?_
    simpa only [List.append_assoc] using hcrc
  · simp at hdict

end

end Column

/-! ## Flips in a file -/

namespace Segment

/-- The bytes from the dictionary of column `c` on can be read another way: they spell strings with the checksum of
the column's own, and the remaining columns follow. -/
def Reframes (seg : Segment) (c : Nat) (bs : Bytes) : Prop :=
  ∃ col values rest images ignored cols, seg.columns[c]? = some col ∧ Column.Spells values bs rest ∧
    crc32c (col.validity.bytes ++ col.dataBytes ++ values.flatten) =
      crc32c (col.validity.bytes ++ col.dataBytes ++ col.dictionary.values.flatten) ∧
    rest = images ++ ignored ∧ ColumnsLayout seg.numRows (seg.schema.drop (c + 1)) images cols

theorem loadColumns_append (path : String) {n : Nat} {schema : Schema} {images : Bytes} {cols : List Column}
    (h : ColumnsLayout n schema images cols) (schema' : Schema) (c : Nat) (rest : Bytes) :
    (∃ all, loadColumns path n (schema ++ schema') c (images ++ rest) = .ok all) ↔
      ∃ cols', loadColumns path n schema' (c + schema.length) rest = .ok cols' := by
  induction h generalizing c with
  | nil => exact Iff.rfl
  | @cons s schema image images col cols hl _ ih =>
    have hload : Column.load path c s.type n (image ++ (images ++ rest)) = .ok (col, images ++ rest) :=
      Column.load_eq_ok_iff.mpr ⟨image, rfl, hl⟩
    have hlen : c + (s :: schema).length = c + 1 + schema.length := by rw [List.length_cons]; omega
    rw [hlen, ← ih (c + 1), List.cons_append, loadColumns, List.append_assoc, hload]
    simp only [bind_eq_ok, Except.ok.injEq]
    constructor
    · rintro ⟨all, p, rfl, cols', hcols, -⟩
      exact ⟨cols', hcols⟩
    · rintro ⟨cols', hcols⟩
      exact ⟨col :: cols', _, rfl, cols', hcols, rfl⟩

theorem load_header_iff (path : String) {schema : Schema} (hschema : schema.length < 2 ^ 32) {segmentId n : Nat}
    (hid : segmentId < 2 ^ 64) (hn : n < 2 ^ 32) (bs : Bytes) :
    (∃ seg, load path schema (header schema.length segmentId n ++ bs) = .ok seg) ↔
      ∃ cols, loadColumns path n schema 0 bs = .ok cols := by
  constructor
  · rintro ⟨seg, hload⟩
    obtain ⟨-, -, hid', hn', images, rest, heq, hlayout⟩ := load_eq_ok_iff.mp hload
    obtain ⟨hheader, hbs⟩ := List.append_inj heq (by simp [header])
    have htail := (List.append_inj (List.append_cancel_left (List.append_cancel_left hheader)) (by simp)).2
    have hcount := congrArg leVal htail
    rw [leVal_leBytes_of_lt 4 n hn, leVal_leBytes_of_lt 4 _ hn'] at hcount
    exact ⟨seg.columns, loadColumns_eq_ok_iff.mpr ⟨images, rest, hbs, hcount ▸ hlayout⟩⟩
  · rintro ⟨cols, hcols⟩
    obtain ⟨images, rest, rfl, hlayout⟩ := loadColumns_eq_ok_iff.mp hcols
    exact ⟨⟨segmentId, n, schema, cols⟩, load_eq_ok_iff.mpr ⟨rfl, hschema, hid, hn, images, rest, rfl, hlayout⟩⟩

/-- Where a byte of the file is: the columns in front of it and behind it, and its part of the column between. -/
theorem partAt_split {seg : Segment} {bs : Bytes} (hsave : seg.save = some bs) {pos c : Nat} {part : Part}
    (hpart : seg.partAt pos = some (some (c, part))) :
    ∃ cols1 col cols2 saved1 saved2 before piece after off, seg.columns = cols1 ++ col :: cols2 ∧ c = cols1.length ∧
      saveColumns seg.numRows cols1 = some saved1 ∧ saveColumns seg.numRows cols2 = some saved2 ∧
      col.parts seg.numRows = some (before ++ (part, piece) :: after) ∧
      bs = header seg.columns.length seg.segmentId seg.numRows ++ saved1 ++ bytesOf before ++ piece ++
        (bytesOf after ++ saved2) ∧
      pos = (header seg.columns.length seg.segmentId seg.numRows ++ saved1 ++ bytesOf before).length + off ∧
      off < piece.length := by
  rw [save_eq_bytesOf_parts] at hsave
  obtain ⟨parts, hparts, rfl⟩ := Option.map_eq_some_iff.mp hsave
  rw [partAt, hparts, Option.bind_some] at hpart
  obtain ⟨before, piece, after, off, rfl, rfl, hoff⟩ := labelAt_split hpart
  obtain ⟨columns, hcolumns, heq⟩ := Option.map_eq_some_iff.mp hparts
  cases before with
  | nil => cases (List.cons.inj heq).1
  | cons p before =>
    obtain ⟨rfl, rfl⟩ := List.cons.inj heq
    obtain ⟨cols1, col, cols2, saved1, saved2, before', after', hcols, hc, hs1, hs2, hp, hb, ha⟩ :=
      columnParts_split hcolumns
    refine ⟨cols1, col, cols2, saved1, saved2, before', piece, after', off, hcols, by simpa using hc, hs1, hs2, hp, ?_, ?_,
      hoff⟩
    · rw [bytesOf_append, bytesOf_cons, bytesOf_cons, hb, ha]
      simp only [List.append_assoc]
    · rw [bytesOf_cons, hb]
      simp only [List.append_assoc]

/-- A damaged column between intact ones: the file loads iff the column does and the remaining ones follow. -/
theorem load_between_iff (path : String) {schema : Schema} {seg : Segment} (h : seg.WellFormed schema)
    (hf : seg.fitsFile = true) {cols1 cols2 : List Column} {col : Column} {saved : Bytes}
    (hcols : seg.columns = cols1 ++ col :: cols2) (hsave : saveColumns seg.numRows cols1 = some saved) (bs : Bytes) :
    ∃ s : ColumnSchema, Column.WellFormed s.type seg.numRows col ∧ col.fitsFile = true ∧
      ((∃ seg', load path schema (header seg.columns.length seg.segmentId seg.numRows ++ (saved ++ bs)) = .ok seg') ↔
        ∃ col' rest, Column.load path cols1.length s.type seg.numRows bs = .ok (col', rest) ∧
          ∃ images ignored cols, rest = images ++ ignored ∧
            ColumnsLayout seg.numRows (schema.drop (cols1.length + 1)) images cols) := by
  unfold fitsFile at hf
  rw [Bool.and_eq_true, decide_eq_true_iff] at hf
  obtain ⟨⟨hid, hn, hlen⟩, hall⟩ := hf
  rw [hcols, List.all_append, Bool.and_eq_true, List.all_cons, Bool.and_eq_true] at hall
  obtain ⟨hall1, hfcol, -⟩ := hall
  have hwf := h.columns
  rw [hcols] at hwf
  have hwf1 := List.forall₂_take_append _ _ _ hwf
  have hwf2 := List.forall₂_drop_append _ _ _ hwf
  have hlen1 := hwf1.length_eq
  cases hdrop : schema.drop cols1.length with
  | nil => rw [hdrop] at hwf2; cases hwf2
  | cons s schema2 =>
    rw [hdrop] at hwf2
    cases hwf2 with
    | cons hcol _ =>
      have hschema : schema = schema.take cols1.length ++ s :: schema2 := by rw [← hdrop, List.take_append_drop]
      have hrest : schema.drop (cols1.length + 1) = schema2 := by rw [← List.drop_drop, hdrop]; rfl
      refine ⟨s, hcol, hfcol, ?_⟩
      rw [← h.columns.length_eq] at hlen ⊢
      rw [load_header_iff path hlen hid (by omega), hrest]
      conv => lhs; rw [hschema]
      rw [loadColumns_append path (columnsLayout_save hn hwf1 hall1 hsave), hlen1, Nat.zero_add, loadColumns]
      simp only [bind_eq_ok]
      constructor
      · rintro ⟨all, ⟨col', rest⟩, hload, cols', hcols', -⟩
        obtain ⟨images, ignored, heq, hlayout⟩ := loadColumns_eq_ok_iff.mp hcols'
        exact ⟨col', rest, hload, images, ignored, cols', heq, hlayout⟩
      · rintro ⟨col', rest, hload, images, ignored, cols', heq, hlayout⟩
        exact ⟨_, (col', rest), hload, cols', loadColumns_eq_ok_iff.mpr ⟨images, ignored, heq, hlayout⟩, rfl⟩

/-- What stands in a file behind the front of a column is its dictionary and the rest. -/
theorem drop_dictStart {seg : Segment} {cols1 cols2 : List Column} {col : Column} {saved : Bytes}
    {front : List (Part × Bytes)} (hcols : seg.columns = cols1 ++ col :: cols2)
    (hsave : saveColumns seg.numRows cols1 = some saved) (hfront : col.frontParts seg.numRows = some front) (bs : Bytes) :
    (header seg.columns.length seg.segmentId seg.numRows ++ (saved ++ (bytesOf front ++ bs))).drop
      (seg.dictStart cols1.length) = bs := by
  have hget : seg.columns[cols1.length]? = some col := by rw [hcols]; simp
  have htake : seg.columns.take cols1.length = cols1 := by rw [hcols]; simp
  rw [dictStart, hget, htake, hsave, Option.bind_some, hfront, ← List.append_assoc, ← List.append_assoc]
  exact List.drop_left' (by simp only [List.length_append, Option.map_some, Option.getD_some])

/-- A string column whose dictionary bytes have changed loads, with the other columns behind it, iff the bytes can be
read another way. -/
theorem reframes_iff (path : String) {schema : Schema} {seg : Segment} (h : seg.WellFormed schema) {t : ColumnType}
    {c : Nat} {col : Column} (hwf : Column.WellFormed t seg.numRows col) (hf : col.fitsFile = true)
    (hn : seg.numRows + 7 < 2 ^ 32) (ht : t = .string) (hget : seg.columns[c]? = some col)
    {front : List (Part × Bytes)} (hfront : col.frontParts seg.numRows = some front) (bs : Bytes) :
    (∃ col' rest, Column.load path c t seg.numRows (bytesOf front ++ bs) = .ok (col', rest) ∧
      ∃ images ignored cols, rest = images ++ ignored ∧
        ColumnsLayout seg.numRows (schema.drop (c + 1)) images cols) ↔ seg.Reframes c bs := by
  constructor
  · rintro ⟨col', rest, hcol, images, ignored, cols, rfl, hlayout⟩
    obtain ⟨dict, hread, hcrc⟩ := (Column.load_front_iff hwf hf hn path _ hfront _ _).mp ⟨col', hcol⟩
    rw [ht] at hread
    obtain ⟨values, hspells, rfl⟩ := Column.loadDictionary_string_iff.mp hread
    simp only [ht, Column.coveredStrings, if_true] at hcrc
    exact ⟨col, values, _, images, ignored, cols, hget, hspells, hcrc, rfl, h.schema_eq ▸ hlayout⟩
  · rintro ⟨col0, values, rest, images, ignored, cols, hcol0, hspells, hcrc, hrest, hlayout⟩
    rw [hget, Option.some.injEq] at hcol0
    subst hcol0
    have hread : Column.loadDictionary path c t bs = .ok (Dictionary.fromValues values, rest) :=
      ht ▸ Column.loadDictionary_string_iff.mpr ⟨values, hspells, rfl⟩
    obtain ⟨col', hcol⟩ := (Column.load_front_iff hwf hf hn path _ hfront _ _).mpr ⟨_, hread, by
      simp only [ht, Column.coveredStrings, if_true]
      exact hcrc⟩
    exact ⟨col', rest, hcol, images, ignored, cols, hrest, h.schema_eq ▸ hlayout⟩

/-- **One flipped bit** in the contents of a column: the file still loads iff the bit is in a dictionary size or an
entry length and the dictionary can then be read another way. -/
theorem load_flip_iff (path : String) {schema : Schema} {seg : Segment} {bs : Bytes} (h : seg.WellFormed schema)
    (hf : seg.fitsFile = true) (hsave : seg.save = some bs) {i c : Nat} {part : Part}
    (hpart : seg.partAt (i / 8) = some (some (c, part))) (hcontent : part.isContent = true) :
    (∃ seg', load path schema (flipBit bs i) = .ok seg') ↔
      part.isFraming = true ∧ seg.Reframes c ((flipBit bs i).drop (seg.dictStart c)) := by
  obtain ⟨cols1, col, cols2, saved1, saved2, before, piece, after, off, hcols, rfl, hs1, hs2, hp, rfl, hpos, hoff⟩ :=
    partAt_split hsave hpart
  have hn : seg.numRows + 7 < 2 ^ 32 := by
    unfold fitsFile at hf
    rw [Bool.and_eq_true, decide_eq_true_iff] at hf
    exact hf.1.2.1
  -- the flip is in the piece
  obtain ⟨j, hj, hij⟩ : ∃ j, j < 8 * piece.length ∧ i = 8 * (header seg.columns.length seg.segmentId seg.numRows ++
      saved1 ++ bytesOf before).length + j := ⟨8 * off + i % 8, by omega, by omega⟩
  have hflip := flipBit_append (header seg.columns.length seg.segmentId seg.numRows ++ saved1 ++ bytesOf before) piece
    (bytesOf after ++ saved2) j hj
  rw [← hij] at hflip
  have hfile : flipBit (header seg.columns.length seg.segmentId seg.numRows ++ saved1 ++ bytesOf before ++ piece ++
      (bytesOf after ++ saved2)) i = header seg.columns.length seg.segmentId seg.numRows ++ (saved1 ++
        (bytesOf before ++ flipBit piece j ++ bytesOf after ++ saved2)) := by
    rw [hflip]
    simp only [List.append_assoc]
  rw [hfile]
  obtain ⟨s, hwf, hfcol, hload⟩ := load_between_iff path h hf hcols hs1
    (bytesOf before ++ flipBit piece j ++ bytesOf after ++ saved2)
  rw [hload]
  obtain ⟨front, hfront, hparts⟩ := Option.map_eq_some_iff.mp hp
  rcases append_eq_append_cons hparts with ⟨mid, rfl, hdict⟩ | ⟨mid, rfl, rfl⟩
  · -- in the dictionary
    rw [bytesOf_append]
    have hget : seg.columns[cols1.length]? = some col := by rw [hcols]; simp
    have hassoc : bytesOf front ++ bytesOf mid ++ flipBit piece j ++ bytesOf after ++ saved2 =
        bytesOf front ++ (bytesOf mid ++ flipBit piece j ++ bytesOf after ++ saved2) := by
      simp only [List.append_assoc]
    rw [hassoc, drop_dictStart hcols hs1 hfront]
    obtain ⟨htype, hlabel⟩ := Column.mem_dictParts (p := (part, piece)) (by rw [hdict]; simp)
    rw [hwf.shape.type] at htype
    rcases hlabel with hframing | rfl
    · simp only [hframing, true_and]
      exact reframes_iff path h hwf hfcol hn htype hget hfront _
    · refine iff_of_false ?_ fun hr => by cases hr.1
      rintro ⟨col', rest, hcol, -⟩
      exact Column.load_flip_entry hwf hfcol hn path _ hfront hdict hj saved2 ⟨_, hcol⟩
  · -- in front of it
    have hframing := Column.mem_frontParts hfront (p := (part, piece)) (by simp)
    refine iff_of_false ?_ fun hr => by rw [hframing] at hr; cases hr.1
    rintro ⟨col', rest, hcol, -⟩
    rw [bytesOf_append, Column.bytesOf_dictParts, ← List.append_assoc, List.append_assoc _ col.saveDictionary] at hcol
    exact Column.load_flip_front hwf hfcol hn path _ hfront hcontent hj
      (Column.loadDictionary_save hwf hfcol path _ saved2) ⟨_, hcol⟩

/-- **Which flips are noticed.**  Conforming rows, fewer than 2³² - 7 of them and with strings below 2³² bytes, built,
saved and hit by one bit flip in the contents of a column: loading ends with an error text, unless the bit is in a
dictionary size or an entry length and frames the bytes that follow as strings of the same checksum with the remaining
columns behind, or what the file then declares cannot be allocated. -/
theorem bit_flip_detected_iff (mem : Memory) (path : String) {segmentId : Nat} {schema : Schema} {rows : List Row}
    {seg : Segment} {bs : Bytes} (hid : segmentId < 2 ^ 64) (hrows : rows.length + 7 < 2 ^ 32)
    (hshort : ∀ row ∈ rows, ∀ v ∈ row, v.shortString = true) (hconf : ∀ row ∈ rows, rowConforms schema row = true)
    (hbuild : build segmentId schema rows = some seg) (hsave : seg.save = some bs) {i c : Nat} {part : Part}
    (hpart : seg.partAt (i / 8) = some (some (c, part))) (hcontent : part.isContent = true) :
    (∃ e, loadFromFileIn mem path schema (some (flipBit bs i)) = .error (.error e)) ↔
      ¬ (schema.length < 2 ^ 32 ∧ part.isFraming = true ∧ seg.Reframes c ((flipBit bs i).drop (seg.dictStart c))) ∧
        MemorySuffices mem schema (flipBit bs i) := by
  have herror : (∃ e, loadFromFile path schema (some (flipBit bs i)) = .error e) ↔
      ¬ ∃ seg', load path schema (flipBit bs i) = .ok seg' := by
    rw [loadFromFile]
    cases load path schema (flipBit bs i) with
    | error e => exact iff_of_true ⟨e, rfl⟩ fun hok => by obtain ⟨seg', heq⟩ := hok; cases heq
    | ok seg' => exact iff_of_false (fun herr => by obtain ⟨e, heq⟩ := herr; cases heq) fun hno => hno ⟨seg', rfl⟩
  simp only [(loadFromFileIn_asks mem path schema (flipBit bs i)).eq_error_iff, exists_and_right, herror]
  refine and_congr_left fun _ => ?_
  rw [not_iff_not]
  by_cases hschema : schema.length < 2 ^ 32
  · obtain ⟨seg', hbuild', hsid, hnum, hwf, -⟩ := build_spec segmentId schema rows (by omega) hconf
    rw [hbuild, Option.some.injEq] at hbuild'
    subst hbuild'
    have hfits := fitsFile_build hid hschema hrows hshort hbuild
    rw [load_flip_iff path hwf hfits hsave hpart hcontent]
    simp only [hschema, true_and]
  · refine iff_of_false ?_ fun hr => hschema hr.1
    rintro ⟨seg', hload⟩
    exact hschema (load_eq_ok_iff.mp hload).numColumns

/-- A flip in the data block of a one-row int64 column. -/
theorem bit_flip_detected_iff_data : ∃ seg bs, build 1 [⟨"v", .int64⟩] [[.int64 7]] = some seg ∧ seg.save = some bs ∧
    seg.partAt (410 / 8) = some (some (0, .data)) ∧
      ∃ e, loadFromFileIn Memory.unbounded "segment_1.seg" [⟨"v", .int64⟩] (some (flipBit bs 410)) =
        .error (.error e) := by
  have hsome : ((build 1 [⟨"v", .int64⟩] [[.int64 7]]).bind fun seg => (seg.save).map fun _ => seg.partAt (410 / 8)) =
      some (some (some (0, .data))) := by decide +kernel
  obtain ⟨seg, hbuild, hrest⟩ := Option.bind_eq_some_iff.mp hsome
  obtain ⟨bs, hsave, hpart⟩ := Option.map_eq_some_iff.mp hrest
  exact ⟨seg, bs, hbuild, hsave, hpart, (bit_flip_detected_iff Memory.unbounded "segment_1.seg" (by decide) (by decide)
    (by decide) (by decide) hbuild hsave hpart rfl).mpr ⟨fun hr => (by cases hr.2.1), fun _ _ => rfl⟩⟩

/-- In 16 GiB.  A dictionary of the empty string alone: with its size flipped from 1 to 0 the file loads, and reading
the row throws.  A string that leaves the checksum as it is: with its length flipped from 4 to 0 the file loads, and
the row reads as the empty string.  The size flipped from 1 to 2²⁹ + 1: the load throws `std::bad_alloc`. -/
theorem flip_goes_unnoticed :
    (((build 1 [⟨"s", .string⟩] [[.string []]]).bind fun seg => (seg.save).map fun bs =>
        (seg.partAt (376 / 8), (loadFromFileIn (Memory.upTo (2 ^ 34)) "segment_1.seg" [⟨"s", .string⟩]
          (some (flipBit bs 376))).toOption.map fun loaded => loaded.extractFullRow 0)) =
            some (some (some (0, .dictSize)), some none)) ∧
    ((build 1 [⟨"s", .string⟩] [[.string [203, 201, 117, 221]]]).bind fun seg => (seg.save).map fun bs =>
        (seg.partAt (474 / 8), (loadFromFileIn (Memory.upTo (2 ^ 34)) "segment_1.seg" [⟨"s", .string⟩]
          (some (flipBit bs 474))).toOption.map fun loaded => loaded.extractFullRow 0)) =
            some (some (some (0, .entryLength)), some (some [.string []])) ∧
    ((build 1 [⟨"s", .string⟩] [[.string []]]).bind fun seg => (seg.save).map fun bs =>
        (seg.partAt (405 / 8), loadFromFileIn (Memory.upTo (2 ^ 34)) "segment_1.seg" [⟨"s", .string⟩]
          (some (flipBit bs 405)))) = some (some (some (0, .dictSize)), .error .badAlloc) := by
  refine ⟨?_, ?_, ?_⟩ <;> decide +kernel

end Segment

end CoreDB
