import CoreDB.Table.Table
import CoreDB.Storage.SegmentFile
import CoreDB.Lib.Text

/-!
# Checkpoints (`recovery/checkpoint.h`, `recovery/checkpoint.cpp`)

A checkpoint compacts the table, saves its base segments, each under a name made
from its id, and then writes the manifest: the last LSN the segments reflect, and
the names.  `Disk` is a data directory.  Writing to it does not fail.

`loadManifest_write`: the manifest reads back.  `loadManifest_take`: so does most of it.
`loadSegments_write`: the saved segments load as the segments they were.
-/

namespace CoreDB

open ByteCodec
open TextFile

/-- The files of a data directory: the log, the manifest and the segment files. -/
structure Disk where
  dataDir : String := ""
  wal : Option Bytes := none
  manifest : Option Text := none
  segments : Text → Option Bytes := fun _ => none

structure CheckpointManifest where
  lastLsn : Nat := 0
  segmentFiles : List Text := []
deriving DecidableEq, Repr

/-! ## Writing -/

def segmentFileName (segmentId : Nat) : Text := "segment_".toList ++ (Nat.toDigits 10 segmentId ++ ".seg".toList)

def manifestText (walLsn : Nat) (files : List Text) : Text :=
  unlines (("LSN ".toList ++ Nat.toDigits 10 walLsn) :: files)

/-- Save each segment under its name; `none` when one cannot be written as a file. -/
def saveSegments : List Segment → (Text → Option Bytes) → Option (Text → Option Bytes)
  | [], files => some files
  | seg :: segs, files =>
    match seg.save with
    | none => none
    | some bs => saveSegments segs (Function.update files (segmentFileName seg.segmentId) (some bs))

/-- The table and the directory after a checkpoint; `none` when `Compact` throws. -/
def writeCheckpoint (t : Table) (disk : Disk) (walLsn : Nat) : Option (Table × Disk) :=
  match t.compact with
  | none => none
  | some t =>
    (saveSegments t.baseSegments disk.segments).map fun segments =>
      (t, { disk with
        segments
        manifest := some (manifestText walLsn (t.baseSegments.map fun seg => segmentFileName seg.segmentId)) })

/-! ## Loading -/

def loadManifest (manifestPath : String) : Option Text → Except String CheckpointManifest
  | none => .error ("no checkpoint manifest at '" ++ manifestPath ++ "'")
  | some text =>
    match lines text with
    | [] => .error "empty manifest file"
    | first :: rest =>
      let tag := word first
      if tag.1 ≠ "LSN".toList then .error "manifest missing LSN header"
      else .ok { lastLsn := readUnsigned 64 tag.2, segmentFiles := rest.filter (· ≠ []) }

def loadSegments (segmentDir : String) (schema : Schema) (files : Text → Option Bytes) :
    List Text → Except String (List Segment)
  | [] => .ok []
  | name :: names => do
    let seg ← Segment.loadFromFile (segmentDir ++ "/" ++ String.ofList name) schema (files name)
    let segs ← loadSegments segmentDir schema files names
    .ok (seg :: segs)

/-! ## Reading back -/

theorem segmentFileName_inj {a b : Nat} (h : segmentFileName a = segmentFileName b) : a = b := by
  unfold segmentFileName at h
  have hd : Nat.toDigits 10 a = Nat.toDigits 10 b :=
    List.append_cancel_right (List.append_cancel_left h)
  have ha := Nat.ofDigitChars_toDigits (b := 10) (n := a) (by omega) (by omega)
  rw [hd, Nat.ofDigitChars_toDigits (by omega) (by omega)] at ha
  exact ha.symm

theorem newline_not_mem_toDigits (n : Nat) : '\n' ∉ Nat.toDigits 10 n := by
  intro h
  exact absurd (Nat.isDigit_of_mem_toDigits (by omega) (by omega) h) (by decide)

theorem newline_not_mem_segmentFileName (n : Nat) : '\n' ∉ segmentFileName n := by
  unfold segmentFileName
  rw [List.mem_append, List.mem_append, not_or, not_or]
  exact ⟨by decide, newline_not_mem_toDigits n, by decide⟩

theorem segmentFileName_ne_nil (n : Nat) : segmentFileName n ≠ [] := by
  unfold segmentFileName
  simp

/-- **The manifest reads back.** -/
theorem loadManifest_write (path : String) (lsn : Nat) (hlsn : lsn < 2 ^ 64) (segs : List Segment) :
    loadManifest path (some (manifestText lsn (segs.map fun seg => segmentFileName seg.segmentId))) =
      .ok { lastLsn := lsn, segmentFiles := segs.map fun seg => segmentFileName seg.segmentId } := by
  have hlines : lines (manifestText lsn (segs.map fun seg => segmentFileName seg.segmentId)) =
      ("LSN ".toList ++ Nat.toDigits 10 lsn) :: segs.map fun seg => segmentFileName seg.segmentId := by
    refine lines_unlines _ fun l hl => ?_
    rcases List.mem_cons.mp hl with rfl | hl
    · rw [List.mem_append, not_or]
      exact ⟨by decide, newline_not_mem_toDigits lsn⟩
    · obtain ⟨seg, -, rfl⟩ := List.mem_map.mp hl
      exact newline_not_mem_segmentFileName seg.segmentId
  have hword : word ("LSN ".toList ++ Nat.toDigits 10 lsn) = ("LSN".toList, ' ' :: Nat.toDigits 10 lsn) := by
    rfl
  have hfilter : (segs.map fun seg => segmentFileName seg.segmentId).filter (fun l => decide (l ≠ [])) =
      segs.map fun seg => segmentFileName seg.segmentId := by
    rw [List.filter_eq_self]
    intro l hl
    obtain ⟨seg, -, rfl⟩ := List.mem_map.mp hl
    simpa using segmentFileName_ne_nil seg.segmentId
  unfold loadManifest
  simp only [hlines, hword, ne_eq, not_true_eq_false, if_false, readUnsigned_toDigits 64 lsn hlsn, hfilter]

/-- **What a manifest that is cut off reads as:** from `LSN` on it is accepted. -/
theorem loadManifest_take (path : String) (lsn : Nat) (files : List Text) (k : Nat) :
    (∃ m, loadManifest path (some ((manifestText lsn files).take k)) = .ok m) ↔ 3 ≤ k := by
  obtain ⟨t, ht⟩ : ∃ t, manifestText lsn files = 'L' :: 'S' :: 'N' :: ' ' :: t := ⟨_, rfl⟩
  rw [ht]
  match k with
  | 0 | 1 | 2 =>
    refine ⟨?_, fun h => absurd h (by decide)⟩
    rintro ⟨m, hm⟩
    cases hm
  | 3 => exact ⟨fun _ => Nat.le_refl 3, fun _ => ⟨_, rfl⟩⟩
  | k + 4 =>
    refine ⟨fun _ => by omega, fun _ => ?_⟩
    obtain ⟨l, ls, hlines⟩ : ∃ l ls,
        lines ('L' :: 'S' :: 'N' :: ' ' :: t.take k) = ('L' :: 'S' :: 'N' :: ' ' :: l) :: ls := by
      cases hrest : lines (t.take k) with
      | nil => exact ⟨[], [], by simp [lines, hrest]⟩
      | cons l ls => exact ⟨l, ls, by simp [lines, hrest]⟩
    simp only [List.take_succ_cons, loadManifest, hlines]
    exact ⟨_, rfl⟩

/-- Loading looks at the named files only. -/
theorem loadSegments_congr (dir : String) (schema : Schema) {files files' : Text → Option Bytes} {names : List Text}
    (h : ∀ name ∈ names, files' name = files name) :
    loadSegments dir schema files' names = loadSegments dir schema files names := by
  induction names with
  | nil => rfl
  | cons name names ih =>
    rw [loadSegments, loadSegments, h name List.mem_cons_self, ih fun q hq => h q (List.mem_cons_of_mem _ hq)]

/-- Saving keeps the files of other ids. -/
theorem saveSegments_other : ∀ (segs : List Segment) (files files' : Text → Option Bytes) (n : Nat),
    saveSegments segs files = some files' → n ∉ segs.map (·.segmentId) →
    files' (segmentFileName n) = files (segmentFileName n) := by
  intro segs
  induction segs with
  | nil =>
    intro files files' n h _
    cases h
    rfl
  | cons seg segs ih =>
    intro files files' n h hn
    simp only [List.map_cons, List.mem_cons, not_or] at hn
    unfold saveSegments at h
    split at h
    · cases h
    · next bs hbs =>
      rw [ih _ _ n h hn.2, Function.update_of_ne]
      exact fun heq => hn.1 (segmentFileName_inj heq)

/-- **The saved segments load again.** -/
theorem loadSegments_write (dir : String) {schema : Schema} : ∀ (segs : List Segment) (files : Text → Option Bytes),
    (segs.map (·.segmentId)).Nodup → (∀ seg ∈ segs, seg.WellFormed schema ∧ seg.fitsFile = true) →
    ∃ files', saveSegments segs files = some files' ∧
      loadSegments dir schema files' (segs.map fun seg => segmentFileName seg.segmentId) = .ok segs := by
  intro segs
  induction segs with
  | nil => intro files _ _; exact ⟨files, rfl, rfl⟩
  | cons seg segs ih =>
    intro files hids hwf
    obtain ⟨hid, hids⟩ := List.nodup_cons.mp hids
    obtain ⟨hseg, hfits⟩ := hwf seg List.mem_cons_self
    obtain ⟨bs, hsave, hload⟩ := Segment.load_save hseg hfits
      (dir ++ "/" ++ String.ofList (segmentFileName seg.segmentId))
    obtain ⟨files', hfiles, hrest⟩ := ih (Function.update files (segmentFileName seg.segmentId) (some bs)) hids
      fun q hq => hwf q (List.mem_cons_of_mem _ hq)
    refine ⟨files', by rw [saveSegments, hsave]; exact hfiles, ?_⟩
    have hat : files' (segmentFileName seg.segmentId) = some bs := by
      rw [saveSegments_other segs _ files' seg.segmentId hfiles hid, Function.update_self]
    simp only [List.map_cons, loadSegments, hat, Segment.loadFromFile, hload, hrest, bind, Except.bind]

end CoreDB
