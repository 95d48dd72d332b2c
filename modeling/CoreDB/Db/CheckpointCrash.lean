import CoreDB.Db.CheckpointTransparency
import CoreDB.Db.LogSequence

/-!
# A crash inside a checkpoint

A checkpoint writes its files one after the other, each in place: a file is emptied when
it is opened and then grows by its bytes.  A `CrashPoint` says how far the writing came.
Nothing of it is undone, so the next recovery starts from files of two checkpoints.

It comes out right at two kinds of crash points.  While a segment file is written, the
manifest of the last checkpoint must not name this file: `Compact` keeps a segment if it
has nothing to merge, and its file is then rewritten under the manifest that names it.
And while the manifest is written, it must not be accepted before it is complete; from
its third character on it is.
-/

namespace CoreDB

open ByteCodec
open TextFile
open VersionChain (final)

/-! ## The files of a checkpoint, and how far they were written -/

/-- A file that a checkpoint writes, with all that is to be in it. -/
inductive FileWrite where
  | segment (name : Text) (bytes : Bytes)
  | manifest (text : Text)
deriving DecidableEq, Repr

namespace FileWrite

def size : FileWrite → Nat
  | .segment _ bytes => bytes.length
  | .manifest text => text.length

/-- The file has been opened, and its first `n` bytes written. -/
def put (disk : Disk) (n : Nat) : FileWrite → Disk
  | .segment name bytes => { disk with segments := Function.update disk.segments name (some (bytes.take n)) }
  | .manifest text => { disk with manifest := some (text.take n) }

def putAll (disk : Disk) (file : FileWrite) : Disk := file.put disk file.size

end FileWrite

def segmentWrites : List Segment → Option (List FileWrite)
  | [] => some []
  | seg :: segs =>
    match seg.save with
    | none => none
    | some bs => (segmentWrites segs).map (.segment (segmentFileName seg.segmentId) bs :: ·)

/-- The files of a compacted table, in the order in which they are written. -/
def checkpointFiles (t : Table) (walLsn : Nat) : Option (List FileWrite) :=
  (segmentWrites t.baseSegments).map
    (· ++ [.manifest (manifestText walLsn (t.baseSegments.map fun seg => segmentFileName seg.segmentId))])

theorem saveSegments_eq (segs : List Segment) : ∀ disk : Disk,
    (saveSegments segs disk.segments).map (fun segments => { disk with segments }) =
      (segmentWrites segs).map (·.foldl FileWrite.putAll disk) := by
  induction segs with
  | nil => intro disk; rfl
  | cons seg segs ih =>
    intro disk
    unfold saveSegments segmentWrites
    cases hsave : seg.save with
    | none => rfl
    | some bs =>
      have hput : FileWrite.putAll disk (.segment (segmentFileName seg.segmentId) bs) =
          { disk with segments := Function.update disk.segments (segmentFileName seg.segmentId) (some bs) } := by
        simp [FileWrite.putAll, FileWrite.put, FileWrite.size]
      simp only [Option.map_map, Function.comp_def, List.foldl_cons, hput]
      exact ih { disk with segments := Function.update disk.segments (segmentFileName seg.segmentId) (some bs) }

/-- **A checkpoint writes these files.** -/
theorem writeCheckpoint_eq (t : Table) (disk : Disk) (walLsn : Nat) :
    writeCheckpoint t disk walLsn = t.compact.bind fun t' =>
      (checkpointFiles t' walLsn).map fun files => (t', files.foldl FileWrite.putAll disk) := by
  unfold writeCheckpoint checkpointFiles
  cases t.compact with
  | none => rfl
  | some t' =>
    have hsave := saveSegments_eq t'.baseSegments disk
    cases hfiles : segmentWrites t'.baseSegments with
    | none =>
      rw [hfiles, Option.map_none, Option.map_eq_none_iff] at hsave
      simp only [hsave, Option.map_none, Option.bind_some, hfiles]
    | some done =>
      rw [hfiles, Option.map_some] at hsave
      obtain ⟨segments, hsegments, hput⟩ := Option.map_eq_some_iff.mp hsave
      simp only [hsegments, Option.map_some, Option.bind_some, hfiles, List.foldl_append, ← hput, List.foldl_cons,
        List.foldl_nil, FileWrite.putAll, FileWrite.put, FileWrite.size, List.take_length]

/-- The files that `WriteCheckpoint` writes, in order. -/
def checkpointWrites (t : Table) (walLsn : Nat) : Option (List FileWrite) := t.compact.bind (checkpointFiles · walLsn)

/-- A moment in the writing of `files`: those before `file` are complete, and `file` has
been opened and its first `bytes` bytes written. -/
structure CrashPoint (files : List FileWrite) where
  done : List FileWrite
  file : FileWrite
  later : List FileWrite
  bytes : Nat
  split : files = done ++ file :: later
  le_size : bytes ≤ file.size

namespace CrashPoint

variable {files : List FileWrite}

/-- The crash point after `n` bytes of the file number `k`. -/
def ofIndex (files : List FileWrite) (k n : Nat) : Option (CrashPoint files) :=
  if hk : k < files.length then
    if hn : n ≤ files[k].size then some ⟨files.take k, files[k], files.drop (k + 1), n, by simp, hn⟩ else none
  else none

/-- What the crash leaves of the directory. -/
def left (c : CrashPoint files) (disk : Disk) : Disk := c.file.put (c.done.foldl FileWrite.putAll disk) c.bytes

/-- The manifest has been written to its end. -/
def Completed (c : CrashPoint files) : Prop := ∃ text, c.file = .manifest text ∧ c.bytes = text.length

end CrashPoint

/-! ## What is to hold at a crash point -/

/-- The segment files that a directory's manifest names. -/
def Disk.namedFiles (disk : Disk) : List Text :=
  match loadManifest disk.manifestPath disk.manifest with
  | .error _ => []
  | .ok manifest => manifest.segmentFiles

/-- The rows that the committed writes of a log leave. -/
def committedRows (records : List WalRecord) : List Row :=
  (Keyed.applyAll [] ((committedWrites records).map WalRecord.effect)).map (·.2)

namespace Session

/-- The next open of `disk` reports no error and finds what `s` has committed. -/
def Recovers (s : Session) (userSchema : Schema) (disk : Disk) : Prop :=
  (Database.openOn disk userSchema).recoveryStats.error = "" ∧
    ∃ rows, (Database.openOn disk userSchema).table.newReaderRows = some rows ∧
      rows.Perm (committedRows (recordsFrom 1 s.log))

/-- The checkpoint is atomic at `c`: the next open reports no error and finds what had
been committed, and no part of the manifest is taken for all of it. -/
structure CrashAtomic (s : Session) (userSchema : Schema) {files : List FileWrite} (c : CrashPoint files) : Prop where
  recovers : s.Recovers userSchema (c.left s.db.disk)
  rejects : ∀ text, c.file = .manifest text → c.bytes < text.length →
    ∀ m, loadManifest s.db.disk.manifestPath (some (text.take c.bytes)) ≠ .ok m

/-- Where a crash does no harm: in a segment file that the manifest in the directory does
not name, and in the first two characters of the manifest; or at the end of a file. -/
def Harmless (s : Session) {files : List FileWrite} (c : CrashPoint files) : Prop :=
  match c.file with
  | .segment name bytes => name ∉ s.db.disk.namedFiles ∨ c.bytes = bytes.length
  | .manifest text => c.bytes ≤ 2 ∨ c.bytes = text.length

end Session

/-! ## What the directory of a session holds -/

theorem World.Step.nextSegmentId_eq {w w' : World} {op : Op} (hop : ∀ d, op ≠ .compact d) (hs : Step w op w') :
    w'.table.nextSegmentId = w.table.nextSegmentId := by
  cases hs with
  | compact during w1 t hfits hran ht => exact absurd rfl (hop during)
  | _ => rfl

/-- The file of a saved segment. -/
theorem saveSegments_self : ∀ {segs : List Segment} {files files' : Text → Option Bytes},
    saveSegments segs files = some files' → (segs.map (·.segmentId)).Nodup →
    ∀ seg ∈ segs, ∃ bs, seg.save = some bs ∧ files' (segmentFileName seg.segmentId) = some bs := by
  intro segs
  induction segs with
  | nil => intro files files' _ _ seg hseg; cases hseg
  | cons seg segs ih =>
    intro files files' h hids
    obtain ⟨hid, hids⟩ := List.nodup_cons.mp hids
    unfold saveSegments at h
    split at h
    · cases h
    · next bs hbs =>
      intro seg' hseg'
      rcases List.mem_cons.mp hseg' with rfl | hseg'
      · refine ⟨bs, hbs, ?_⟩
        rw [saveSegments_other segs _ files' seg'.segmentId h hid, Function.update_self]
      · exact ih h hids seg' hseg'

namespace Session

/-- The last checkpoint is of the segments in the base, and none of them has an id that
`Compact` will give again. -/
structure OnDisk (s : Session) : Prop where
  fresh : ∀ seg ∈ s.db.table.baseSegments, seg.segmentId < s.db.table.nextSegmentId
  manifest : s.db.disk.manifest = none ∨ ∃ lsn, lsn < 2 ^ 64 ∧
    s.db.disk.manifest = some (manifestText lsn (s.db.table.baseSegments.map fun seg => segmentFileName seg.segmentId)) ∧
    ∀ seg ∈ s.db.table.baseSegments, ∃ bs, seg.save = some bs ∧
      s.db.disk.segments (segmentFileName seg.segmentId) = some bs

theorem onDisk_openOn (dataDir : String) (userSchema : Schema) : (openOn { dataDir } userSchema).OnDisk where
  fresh := by
    intro seg hseg
    cases hseg
  manifest := Or.inl rfl

theorem OnDisk.step {userSchema : Schema} {s s' : Session} {op : DbOp} (h : s.OnDisk) (hl : s.Live userSchema)
    (hl' : s'.Live userSchema) (hs : s.step op = some s') : s'.OnDisk := by
  by_cases hop : op = .checkpoint
  · subst hop
    have hone := hl'.one
    obtain ⟨t, files, ht, hfiles, -, -, hlsn, -, rfl⟩ := step_checkpoint hs
    refine ⟨?_, Or.inr ⟨_, ?_, rfl, saveSegments_self hfiles ?_⟩⟩
    · intro seg hseg
      rcases Table.compact_base ht with ⟨hbase, hnext⟩ | ⟨seg', hbase, hid, hnext⟩
      · have hmem : seg ∈ s.db.table.baseSegments := by rw [← hbase]; exact hseg
        show seg.segmentId < t.nextSegmentId
        rw [hnext]
        exact h.fresh seg hmem
      · obtain rfl : seg = seg' := by
          rw [show ({ s.db with table := t } : Database).table.baseSegments = [seg'] from hbase] at hseg
          exact List.mem_singleton.mp hseg
        show seg.segmentId < t.nextSegmentId
        omega
    · unfold WalWriter.lastLsn
      omega
    · exact nodup_segmentIds hone
  · have hstep := World.step_cases hl.good.toInv.active_id (step_world hl.idOk hs)
    have hno := onTable_ne_compact hop
    have hbase : s'.db.table.baseSegments = s.db.table.baseSegments := hstep.base_eq hno
    have hnext : s'.db.table.nextSegmentId = s.db.table.nextSegmentId := hstep.nextSegmentId_eq hno
    obtain ⟨-, -, -, hdisk⟩ := step_appended hs
    refine ⟨?_, ?_⟩
    · rw [hbase, hnext]
      exact h.fresh
    · rw [hbase, hdisk hop]
      exact h.manifest

theorem run_onDisk {dataDir : String} {userSchema : Schema} {ops : List DbOp} {s : Session}
    (hconf : ∀ op ∈ ops, op.onTable.conforms userSchema = true)
    (hclean : Runs.Along step Clean (openOn { dataDir } userSchema) ops)
    (hrun : Runs.run step (openOn { dataDir } userSchema) ops = some s) : s.OnDisk := by
  refine (Runs.run_invariant (Q := fun s op => op.onTable.conforms userSchema = true ∧ s.Clean op)
    (I := fun s => s.Live userSchema ∧ s.OnDisk) ?_
    ⟨live_openOn dataDir userSchema, onDisk_openOn dataDir userSchema⟩
    ((Runs.along_of_forall _ fun _ op hop => hconf op hop).and hclean) hrun).2
  rintro s op s' ⟨hl, h⟩ ⟨hconf, hclean⟩ hs
  have hl' := hl.step hconf hclean hs
  exact ⟨hl', h.step hl hl' hs⟩

section
variable {s : Session} (h : s.OnDisk)
include h

/-- The manifest names the files of the base. -/
theorem OnDisk.namedFiles_eq : s.db.disk.namedFiles = [] ∨
    s.db.disk.namedFiles = s.db.table.baseSegments.map fun seg => segmentFileName seg.segmentId := by
  unfold Disk.namedFiles
  rcases h.manifest with hnone | ⟨lsn, hlsn, hm, -⟩
  · rw [hnone]
    exact Or.inl rfl
  · rw [hm, loadManifest_write _ lsn hlsn]
    exact Or.inr rfl

/-- A file that the manifest names is rewritten as it was. -/
theorem OnDisk.rewritten {t : Table} {seg : Segment} {bs : Bytes} (ht : s.db.table.compact = some t)
    (hseg : seg ∈ t.baseSegments) (hsave : seg.save = some bs)
    (hnamed : segmentFileName seg.segmentId ∈ s.db.disk.namedFiles) :
    s.db.disk.segments (segmentFileName seg.segmentId) = some bs := by
  have hbase : segmentFileName seg.segmentId ∈ s.db.table.baseSegments.map fun seg => segmentFileName seg.segmentId := by
    rcases h.namedFiles_eq with hnil | hnames
    · rw [hnil] at hnamed
      cases hnamed
    · rw [← hnames]
      exact hnamed
  obtain ⟨seg', hseg', hname⟩ := List.mem_map.mp hbase
  have hid := segmentFileName_inj hname
  rcases Table.compact_base ht with ⟨hkept, -⟩ | ⟨new, hnew, hnext, -⟩
  · rcases h.manifest with hnone | ⟨lsn, -, -, hfiles⟩
    · unfold Disk.namedFiles at hnamed
      rw [hnone] at hnamed
      cases hnamed
    · rw [hkept] at hseg
      obtain ⟨bs', hsave', hfile⟩ := hfiles seg hseg
      rw [hsave] at hsave'
      rw [hfile, hsave']
  · -- a segment that `Compact` has made has an id of its own
    rw [hnew] at hseg
    obtain rfl := List.mem_singleton.mp hseg
    have := h.fresh seg' hseg'
    omega

end

/-! ## Recovery -/

theorem checkpoint_congr {disk disk' : Disk} (userSchema : Schema) (hdir : disk'.dataDir = disk.dataDir)
    (hmanifest : disk'.manifest = disk.manifest)
    (hfiles : ∀ name ∈ disk.namedFiles, disk'.segments name = disk.segments name) :
    disk'.checkpoint userSchema = disk.checkpoint userSchema := by
  have hpath : disk'.manifestPath = disk.manifestPath := by
    unfold Disk.manifestPath Disk.checkpointDir
    rw [hdir]
  have hckdir : disk'.checkpointDir = disk.checkpointDir := by
    unfold Disk.checkpointDir
    rw [hdir]
  unfold Disk.namedFiles at hfiles
  unfold Disk.checkpoint
  rw [hpath, hmanifest, hckdir]
  split
  · rfl
  · next m hm =>
    rw [hm] at hfiles
    rw [loadSegments_congr _ _ hfiles]

/-- A new reader of a live session finds what has been committed. -/
theorem Live.committedRows {userSchema : Schema} {s : Session} (h : s.Live userSchema) :
    ∃ rows, s.db.table.newReaderRows = some rows ∧ rows.Perm (CoreDB.committedRows (recordsFrom 1 s.log)) := by
  obtain ⟨⟨rows, rows', -, hrows', hperm, hview⟩, -⟩ := replay_log h.tracked (List.nil_append _).symm
    (fun x => (rfl : Keyed.find (basePairs (World.create userSchema).table.baseSegments) x = none))
    (World.start_create userSchema) (by intro t txn ht; cases ht) h.ids 1
  refine ⟨rows', hrows', hperm.symm.trans ?_⟩
  unfold CoreDB.committedRows
  rw [show committedWrites (recordsFrom 1 s.log) = _ from committedWrites_recordsFrom h.tracked]
  exact hview

section
variable {userSchema : Schema} {s : Session} {disk : Disk} (h : s.Live userSchema)
  (hread : (readAll disk.walBytes).records = recordsFrom 1 s.log)
include h hread

/-- Recovery from a checkpoint of the first part of the log. -/
theorem Live.recovers {old new : List Event} {segs : List Segment} (hlog : s.log = old ++ new)
    (hck : disk.checkpoint userSchema = .ok (old.length, segs)) (hstart : (World.load userSchema segs).Start)
    (hbase : ∀ x, Keyed.find (basePairs segs) x =
      final none (values ((old.filterMap (Event.writeTo x)).filter fun p => s.world.committed p.1)))
    (hids : IssuedIds (World.load userSchema segs).table.nextRowId (insertedIds new) s.db.table.nextRowId) :
    s.Recovers userSchema disk := by
  have hloads : disk.loads userSchema = true := by
    unfold Disk.loads
    rw [hck]
  refine ⟨Database.openOn_of_loads hloads, ?_⟩
  obtain ⟨rows, view, hrows, hview, hperm⟩ := recovered_view disk userSchema h.tracked hlog hread hck hstart hbase hids
  obtain ⟨view', hview', hcommitted⟩ := h.committedRows
  obtain rfl := Option.some.inj (hview.symm.trans hview')
  exact ⟨rows, hrows, hperm.trans hcommitted⟩

/-- Recovery from the whole log. -/
theorem Live.recovers_of_rejected (hm : ∀ m, loadManifest disk.manifestPath disk.manifest ≠ .ok m) :
    s.Recovers userSchema disk := by
  have hck : disk.checkpoint userSchema = .ok (0, []) := by
    unfold Disk.checkpoint
    split
    · rfl
    · next m hok => exact absurd hok (hm m)
  exact h.recovers hread (List.nil_append _).symm hck (World.start_create userSchema)
    (fun _ => rfl) h.ids

theorem Recoverable.recovers {old new : List Event} {segs : List Segment} (hr : s.Recoverable userSchema old new segs)
    (hck : disk.checkpoint userSchema = s.db.disk.checkpoint userSchema) : s.Recovers userSchema disk :=
  h.recovers hread hr.log (hck.trans hr.checkpoint) hr.start hr.base hr.ids

end

end Session

/-! ## Crash points -/

/-- A checkpoint of at most one segment is in its file or in the manifest. -/
theorem CrashPoint.file_cases {t : Table} {walLsn : Nat} {files : List FileWrite} (hone : t.baseSegments.length ≤ 1)
    (hfiles : checkpointFiles t walLsn = some files) (c : CrashPoint files) :
    (∃ seg bs, t.baseSegments = [seg] ∧ seg.save = some bs ∧ c.done = [] ∧
      c.file = .segment (segmentFileName seg.segmentId) bs) ∨
    segmentWrites t.baseSegments = some c.done ∧
      c.file = .manifest (manifestText walLsn (t.baseSegments.map fun seg => segmentFileName seg.segmentId)) := by
  obtain ⟨done, file, later, bytes, split, -⟩ := c
  unfold checkpointFiles at hfiles
  obtain ⟨writes, hwrites, rfl⟩ := Option.map_eq_some_iff.mp hfiles
  dsimp only
  match hbase : t.baseSegments, hone with
  | [], _ =>
    rw [hbase] at hwrites split
    cases hwrites
    cases done with
    | nil =>
      cases split
      exact Or.inr ⟨rfl, rfl⟩
    | cons a done =>
      cases done <;> cases split
  | [seg], _ =>
    rw [hbase, segmentWrites] at hwrites
    cases hsave : seg.save with
    | none =>
      rw [hsave] at hwrites
      cases hwrites
    | some bs =>
      rw [hsave] at hwrites
      cases hwrites
      rw [hbase] at split
      match done, split with
      | [], split =>
        cases split
        exact Or.inl ⟨seg, bs, rfl, hsave, rfl, rfl⟩
      | [a], split =>
        cases split
        refine Or.inr ⟨?_, rfl⟩
        rw [segmentWrites, hsave]
        rfl
      | a :: b :: done, split => simp at split

theorem loads_of_mem_names {dir : String} {schema : Schema} {files : Text → Option Bytes} {names : List Text} :
    ∀ {segs : List Segment}, loadSegments dir schema files names = .ok segs → ∀ name ∈ names,
      ∃ seg, Segment.loadFromFile (dir ++ "/" ++ String.ofList name) schema (files name) = .ok seg := by
  induction names with
  | nil => intro segs _ name hname; cases hname
  | cons name names ih =>
    intro segs h name' hname'
    obtain ⟨seg, hseg, h⟩ := bind_eq_ok.mp h
    obtain ⟨more, hmore, -⟩ := bind_eq_ok.mp h
    rcases List.mem_cons.mp hname' with rfl | hname'
    · exact ⟨seg, hseg⟩
    · exact ih hmore name' hname'

/-- Recovery without an error has loaded every file that the manifest names. -/
theorem Database.loads_named {disk : Disk} {userSchema : Schema}
    (h : (openOn disk userSchema).recoveryStats.error = "") : ∀ name ∈ disk.namedFiles,
      ∃ seg, Segment.loadFromFile (disk.checkpointDir ++ "/" ++ String.ofList name) (fullSchemaOf userSchema)
        (disk.segments name) = .ok seg := by
  intro name hname
  have hloads : disk.loads userSchema = true := by
    cases hl : disk.loads userSchema with
    | true => rfl
    | false => exact absurd h (openOn_of_not_loads hl).1
  unfold Disk.loads Disk.checkpoint at hloads
  unfold Disk.namedFiles at hname
  cases hm : loadManifest disk.manifestPath disk.manifest with
  | error e =>
    rw [hm] at hname
    cases hname
  | ok m =>
    rw [hm] at hname hloads
    cases hsegs : loadSegments disk.checkpointDir (fullSchemaOf userSchema) disk.segments m.segmentFiles with
    | error e =>
      simp only [hsegs] at hloads
      cases hloads
    | ok segs => exact loads_of_mem_names hsegs name hname

namespace Session

/-- What a checkpoint saves can be loaded. -/
theorem Live.saves {userSchema : Schema} {s s' : Session} (h : s.Live userSchema)
    (hs : s.step .checkpoint = some s') :
    ∀ seg ∈ s'.db.table.baseSegments, seg.WellFormed (fullSchemaOf userSchema) ∧ seg.fitsFile = true := by
  intro seg hseg
  have hgood := World.good_step h.good rfl (step_world h.idOk hs)
  obtain ⟨t, files, -, -, -, -, -, hfits, rfl⟩ := step_checkpoint hs
  have hwf := (hgood.sound.base seg hseg).wellFormed
  rw [hgood.schema_eq] at hwf
  exact ⟨hwf, hfits seg hseg⟩

section
variable {userSchema : Schema} {s s' : Session} {files : List FileWrite} (hl : s.Live userSchema)
  (hread : (readAll s.db.disk.walBytes).records = recordsFrom 1 s.log) (hs : s.step .checkpoint = some s')
  (c : CrashPoint files)
include hl hread hs

/-- A crash in the file of a segment. -/
theorem crashAtomic_segment_iff {seg : Segment} {bs : Bytes} {old new : List Event} {segs : List Segment}
    (hdisk : s.OnDisk) (hr : s.Recoverable userSchema old new segs) (hseg : seg ∈ s'.db.table.baseSegments)
    (hsave : seg.save = some bs) (hnone : c.done = [])
    (hfile : c.file = .segment (segmentFileName seg.segmentId) bs) :
    s.CrashAtomic userSchema c ↔ segmentFileName seg.segmentId ∉ s.db.disk.namedFiles ∨ c.bytes = bs.length := by
  have hleft : c.left s.db.disk = (FileWrite.segment (segmentFileName seg.segmentId) bs).put s.db.disk c.bytes := by
    unfold CrashPoint.left
    rw [hnone, hfile]
    rfl
  have hsize : c.bytes ≤ bs.length := by
    have hle := c.le_size
    rw [hfile] at hle
    exact hle
  constructor
  · intro hatomic
    refine Classical.byContradiction fun hbad => ?_
    obtain ⟨hnamed, hcut⟩ := not_or.mp hbad
    -- the cut file is one that recovery has to load
    obtain ⟨seg', hload⟩ := Database.loads_named hatomic.recovers.1 (segmentFileName seg.segmentId)
      (by rw [hleft]; exact not_not.mp hnamed)
    rw [hleft] at hload
    simp only [FileWrite.put, Function.update_self] at hload
    obtain ⟨hwf, hfits⟩ := hl.saves hs seg hseg
    exact Segment.load_take_save _ hwf hfits hsave (by omega) hload
  · intro hok
    refine ⟨hr.recovers hl (by rw [hleft]; exact hread) ?_, ?_⟩
    · rw [hleft]
      refine checkpoint_congr userSchema rfl rfl fun name hname => ?_
      by_cases heq : name = segmentFileName seg.segmentId
      · subst heq
        rcases hok with hnot | hall
        · exact absurd hname hnot
        · obtain ⟨t, files', ht, -, -, -, -, -, heq⟩ := step_checkpoint hs
          have hmem : seg ∈ t.baseSegments := by
            rw [heq] at hseg
            exact hseg
          simp only [FileWrite.put, Function.update_self, hall, List.take_length]
          exact (hdisk.rewritten ht hmem hsave hname).symm
      · exact Function.update_of_ne heq ..
    · intro text hm
      rw [hfile] at hm
      cases hm

/-- The checkpoint is complete. -/
theorem recovers_completed (hclean : s.Clean .checkpoint) : s.Recovers userSchema s'.db.disk := by
  have hl' := hl.step rfl hclean hs
  have hrec := recoverable_checkpoint hl hl' hclean hs
  obtain ⟨t, segments, -, -, -, -, -, -, heq⟩ := step_checkpoint hs
  have hread' : (readAll s'.db.disk.walBytes).records = recordsFrom 1 s'.log := by
    rw [heq]
    exact hread
  have hrecovers := hrec.recovers hl' hread' rfl
  unfold Recovers at hrecovers
  rw [show s'.log = s.log by rw [heq]] at hrecovers
  exact hrecovers

/-- A crash in the manifest. -/
theorem crashAtomic_manifest_iff (hdone : segmentWrites s'.db.table.baseSegments = some c.done)
    (hfile : c.file = .manifest (manifestText s.db.walWriter.lastLsn
      (s'.db.table.baseSegments.map fun seg => segmentFileName seg.segmentId)))
    (hclean : c.Completed → s.Clean .checkpoint) :
    s.CrashAtomic userSchema c ↔ c.bytes ≤ 2 ∨ c.bytes = c.file.size := by
  have hsize := c.le_size
  obtain ⟨t, segments, ht, hsaved, -, -, -, -, heq⟩ := step_checkpoint hs
  have htable : s'.db.table = t := by rw [heq]
  have hputs : c.done.foldl FileWrite.putAll s.db.disk = { s.db.disk with segments } := by
    have hsame := saveSegments_eq s'.db.table.baseSegments s.db.disk
    rw [hdone, htable, hsaved] at hsame
    exact (Option.some.inj hsame).symm
  have hleft : c.left s.db.disk = c.file.put { s.db.disk with segments } c.bytes := by
    unfold CrashPoint.left
    rw [hputs]
  rw [hfile] at hleft hsize ⊢
  have htake := loadManifest_take s.db.disk.manifestPath s.db.walWriter.lastLsn
    (s'.db.table.baseSegments.map fun seg => segmentFileName seg.segmentId) c.bytes
  constructor
  · intro hatomic
    refine Classical.byContradiction fun hbad => ?_
    obtain ⟨hlong, hcut⟩ := not_or.mp hbad
    obtain ⟨m, hm⟩ := htake.mpr (by omega)
    exact hatomic.rejects _ hfile (Nat.lt_of_le_of_ne hsize hcut) m hm
  · rintro (hshort | hall)
    · -- nothing is made of what there is of the manifest, and the whole log is replayed
      have hrejected : ∀ m, loadManifest s.db.disk.manifestPath (some ((manifestText s.db.walWriter.lastLsn
          (s'.db.table.baseSegments.map fun seg => segmentFileName seg.segmentId)).take c.bytes)) ≠ .ok m :=
        fun m hm => absurd (htake.mp ⟨m, hm⟩) (by omega)
      refine ⟨hl.recovers_of_rejected (by rw [hleft]; exact hread) (by rw [hleft]; exact hrejected), ?_⟩
      intro text htext _
      rw [hfile] at htext
      cases htext
      exact hrejected
    · have hdisk : c.left s.db.disk = s'.db.disk := by
        rw [hleft, hall, heq]
        simp [FileWrite.put, FileWrite.size]
      refine ⟨?_, fun text htext hlt => ?_⟩
      · rw [hdisk]
        exact recovers_completed hl hread hs (hclean ⟨_, hfile, hall⟩)
      · rw [hfile] at htext
        cases htext
        exact absurd hall (Nat.ne_of_lt hlt)

end

end Session

/-- **A checkpoint that crashes** is atomic at a crash point iff that is a harmless one, in
every run whose checkpoints are clean: those before it, and it too if its manifest was
written to the end. -/
theorem checkpoint_crash_atomic_iff {dataDir : String} {userSchema : Schema} {ops : List DbOp} {s s' : Session}
    {files : List FileWrite} (hconf : ∀ op ∈ ops, op.onTable.conforms userSchema = true)
    (hclean : Runs.Along Session.step Session.Clean (Session.openOn { dataDir } userSchema) ops)
    (hrun : Runs.run Session.step (Session.openOn { dataDir } userSchema) ops = some s)
    (hs : s.step .checkpoint = some s')
    (hfiles : checkpointWrites s.db.table s.db.walWriter.lastLsn = some files) (c : CrashPoint files)
    (hlast : c.Completed → s.Clean .checkpoint) : s.CrashAtomic userSchema c ↔ s.Harmless c := by
  obtain ⟨hl, old, new, segs, hr⟩ := Session.run_recoverable hconf hclean hrun
  have hdisk := Session.run_onDisk hconf hclean hrun
  have hread := readAll_fresh hrun
  obtain ⟨t, ht, hwrites⟩ := Option.bind_eq_some_iff.mp hfiles
  have htable : s'.db.table = t := by
    obtain ⟨t', files', ht', -, -, -, -, -, rfl⟩ := Session.step_checkpoint hs
    rw [ht] at ht'
    exact (Option.some.inj ht').symm
  subst htable
  unfold Session.Harmless
  rcases c.file_cases (Table.compact_length_le ht hl.one) hwrites with
    ⟨seg, bs, hbase, hsave, hnone, hfile⟩ | ⟨hdone, hfile⟩
  · rw [Session.crashAtomic_segment_iff hl hread hs c hdisk hr (by rw [hbase]; exact List.mem_singleton_self seg)
      hsave hnone hfile, hfile]
  · rw [Session.crashAtomic_manifest_iff hl hread hs c hdone hfile hlast, hfile]
    rfl

/-- The checkpoint of `s` can be cut off after `n` bytes of the file number `k`, with `p`. -/
def Session.crashCheck (s : Session) (k n : Nat) (p : {files : List FileWrite} → CrashPoint files → Bool) : Bool :=
  (s.step .checkpoint).isSome &&
    (checkpointWrites s.db.table s.db.walWriter.lastLsn).any fun files => (CrashPoint.ofIndex files k n).any p

theorem Session.exists_crash {s : Session} {k n : Nat} {p : {files : List FileWrite} → CrashPoint files → Bool}
    (h : s.crashCheck k n p = true) : (∃ s', s.step .checkpoint = some s') ∧ ∃ files, ∃ c : CrashPoint files,
      checkpointWrites s.db.table s.db.walWriter.lastLsn = some files ∧ CrashPoint.ofIndex files k n = some c ∧
      p c = true := by
  unfold crashCheck at h
  rw [Bool.and_eq_true, Option.isSome_iff_exists] at h
  obtain ⟨hstep, h⟩ := h
  obtain ⟨files, hfiles, h⟩ := Runs.exists_of_any h
  obtain ⟨c, hc, hp⟩ := Runs.exists_of_any h
  exact ⟨hstep, files, c, hfiles, hc, hp⟩

/-- The file being written is a segment that the manifest does not name. -/
def Session.outsideManifest (s : Session) {files : List FileWrite} (c : CrashPoint files) : Bool :=
  match c.file with
  | .segment name _ => decide (name ∉ s.db.disk.namedFiles)
  | .manifest _ => false

/-- The checkpoint after `checkpointAndUpdate` writes a new segment file. -/
theorem checkpoint_crash_atomic_update : ∃ s files, ∃ c : CrashPoint files,
    Runs.run Session.step (Session.openOn { dataDir := "db" } oneColumn) checkpointAndUpdate = some s ∧
      checkpointWrites s.db.table s.db.walWriter.lastLsn = some files ∧ CrashPoint.ofIndex files 0 10 = some c ∧
      s.CrashAtomic oneColumn c := by
  obtain ⟨s, hrun, hcheck⟩ := Runs.exists_of_any
    (o := Runs.run Session.step (Session.openOn { dataDir := "db" } oneColumn) checkpointAndUpdate)
    (p := fun s => s.crashCheck 0 10 s.outsideManifest) (by decide +kernel)
  obtain ⟨⟨s', hs⟩, files, c, hfiles, hc, hout⟩ := Session.exists_crash hcheck
  have hclean : Runs.Along Session.step Session.Clean (Session.openOn { dataDir := "db" } oneColumn)
      checkpointAndUpdate :=
    Runs.along_of_check (q := Session.cleanCheck) Session.clean_of_check (by decide +kernel)
  unfold Session.outsideManifest at hout
  cases hfile : c.file with
  | manifest text =>
    rw [hfile] at hout
    cases hout
  | segment name bytes =>
    rw [hfile] at hout
    have hlast : c.Completed → s.Clean .checkpoint := by
      rintro ⟨text, htext, -⟩
      rw [hfile] at htext
      cases htext
    refine ⟨s, files, c, hrun, hfiles, hc,
      (checkpoint_crash_atomic_iff (by decide) hclean hrun hs hfiles c hlast).mpr ?_⟩
    unfold Session.Harmless
    rw [hfile]
    exact Or.inl (of_decide_eq_true hout)

/-- One row is inserted. -/
def oneInsert : List DbOp := [.txn .begin, .insert 1 [.int64 7#64], .txn (.commit 1)]

/-- **Two crashes.**  The first checkpoint is cut off behind the line `LSN 3`: recovery
takes this for a manifest without segments, and the row is gone.  The second one is cut
off as it opens the segment file, which the manifest of the first names. -/
theorem checkpoint_crash_not_atomic :
    (∀ op ∈ oneInsert, op.onTable.conforms oneColumn = true) ∧
    (∃ s files, ∃ c : CrashPoint files,
      Runs.run Session.step (Session.openOn { dataDir := "db" } oneColumn) oneInsert = some s ∧
        s.Clean .checkpoint ∧ (∃ s', s.step .checkpoint = some s') ∧
        checkpointWrites s.db.table s.db.walWriter.lastLsn = some files ∧ CrashPoint.ofIndex files 1 6 = some c ∧
        (c.left s.db.disk).manifest = some "LSN 3\n".toList ∧
        (Database.openOn (c.left s.db.disk) oneColumn).table.newReaderRows = some [] ∧
        committedRows (recordsFrom 1 s.log) = [[.int64 7#64]] ∧ ¬ s.CrashAtomic oneColumn c) ∧
    ∃ s files, ∃ c : CrashPoint files,
      Runs.run Session.step (Session.openOn { dataDir := "db" } oneColumn) (oneInsert ++ [.checkpoint]) = some s ∧
        s.Clean .checkpoint ∧ (∃ s', s.step .checkpoint = some s') ∧
        checkpointWrites s.db.table s.db.walWriter.lastLsn = some files ∧ CrashPoint.ofIndex files 0 0 = some c ∧
        (Database.openOn (c.left s.db.disk) oneColumn).recoveryStats.error ≠ "" ∧ ¬ s.CrashAtomic oneColumn c := by
  refine ⟨by decide, ?_, ?_⟩
  · obtain ⟨s, hrun, hcheck⟩ := Runs.exists_of_any
      (o := Runs.run Session.step (Session.openOn { dataDir := "db" } oneColumn) oneInsert)
      (p := fun s => s.cleanCheck .checkpoint && s.crashCheck 1 6 fun c => decide (
        (c.left s.db.disk).manifest = some "LSN 3\n".toList ∧
          (Database.openOn (c.left s.db.disk) oneColumn).table.newReaderRows = some [] ∧
          committedRows (recordsFrom 1 s.log) = [[.int64 7#64]])) (by decide +kernel)
    obtain ⟨hclean, hcheck⟩ := Bool.and_eq_true_iff.mp hcheck
    obtain ⟨hstep, files, c, hfiles, hc, hfound⟩ := Session.exists_crash hcheck
    obtain ⟨hmanifest, hrows, hcommitted⟩ := of_decide_eq_true hfound
    refine ⟨s, files, c, hrun, s.clean_of_check _ hclean, hstep, hfiles, hc, hmanifest, hrows, hcommitted, ?_⟩
    rintro ⟨⟨-, rows, hfound, hperm⟩, -⟩
    obtain rfl := Option.some.inj (hrows.symm.trans hfound)
    rw [hcommitted] at hperm
    cases hperm.length_eq
  · obtain ⟨s, hrun, hcheck⟩ := Runs.exists_of_any
      (o := Runs.run Session.step (Session.openOn { dataDir := "db" } oneColumn) (oneInsert ++ [.checkpoint]))
      (p := fun s => s.cleanCheck .checkpoint && s.crashCheck 0 0 fun c =>
        decide ((Database.openOn (c.left s.db.disk) oneColumn).recoveryStats.error ≠ "")) (by decide +kernel)
    obtain ⟨hclean, hcheck⟩ := Bool.and_eq_true_iff.mp hcheck
    obtain ⟨hstep, files, c, hfiles, hc, hfound⟩ := Session.exists_crash hcheck
    have herror := of_decide_eq_true hfound
    exact ⟨s, files, c, hrun, s.clean_of_check _ hclean, hstep, hfiles, hc, herror, fun h => herror h.recovers.1⟩

end CoreDB
