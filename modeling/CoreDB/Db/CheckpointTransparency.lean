import CoreDB.Db.CrashRecovery

/-!
# Checkpoints

A checkpoint is to be a shortcut: recovery from it and the log behind it finds what
recovery from the whole log finds.  It is one if the base that it saves is all that has
been committed.  Two things come between.  A version that an aborted transaction had
claimed stays in the delta and is not saved; and a base row whose tombstone is covered
by a newer version is saved although it has been replaced.

`Clean` excludes both, on the table before the checkpoint.  `Recoverable` is what a run
of clean checkpoints keeps: the directory holds a checkpoint of the first part `old` of
the log, with the rows that the committed writes of that part have left.
-/

namespace CoreDB

open VersionChain (final)

/-- `Compact` keeps the base, or leaves one segment with a new id. -/
theorem Table.compact_base {t t' : Table} (h : t.compact = some t') :
    (t'.baseSegments = t.baseSegments ∧ t'.nextSegmentId = t.nextSegmentId) ∨
      ∃ seg, t'.baseSegments = [seg] ∧ seg.segmentId = t.nextSegmentId ∧ t'.nextSegmentId = t.nextSegmentId + 1 := by
  rcases (compactUnder_cases rfl h).2 with ⟨-, hbase, hnext⟩ | ⟨-, rows, seg, -, hseg, hbase, hnext⟩
  · exact Or.inl ⟨hbase, hnext⟩
  · obtain ⟨columns, -, rfl⟩ := Option.map_eq_some_iff.mp hseg
    exact Or.inr ⟨_, hbase, rfl, hnext⟩

theorem Table.compact_length_le {t t' : Table} (h : t.compact = some t') (hone : t.baseSegments.length ≤ 1) :
    t'.baseSegments.length ≤ 1 := by
  rcases compact_base h with ⟨hkept, -⟩ | ⟨seg, hnew, -⟩
  · rw [hkept]
    exact hone
  · rw [hnew]
    exact Nat.le_refl 1

theorem nodup_segmentIds {segs : List Segment} (h : segs.length ≤ 1) : (segs.map (·.segmentId)).Nodup := by
  match segs, h with
  | [], _ => simp
  | [seg], _ => simp

theorem World.Inv.quiescent_of_count {w : World} (h : w.Inv) (hcount : w.table.txnMgr.activeTransactionCount = 0) :
    w.Quiescent := by
  intro t
  cases hact : w.clients.active t with
  | none => rfl
  | some txn =>
    have hmem : t ∈ w.table.txnMgr.activeTxnIds := (h.clients.activeIds t).mpr ⟨txn, Clients.active_eq_some.mp hact⟩
    rw [List.eq_nil_of_length_eq_zero hcount] at hmem
    cases hmem

theorem World.compacted_of_step {w w' : World} (h : w.Inv) (hsound : w.table.Sound)
    (hs : w.step (.compact []) = some w') : Compacted w w' := by
  cases step_cases h.active_id hs with
  | compact _ w1 t hfits hran ht => exact Step.compacted h hsound hfits hran ht
  | insert t x txn row hop => rcases hop with ⟨hop, -⟩ | hop <;> cases hop
  | write t x txn delta wr hop => rcases hop with ⟨row, hop, -⟩ | ⟨hop, -⟩ <;> cases hop
  | fail t x txn hop => rcases hop with ⟨row, hop⟩ | hop <;> cases hop

namespace Session

/-- A checkpoint finds no version that an aborted transaction had claimed, and no
tombstone of a committed claim that a newer version covers. -/
def Clean (s : Session) : DbOp → Prop
  | .checkpoint => (∀ a ∈ s.db.table.delta, s.world.stranded a = false) ∧
      ∀ x, ¬ RowState.Covered s.world.clients (s.world.row x)
  | _ => True

theorem Clean.safe {s : Session} {op : DbOp} (h : s.Clean op) : s.world.Safe op.onTable := by
  cases op with
  | checkpoint => exact h.2
  | _ => trivial

/-- What every clean run on a fresh directory keeps. -/
structure Live (userSchema : Schema) (s : Session) : Prop where
  idOk : s.IdOk
  good : s.world.Good userSchema
  tracked : s.world.Tracked []
  nextLsn : s.db.walWriter.nextLsn = s.log.length + 1
  one : s.db.table.baseSegments.length ≤ 1
  ids : IssuedIds 1 (insertedIds s.log) s.db.table.nextRowId

theorem live_openOn (dataDir : String) (userSchema : Schema) : (openOn { dataDir } userSchema).Live userSchema where
  idOk := (plain_openOn dataDir userSchema).idOk
  good := World.good_create userSchema
  tracked := (plain_openOn dataDir userSchema).tracked
  nextLsn := rfl
  one := Nat.zero_le 1
  ids := (plain_openOn dataDir userSchema).ids

theorem onTable_eq_compact {op : DbOp} {d : List (List TxnOp)} (h : op.onTable = .compact d) : d = [] := by
  cases op <;> cases h
  rfl

section
variable {userSchema : Schema} {s s' : Session} {op : DbOp} (h : s.Live userSchema)
  (hconf : op.onTable.conforms userSchema = true) (hclean : s.Clean op) (hs : s.step op = some s')
include h hs

theorem Live.issued : ∃ es, s'.log = s.log ++ es ∧ ∀ first ids, IssuedIds first ids s.db.table.nextRowId →
    IssuedIds first (ids ++ insertedIds es) s'.db.table.nextRowId :=
  World.issuedIds_step h.good.toInv (fun _ hd => ⟨h.good.sound, onTable_eq_compact hd⟩) (step_world h.idOk hs)

theorem Live.later : s.world.clients.Later s'.world.clients :=
  ((World.step_cases h.good.toInv.active_id (step_world h.idOk hs)).later h.good.toInv fun _ _ => h.good.sound).2

include hconf hclean

theorem Live.step : s'.Live userSchema := by
  have hw := step_world h.idOk hs
  have hgood := World.good_step h.good hconf hw
  obtain ⟨es, -, happ, -⟩ := step_appended hs
  refine ⟨(h.idOk.step hs).1, hgood, ⟨hgood.toInv, logOk_step h.good.toInv h.tracked.log hw, ?_, ?_, List.nodup_nil⟩,
    ?_, ?_, ?_⟩
  · exact World.grounded_step h.good.toInv (fun _ _ => h.good.sound) h.tracked.grounded hclean.safe hw
  · exact fun seg hseg => (hgood.sound.base seg hseg).readable
  · rw [happ.nextLsn, happ.log, h.nextLsn, List.length_append]
    omega
  · by_cases hop : op = .checkpoint
    · subst hop
      obtain ⟨t, files, ht, -, -, -, -, -, rfl⟩ := step_checkpoint hs
      exact Table.compact_length_le ht h.one
    · have hbase : s'.db.table.baseSegments = s.db.table.baseSegments :=
        (World.step_cases h.good.toInv.active_id hw).base_eq (onTable_ne_compact hop)
      rw [hbase]
      exact h.one
  · obtain ⟨es', hlog, hids⟩ := h.issued hs
    have hall : insertedIds s'.log = insertedIds s.log ++ insertedIds es' := by
      rw [hlog]
      exact List.filterMap_append
    rw [hall]
    exact hids 1 _ h.ids

end

/-! ## What a checkpoint covers -/

/-- The directory has a checkpoint of the first part of the log. -/
structure Recoverable (userSchema : Schema) (s : Session) (old new : List Event) (segs : List Segment) : Prop where
  log : s.log = old ++ new
  checkpoint : s.db.disk.checkpoint userSchema = .ok (old.length, segs)
  start : (World.load userSchema segs).Start
  base : ∀ x, Keyed.find (basePairs segs) x =
    final none (values ((old.filterMap (Event.writeTo x)).filter fun p => s.world.committed p.1))
  resolved : ∀ t x wr, Event.write t x wr ∈ old → ∃ txn, s.world.clients.handle t = some txn ∧ txn.state ≠ .active
  ids : IssuedIds (World.load userSchema segs).table.nextRowId (insertedIds new) s.db.table.nextRowId

theorem recoverable_openOn (dataDir : String) (userSchema : Schema) :
    (openOn { dataDir } userSchema).Recoverable userSchema [] [] [] where
  log := rfl
  checkpoint := checkpoint_of_no_manifest userSchema rfl
  start := World.start_create userSchema
  base := fun x => rfl
  resolved := by simp
  ids := issuedIds_nil (Nat.le_refl 1)

/-- A resolved transaction has committed for good, or not. -/
theorem committed_later {w w' : World} (h : w.Inv) (h' : w'.Inv) (hl : w.clients.Later w'.clients) {t : Nat}
    {txn : Transaction} (ht : w.clients.handle t = some txn) (hst : txn.state ≠ .active) :
    w'.clients.handle t = some txn ∧ w'.committed t = w.committed t := by
  obtain ⟨txn', ht', -, hsame⟩ := hl.handle t txn ht
  obtain rfl := hsame (Or.inl hst)
  refine ⟨ht', ?_⟩
  rw [Bool.eq_iff_iff, World.committed_iff h, World.committed_iff h', ht, ht']

/-- A call that is no checkpoint keeps what the checkpoint covers. -/
theorem Recoverable.step {userSchema : Schema} {s s' : Session} {op : DbOp} {old new : List Event}
    {segs : List Segment} (hr : s.Recoverable userSchema old new segs) (h : s.Live userSchema)
    (h' : s'.Live userSchema) (hop : op ≠ .checkpoint) (hs : s.step op = some s') :
    ∃ new', s'.Recoverable userSchema old new' segs := by
  obtain ⟨es, hlog, hids⟩ := h.issued hs
  obtain ⟨-, -, -, hfiles⟩ := step_appended hs
  have hlater := h.later hs
  refine ⟨new ++ es, by rw [hlog, hr.log, List.append_assoc], ?_, hr.start, fun x => ?_, ?_, ?_⟩
  · rw [hfiles hop]
    exact hr.checkpoint
  · rw [hr.base x]
    congr 2
    apply List.filter_congr
    intro p hp
    obtain ⟨txn, ht, hst⟩ := hr.resolved _ _ _ (mem_filterMap_writeTo hp)
    exact (committed_later h.good.toInv h'.good.toInv hlater ht hst).2.symm
  · intro t x wr hmem
    obtain ⟨txn, ht, hst⟩ := hr.resolved t x wr hmem
    exact ⟨txn, (committed_later h.good.toInv h'.good.toInv hlater ht hst).1, hst⟩
  · have hall : insertedIds (new ++ es) = insertedIds new ++ insertedIds es := List.filterMap_append
    rw [hall]
    exact hids _ _ hr.ids

/-- **A clean checkpoint** covers the whole log. -/
theorem recoverable_checkpoint {userSchema : Schema} {s s' : Session} (h : s.Live userSchema) (h' : s'.Live userSchema)
    (hclean : s.Clean .checkpoint) (hs : s.step .checkpoint = some s') :
    s'.Recoverable userSchema s'.log [] s'.db.table.baseSegments := by
  have hcomp := World.compacted_of_step h.good.toInv h.good.sound (step_world h.idOk hs)
  obtain ⟨t, files, ht, hfiles, hfits, hcount, hlsn, hsize, heq⟩ := step_checkpoint hs
  have htable : s'.db.table = t := by rw [heq]
  have hhandle : s'.world.clients.handle = s.world.clients.handle := by rw [heq]; rfl
  have hq : s.world.Quiescent := h.good.toInv.quiescent_of_count hcount
  have hbase := World.base_of_drained h.good.toInv hq hcomp h'.good.toInv h'.tracked hclean.1
  have hdistinct : (s'.db.table.baseSegments.flatMap Segment.rowIds).Nodup := by
    refine (World.unique_base_iff s'.world).mpr fun x => ?_
    rw [hbase x]
    cases final _ _ <;> simp
  refine ⟨(List.append_nil _).symm, ?_, ?_, fun x => ?_, ?_, ?_⟩
  · -- the files load as they were saved
    have hids : (t.baseSegments.map (·.segmentId)).Nodup := by
      rw [← htable]
      exact nodup_segmentIds h'.one
    have hsound : ∀ seg ∈ t.baseSegments, seg.WellFormed (fullSchemaOf userSchema) := by
      intro seg hseg
      rw [← htable] at hseg
      have hwf := (h'.good.sound.base seg hseg).wellFormed
      rwa [h'.good.schema_eq] at hwf
    obtain ⟨files', hfiles', hload⟩ := loadSegments_write s.db.disk.checkpointDir t.baseSegments s.db.disk.segments hids
      fun seg hseg => ⟨hsound seg hseg, hsize seg hseg⟩
    rw [hfiles] at hfiles'
    obtain rfl := Option.some.inj hfiles'
    have hlast : s.db.walWriter.lastLsn = s'.log.length := by
      rw [WalWriter.lastLsn, h.nextLsn, heq]
      rfl
    rw [htable, ← hlast, heq, Disk.checkpoint_of_manifest _ userSchema (by unfold WalWriter.lastLsn; omega) rfl]
    exact congrArg (Except.map _) hload
  · exact World.start_load userSchema _ hdistinct fun seg hseg => (h'.good.sound.base seg hseg).readable
  · exact Keyed.find_of_filter (hbase x)
  · intro u x wr hmem
    obtain ⟨txn, hu, -⟩ := h'.tracked.log.writer u x wr hmem
    refine ⟨txn, hu, fun hst => ?_⟩
    rw [hhandle] at hu
    have hact := Clients.active_eq_some.mpr ⟨hu, hst⟩
    rw [hq u] at hact
    cases hact
  · refine issuedIds_nil (foldl_raise_le _ h'.ids.le fun x hx => ?_)
    apply Classical.byContradiction
    intro hge
    have hempty := h'.good.fresh x (Nat.le_of_not_lt hge)
    have hne := (World.mem_base_iff s'.world x).mp hx
    rw [hempty] at hne
    exact hne rfl

/-- **Every clean run** leaves a directory that can be recovered. -/
theorem run_recoverable {dataDir : String} {userSchema : Schema} {ops : List DbOp} {s : Session}
    (hconf : ∀ op ∈ ops, op.onTable.conforms userSchema = true)
    (hclean : Runs.Along step Clean (openOn { dataDir } userSchema) ops)
    (hrun : Runs.run step (openOn { dataDir } userSchema) ops = some s) :
    s.Live userSchema ∧ ∃ old new segs, s.Recoverable userSchema old new segs := by
  refine Runs.run_invariant
    (Q := fun s op => op.onTable.conforms userSchema = true ∧ s.Clean op)
    (I := fun s => s.Live userSchema ∧ ∃ old new segs, s.Recoverable userSchema old new segs) ?_
    ⟨live_openOn dataDir userSchema, [], [], [], recoverable_openOn dataDir userSchema⟩
    ((Runs.along_of_forall _ fun _ op hop => hconf op hop).and hclean) hrun
  rintro s op s' ⟨h, old, new, segs, hr⟩ ⟨hconf, hclean⟩ hs
  have h' := h.step hconf hclean hs
  refine ⟨h', ?_⟩
  by_cases hop : op = .checkpoint
  · subst hop
    exact ⟨_, _, _, recoverable_checkpoint h h' hclean hs⟩
  · obtain ⟨new', hr'⟩ := hr.step h h' hop hs
    exact ⟨old, new', segs, hr'⟩

end Session

/-! ## Recovery with and without the manifest -/

/-- Recovery from a directory whose checkpoint covers the first part of the log. -/
theorem recovered_view (disk : Disk) (userSchema : Schema) {w : World} {old new : List Event} {segs : List Segment}
    {n : Nat} (h : w.Tracked []) (hlog : w.log = old ++ new)
    (hwal : (readAll disk.walBytes).records = recordsFrom 1 w.log)
    (hck : disk.checkpoint userSchema = .ok (old.length, segs)) (hstart : (World.load userSchema segs).Start)
    (hbase : ∀ x, Keyed.find (basePairs segs) x =
      final none (values ((old.filterMap (Event.writeTo x)).filter fun p => w.committed p.1)))
    (hids : IssuedIds (World.load userSchema segs).table.nextRowId (insertedIds new) n) :
    ∃ rows rows', (Database.openOn disk userSchema).table.newReaderRows = some rows ∧
      w.table.newReaderRows = some rows' ∧ rows.Perm rows' := by
  have hall : (World.load userSchema segs).AllCommitted := by
    intro t txn ht
    cases ht
  obtain ⟨⟨rows, rows', hrows, hrows', hperm, -⟩, -⟩ := replay_log h hlog
    (fun x => (hbase x : Keyed.find (basePairs (World.load userSchema segs).table.baseSegments) x = _)) hstart hall
    hids (old.length + 1)
  refine ⟨rows, rows', ?_, hrows', hperm⟩
  rw [(Database.openOn_of_checkpoint hck).1, Disk.replayed_of_checkpoint hck, hwal, redoOps_recordsFrom h hlog]
  exact hrows

/-- **A checkpoint is transparent** in every run whose checkpoints are clean: recovery
finds with it what it finds without it. -/
theorem clean_checkpoint_transparent {dataDir : String} {userSchema : Schema} {ops : List DbOp} {s : Session}
    (hconf : ∀ op ∈ ops, op.onTable.conforms userSchema = true)
    (hclean : Runs.Along Session.step Session.Clean (Session.openOn { dataDir } userSchema) ops)
    (hrun : Runs.run Session.step (Session.openOn { dataDir } userSchema) ops = some s) :
    ∃ rows rows', (Database.openOn s.db.disk userSchema).table.newReaderRows = some rows ∧
      (Database.openOn { s.db.disk with manifest := none } userSchema).table.newReaderRows = some rows' ∧
      rows.Perm rows' := by
  obtain ⟨hlive, old, new, segs, hr⟩ := Session.run_recoverable hconf hclean hrun
  have hread := readAll_fresh hrun
  obtain ⟨rows, view, hrows, hview, hperm⟩ := recovered_view s.db.disk userSchema hlive.tracked hr.log hread
    hr.checkpoint hr.start hr.base hr.ids
  obtain ⟨rows', view', hrows', hview', hperm'⟩ := recovered_view { s.db.disk with manifest := none } userSchema
    hlive.tracked (List.nil_append _).symm hread (Session.checkpoint_of_no_manifest userSchema rfl)
    (World.start_create userSchema) (fun _ => rfl) hlive.ids
  rw [hview] at hview'
  obtain rfl := Option.some.inj hview'
  exact ⟨rows, rows', hrows, hrows', hperm.trans hperm'.symm⟩

/-- A delta without tombstones and stranded versions is clean. -/
def Session.cleanCheck (s : Session) : DbOp → Bool
  | .checkpoint => s.db.table.delta.all fun a => !s.world.stranded a && !a.isBaseTombstone
  | _ => true

theorem Session.clean_of_check (s : Session) (op : DbOp) (h : s.cleanCheck op = true) : s.Clean op := by
  cases op with
  | checkpoint =>
    have hall : ∀ a ∈ s.db.table.delta, s.world.stranded a = false ∧ a.isBaseTombstone = false := by
      simpa [Session.cleanCheck] using h
    refine ⟨fun a ha => (hall a ha).1, ?_⟩
    rintro x ⟨older, a, newer, hrec, -, ht, -⟩
    have hmem : a ∈ (s.world.row x).records := by rw [hrec]; simp
    rw [(hall a (List.mem_of_mem_filter hmem)).2] at ht
    cases ht
  | _ => trivial

/-- A row is saved by a checkpoint, and updated after it. -/
def checkpointAndUpdate : List DbOp :=
  [.txn .begin, .insert 1 [.int64 7#64], .txn (.commit 1), .checkpoint, .txn .begin, .update 3 1 [.int64 8#64],
    .txn (.commit 3)]

theorem clean_checkpoint_transparent_update : ∃ s rows rows',
    Runs.run Session.step (Session.openOn { dataDir := "db" } oneColumn) checkpointAndUpdate = some s ∧
      (s.db.disk.replayed oneColumn).length = 1 ∧
      (Database.openOn s.db.disk oneColumn).table.newReaderRows = some rows ∧
      (Database.openOn { s.db.disk with manifest := none } oneColumn).table.newReaderRows = some rows' ∧
      rows.Perm rows' := by
  obtain ⟨s, hrun, hone⟩ := Runs.exists_of_any
    (o := Runs.run Session.step (Session.openOn { dataDir := "db" } oneColumn) checkpointAndUpdate)
    (p := fun s => decide ((s.db.disk.replayed oneColumn).length = 1)) (by decide +kernel)
  have hclean : Runs.Along Session.step Session.Clean (Session.openOn { dataDir := "db" } oneColumn)
      checkpointAndUpdate :=
    Runs.along_of_check (q := Session.cleanCheck) Session.clean_of_check (by decide +kernel)
  obtain ⟨rows, rows', hrows, hrows', hperm⟩ := clean_checkpoint_transparent (by decide) hclean hrun
  exact ⟨s, rows, rows', hrun, of_decide_eq_true hone, hrows, hrows', hperm⟩

/-- Transaction 3 updates the row, and aborts; then a checkpoint. -/
def abortAndCheckpoint : List DbOp :=
  [.txn .begin, .insert 1 [.int64 7#64], .txn (.commit 1), .txn .begin, .update 3 1 [.int64 8#64], .txn (.abort 3),
    .checkpoint]

/-- **The row is lost** with the checkpoint, and there without it. -/
theorem checkpoint_loses_row :
    (∀ op ∈ abortAndCheckpoint, op.onTable.conforms oneColumn = true) ∧
      ∃ s, Runs.run Session.step (Session.openOn { dataDir := "db" } oneColumn) abortAndCheckpoint = some s ∧
        (Database.openOn s.db.disk oneColumn).table.newReaderRows = some [] ∧
        (Database.openOn { s.db.disk with manifest := none } oneColumn).table.newReaderRows = some [[.int64 7#64]] := by
  refine ⟨by decide, ?_⟩
  obtain ⟨s, hrun, hrows⟩ := Runs.exists_of_any
    (o := Runs.run Session.step (Session.openOn { dataDir := "db" } oneColumn) abortAndCheckpoint)
    (p := fun s => decide ((Database.openOn s.db.disk oneColumn).table.newReaderRows = some [] ∧
      (Database.openOn { s.db.disk with manifest := none } oneColumn).table.newReaderRows = some [[.int64 7#64]]))
    (by decide +kernel)
  exact ⟨s, hrun, of_decide_eq_true hrows⟩

end CoreDB
