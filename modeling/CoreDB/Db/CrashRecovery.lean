import CoreDB.Db.SessionReplay

/-!
# Recovery after a crash

A session on a fresh directory, cut off anywhere: the log file ends inside a frame, or
between two.  The whole frames in it are those of the first part of the session's log
(`survivors`), and that part is the log of the same session at an earlier moment
(`exists_run_of_prefix`).  So recovery brings back what a new reader would have found
at that moment: the writes of the transactions whose COMMIT survived.
-/

namespace CoreDB

open ByteCodec

/-! ## Sessions on a fresh directory -/

namespace Session

theorem checkpoint_of_no_manifest {disk : Disk} (userSchema : Schema) (h : disk.manifest = none) :
    disk.checkpoint userSchema = .ok (0, []) := by
  unfold Disk.checkpoint
  rw [h]
  rfl

/-- What a new database starts from. -/
theorem openOn_fresh (dataDir : String) (userSchema : Schema) :
    (openOn { dataDir } userSchema).world = World.create userSchema ∧
      (openOn { dataDir } userSchema).db.walWriter.nextLsn = 1 := ⟨rfl, rfl⟩

/-- What a session without checkpoints keeps. -/
structure Plain (s : Session) : Prop where
  idOk : s.IdOk
  tracked : s.world.Tracked []
  ids : IssuedIds 1 (insertedIds s.log) s.db.table.nextRowId

theorem plain_openOn (dataDir : String) (userSchema : Schema) : (openOn { dataDir } userSchema).Plain where
  idOk := by simp [IdOk, openOn]
  tracked := by
    rw [(openOn_fresh dataDir userSchema).1]
    exact (World.start_create userSchema).tracked
  ids := issuedIds_nil (Nat.le_refl 1)

theorem onTable_ne_compact {op : DbOp} (h : op ≠ .checkpoint) (d : List (List TxnOp)) : op.onTable ≠ .compact d := by
  cases op <;> first | exact absurd rfl h | simp [DbOp.onTable]

theorem Plain.step {s s' : Session} {op : DbOp} (h : s.Plain) (hop : op ≠ .checkpoint) (hs : s.step op = some s') :
    s'.Plain := by
  have hw := step_world h.idOk hs
  have hno := onTable_ne_compact hop
  refine ⟨(h.idOk.step hs).1, h.tracked.step hno hw, ?_⟩
  obtain ⟨es, hlog, hids⟩ := World.issuedIds_step h.tracked.inv (fun d hd => absurd hd (hno d)) hw
  have hnew := hids 1 _ h.ids
  have hall : insertedIds s'.log = insertedIds s.log ++ insertedIds es := by
    rw [show s'.log = s.log ++ es from hlog]
    exact List.filterMap_append
  rw [hall]
  exact hnew

theorem run_plain {dataDir : String} {userSchema : Schema} {ops : List DbOp} {s : Session} (hno : .checkpoint ∉ ops)
    (hrun : Runs.run step (openOn { dataDir } userSchema) ops = some s) : s.Plain :=
  Runs.run_invariant (Q := fun _ op => op ≠ .checkpoint) (fun _ _ _ h hop hs => h.step hop hs)
    (plain_openOn dataDir userSchema) (Runs.along_of_forall _ fun _ op hop heq => hno (by rw [← heq]; exact hop)) hrun

/-- **The first part of a log** is the log at an earlier moment. -/
theorem exists_run_of_prefix {s0 : Session} {ops : List DbOp} {L : List Event} : ∀ {s : Session},
    Runs.run step s0 ops = some s → s0.log <+: L → L <+: s.log →
    ∃ ops' s', ops' <+: ops ∧ Runs.run step s0 ops' = some s' ∧ s'.log = L := by
  induction ops using List.reverseRecOn with
  | nil =>
    intro s hrun h0 hL
    cases hrun
    exact ⟨[], s0, List.nil_prefix, rfl, h0.eq_of_length_le hL.length_le⟩
  | append_singleton ops op ih =>
    intro s hrun h0 hL
    obtain ⟨s1, hrun1, hlast⟩ := Runs.run_append_eq_some.mp hrun
    obtain ⟨s2, hstep, heq⟩ := Runs.run_cons_eq_some.mp hlast
    cases heq
    obtain ⟨es, hfew, happ, -⟩ := step_appended hstep
    have hshort : L <+: s1.log ∨ L = s.log := by
      rw [happ.log] at hL ⊢
      match es, hfew with
      | [], _ =>
        rw [List.append_nil] at hL
        exact Or.inl hL
      | [e], _ => exact (List.prefix_concat_iff.mp hL).symm
    rcases hshort with hL | rfl
    · obtain ⟨ops', s', hops', hrun', hlog'⟩ := ih hrun1 h0 hL
      exact ⟨ops', s', hops'.trans (List.prefix_append _ _), hrun', hlog'⟩
    · exact ⟨_, s, List.prefix_rfl, hrun, rfl⟩

end Session

/-! ## The log that survives -/

theorem prefix_recordsFrom {es : List Event} : ∀ {lsn : Nat} {rs : List WalRecord}, rs <+: recordsFrom lsn es →
    ∃ L, L <+: es ∧ rs = recordsFrom lsn L := by
  induction es with
  | nil =>
    intro lsn rs h
    exact ⟨[], List.nil_prefix, List.prefix_nil.mp h⟩
  | cons e es ih =>
    intro lsn rs h
    cases rs with
    | nil => exact ⟨[], List.nil_prefix, rfl⟩
    | cons r rs =>
      rw [recordsFrom, List.cons_prefix_cons] at h
      obtain ⟨L, hL, rfl⟩ := ih h.2
      exact ⟨e :: L, List.cons_prefix_cons.mpr ⟨rfl, hL⟩, by rw [recordsFrom, h.1]⟩

/-- The directory with only the first `n` bytes of its log. -/
def Disk.cut (disk : Disk) (n : Nat) : Disk := { disk with wal := some (disk.walBytes.take n) }

section
variable {dataDir : String} {userSchema : Schema} {ops : List DbOp} {s : Session} (hno : .checkpoint ∉ ops)
  (hrun : Runs.run Session.step (Session.openOn { dataDir } userSchema) ops = some s)
include hno hrun

omit hno in
theorem walBytes_fresh : s.db.disk.walBytes = logOf (recordsFrom 1 s.log) ∧
    ∀ r ∈ recordsFrom 1 s.log, r.writable = true := by
  obtain ⟨es, happ, -⟩ := Session.run_appended hrun
  have hlog : s.log = es := happ.log
  have hwal := happ.wal
  have hwritable := happ.writable
  rw [(Session.openOn_fresh dataDir userSchema).2, ← hlog] at hwal hwritable
  exact ⟨hwal, hwritable⟩

omit hno in
/-- The log of a session reads back. -/
theorem readAll_fresh : (readAll s.db.disk.walBytes).records = recordsFrom 1 s.log := by
  obtain ⟨hwal, hwritable⟩ := walBytes_fresh hrun
  rw [hwal, readAll_logOf _ hwritable]
  exact stored_recordsFrom _ _

omit hno in
theorem readAll_cut (n : Nat) : (readAll (s.db.disk.cut n).walBytes).records = survivors (recordsFrom 1 s.log) n := by
  obtain ⟨hwal, hwritable⟩ := walBytes_fresh hrun
  show (readAll (s.db.disk.walBytes.take n)).records = _
  rw [hwal, readAll_take _ hwritable]
  obtain ⟨L, -, hL⟩ := prefix_recordsFrom (isPrefix_survivors (recordsFrom 1 s.log) n)
  rw [hL, stored_recordsFrom]

/-- The session at the moment whose log survived. -/
theorem exists_survivor (n : Nat) : ∃ s' : Session, s'.Plain ∧ survivors (recordsFrom 1 s.log) n = recordsFrom 1 s'.log ∧
    (s.db.disk.walBytes.length ≤ n → s'.db.table.newReaderRows = s.db.table.newReaderRows) := by
  by_cases hall : s.db.disk.walBytes.length ≤ n
  · refine ⟨s, Session.run_plain hno hrun, survivors_all _ _ ?_, fun _ => rfl⟩
    rw [← (walBytes_fresh hrun).1]
    exact hall
  · obtain ⟨L, hL, heq⟩ := prefix_recordsFrom (isPrefix_survivors (recordsFrom 1 s.log) n)
    obtain ⟨ops', s', hops', hrun', rfl⟩ := Session.exists_run_of_prefix hrun List.nil_prefix hL
    exact ⟨s', Session.run_plain (fun hmem => hno (hops'.subset hmem)) hrun', heq, fun h => absurd h hall⟩

end

/-- **Crash recovery of one session.**  Whatever survives of the log, a new reader of
the recovered database finds the rows that the writes of the surviving COMMITs leave,
in the order of the log; no replayed call fails; and if all of the log survives, this
is what a new reader found in the session. -/
theorem crash_recovery_refines_log {dataDir : String} {userSchema : Schema} {ops : List DbOp} {s : Session}
    (hno : .checkpoint ∉ ops)
    (hrun : Runs.run Session.step (Session.openOn { dataDir } userSchema) ops = some s) (n : Nat) :
    (∃ rows, (Database.openOn (s.db.disk.cut n) userSchema).table.newReaderRows = some rows ∧
      rows.Perm ((Keyed.applyAll [] ((committedWrites (survivors (recordsFrom 1 s.log) n)).map WalRecord.effect)).map (·.2)) ∧
      (s.db.disk.walBytes.length ≤ n → ∃ rows', s.db.table.newReaderRows = some rows' ∧ rows.Perm rows')) ∧
    ∀ pre op post, (s.db.disk.cut n).replayed userSchema = pre ++ op :: post →
      (pre.foldl Table.applyOp { userSchema }).opSucceeds op = true := by
  obtain ⟨s', hplain, hsurv, hsame⟩ := exists_survivor hno hrun n
  have hfiles : s.db.disk.manifest = none := by
    obtain ⟨es, -, hdisk⟩ := Session.run_appended hrun
    rw [hdisk hno]
    rfl
  have hck : (s.db.disk.cut n).checkpoint userSchema = .ok (0, []) := Session.checkpoint_of_no_manifest userSchema hfiles
  have hlog : s'.world.log = [] ++ s'.world.log := rfl
  have hredo : (s.db.disk.cut n).replayed userSchema = dataOf s'.world.committed (recordsFrom 1 s'.log) := by
    rw [Disk.replayed_of_checkpoint hck, readAll_cut hrun, hsurv]
    exact redoOps_recordsFrom hplain.tracked hlog
  have htable : (Database.openOn (s.db.disk.cut n) userSchema).table =
      (dataOf s'.world.committed (recordsFrom 1 s'.log)).foldl Table.applyOp (World.create userSchema).table := by
    rw [(Database.openOn_of_checkpoint hck).1, hredo]
    rfl
  have hstart : (World.create userSchema).Start := World.start_create userSchema
  obtain ⟨⟨rows, rows', hrows, hrows', hperm, hview⟩, hok⟩ := replay_log hplain.tracked hlog
    (fun x => (rfl : Keyed.find (basePairs (World.create userSchema).table.baseSegments) x = none)) hstart
    (by intro t txn ht; cases ht) hplain.ids 1
  refine ⟨⟨rows, by rw [htable]; exact hrows, ?_, fun hall => ⟨rows', ?_, hperm⟩⟩, ?_⟩
  · have hwrites : committedWrites (survivors (recordsFrom 1 s.log) n) =
        dataOf s'.world.committed (recordsFrom 1 s'.log) := by
      rw [hsurv]
      exact committedWrites_recordsFrom hplain.tracked
    rw [hwrites]
    exact hview
  · rw [← hsame hall]
    exact hrows'
  · rw [hredo]
    exact hok

/-- Two interleaved transactions; both commit. -/
def twoCommits : List DbOp :=
  [.txn .begin, .insert 1 [.int64 7#64], .txn .begin, .insert 2 [.int64 8#64], .update 1 1 [.int64 9#64],
    .txn (.commit 1), .txn (.commit 2)]

/-- With the last byte of the log lost, the second one has not committed. -/
theorem crash_recovery_twoCommits : ∃ s rows,
    Runs.run Session.step (Session.openOn { dataDir := "db" } oneColumn) twoCommits = some s ∧
      s.db.disk.walBytes.length = 238 ∧
      (Database.openOn (s.db.disk.cut 237) oneColumn).table.newReaderRows = some rows ∧ rows.Perm [[.int64 9#64]] := by
  obtain ⟨s, hrun, hcheck⟩ := Runs.exists_of_any
    (o := Runs.run Session.step (Session.openOn { dataDir := "db" } oneColumn) twoCommits)
    (p := fun s => decide (s.db.disk.walBytes.length = 238 ∧
      (Keyed.applyAll [] ((committedWrites (survivors (recordsFrom 1 s.log) 237)).map WalRecord.effect)).map (·.2) =
        [[.int64 9#64]]))
    (by decide +kernel)
  obtain ⟨hlen, hkept⟩ := of_decide_eq_true hcheck
  obtain ⟨⟨rows, hrows, hperm, -⟩, -⟩ := crash_recovery_refines_log (by decide) hrun 237
  rw [hkept] at hperm
  exact ⟨s, rows, hrun, hlen, hrows, hperm⟩

end CoreDB
