import CoreDB.Db.LogOrder
import CoreDB.Db.CrashRecovery
import CoreDB.Recovery.LegalReplay

/-!
# Recovery of a database that threads have shared

Threads call the table in one order and append their records in another.  The log is cut
off anywhere: it is then the log of the same run at the moment when the last of its whole
records was appended (`exists_run_of_records`).  At every moment the writes of the
transactions whose COMMIT is in the log can be made one after the other, row by row, in
the order of the log (`Inv.legalRecords`), so recovery makes them all again.
-/

namespace CoreDB

open VersionChain (final)

theorem writesTo_records (p : Nat → Bool) (x : Nat) (records : List WalRecord) :
    writesTo x (dataOf p records) = ((records.filterMap (WalRecord.writeTo x)).filter fun q => p q.1).map (·.2) := by
  unfold writesTo dataOf
  simp only [List.filter_filter]
  induction records with
  | nil => rfl
  | cons r records ih =>
    have hr : r.writeTo x = if r.type.isData && r.rowId == x then some (r.txnId, r.write) else none := rfl
    rw [List.filter_cons, List.filterMap_cons, hr]
    cases hd : r.type.isData with
    | false => simpa using ih
    | true => by_cases hx : r.rowId = x <;> by_cases hp : p r.txnId = true <;> simp [hx, hp, ih]

/-- The writes of transactions that see each other's writers only can be made one after
the other. -/
theorem World.Tracked.legal_of_closed {base : List (Nat × Row)} {w : World} (h : w.Tracked base) {C : Nat → Bool}
    (halive : ∀ t, C t = true → w.clients.alive t = true)
    (hclosed : ∀ t u, w.clients.Sees t u → C t = true → C u = true) (x : Nat) :
    Legal (Keyed.find base x) ((w.row x).hist.filter fun p => C p.1) := by
  have hlive : ((w.row x).hist.filter fun p => C p.1) =
      ((w.row x).liveHist w.clients).filter fun p => C p.1 := by
    unfold RowState.liveHist
    rw [List.filter_filter]
    apply List.filter_congr
    intro p _
    cases hp : C p.1 with
    | false => simp
    | true => simp [halive p.1 hp]
  rw [hlive]
  refine (h.grounded x).legal.of_prefix (Keyed.filter_prefix _ _ ((h.inv.rows x).seen.imp ?_))
  exact fun hsees hq => hclosed _ _ hsees hq

namespace Threads

/-- The COMMIT of the transaction is in the log. -/
def logged (s : Threads) (t : Nat) : Bool := (committedTxnIds s.records).contains t

theorem logged_iff {s : Threads} {t : Nat} : s.logged t = true ↔ t ∈ committedTxnIds s.records := by
  unfold logged
  exact List.contains_iff_mem

section
variable {s : Threads} (h : s.Inv)
include h

/-- What is logged has not been written by anyone whose call is in flight. -/
theorem Inv.hist_logged (x : Nat) : ((s.world.row x).hist.filter fun p => s.logged p.1) =
    (s.records.filterMap (WalRecord.writeTo x)).filter fun p => s.logged p.1 := by
  have hhist : (s.world.row x).hist = s.records.filterMap (WalRecord.writeTo x) ++ s.pending x := h.order x
  have hnone : ((s.pending x).filter fun p => s.logged p.1) = [] := by
    rw [List.filter_eq_nil_iff]
    intro p hp hlog
    obtain ⟨⟨t, call⟩, hmem, hw⟩ := List.mem_filterMap.mp hp
    have hcall := Keyed.find_of_mem h.keys hmem
    cases call with
    | append record =>
      simp only [DbCall.writeTo, WalRecord.writeTo] at hw
      split at hw
      · cases hw
        rw [logged_iff, (h.own t record hcall).1, h.committed t, h.not_committed hcall, hcall] at hlog
        simp at hlog
      · cases hw
    | commit => cases hw
    | abort => cases hw
  rw [hhist, List.filter_append, hnone, List.append_nil]

/-- **The logged writes can be made again**, in the order of the log. -/
theorem Inv.legalRecords : LegalRecords [] (dataOf s.logged s.records) where
  data := by
    intro op hop
    have hsel := (List.mem_filter.mp hop).2
    rw [Bool.and_eq_true] at hsel
    exact hsel.1
  legal := by
    intro x
    have hstate : ∀ t, s.logged t = true → ∃ txn, s.world.clients.handle t = some txn ∧ txn.state ≠ .aborted := by
      intro t ht
      rcases (h.committed t).mp (logged_iff.mp ht) with hc | hcall
      · obtain ⟨txn, hh, hcm⟩ := (World.committed_iff h.tracked.inv).mp hc
        exact ⟨txn, hh, by rw [hcm]; simp⟩
      · obtain ⟨txn, hact⟩ := h.active t _ hcall
        obtain ⟨hh, hst⟩ := Clients.active_eq_some.mp hact
        exact ⟨txn, hh, by rw [hst]; simp⟩
    have hl := h.tracked.legal_of_closed (C := s.logged) (fun t ht => by
      obtain ⟨txn, hh, hst⟩ := hstate t ht
      exact h.tracked.inv.alive_of_state hh hst) (fun t u hsees ht => by
      -- a transaction sees itself and what had committed
      obtain ⟨txn, hh, hs⟩ := hsees
      rcases (h.tracked.inv.clients.sees_iff txn u).mp hs with heq | ⟨v, hv, hcm, -⟩
      · rw [heq, (h.tracked.inv.clients.id t txn hh).1]
        exact ht
      · exact logged_iff.mpr ((h.committed u).mpr (Or.inl ((World.committed_iff h.tracked.inv).mpr ⟨v, hv, hcm⟩)))) x
    rw [h.hist_logged] at hl
    rw [writesTo_records]
    exact hl

/-- With no call in flight, a new reader finds what the log has. -/
theorem Inv.scan (hidle : s.calls = []) : ∃ rows, s.db.table.newReaderRows = some rows ∧
    rows.Perm ((Keyed.applyAll [] ((dataOf s.logged s.records).map WalRecord.effect)).map (·.2)) := by
  refine h.tracked.scan (Keyed.keys_applyAll_nodup _ List.nodup_nil) fun x => ?_
  refine find_effects [] _ ?_
  rw [writesTo_records, ← h.hist_logged]
  congr 1
  apply List.filter_congr
  intro p _
  rw [Bool.eq_iff_iff, logged_iff, h.committed, hidle]
  simp

end

/-! ## The file -/

structure Filed (s : Threads) : Prop where
  wal : s.db.disk.walBytes = logOf s.records
  writable : ∀ r ∈ s.records, r.writable = true
  stored : ∀ r ∈ s.records, r.stored = r
  lsn : ∀ r ∈ s.records, 0 < r.lsn
  next : 0 < s.db.walWriter.nextLsn
  manifest : s.db.disk.manifest = none

theorem stored_of_lsn {record : WalRecord} (h : record.stored = record) (n : Nat) :
    WalRecord.stored { record with lsn := n } = { record with lsn := n } := by
  have hlsn : WalRecord.stored { record with lsn := n } = { record.stored with lsn := n } := by
    obtain ⟨lsn, txnId, type, rowId, row⟩ := record
    cases type <;> rfl
  rw [hlsn, h]

theorem Filed.appended {s s' : Threads} {record r : WalRecord} (h : s.Filed) (happ : Appended s s' record r)
    (hstored : record.stored = record) : s'.Filed where
  wal := by
    show s'.db.disk.wal.getD [] = _
    rw [happ.disk, happ.records, logOf_append, ← h.wal]
    simp [logOf]
  writable := by
    rw [happ.records]
    intro q hq
    rcases List.mem_append.mp hq with hq | hq
    · exact h.writable q hq
    · rw [List.mem_singleton.mp hq]
      exact happ.writable
  stored := by
    rw [happ.records]
    intro q hq
    rcases List.mem_append.mp hq with hq | hq
    · exact h.stored q hq
    · rw [List.mem_singleton.mp hq, happ.record]
      exact stored_of_lsn hstored _
  lsn := by
    rw [happ.records]
    intro q hq
    rcases List.mem_append.mp hq with hq | hq
    · exact h.lsn q hq
    · rw [List.mem_singleton.mp hq, happ.record]
      exact h.next
  next := by rw [happ.nextLsn]; omega
  manifest := by rw [happ.disk]; exact h.manifest

/-- A turn appends one record, or none. -/
theorem step_records {s s' : Threads} {turn : Turn} (hs : s.step turn = some s') :
    s'.records = s.records ∨ ∃ r, s'.records = s.records ++ [r] := by
  cases step_cases hs with
  | append t record s1 hcall hran =>
    obtain ⟨r, happ⟩ := appendRecord_cases hran
    exact Or.inr ⟨r, happ.records⟩
  | announce t txn type call s1 hfree hhow hran =>
    obtain ⟨r, happ⟩ := appendRecord_cases hran
    exact Or.inr ⟨r, happ.records⟩
  | _ => exact Or.inl rfl

theorem Filed.step {s s' : Threads} {turn : Turn} (h : s.Filed) (hinv : s.Inv) (hs : s.step turn = some s') :
    s'.Filed := by
  cases step_cases hs with
  | append t record s1 hcall hran =>
    obtain ⟨r, happ⟩ := appendRecord_cases hran
    obtain ⟨h1, h2, h3, h4, h5, h6⟩ := h.appended happ (hinv.own t record hcall).2.1
    exact ⟨h1, h2, h3, h4, h5, h6⟩
  | announce t txn type call s1 hfree hhow hran =>
    obtain ⟨r, happ⟩ := appendRecord_cases hran
    obtain ⟨h1, h2, h3, h4, h5, h6⟩ := h.appended happ (by rcases hhow with ⟨rfl, -⟩ | ⟨rfl, -⟩ <;> rfl)
    exact ⟨h1, h2, h3, h4, h5, h6⟩
  | _ => exact ⟨h.wal, h.writable, h.stored, h.lsn, h.next, h.manifest⟩

/-- **The first part of a log** is the log at an earlier moment. -/
theorem exists_run_of_records {s0 : Threads} {turns : List Turn} {L : List WalRecord} : ∀ {s : Threads},
    Runs.run step s0 turns = some s → s0.records <+: L → L <+: s.records →
    ∃ turns' s', turns' <+: turns ∧ Runs.run step s0 turns' = some s' ∧ s'.records = L := by
  induction turns using List.reverseRecOn with
  | nil =>
    intro s hrun h0 hL
    cases hrun
    exact ⟨[], s0, List.nil_prefix, rfl, h0.eq_of_length_le hL.length_le⟩
  | append_singleton turns turn ih =>
    intro s hrun h0 hL
    obtain ⟨s1, hrun1, hlast⟩ := Runs.run_append_eq_some.mp hrun
    obtain ⟨s2, hstep, heq⟩ := Runs.run_cons_eq_some.mp hlast
    cases heq
    have hshort : L <+: s1.records ∨ L = s.records := by
      rcases step_records hstep with hsame | ⟨r, happ⟩
      · rw [hsame] at hL
        exact Or.inl hL
      · rw [happ] at hL ⊢
        exact (List.prefix_concat_iff.mp hL).symm
    rcases hshort with hL | rfl
    · obtain ⟨turns', s', hturns, hrun', hrec⟩ := ih hrun1 h0 hL
      exact ⟨turns', s', hturns.trans (List.prefix_append _ _), hrun', hrec⟩
    · exact ⟨_, s, List.prefix_rfl, hrun, rfl⟩

theorem filed_openOn (dataDir : String) (userSchema : Schema) (mode : DurabilityMode) :
    (openOn { dataDir } userSchema mode).Filed where
  wal := rfl
  writable := by simp [openOn]
  stored := by simp [openOn]
  lsn := by simp [openOn]
  next := Nat.succ_pos _
  manifest := rfl

section
variable {dataDir : String} {userSchema : Schema} {mode : DurabilityMode} {turns : List Turn} {s : Threads}
  (hrun : Runs.run step (openOn { dataDir } userSchema mode) turns = some s)
include hrun

theorem filed_run : s.Filed :=
  (Runs.run_invariant (I := fun s => s.Inv ∧ s.Filed) (Q := fun _ _ => True)
    (fun _ _ _ h _ hs => ⟨h.1.step hs, h.2.step h.1 hs⟩)
    ⟨inv_openOn dataDir userSchema mode, filed_openOn dataDir userSchema mode⟩
    (Runs.along_of_forall _ fun _ _ _ => trivial) hrun).2

/-- What recovery replays of a cut log. -/
theorem replayed_cut (n : Nat) :
    (s.db.disk.cut n).replayed userSchema = committedWrites (survivors s.records n) := by
  have hf := filed_run hrun
  have hck : (s.db.disk.cut n).checkpoint userSchema = .ok (0, []) :=
    Session.checkpoint_of_no_manifest userSchema hf.manifest
  have hread : (readAll (s.db.disk.cut n).walBytes).records = survivors s.records n := by
    show (readAll (s.db.disk.walBytes.take n)).records = _
    rw [hf.wal, readAll_take _ hf.writable]
    exact (List.map_congr_left fun r hr => hf.stored r ((isPrefix_survivors s.records n).subset hr)).trans (List.map_id _)
  rw [Disk.replayed_of_checkpoint hck, hread, committedWrites_eq, redoOps]
  apply List.filter_congr
  intro r hr
  have hlsn := hf.lsn r ((isPrefix_survivors s.records n).subset hr)
  simp [hlsn]

/-- The run at the moment whose log survived. -/
theorem exists_moment (n : Nat) : ∃ turns' s', turns' <+: turns ∧
    Runs.run step (openOn { dataDir } userSchema mode) turns' = some s' ∧ s'.records = survivors s.records n :=
  exists_run_of_records hrun List.nil_prefix (isPrefix_survivors s.records n)

end

end Threads

open Threads in
/-- **Crash recovery of a shared database.**  However the threads' calls interleaved and
wherever the log was cut off, a new reader of the recovered database finds the rows that
the writes of the surviving COMMITs leave, in the order of the log; no replayed call fails;
and if all of the log survives and no call was in flight, this is what a new reader found
before. -/
theorem concurrent_crash_recovery {dataDir : String} {userSchema : Schema} {mode : DurabilityMode}
    {turns : List Turn} {s : Threads}
    (hrun : Runs.run Threads.step (Threads.openOn { dataDir } userSchema mode) turns = some s) (n : Nat) :
    (∃ rows, (Database.openOn (s.db.disk.cut n) userSchema).table.newReaderRows = some rows ∧
      rows.Perm ((Keyed.applyAll [] ((committedWrites (survivors s.records n)).map WalRecord.effect)).map (·.2)) ∧
      (s.calls = [] → s.db.disk.walBytes.length ≤ n → ∃ rows', s.db.table.newReaderRows = some rows' ∧ rows.Perm rows')) ∧
    ∀ pre op post, (s.db.disk.cut n).replayed userSchema = pre ++ op :: post →
      (pre.foldl Table.applyOp { userSchema }).opSucceeds op = true := by
  obtain ⟨turns', s', -, hrun', hrec⟩ := exists_moment hrun n
  have hck : (s.db.disk.cut n).checkpoint userSchema = .ok (0, []) :=
    Session.checkpoint_of_no_manifest userSchema (filed_run hrun).manifest
  have hwrites : committedWrites (survivors s.records n) = dataOf s'.logged s'.records := by
    rw [← hrec, committedWrites_eq]
    rfl
  have hlegal : LegalRecords (basePairs ({ userSchema } : Table).baseSegments) (committedWrites (survivors s.records n)) := by
    rw [hwrites]
    exact (inv_run hrun').legalRecords
  obtain ⟨⟨rows, hrows, hperm⟩, hok⟩ := replay_of_legal (t := { userSchema }) rfl rfl (by simp) List.nodup_nil hlegal
  refine ⟨⟨rows, ?_, hperm, fun hidle hall => ?_⟩, ?_⟩
  · rw [(Database.openOn_of_checkpoint hck).1, replayed_cut hrun]
    exact hrows
  · obtain ⟨rows', hrows', hperm'⟩ := (inv_run hrun).scan hidle
    refine ⟨rows', hrows', hperm.trans ?_⟩
    rw [survivors_all s.records n (by rw [← (filed_run hrun).wal]; exact hall), committedWrites_eq]
    exact hperm'.symm
  · rw [replayed_cut hrun]
    exact hok

/-- Two transactions insert a row each; the second one is ahead in the log. -/
def crossedTurns : List Turn :=
  [.begin, .begin, .append 2, .append 1, .insert 1 [.int64 7#64], .insert 2 [.int64 8#64], .append 2, .append 1,
    .commit 2, .commit 1, .resolve 1, .resolve 2]

/-- With the last byte of the log lost, the first one has not committed. -/
theorem concurrent_crash_recovery_crossed : ∃ s rows,
    Runs.run Threads.step (Threads.openOn { dataDir := "db" } oneColumn .syncEveryCommit) crossedTurns = some s ∧
      s.db.disk.walBytes.length = 192 ∧
      (Database.openOn (s.db.disk.cut 191) oneColumn).table.newReaderRows = some rows ∧ rows.Perm [[.int64 8#64]] := by
  obtain ⟨s, hrun, hcheck⟩ := Runs.exists_of_any
    (o := Runs.run Threads.step (Threads.openOn { dataDir := "db" } oneColumn .syncEveryCommit) crossedTurns)
    (p := fun s => decide (s.db.disk.walBytes.length = 192 ∧
      (Keyed.applyAll [] ((committedWrites (survivors s.records 191)).map WalRecord.effect)).map (·.2) =
        [[.int64 8#64]]))
    (by decide +kernel)
  obtain ⟨hlen, hkept⟩ := of_decide_eq_true hcheck
  obtain ⟨⟨rows, hrows, hperm, -⟩, -⟩ := concurrent_crash_recovery hrun 191
  rw [hkept] at hperm
  exact ⟨s, rows, hrun, hlen, hrows, hperm⟩

end CoreDB
