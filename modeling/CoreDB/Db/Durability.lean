import CoreDB.Db.ConcurrentRecovery

/-!
# What a crash keeps of a transaction

A transaction appends its records before its COMMIT and nothing after it, so of a log that
was cut off anywhere recovery brings back all the writes of a transaction, in the order in
which the transaction made them, or none (`recovery_all_or_nothing`).  What comes back is
also closed: whatever the snapshot of a recovered transaction had seen has come back too.

`Commit` appends its record before it calls the table.  If the log is synced at every
COMMIT, the disk has the COMMIT of a transaction by the time anybody can see its writes
(`visible_is_durable`).
-/

namespace CoreDB

namespace Threads

/-- What holds of a COMMIT in the log, with the records before and after it. -/
structure CommitAt (s : Threads) (pre : List WalRecord) (r : WalRecord) (post : List WalRecord) : Prop where
  synced : s.mode ≠ .noSync → (logOf (pre ++ [r])).length ≤ s.synced
  last : ∀ q ∈ post, q.txnId ≠ r.txnId
  saw : ∃ txn, s.world.clients.handle r.txnId = some txn ∧
    ∀ u, (s.db.table.txnMgr.getStatus u).committedBy txn.snapshotTs = true → u ∈ committedTxnIds pre

structure Durable (s : Threads) : Prop where
  le : s.synced ≤ (logOf s.records).length
  commits : ∀ pre r post, s.records = pre ++ r :: post → r.type = .commit → s.CommitAt pre r post
  all : s.mode = .syncEveryRecord → s.synced = (logOf s.records).length

theorem durable_openOn (dataDir : String) (userSchema : Schema) (mode : DurabilityMode) :
    (openOn { dataDir } userSchema mode).Durable where
  le := Nat.le_refl 0
  commits := by
    intro pre r post hsplit
    have hnil : (openOn { dataDir } userSchema mode).records = [] := rfl
    rw [hnil] at hsplit
    simp at hsplit
  all := fun _ => rfl

/-- The COMMITs so far stay as they are while the table moves on. -/
theorem CommitAt.later {s s' : Threads} {pre post post' : List WalRecord} {r : WalRecord} (h : s.CommitAt pre r post)
    (hinv : s.world.clients.Inv) (hinv' : s'.world.clients.Inv) (hlater : s.world.clients.Later s'.world.clients)
    (hmode : s'.mode = s.mode) (hsynced : s.synced ≤ s'.synced) (hpost : ∀ q ∈ post', q.txnId ≠ r.txnId) :
    s'.CommitAt pre r post' where
  synced := fun hm => Nat.le_trans (h.synced (by rw [← hmode]; exact hm)) hsynced
  last := hpost
  saw := by
    obtain ⟨txn, hh, hsaw⟩ := h.saw
    obtain ⟨txn', hh', hsnap, -⟩ := hlater.handle _ txn hh
    refine ⟨txn', hh', fun u hu => hsaw u ?_⟩
    rw [hsnap] at hu
    exact hlater.committedBy_old hinv hinv' (hinv.snap _ txn hh).2 hu

/-- The table moves on, and the log stays. -/
theorem Durable.later {s s' : Threads} (h : s.Durable) (hinv : s.world.clients.Inv) (hinv' : s'.world.clients.Inv)
    (hlater : s.world.clients.Later s'.world.clients) (hmode : s'.mode = s.mode) (hrec : s'.records = s.records)
    (hsynced : s'.synced = s.synced) : s'.Durable where
  le := by rw [hsynced, hrec]; exact h.le
  commits := by
    intro pre r post hsplit hty
    rw [hrec] at hsplit
    have hc := h.commits pre r post hsplit hty
    exact hc.later hinv hinv' hlater hmode (Nat.le_of_eq hsynced.symm) hc.last
  all := by rw [hmode, hsynced, hrec]; exact h.all

/-- One record more, of a transaction whose COMMIT is not in the log. -/
theorem Durable.appended {s s' : Threads} {record r : WalRecord} (h : s.Durable) (hinv : s.Inv) (hfiled : s.Filed)
    (happ : Appended s s' record r) (hnew : record.txnId ∉ committedTxnIds s.records)
    (hhandle : record.type = .commit → ∃ txn, s.world.clients.active record.txnId = some txn) : s'.Durable := by
  have hrecord : r.txnId = record.txnId ∧ r.type = record.type := by
    rw [happ.record]
    exact ⟨rfl, rfl⟩
  have hlen : (s.db.disk.walBytes ++ frame r).length = (logOf s'.records).length := by
    rw [happ.records, logOf_append, hfiled.wal]
    simp [logOf]
  have hgrow : (logOf s.records).length ≤ (logOf s'.records).length := by
    rw [happ.records, logOf_append, List.length_append]
    omega
  have hsynced : s.synced ≤ s'.synced := by
    have hle := h.le
    rw [happ.synced]
    split
    · rw [hlen]
      omega
    · exact Nat.le_refl _
  have hclients : s'.world.clients.Inv := by
    rw [happ.world]
    exact hinv.tracked.inv.clients
  refine ⟨?_, fun pre q post hsplit hty => ?_, fun hm => ?_⟩
  · have hle := h.le
    rw [happ.synced]
    split
    · exact Nat.le_of_eq hlen
    · omega
  · rw [happ.records] at hsplit
    rcases List.eq_nil_or_concat post with rfl | ⟨post', z, rfl⟩
    · obtain ⟨rfl, hlast⟩ := List.append_inj' hsplit rfl
      obtain rfl := List.singleton_inj.mp hlast
      refine ⟨fun hm => ?_, by simp, ?_⟩
      · have hsync : s.mode.shouldSync r.type = true := by
          rw [happ.mode] at hm
          unfold DurabilityMode.shouldSync
          rw [hty]
          cases hmode : s.mode with
          | noSync => exact absurd hmode hm
          | syncEveryCommit => rfl
          | syncEveryRecord => rfl
        rw [happ.synced, if_pos hsync, hlen, happ.records]
      · obtain ⟨txn, hact⟩ := hhandle (by rw [← hrecord.2]; exact hty)
        refine ⟨txn, ?_, fun u hu => ?_⟩
        · rw [happ.world, hrecord.1]
          exact (Clients.active_eq_some.mp hact).1
        · -- what the snapshot saw has committed, so its COMMIT is in the log
          refine (hinv.committed u).mpr (Or.inl ?_)
          have hmgr : s'.db.table.txnMgr = s.db.table.txnMgr := congrArg (fun w : World => w.table.txnMgr) happ.world
          rw [hmgr] at hu
          simp only [TxnStatus.committedBy, Bool.and_eq_true] at hu
          exact hu.1
    · rw [List.concat_eq_append, ← List.cons_append, ← List.append_assoc] at hsplit
      obtain ⟨hold, hlast⟩ := List.append_inj' hsplit rfl
      have hc := h.commits pre q post' hold hty
      refine hc.later hinv.tracked.inv.clients hclients ?_ happ.mode hsynced fun z' hz' => ?_
      · rw [happ.world]
        exact Clients.Later.refl _
      · rw [List.concat_eq_append] at hz'
        rcases List.mem_append.mp hz' with hz' | hz'
        · exact hc.last z' hz'
        · rw [List.mem_singleton.mp hz', ← List.singleton_inj.mp hlast, hrecord.1]
          rintro heq
          refine hnew (mem_committedTxnIds.mpr ⟨q, ?_, hty, heq.symm⟩)
          rw [hold]
          simp
  · have hsync : s.mode.shouldSync r.type = true := by
      rw [happ.mode] at hm
      simp [DurabilityMode.shouldSync, hm]
    rw [happ.synced, if_pos hsync, hlen]

/-- **Every turn** keeps it. -/
theorem Durable.step {s s' : Threads} {turn : Turn} (h : s.Durable) (hinv : s.Inv) (hfiled : s.Filed)
    (hs : s.step turn = some s') : s'.Durable := by
  have hclients := hinv.tracked.inv.clients
  have hclients' := (hinv.step hs).tracked.inv.clients
  cases step_cases hs with
  | begin w hran =>
    exact h.later hclients hclients' (World.txnRun_step hclients hran).later rfl rfl rfl
  | write op t x wr txn table record hop hfree hmgr hran hlogs =>
    refine h.later hclients hclients' ?_ rfl rfl rfl
    show s.world.clients.Later (Clients.mk table.txnMgr s.handle)
    rw [hmgr]
    exact Clients.Later.refl _
  | refuse => exact h
  | append t record s1 hcall hran =>
    obtain ⟨r, happ⟩ := appendRecord_cases hran
    obtain ⟨howner, -, hty⟩ := hinv.own t record hcall
    have hdone := h.appended hinv hfiled happ (by
      rw [howner, hinv.committed t, hinv.not_committed hcall, hcall]
      simp) fun hc => absurd hc hty
    exact hdone.later hclients' hclients' (Clients.Later.refl _) rfl rfl rfl
  | announce t txn type call s1 hfree hhow hran =>
    obtain ⟨r, happ⟩ := appendRecord_cases hran
    obtain ⟨hnone, hact⟩ := caller_eq_some.mp hfree
    have hdone := h.appended hinv hfiled happ (by
      show t ∉ committedTxnIds s.records
      rw [hinv.committed t, World.committed_iff hinv.tracked.inv, hnone, (Clients.active_eq_some.mp hact).1]
      simp [(Clients.active_eq_some.mp hact).2]) fun _ => ⟨txn, hact⟩
    exact hdone.later hclients' hclients' (Clients.Later.refl _) rfl rfl rfl
  | resolve t op call w hcall hhow hran =>
    exact h.later hclients hclients' (World.txnRun_step hclients hran).later rfl rfl rfl
  | flush =>
    refine ⟨Nat.le_of_eq (by rw [hfiled.wal]), fun pre r post hsplit hty => ?_, fun _ => by rw [hfiled.wal]⟩
    have hc := h.commits pre r post hsplit hty
    refine hc.later hclients hclients' (Clients.Later.refl _) rfl ?_ hc.last
    show s.synced ≤ s.db.disk.walBytes.length
    rw [hfiled.wal]
    exact h.le

section
variable {dataDir : String} {userSchema : Schema} {mode : DurabilityMode} {turns : List Turn} {s : Threads}
  (hrun : Runs.run step (openOn { dataDir } userSchema mode) turns = some s)
include hrun

theorem durable_run : s.Durable :=
  (Runs.run_invariant (I := fun s => s.Inv ∧ s.Filed ∧ s.Durable) (Q := fun _ _ => True)
    (fun _ _ _ h _ hs => ⟨h.1.step hs, h.2.1.step h.1 hs, h.2.2.step h.1 h.2.1 hs⟩)
    ⟨inv_openOn dataDir userSchema mode, filed_openOn dataDir userSchema mode, durable_openOn dataDir userSchema mode⟩
    (Runs.along_of_forall _ fun _ _ _ => trivial) hrun).2.2

theorem mode_run : s.mode = mode := by
  refine Runs.run_invariant (I := fun s => s.mode = mode) (Q := fun _ _ => True) (fun s turn s' h _ hs => ?_) rfl
    (Runs.along_of_forall _ fun _ _ _ => trivial) hrun
  cases step_cases hs with
  | append t record s1 hcall hran =>
    obtain ⟨r, happ⟩ := appendRecord_cases hran
    exact happ.mode.trans h
  | announce t txn type call s1 hfree hhow hran =>
    obtain ⟨r, happ⟩ := appendRecord_cases hran
    exact happ.mode.trans h
  | _ => exact h

end

/-! ## What recovery brings back -/

theorem filterMap_dataOf (p : Nat → Bool) (x : Nat) (records : List WalRecord) :
    (dataOf p records).filterMap (WalRecord.writeTo x) =
      (records.filterMap (WalRecord.writeTo x)).filter fun q => p q.1 := by
  unfold dataOf
  induction records with
  | nil => rfl
  | cons r records ih =>
    have hr : r.writeTo x = if r.type.isData && r.rowId == x then some (r.txnId, r.write) else none := rfl
    rw [List.filter_cons, List.filterMap_cons, hr]
    cases hd : r.type.isData with
    | false => simpa using ih
    | true => by_cases hx : r.rowId = x <;> by_cases hp : p r.txnId = true <;> simp [hr, hd, hx, hp, ih]

theorem writer_of_writeTo {x : Nat} {r : WalRecord} {p : Nat × Write} (h : r.writeTo x = some p) : p.1 = r.txnId := by
  unfold WalRecord.writeTo at h
  split at h
  · cases h
    rfl
  · cases h

/-- Records of others say nothing about the writes of `t`. -/
theorem filter_writer_of_others {t : Nat} {rs : List WalRecord} (h : ∀ q ∈ rs, q.txnId ≠ t) (x : Nat) :
    ((rs.filterMap (WalRecord.writeTo x)).filter fun p => p.1 == t) = [] := by
  rw [List.filter_eq_nil_iff]
  intro p hp hpt
  obtain ⟨q, hq, hw⟩ := List.mem_filterMap.mp hp
  exact h q hq ((writer_of_writeTo hw).symm.trans (by simpa using hpt))

/-- **The writes of a logged transaction** are all in the log, before its COMMIT. -/
theorem Inv.filter_logged {s : Threads} (h : s.Inv) {t : Nat} (ht : s.logged t = true) (x : Nat) :
    ((s.log.filterMap (Event.writeTo x)).filter fun p => p.1 == t) =
      (s.records.filterMap (WalRecord.writeTo x)).filter fun p => p.1 == t := by
  have hhist := h.hist_logged x
  have hrow : (s.world.row x).hist = s.log.filterMap (Event.writeTo x) := rfl
  have hsplit : ∀ l : List (Nat × Write), (l.filter fun p => p.1 == t) =
      (l.filter fun p => s.logged p.1).filter fun p => p.1 == t := by
    intro l
    rw [List.filter_filter]
    apply List.filter_congr
    intro p _
    by_cases hp : p.1 = t
    · rw [hp, ht]
      simp
    · simp [hp]
  rw [hsplit, ← hrow, hhist, ← hsplit]

end Threads

open Threads in
/-- **All of a transaction comes back, or nothing**, whatever the interleaving and wherever
the log was cut.  If its COMMIT survived, recovery replays the writes that the transaction
made to each row, in their order, and every transaction that its snapshot had seen comes
back as well. -/
theorem recovery_all_or_nothing {dataDir : String} {userSchema : Schema} {mode : DurabilityMode} {turns : List Turn}
    {s : Threads} (hrun : Runs.run Threads.step (Threads.openOn { dataDir } userSchema mode) turns = some s)
    (n t : Nat) :
    if t ∈ committedTxnIds (survivors s.records n) then
      (∀ x, ((((s.db.disk.cut n).replayed userSchema).filterMap (WalRecord.writeTo x)).filter fun p => p.1 == t) =
        (s.log.filterMap (Event.writeTo x)).filter fun p => p.1 == t) ∧
      ∃ txn, s.world.clients.handle t = some txn ∧ ∀ u, s.db.table.txnMgr.sees txn u = true →
        u ∈ committedTxnIds (survivors s.records n)
    else ∀ r ∈ (s.db.disk.cut n).replayed userSchema, r.txnId ≠ t := by
  rw [replayed_cut hrun]
  split
  · next ht =>
    obtain ⟨r, hr, hty, hid⟩ := mem_committedTxnIds.mp ht
    obtain ⟨pre, post, hsurv⟩ := List.append_of_mem hr
    obtain ⟨rest, hrest⟩ := isPrefix_survivors s.records n
    have hall : s.records = pre ++ r :: (post ++ rest) := by
      rw [← hrest, hsurv]
      simp
    have hcommit := (durable_run hrun).commits pre r _ hall hty
    refine ⟨fun x => ?_, ?_⟩
    · have hlogged : s.logged t = true := by
        rw [logged_iff, mem_committedTxnIds]
        exact ⟨r, by rw [hall]; simp, hty, hid⟩
      have hothers : ((rest.filterMap (WalRecord.writeTo x)).filter fun p => p.1 == t) = [] :=
        filter_writer_of_others (fun q hq => hid ▸ hcommit.last q (List.mem_append_right _ hq)) x
      have hkept : ((s.records.filterMap (WalRecord.writeTo x)).filter fun p => p.1 == t) =
          ((survivors s.records n).filterMap (WalRecord.writeTo x)).filter fun p => p.1 == t := by
        conv_lhs => rw [← hrest]
        rw [List.filterMap_append, List.filter_append, hothers, List.append_nil]
      rw [(inv_run hrun).filter_logged hlogged, hkept, committedWrites_eq]
      show ((dataOf (fun u => (committedTxnIds (survivors s.records n)).contains u) (survivors s.records n)).filterMap
        (WalRecord.writeTo x)).filter (fun p => p.1 == t) = _
      rw [filterMap_dataOf, List.filter_filter]
      apply List.filter_congr
      intro p _
      by_cases hp : p.1 = t
      · simp [hp, ht]
      · simp [hp]
    · obtain ⟨txn, hh, hsaw⟩ := hcommit.saw
      rw [hid] at hh
      refine ⟨txn, hh, fun u hu => ?_⟩
      unfold TransactionManager.sees at hu
      rcases Bool.or_eq_true_iff.mp hu with heq | hc
      · rw [(inv_run hrun).tracked.inv.clients.id t txn hh |>.1] at heq
        rw [eq_of_beq heq]
        exact ht
      · rw [hsurv]
        obtain ⟨q, hq, hqty, hqid⟩ := mem_committedTxnIds.mp (hsaw u hc)
        exact mem_committedTxnIds.mpr ⟨q, List.mem_append_left _ hq, hqty, hqid⟩
  · next ht =>
    intro r hr heq
    rw [mem_committedWrites, heq] at hr
    exact ht hr.2.2

/-- Of two transactions in flight together, the one whose COMMIT survived comes back. -/
theorem recovery_all_or_nothing_crossed : ∃ s,
    Runs.run Threads.step (Threads.openOn { dataDir := "db" } oneColumn .noSync) crossedTurns = some s ∧
      ((((s.db.disk.cut 191).replayed oneColumn).filterMap (WalRecord.writeTo 2)).filter fun p => p.1 == 2) =
        [(2, .insert [.int64 8#64])] ∧
      ∀ r ∈ (s.db.disk.cut 191).replayed oneColumn, r.txnId ≠ 1 := by
  obtain ⟨s, hrun, hcheck⟩ := Runs.exists_of_any
    (o := Runs.run Threads.step (Threads.openOn { dataDir := "db" } oneColumn .noSync) crossedTurns)
    (p := fun s => decide (2 ∈ committedTxnIds (survivors s.records 191) ∧
      1 ∉ committedTxnIds (survivors s.records 191) ∧
      ((s.log.filterMap (Event.writeTo 2)).filter fun p => p.1 == 2) = [(2, .insert [.int64 8#64])]))
    (by decide +kernel)
  obtain ⟨htwo, hone, hwrites⟩ := of_decide_eq_true hcheck
  have hback := recovery_all_or_nothing hrun 191 2
  have hlost := recovery_all_or_nothing hrun 191 1
  rw [if_pos htwo] at hback
  rw [if_neg hone] at hlost
  exact ⟨s, hrun, (hback.1 2).trans hwrites, hlost⟩

open Threads in
/-- **What can be seen is on the disk.**  With a log that is synced at every COMMIT, no loss
of power takes back a transaction that has committed in the table; with one that is synced
at every record, it takes back no record. -/
theorem visible_is_durable {dataDir : String} {userSchema : Schema} {mode : DurabilityMode} {turns : List Turn}
    {s : Threads} (hrun : Runs.run Threads.step (Threads.openOn { dataDir } userSchema mode) turns = some s)
    (hmode : mode ≠ .noSync) {n : Nat} (hn : s.synced ≤ n) :
    (∀ t, s.world.committed t = true → t ∈ committedTxnIds (survivors s.records n)) ∧
      (mode = .syncEveryRecord → survivors s.records n = s.records) := by
  have hd := durable_run hrun
  have hm := mode_run hrun
  refine ⟨fun t ht => ?_, fun hevery => ?_⟩
  · obtain ⟨r, hr, hty, hid⟩ := mem_committedTxnIds.mp (((inv_run hrun).committed t).mpr (Or.inl ht))
    obtain ⟨pre, post, hsplit⟩ := List.append_of_mem hr
    have hlen := (hd.commits pre r post hsplit hty).synced (by rw [hm]; exact hmode)
    have hpre : pre ++ [r] <+: survivors s.records n := by
      refine prefix_survivors ?_ (Nat.le_trans hlen hn)
      rw [hsplit]
      exact ⟨post, by simp⟩
    exact mem_committedTxnIds.mpr ⟨r, hpre.subset (by simp), hty, hid⟩
  · refine survivors_all _ _ ?_
    rw [← hd.all (by rw [hm]; exact hevery)]
    exact hn

/-- The first of two transactions has committed; the record of the second is not on the disk. -/
def halfSyncedTurns : List Turn :=
  [.begin, .begin, .append 2, .append 1, .insert 1 [.int64 7#64], .append 1, .commit 1, .resolve 1,
    .insert 2 [.int64 8#64], .append 2]

theorem visible_is_durable_halfSynced : ∃ s,
    Runs.run Threads.step (Threads.openOn { dataDir := "db" } oneColumn .syncEveryCommit) halfSyncedTurns = some s ∧
      s.synced < s.db.disk.walBytes.length ∧ s.world.committed 1 = true ∧
      1 ∈ committedTxnIds (survivors s.records s.synced) := by
  obtain ⟨s, hrun, hcheck⟩ := Runs.exists_of_any
    (o := Runs.run Threads.step (Threads.openOn { dataDir := "db" } oneColumn .syncEveryCommit) halfSyncedTurns)
    (p := fun s => decide (s.synced < s.db.disk.walBytes.length ∧ s.world.committed 1 = true))
    (by decide +kernel)
  obtain ⟨hlen, hcommitted⟩ := of_decide_eq_true hcheck
  exact ⟨s, hrun, hlen, hcommitted, (visible_is_durable hrun (by decide) (Nat.le_refl _)).1 1 hcommitted⟩

end CoreDB
