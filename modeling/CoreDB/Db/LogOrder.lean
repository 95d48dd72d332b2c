import CoreDB.Db.Threads

/-!
# The order of the records in the log

While a call is in flight, the table has its write and the log does not.  Nobody else can
write to that row in the meantime: the writer is active, and whoever writes to a row sees
all the writers before.  So in the log the records of one row are in the order in which
the table was called, and at most the last write to it is missing (`Inv.order`).  What has
committed in the table has its COMMIT in the log, and the COMMITs beyond that are those of
calls in flight (`Inv.committed`).

`inv_run`: this holds in every run.
-/

namespace CoreDB

/-- The write to row `x`, if the record is one. -/
def WalRecord.writeTo (x : Nat) (r : WalRecord) : Option (Nat × Write) :=
  if r.type.isData && r.rowId == x then some (r.txnId, r.write) else none

/-- The write to row `x` that the call has still to log. -/
def DbCall.writeTo (x : Nat) : DbCall → Option (Nat × Write)
  | .append record => record.writeTo x
  | _ => none

namespace Threads

/-- The writes to row `x` that are in the table and not in the log. -/
def pending (s : Threads) (x : Nat) : List (Nat × Write) := s.calls.filterMap fun p => p.2.writeTo x

structure Inv (s : Threads) : Prop where
  tracked : s.world.Tracked []
  keys : (Keyed.keys s.calls).Nodup
  active : ∀ t call, Keyed.find s.calls t = some call → ∃ txn, s.world.clients.active t = some txn
  own : ∀ t record, Keyed.find s.calls t = some (.append record) →
    record.txnId = t ∧ record.stored = record ∧ record.type ≠ .commit
  order : ∀ x, s.log.filterMap (Event.writeTo x) = s.records.filterMap (WalRecord.writeTo x) ++ s.pending x
  alone : ∀ x, (s.pending x).length ≤ 1
  committed : ∀ t, t ∈ committedTxnIds s.records ↔
    s.world.committed t = true ∨ Keyed.find s.calls t = some .commit

/-! ## Calls -/

theorem pending_enter {s : Threads} {t : Nat} (call : DbCall) (hfree : Keyed.find s.calls t = none) (x : Nat) :
    (s.enter t call).pending x = s.pending x ++ (call.writeTo x).toList :=
  Keyed.filterMap_put _ hfree

section
variable {s : Threads} {t x : Nat} {call : DbCall} (hcall : Keyed.find s.calls t = some call)
include hcall

/-- A call with nothing to log for row `x` returns. -/
theorem pending_leave_of_none (hkeys : (Keyed.keys s.calls).Nodup) (hnone : call.writeTo x = none) :
    (s.leave t).pending x = s.pending x :=
  Keyed.filterMap_erase_of_none _ hkeys hcall hnone

/-- A call that logs its write to row `x` was the only one with a write to it. -/
theorem pending_leave_of_some {p : Nat × Write} (hsome : call.writeTo x = some p) (halone : (s.pending x).length ≤ 1) :
    s.pending x = [p] ∧ (s.leave t).pending x = [] :=
  Keyed.filterMap_erase_of_some _ hcall hsome halone

end

/-! ## Records -/

/-- What `AppendRecord` does: `r` is the record with its LSN. -/
structure Appended (s s' : Threads) (record r : WalRecord) : Prop where
  record : r = { record with lsn := s.db.walWriter.nextLsn }
  writable : r.writable = true
  world : s'.world = s.world
  calls : s'.calls = s.calls
  mode : s'.mode = s.mode
  records : s'.records = s.records ++ [r]
  nextLsn : s'.db.walWriter.nextLsn = s.db.walWriter.nextLsn + 1
  disk : s'.db.disk = { s.db.disk with wal := some (s.db.disk.walBytes ++ frame r) }
  synced : s'.synced = if s.mode.shouldSync r.type then (s.db.disk.walBytes ++ frame r).length else s.synced

theorem appendRecord_cases {s s' : Threads} {record : WalRecord} (h : s.appendRecord record = some s') :
    ∃ r, Appended s s' record r := by
  simp only [appendRecord] at h
  split at h
  · next hw =>
    cases h
    exact ⟨_, rfl, hw, rfl, rfl, rfl, rfl, rfl, rfl, rfl⟩
  · cases h

theorem Appended.writeTo {s s' : Threads} {record r : WalRecord} (h : Appended s s' record r) (x : Nat) :
    r.writeTo x = record.writeTo x := by
  rw [h.record]
  rfl

theorem Appended.hist {s s' : Threads} {record r : WalRecord} (h : Appended s s' record r) (x : Nat) :
    s'.records.filterMap (WalRecord.writeTo x) =
      s.records.filterMap (WalRecord.writeTo x) ++ (record.writeTo x).toList := by
  rw [h.records, List.filterMap_append, ← h.writeTo x]
  cases hr : r.writeTo x <;> simp [hr]

theorem mem_committedTxnIds_concat {rs : List WalRecord} {r : WalRecord} {t : Nat} :
    t ∈ committedTxnIds (rs ++ [r]) ↔ t ∈ committedTxnIds rs ∨ (r.type = .commit ∧ r.txnId = t) := by
  simp only [mem_committedTxnIds, List.mem_append, List.mem_singleton]
  constructor
  · rintro ⟨q, hq | rfl, hty, hid⟩
    · exact Or.inl ⟨q, hq, hty, hid⟩
    · exact Or.inr ⟨hty, hid⟩
  · rintro (⟨q, hq, hty, hid⟩ | ⟨hty, hid⟩)
    · exact ⟨q, Or.inl hq, hty, hid⟩
    · exact ⟨r, Or.inr rfl, hty, hid⟩

theorem Logs.writeTo {record : WalRecord} {t x : Nat} {wr : Write} (h : Logs record t x wr) (y : Nat) :
    record.writeTo y = if x = y then some (t, wr) else none := by
  unfold WalRecord.writeTo
  rw [h.data, h.rowId, h.txnId, h.write]
  by_cases hy : x = y <;> simp [hy]

/-! ## A turn keeps the order -/

section
variable {s : Threads} (h : s.Inv)
include h

/-- A transaction that is in a call has not committed. -/
theorem Inv.not_committed {t : Nat} {call : DbCall} (hcall : Keyed.find s.calls t = some call) :
    s.world.committed t = false := by
  obtain ⟨txn, hact⟩ := h.active t call hcall
  obtain ⟨hh, hst⟩ := Clients.active_eq_some.mp hact
  cases hc : s.world.committed t with
  | false => rfl
  | true =>
    obtain ⟨u, hu, hcm⟩ := (World.committed_iff h.tracked.inv).mp hc
    rw [hh] at hu
    rw [← Option.some.inj hu, hst] at hcm
    cases hcm

theorem Inv.begin {w : World} (hran : s.world.txnStep .begin = some w) :
    Inv ((s.withWorld w).enter s.db.table.txnMgr.nextId
      (.append { txnId := s.db.table.txnMgr.nextId, type := .begin })) := by
  have hstep : s.world.step (.txn .begin) = some w := hran
  have htracked : w.Tracked [] := h.tracked.step (by simp) hstep
  have hrun := World.txnRun_step h.tracked.inv.clients hran
  have hnext : s.world.clients.handle s.db.table.txnMgr.nextId = none := h.tracked.inv.clients.handle_nextId
  have hfree : Keyed.find s.calls s.db.table.txnMgr.nextId = none := by
    cases hcall : Keyed.find s.calls s.db.table.txnMgr.nextId with
    | none => rfl
    | some call =>
      obtain ⟨txn, hact⟩ := h.active _ _ hcall
      rw [(Clients.active_eq_some.mp hact).1] at hnext
      cases hnext
  have hpending : ∀ x, pending ((s.withWorld w).enter s.db.table.txnMgr.nextId
      (.append { txnId := s.db.table.txnMgr.nextId, type := .begin })) x = s.pending x := by
    intro x
    rw [pending_enter _ (show Keyed.find (s.withWorld w).calls _ = none from hfree)]
    exact List.append_nil _
  obtain ⟨c, hc, rfl⟩ := Option.map_eq_some_iff.mp hran
  cases hc
  refine ⟨htracked, Keyed.keys_put_nodup _ _ h.keys, fun t call ht => ?_, fun t record ht => ?_, fun x => ?_,
    fun x => ?_, fun t => ?_⟩
  · simp only [enter, withWorld, Keyed.find_put] at ht
    split at ht
    · next heq =>
      subst heq
      exact ⟨_, Clients.active_eq_some.mpr ⟨Function.update_self .., rfl⟩⟩
    · next hne =>
      obtain ⟨txn, hact⟩ := h.active t call ht
      obtain ⟨hh, hst⟩ := Clients.active_eq_some.mp hact
      exact ⟨txn, Clients.active_eq_some.mpr ⟨(Function.update_of_ne hne _ _).trans hh, hst⟩⟩
  · simp only [enter, withWorld, Keyed.find_put] at ht
    split at ht
    · next heq =>
      cases ht
      exact ⟨heq.symm, rfl, by simp⟩
    · exact h.own t record ht
  · rw [hpending]
    exact (hrun.hist x).trans (h.order x)
  · rw [hpending]
    exact h.alone x
  · refine (h.committed t).trans (or_congr Iff.rfl ?_)
    simp only [enter, withWorld, Keyed.find_put]
    split
    · next heq =>
      subst heq
      simp [hfree]
    · exact Iff.rfl

/-- **While a write to a row has not been logged, nobody else writes to the row.** -/
theorem Inv.pending_eq_nil {op : Op} {t x : Nat} {wr : Write} {txn : Transaction} {table : Table}
    (hop : ∀ d, op ≠ .compact d) (hfree : s.caller t = some txn) (hmgr : table.txnMgr = s.db.table.txnMgr)
    (hran : s.world.step op = some (s.world.wrote table t x wr)) : s.pending x = [] := by
  obtain ⟨hnone, hact⟩ := caller_eq_some.mp hfree
  have hinv' := (h.tracked.step hop hran).inv
  have hclients : (s.world.wrote table t x wr).clients = s.world.clients := by
    show Clients.mk table.txnMgr s.handle = _
    rw [hmgr]
    rfl
  rw [List.eq_nil_iff_forall_not_mem]
  intro p hp
  obtain ⟨⟨A, call⟩, hmem, hwrite⟩ := List.mem_filterMap.mp hp
  have hcall := Keyed.find_of_mem h.keys hmem
  obtain ⟨u, hu⟩ := h.active A call hcall
  have hpA : p.1 = A := by
    cases call with
    | append record =>
      simp only [DbCall.writeTo, WalRecord.writeTo] at hwrite
      split at hwrite
      · cases hwrite
        exact (h.own A record hcall).1
      · cases hwrite
    | commit => cases hwrite
    | abort => cases hwrite
  have hin : Event.write A x p.2 ∈ s.world.log := by
    rw [← hpA]
    refine mem_filterMap_writeTo ?_
    show p ∈ s.log.filterMap (Event.writeTo x)
    rw [h.order x]
    exact List.mem_append_right _ hp
  have hself := hinv'.only_writer hclients rfl hact hu hin
  rw [hself, hnone] at hcall
  cases hcall

theorem Inv.write {op : Op} {t x : Nat} {wr : Write} {txn : Transaction} {table : Table} {record : WalRecord}
    (hop : ∀ d, op ≠ .compact d) (hfree : s.caller t = some txn) (hmgr : table.txnMgr = s.db.table.txnMgr)
    (hran : s.world.step op = some (s.world.wrote table t x wr)) (hlogs : Logs record t x wr) :
    Inv ((s.withWorld (s.world.wrote table t x wr)).enter t (.append record)) := by
  obtain ⟨hnone, hact⟩ := caller_eq_some.mp hfree
  have hclear := h.pending_eq_nil hop hfree hmgr hran
  have hclients : (s.world.wrote table t x wr).clients = s.world.clients := by
    show Clients.mk table.txnMgr s.handle = _
    rw [hmgr]
    rfl
  have hpending : ∀ y, pending ((s.withWorld (s.world.wrote table t x wr)).enter t (.append record)) y =
      s.pending y ++ if x = y then [(t, wr)] else [] := by
    intro y
    rw [pending_enter _ (show Keyed.find (s.withWorld (s.world.wrote table t x wr)).calls t = none from hnone)]
    show s.pending y ++ (record.writeTo y).toList = _
    rw [hlogs.writeTo y]
    by_cases hy : x = y <;> simp [hy]
  refine ⟨h.tracked.step hop hran, Keyed.keys_put_nodup _ _ h.keys, fun u call hu => ?_, fun u r hu => ?_, fun y => ?_,
    fun y => ?_, fun u => ?_⟩
  · show ∃ txn, (s.world.wrote table t x wr).clients.active u = some txn
    rw [hclients]
    simp only [enter, withWorld, Keyed.find_put] at hu
    split at hu
    · next heq =>
      subst heq
      exact ⟨txn, hact⟩
    · exact h.active u call hu
  · simp only [enter, withWorld, Keyed.find_put] at hu
    split at hu
    · next heq =>
      cases hu
      refine ⟨hlogs.txnId.trans heq.symm, hlogs.stored, fun hty => ?_⟩
      have hdata := hlogs.data
      rw [hty] at hdata
      cases hdata
    · exact h.own u r hu
  · rw [hpending]
    show (s.log ++ [Event.write t x wr]).filterMap (Event.writeTo y) =
      s.records.filterMap (WalRecord.writeTo y) ++ (s.pending y ++ _)
    rw [World.hist_wrote, h.order y, List.append_assoc]
  · rw [hpending]
    by_cases hy : x = y
    · rw [← hy, hclear]
      simp
    · rw [if_neg hy, List.append_nil]
      exact h.alone y
  · have hcommitted : (s.world.wrote table t x wr).committed u = s.world.committed u := by
      show ((table.txnMgr.getStatus u).state == .committed) = _
      rw [hmgr]
      rfl
    refine (h.committed u).trans (or_congr ?_ ?_)
    · show _ ↔ (s.world.wrote table t x wr).committed u = true
      rw [hcommitted]
    · simp only [enter, withWorld, Keyed.find_put]
      split
      · next heq =>
        subst heq
        simp [hnone]
      · exact Iff.rfl

theorem Inv.append {s' : Threads} {t : Nat} {record : WalRecord} (hcall : Keyed.find s.calls t = some (.append record))
    (hran : s.appendRecord record = some s') : Inv (s'.leave t) := by
  obtain ⟨r, happ⟩ := appendRecord_cases hran
  have hfind : ∀ u, Keyed.find (s'.leave t).calls u = if u = t then none else Keyed.find s.calls u := by
    intro u
    show Keyed.find (Keyed.erase s'.calls t) u = _
    rw [Keyed.find_erase, happ.calls]
  have hcalls : (s'.leave t).calls = (s.leave t).calls := by
    show Keyed.erase s'.calls t = Keyed.erase s.calls t
    rw [happ.calls]
  have hpending : ∀ x, (s'.leave t).pending x = (s.leave t).pending x := by
    intro x
    unfold pending
    rw [hcalls]
  refine ⟨?_, ?_, fun u call hu => ?_, fun u q hu => ?_, fun x => ?_, fun x => ?_, fun u => ?_⟩
  · show s'.world.Tracked []
    rw [happ.world]
    exact h.tracked
  · rw [hcalls]
    exact Keyed.keys_filter_nodup _ h.keys
  · show ∃ txn, s'.world.clients.active u = some txn
    rw [happ.world]
    rw [hfind] at hu
    split at hu
    · cases hu
    · exact h.active u call hu
  · rw [hfind] at hu
    split at hu
    · cases hu
    · exact h.own u q hu
  · rw [hpending]
    show s'.world.log.filterMap (Event.writeTo x) = s'.records.filterMap (WalRecord.writeTo x) ++ _
    rw [happ.world, happ.hist x]
    have horder : s.world.log.filterMap (Event.writeTo x) = _ := h.order x
    rw [horder]
    cases hw : record.writeTo x with
    | none => rw [pending_leave_of_none hcall h.keys hw, Option.toList_none, List.append_nil]
    | some p =>
      obtain ⟨hone, hnil⟩ := pending_leave_of_some hcall hw (h.alone x)
      rw [hone, hnil, Option.toList_some, List.append_nil]
  · rw [hpending]
    refine Nat.le_trans ?_ (h.alone x)
    exact (List.filter_sublist.filterMap _).length_le
  · show u ∈ committedTxnIds s'.records ↔ s'.world.committed u = true ∨ _
    rw [happ.records, mem_committedTxnIds_concat, happ.world, h.committed u, hfind]
    have hty : r.type ≠ .commit := by
      rw [happ.record]
      exact (h.own t record hcall).2.2
    by_cases hu : u = t
    · subst hu
      simp [hcall, hty]
    · simp [hu, hty]

theorem Inv.announce {s' : Threads} {t : Nat} {txn : Transaction} {type : WalRecordType} {call : DbCall}
    (hfree : s.caller t = some txn)
    (hhow : (type = .commit ∧ call = .commit) ∨ (type = .abort ∧ call = .abort))
    (hran : s.appendRecord { txnId := t, type } = some s') : Inv (s'.enter t call) := by
  obtain ⟨hnone, hact⟩ := caller_eq_some.mp hfree
  obtain ⟨r, happ⟩ := appendRecord_cases hran
  have hnone' : Keyed.find s'.calls t = none := by rw [happ.calls]; exact hnone
  have hfind : ∀ u, Keyed.find (s'.enter t call).calls u = if u = t then some call else Keyed.find s.calls u := by
    intro u
    show Keyed.find (Keyed.put s'.calls t call) u = _
    rw [Keyed.find_put, happ.calls]
  have hpending : ∀ x, (s'.enter t call).pending x = s.pending x := by
    intro x
    have hw : call.writeTo x = none := by rcases hhow with ⟨-, rfl⟩ | ⟨-, rfl⟩ <;> rfl
    rw [pending_enter _ hnone', hw]
    unfold pending
    rw [happ.calls]
    exact List.append_nil _
  refine ⟨?_, Keyed.keys_put_nodup _ _ (by rw [happ.calls]; exact h.keys), fun u c hu => ?_, fun u q hu => ?_,
    fun x => ?_, fun x => ?_, fun u => ?_⟩
  · show s'.world.Tracked []
    rw [happ.world]
    exact h.tracked
  · show ∃ txn, s'.world.clients.active u = some txn
    rw [happ.world]
    rw [hfind] at hu
    split at hu
    · next heq =>
      subst heq
      exact ⟨txn, hact⟩
    · exact h.active u c hu
  · rw [hfind] at hu
    split at hu
    · rcases hhow with ⟨-, rfl⟩ | ⟨-, rfl⟩ <;> cases hu
    · exact h.own u q hu
  · rw [hpending]
    show s'.world.log.filterMap (Event.writeTo x) = s'.records.filterMap (WalRecord.writeTo x) ++ _
    rw [happ.world, happ.hist x]
    have hw : WalRecord.writeTo x { txnId := t, type } = none := by
      rcases hhow with ⟨rfl, -⟩ | ⟨rfl, -⟩ <;> rfl
    rw [hw, Option.toList_none, List.append_nil]
    exact h.order x
  · rw [hpending]
    exact h.alone x
  · show u ∈ committedTxnIds s'.records ↔ s'.world.committed u = true ∨ _
    rw [happ.records, mem_committedTxnIds_concat, happ.world, h.committed u, hfind, happ.record]
    by_cases hu : u = t
    · subst hu
      rcases hhow with ⟨rfl, rfl⟩ | ⟨rfl, rfl⟩ <;> simp [hnone]
    · simp [hu, Ne.symm hu]

theorem Inv.handle_resolve {t : Nat} {op : TxnOp} {w : World} {call : DbCall}
    (hhow : (op = .commit t ∧ call = .commit) ∨ (op = .abort t ∧ call = .abort))
    (hran : s.world.txnStep op = some w) :
    ∃ txn, w.handle = Function.update s.handle t (some txn) ∧ (txn.state = .committed ↔ call = .commit) := by
  obtain ⟨c, hc, rfl⟩ := Option.map_eq_some_iff.mp hran
  rcases Clients.step_cases hc with ⟨rfl, -⟩ | ⟨u, txn, rfl, hact, rfl⟩ | ⟨u, txn, rfl, hact, rfl⟩
  · rcases hhow with ⟨hop, -⟩ | ⟨hop, -⟩ <;> cases hop
  · rcases hhow with ⟨hop, rfl⟩ | ⟨hop, -⟩ <;> cases hop
    refine ⟨(s.world.clients.mgr.commit txn).1, ?_, by simp [TransactionManager.commit]⟩
    rw [← h.tracked.inv.active_id t txn hact]
    rfl
  · rcases hhow with ⟨hop, -⟩ | ⟨hop, rfl⟩ <;> cases hop
    refine ⟨(s.world.clients.mgr.abort txn).1, ?_, by simp [TransactionManager.abort]⟩
    rw [← h.tracked.inv.active_id t txn hact]
    rfl

theorem Inv.resolve {t : Nat} {op : TxnOp} {w : World} {call : DbCall} (hcall : Keyed.find s.calls t = some call)
    (hhow : (op = .commit t ∧ call = .commit) ∨ (op = .abort t ∧ call = .abort))
    (hran : s.world.txnStep op = some w) : Inv ((s.withWorld w).leave t) := by
  have hstep : s.world.step (.txn op) = some w := hran
  have htracked : w.Tracked [] := h.tracked.step (by simp) hstep
  have hrun := World.txnRun_step h.tracked.inv.clients hran
  obtain ⟨txn, hhandle, hstate⟩ := h.handle_resolve hhow hran
  have hother : ∀ u, u ≠ t → w.clients.handle u = s.world.clients.handle u := by
    intro u hu
    show w.handle u = s.handle u
    rw [hhandle, Function.update_of_ne hu]
  have hself : w.clients.handle t = some txn := by
    show w.handle t = some txn
    rw [hhandle, Function.update_self]
  have hfind : ∀ u, Keyed.find ((s.withWorld w).leave t).calls u = if u = t then none else Keyed.find s.calls u :=
    fun u => Keyed.find_erase ..
  have hpending : ∀ x, ((s.withWorld w).leave t).pending x = s.pending x := by
    intro x
    have hw : call.writeTo x = none := by rcases hhow with ⟨-, rfl⟩ | ⟨-, rfl⟩ <;> rfl
    rw [pending_leave_of_none (s := s.withWorld w) hcall h.keys hw]
    rfl
  refine ⟨htracked, Keyed.keys_filter_nodup _ h.keys, fun u c hu => ?_, fun u q hu => ?_, fun x => ?_, fun x => ?_,
    fun u => ?_⟩
  · rw [hfind] at hu
    split at hu
    · cases hu
    · next hne =>
      obtain ⟨v, hv⟩ := h.active u c hu
      obtain ⟨hh, hst⟩ := Clients.active_eq_some.mp hv
      exact ⟨v, Clients.active_eq_some.mpr ⟨(hother u hne).trans hh, hst⟩⟩
  · rw [hfind] at hu
    split at hu
    · cases hu
    · exact h.own u q hu
  · rw [hpending]
    exact (hrun.hist x).trans (h.order x)
  · rw [hpending]
    exact h.alone x
  · show u ∈ committedTxnIds s.records ↔ w.committed u = true ∨ _
    rw [h.committed u, hfind, World.committed_iff htracked.inv, World.committed_iff h.tracked.inv]
    by_cases hu : u = t
    · subst hu
      have hnot : ¬ ∃ v, s.world.clients.handle u = some v ∧ v.state = .committed := by
        rw [← World.committed_iff h.tracked.inv, h.not_committed hcall]
        simp
      rw [hself]
      simp [hnot, hcall, hstate]
    · rw [hother u hu]
      simp [hu]

/-- **Every turn keeps the order.** -/
theorem Inv.step {s' : Threads} {turn : Turn} (hs : s.step turn = some s') : s'.Inv := by
  cases step_cases hs with
  | begin w hran => exact h.begin hran
  | write op t x wr txn table record hop hfree hmgr hran hlogs => exact h.write hop hfree hmgr hran hlogs
  | refuse => exact h
  | append t record s1 hcall hran => exact h.append hcall hran
  | announce t txn type call s1 hfree hhow hran => exact h.announce hfree hhow hran
  | resolve t op call w hcall hhow hran => exact h.resolve hcall hhow hran
  | flush => exact ⟨h.tracked, h.keys, h.active, h.own, h.order, h.alone, h.committed⟩

end

theorem inv_openOn (dataDir : String) (userSchema : Schema) (mode : DurabilityMode) :
    (openOn { dataDir } userSchema mode).Inv where
  tracked := (World.start_create userSchema).tracked
  keys := List.nodup_nil
  active := by simp [openOn]
  own := by simp [openOn]
  order := fun _ => rfl
  alone := by simp [openOn, pending]
  committed := fun t => by
    have hno : (openOn { dataDir } userSchema mode).world.committed t = false := rfl
    rw [hno]
    simp [committedTxnIds, openOn]

/-- **Every run** keeps it. -/
theorem inv_run {dataDir : String} {userSchema : Schema} {mode : DurabilityMode} {turns : List Turn} {s : Threads}
    (hrun : Runs.run step (openOn { dataDir } userSchema mode) turns = some s) : s.Inv :=
  Runs.run_invariant (Q := fun _ _ => True) (fun _ _ _ h _ hs => h.step hs) (inv_openOn dataDir userSchema mode)
    (Runs.along_of_forall _ fun _ _ _ => trivial) hrun

end Threads

end CoreDB
