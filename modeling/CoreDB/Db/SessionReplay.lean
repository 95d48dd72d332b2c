import CoreDB.Db.Database
import CoreDB.Recovery.Replay

/-!
# The log of a session, replayed

The records of a log are those of its events, so what recovery replays are the writes
of the committed transactions, in the order in which they were made
(`redoOps_recordsFrom`).  Made again on a base that holds what the part of the log
before them has left, they leave what a new reader finds in the session itself
(`replay_log`).
-/

namespace CoreDB

open VersionChain (final)

/-! ## Records and events -/

@[simp] theorem record_write (lsn t x : Nat) (wr : Write) :
    ((Event.write t x wr).record lsn).write = wr ∧ ((Event.write t x wr).record lsn).rowId = x ∧
      ((Event.write t x wr).record lsn).txnId = t ∧ ((Event.write t x wr).record lsn).type.isData = true := by
  cases wr <;> exact ⟨rfl, rfl, rfl, rfl⟩

/-- The data records of the transactions in `p`. -/
def dataOf (p : Nat → Bool) (records : List WalRecord) : List WalRecord :=
  records.filter fun r => r.type.isData && p r.txnId

theorem writesTo_dataOf (p : Nat → Bool) (x : Nat) (es : List Event) : ∀ lsn,
    writesTo x (dataOf p (recordsFrom lsn es)) =
      ((es.filterMap (Event.writeTo x)).filter fun q => p q.1).map (·.2) := by
  unfold writesTo dataOf
  simp only [List.filter_filter]
  induction es with
  | nil => intro lsn; rfl
  | cons e es ih =>
    intro lsn
    rw [recordsFrom, List.filter_cons, List.filterMap_cons]
    cases e with
    | write t y wr =>
      by_cases hy : y = x <;> by_cases hp : p t = true <;> simp [hp, hy, Event.writeTo, ih]
    | begin t => simpa [Event.record, WalRecordType.isData, Event.writeTo] using ih (lsn + 1)
    | commit t ts => simpa [Event.record, WalRecordType.isData, Event.writeTo] using ih (lsn + 1)
    | abort t => simpa [Event.record, WalRecordType.isData, Event.writeTo] using ih (lsn + 1)

theorem insertedId_record {e : Event} {n : Nat} (h : (e.record n).type = .insert) :
    e.insertedId = some (e.record n).rowId := by
  cases e with
  | write t x wr => cases wr <;> first | rfl | cases h
  | _ => cases h

theorem mem_insertedIds {es : List Event} {lsn : Nat} {r : WalRecord} (hr : r ∈ recordsFrom lsn es)
    (hty : r.type = .insert) : r.rowId ∈ insertedIds es := by
  obtain ⟨e, he, n, rfl⟩ := mem_recordsFrom hr
  exact List.mem_filterMap.mpr ⟨e, he, insertedId_record hty⟩

/-- Rows are inserted in the order of their ids. -/
theorem ordered_recordsFrom (es : List Event) (h : (insertedIds es).Pairwise (· < ·)) : ∀ lsn,
    (recordsFrom lsn es).Pairwise fun a b => a.type = .insert → b.type = .insert → a.rowId < b.rowId := by
  induction es with
  | nil => intro lsn; exact List.Pairwise.nil
  | cons e es ih =>
    intro lsn
    rw [insertedIds, List.filterMap_cons] at h
    rw [recordsFrom, List.pairwise_cons]
    cases hid : e.insertedId with
    | none =>
      rw [hid] at h
      refine ⟨fun b hb hty => ?_, ih h _⟩
      rw [insertedId_record hty] at hid
      cases hid
    | some x =>
      rw [hid, List.pairwise_cons] at h
      refine ⟨fun b hb hty hbty => ?_, ih h.2 _⟩
      rw [insertedId_record hty] at hid
      rw [Option.some.inj hid]
      exact h.1 _ (mem_insertedIds hb hbty)

/-! ## Committed transactions -/

theorem mem_commits {es : List Event} {t ts : Nat} : (t, ts) ∈ commits es ↔ Event.commit t ts ∈ es := by
  unfold commits
  rw [List.mem_filterMap]
  constructor
  · rintro ⟨e, he, hc⟩
    cases e with
    | commit u us =>
      cases hc
      exact he
    | _ => cases hc
  · exact fun he => ⟨_, he, rfl⟩

theorem mem_committedTxnIds_recordsFrom {es : List Event} {lsn t : Nat} :
    t ∈ committedTxnIds (recordsFrom lsn es) ↔ ∃ ts, Event.commit t ts ∈ es := by
  rw [mem_committedTxnIds]
  constructor
  · rintro ⟨c, hc, hty, hid⟩
    obtain ⟨e, he, n, rfl⟩ := mem_recordsFrom hc
    cases e with
    | commit u ts =>
      obtain rfl : u = t := hid
      exact ⟨ts, he⟩
    | write u x wr => cases wr <;> cases hty
    | begin u => cases hty
    | abort u => cases hty
  · rintro ⟨ts, he⟩
    obtain ⟨a, b, rfl⟩ := List.append_of_mem he
    refine ⟨(Event.commit t ts).record (lsn + a.length), ?_, rfl, rfl⟩
    rw [recordsFrom_append]
    exact List.mem_append_right _ List.mem_cons_self

/-- Of the transactions that have written, those with a COMMIT have committed. -/
theorem World.Tracked.mem_committedTxnIds {base : List (Nat × Row)} {w : World} (h : w.Tracked base) {t x : Nat}
    {wr : Write} (hw : Event.write t x wr ∈ w.log) (lsn : Nat) :
    t ∈ committedTxnIds (recordsFrom lsn w.log) ↔ w.committed t = true := by
  rw [mem_committedTxnIds_recordsFrom, World.committed_iff h.inv]
  constructor
  · rintro ⟨ts, hts⟩
    obtain ⟨txn, ht, hcm, -⟩ := h.log.commit _ (mem_commits.mpr hts)
    exact ⟨txn, ht, hcm⟩
  · rintro ⟨txn, ht, hcm⟩
    obtain ⟨txn', ht', hmem⟩ := h.log.writer t x wr hw
    rw [ht] at ht'
    obtain rfl := Option.some.inj ht'
    exact ⟨_, mem_commits.mp (hmem hcm)⟩

/-- A data record of the log is of a committed transaction if its id has a COMMIT. -/
theorem World.Tracked.isData_committed {base : List (Nat × Row)} {w : World} (h : w.Tracked base) {es : List Event}
    (hes : ∀ e ∈ es, e ∈ w.log) {lsn : Nat} {r : WalRecord} (hr : r ∈ recordsFrom lsn es) :
    (r.type.isData && (committedTxnIds (recordsFrom 1 w.log)).contains r.txnId) =
      (r.type.isData && w.committed r.txnId) := by
  obtain ⟨e, he, n, rfl⟩ := mem_recordsFrom hr
  cases e with
  | write t x wr =>
    have hiff := h.mem_committedTxnIds (hes _ he) 1
    obtain ⟨-, -, htxn, hdata⟩ := record_write n t x wr
    rw [htxn, hdata, Bool.true_and, Bool.true_and, Bool.eq_iff_iff, List.contains_iff_mem]
    exact hiff
  | begin t => rfl
  | commit t ts => rfl
  | abort t => rfl

/-- **What recovery replays** behind the first part of a log: the writes of the
committed transactions in the second. -/
theorem redoOps_recordsFrom {base : List (Nat × Row)} {w : World} (h : w.Tracked base) {old new : List Event}
    (hlog : w.log = old ++ new) :
    redoOps old.length (recordsFrom 1 w.log) = dataOf w.committed (recordsFrom (old.length + 1) new) := by
  have hsplit : recordsFrom 1 w.log = recordsFrom 1 old ++ recordsFrom (old.length + 1) new := by
    rw [hlog, recordsFrom_append, Nat.add_comm 1]
  have hnone : (recordsFrom 1 old).filter (fun rec => decide (old.length < rec.lsn) && rec.type.isData &&
      (committedTxnIds (recordsFrom 1 w.log)).contains rec.txnId) = [] := by
    rw [List.filter_eq_nil_iff]
    intro r hr hsel
    have hlsn := (lsn_recordsFrom old 1 r hr).2
    simp only [Bool.and_eq_true, decide_eq_true_iff] at hsel
    omega
  unfold redoOps dataOf
  conv => lhs; arg 2; rw [hsplit]
  rw [List.filter_append, hnone, List.nil_append]
  apply List.filter_congr
  intro r hr
  have hlsn := (lsn_recordsFrom new (old.length + 1) r hr).1
  rw [decide_eq_true (by omega), Bool.true_and]
  exact h.isData_committed (fun e he => by rw [hlog]; exact List.mem_append_right _ he) hr

theorem committedWrites_recordsFrom {base : List (Nat × Row)} {w : World} (h : w.Tracked base) :
    committedWrites (recordsFrom 1 w.log) = dataOf w.committed (recordsFrom 1 w.log) := by
  rw [committedWrites_eq]
  apply List.filter_congr
  intro r hr
  exact h.isData_committed (fun e he => he) hr

/-! ## Making the writes again -/

/-- What can be done after some writes can be done from the value they left. -/
theorem Legal.after {b : Option Row} {h h' : List (Nat × Write)} (hl : Legal b (h ++ h')) :
    Legal (final b (values h)) h' := by
  obtain ⟨p, hp⟩ := hl
  rw [List.map_append, Runs.run_append_eq_some] at hp
  obtain ⟨q, hq, hrest⟩ := hp
  have hiff := present_iff hq
  cases hf : final b (values h) with
  | some v =>
    obtain rfl := hiff.mpr (by rw [hf]; simp)
    exact ⟨p, hrest⟩
  | none =>
    -- nothing can be done with a row that is gone
    cases q with
    | absent => exact ⟨p, hrest⟩
    | present => exact absurd hf (hiff.mp rfl)
    | gone =>
      cases h' with
      | nil => exact ⟨.absent, rfl⟩
      | cons w h' =>
        rw [List.map_cons, Runs.run_cons_eq_some] at hrest
        obtain ⟨p', hnext, -⟩ := hrest
        cases w.2 <;> cases hnext

section
variable {base : List (Nat × Row)} {w0 w : World} {old new : List Event} (h : w.Tracked base)
  (hlog : w.log = old ++ new)
  (hbase : ∀ x, Keyed.find (basePairs w0.table.baseSegments) x =
    final (Keyed.find base x) (values ((old.filterMap (Event.writeTo x)).filter fun p => w.committed p.1)))
include h hlog hbase

omit h hbase in
theorem committedHist_append (x : Nat) : w.committedHist x =
    ((old.filterMap (Event.writeTo x)).filter fun p => w.committed p.1) ++
      ((new.filterMap (Event.writeTo x)).filter fun p => w.committed p.1) := by
  show (w.log.filterMap (Event.writeTo x)).filter _ = _
  rw [hlog, List.filterMap_append, List.filter_append]

/-- The committed writes can be made again on what the earlier part of the log left. -/
theorem replayable_log {n : Nat} (hids : IssuedIds w0.table.nextRowId (insertedIds new) n) (lsn : Nat) :
    w0.Replayable (dataOf w.committed (recordsFrom lsn new)) where
  data := by
    intro op hop
    have hsel := (List.mem_filter.mp hop).2
    rw [Bool.and_eq_true] at hsel
    exact hsel.1
  legal := by
    intro x
    have hl := h.legal x
    rw [committedHist_append hlog] at hl
    obtain ⟨p, hp⟩ := hl.after
    rw [hbase x, writesTo_dataOf]
    exact ⟨p, hp⟩
  fresh := fun op hop hty => (hids.range _ (mem_insertedIds (List.mem_of_mem_filter hop) hty)).1
  ordered := (ordered_recordsFrom new hids.ordered lsn).sublist List.filter_sublist

/-- **The log, replayed.**  A new reader finds after the replay what a new reader finds
in the session: what the committed writes left.  No replayed call fails. -/
theorem replay_log (h0 : w0.Start) (hall : w0.AllCommitted) {n : Nat}
    (hids : IssuedIds w0.table.nextRowId (insertedIds new) n) (lsn : Nat) :
    (∃ rows rows', ((dataOf w.committed (recordsFrom lsn new)).foldl Table.applyOp w0.table).newReaderRows = some rows ∧
      w.table.newReaderRows = some rows' ∧ rows.Perm rows' ∧
      rows.Perm ((Keyed.applyAll (basePairs w0.table.baseSegments)
        ((dataOf w.committed (recordsFrom lsn new)).map WalRecord.effect)).map (·.2))) ∧
    ∀ pre op post, dataOf w.committed (recordsFrom lsn new) = pre ++ op :: post →
      (pre.foldl Table.applyOp w0.table).opSucceeds op = true := by
  obtain ⟨⟨w1, hw1⟩, hok⟩ := World.exists_replayed h0 hall (replayable_log h hlog hbase hids lsn)
  have hdistinct : (Keyed.keys (basePairs w0.table.baseSegments)).Nodup := by
    rw [keys_basePairs]
    exact h0.distinct
  obtain ⟨rows, hrows, hperm⟩ := hw1.scan hdistinct
  obtain ⟨rows', hrows', hperm'⟩ := h.scan
    (m := Keyed.applyAll (basePairs w0.table.baseSegments) ((dataOf w.committed (recordsFrom lsn new)).map WalRecord.effect))
    (Keyed.keys_applyAll_nodup _ hdistinct) fun x => by
      rw [find_effects _ _ (writesTo_dataOf w.committed x new lsn).symm, hbase x, committedHist_append hlog]
      simp only [values, List.map_append, VersionChain.final_append]
  exact ⟨⟨rows, rows', hrows, hrows', hperm.trans hperm'.symm, hperm⟩, hok⟩

end

end CoreDB
