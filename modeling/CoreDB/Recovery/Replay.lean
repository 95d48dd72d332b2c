import CoreDB.Recovery.RecoveryManager
import CoreDB.Table.Committed

/-!
# What a replay leaves

Recovery makes each write of the log again, in a transaction of its own that begins
when all before it have committed.  So a replay is a run of the table: nobody is
active in between, nobody aborts, and each transaction sees all that was written
before.  An update or a delete then finds its row if the row is there.

`Replayable`: the writes to each row can be made one after the other, and ids are
inserted in order, none of which the table has issued.  `exists_replayed`: such
writes are all made.  `Replayed.scan`: this is what a new reader finds.
-/

namespace CoreDB

open VersionChain (final)

namespace WalRecord

/-- The write that a data record stands for. -/
def write (r : WalRecord) : Write :=
  match r.type with
  | .insert => .insert r.row
  | .update => .update r.row
  | _ => .delete

/-- What the write does to the row of a key. -/
def effect (r : WalRecord) : Nat × Option Row := (r.rowId, r.write.value)

end WalRecord

/-- The writes to row `x`. -/
def writesTo (x : Nat) (ops : List WalRecord) : List Write :=
  (ops.filter fun op => op.rowId == x).map WalRecord.write

theorem writesTo_concat (x : Nat) (ops : List WalRecord) (op : WalRecord) :
    writesTo x (ops ++ [op]) = writesTo x ops ++ if op.rowId = x then [op.write] else [] := by
  unfold writesTo
  by_cases h : op.rowId = x <;> simp [List.filter_append, h]

/-- After some writes a row holds what the last one to it left. -/
theorem find_effects (m : List (Nat × Row)) (ops : List WalRecord) {x : Nat} {hist : List (Nat × Write)}
    (hhist : hist.map (·.2) = writesTo x ops) :
    Keyed.find (Keyed.applyAll m (ops.map WalRecord.effect)) x = final (Keyed.find m x) (values hist) := by
  have hlast : ((ops.map WalRecord.effect).filter fun p => decide (p.1 = x)).map (·.2) = (values hist).map (·.2) := by
    have hvalues : (values hist).map (·.2) = (hist.map (·.2)).map Write.value := by
      simp [values, Function.comp_def]
    rw [hvalues, hhist, writesTo, List.filter_map, List.map_map, List.map_map]
    rfl
  rw [Keyed.find_applyAll]
  unfold final
  rw [← List.getLast?_map, ← List.getLast?_map, hlast]

namespace World

/-! ## One record -/

/-- The call that replays a record is a step of the world. -/
theorem redo_step {w : World} {t : Nat} {txn : Transaction} {op : WalRecord} (hact : w.clients.active t = some txn)
    (hdata : op.type.isData = true) (hok : (w.table.redo txn op).1 = true)
    (hnew : op.type = .insert → w.table.nextRowId ≤ op.rowId) :
    ∃ o, (∀ d, o ≠ .compact d) ∧ w.step o = some (w.wrote (w.table.redo txn op).2 t op.rowId op.write) := by
  unfold Table.redo at hok ⊢
  unfold WalRecord.write
  cases hty : op.type with
  | insert => exact ⟨.insertWithRowId t op.rowId op.row, by simp, by simp [step, hact, hnew hty]⟩
  | update =>
    simp only [hty] at hok
    exact ⟨.update t op.rowId op.row, by simp, by simp [step, hact, hok]⟩
  | delete =>
    simp only [hty] at hok
    exact ⟨.delete t op.rowId, by simp, by simp [step, hact, hok]⟩
  | _ =>
    rw [hty] at hdata
    cases hdata

/-- All transactions have committed. -/
def AllCommitted (w : World) : Prop := ∀ t txn, w.clients.handle t = some txn → txn.state = .committed

section
variable {base : List (Nat × Row)} {w : World} (h : w.Tracked base) (hall : w.AllCommitted)
include h hall

omit h in
theorem handle_begun {t : Nat} {txn : Transaction} (ht : w.begun.clients.handle t = some txn) :
    txn.state ≠ .aborted := by
  have ht : Function.update w.handle w.table.txnMgr.nextId (some w.newReader) t = some txn := ht
  rw [Function.update_apply] at ht
  split at ht
  · rw [← Option.some.inj ht]
    simp [newReader, TransactionManager.begin]
  · rw [hall t txn ht]
    simp

theorem alive_begun {t : Nat} : w.begun.clients.alive t = true := by
  rw [Clients.alive_iff]
  cases hab : w.begun.clients.mgr.isAborted t with
  | false => rfl
  | true =>
    obtain ⟨txn, ht, hst⟩ := (h.begun.inv.clients.isAborted_iff t).mp hab
    exact absurd hst (handle_begun hall ht)

/-- A present row is found. -/
theorem claim_begun {x : Nat} (hv : final (Keyed.find base x) (values (w.row x).hist) ≠ none) :
    ∃ delta, w.begun.table.delta.claimOrInsertBaseTombstone x w.newReader w.begun.table.txnMgr
      (w.begun.table.rowIdExistsInBase x) = (.ok, delta) := by
  have hb := h.begun
  obtain ⟨-, -, hact⟩ := h.inv.begun
  have hrow : w.begun.row x = w.row x := row_withClients w _ .begin _ x
  have hlive : (w.begun.row x).liveHist w.begun.clients = (w.row x).hist := by
    unfold RowState.liveHist
    rw [hrow, List.filter_eq_self]
    exact fun p _ => alive_begun h hall
  have hseen : ∀ p ∈ (w.begun.row x).liveHist w.begun.clients, w.begun.clients.Sees w.table.txnMgr.nextId p.1 := by
    intro p hp
    rw [hlive] at hp
    obtain ⟨txn, ht⟩ := LogOk.handle_of_hist h.log hp
    rw [Clients.Sees_of_active hact, newReader_sees h.inv ht]
    exact (committed_iff h.inv).mpr ⟨txn, ht, hall _ _ ht⟩
  refine exists_claim w.begun x w.newReader ((hb.grounded x).claim_possible hb.inv.clients (hb.inv.rows x) hact hseen
    (fun hnil _ => ?_) (by rw [hlive]; exact hv))
  rw [← hnil]
  exact (List.filter_eq_self.mpr fun a _ => alive_begun h hall).symm

/-- **A replayed call succeeds** if an insert is of a new row and any other write of
one that is there. -/
theorem opSucceeds_of_present {op : WalRecord}
    (hv : op.type ≠ .insert → final (Keyed.find base op.rowId) (values (w.row op.rowId).hist) ≠ none) :
    w.table.opSucceeds op = true := by
  have hclaim := fun hty => claim_begun h hall (hv hty)
  show (w.begun.table.redo w.newReader op).1 = true
  unfold Table.redo
  cases hty : op.type with
  | update =>
    obtain ⟨delta, hd⟩ := hclaim (by rw [hty]; simp)
    simp [Table.update, hd]
  | delete =>
    obtain ⟨delta, hd⟩ := hclaim (by rw [hty]; simp)
    simp [Table.delete, hd]
  | _ => rfl

end

/-! ## All records -/

/-- The records `ops` have been replayed, from `w0` to `w`. -/
structure Replayed (w0 w : World) (ops : List WalRecord) : Prop where
  tracked : w.Tracked (basePairs w0.table.baseSegments)
  allCommitted : w.AllCommitted
  table : w.table = ops.foldl Table.applyOp w0.table
  hist : ∀ x, (w.row x).hist.map (·.2) = writesTo x ops
  nextRowId : ∀ n, w0.table.nextRowId ≤ n → (∀ op ∈ ops, op.type = .insert → op.rowId < n) → w.table.nextRowId ≤ n

theorem redo_nextRowId (t : Table) (txn : Transaction) (op : WalRecord) :
    (t.redo txn op).2.nextRowId = if op.type = .insert then Table.raise t.nextRowId op.rowId else t.nextRowId := by
  unfold Table.redo
  cases hty : op.type with
  | insert => rfl
  | update =>
    rcases update_cases t txn op.rowId op.row with ⟨delta, -, hr⟩ | ⟨res, -, -, hr⟩ <;> simp [hr]
  | delete =>
    rcases delete_cases t txn op.rowId with ⟨delta, -, hr⟩ | ⟨res, -, -, hr⟩ <;> simp [hr]
  | _ => rfl

/-- **One record more.** -/
theorem Replayed.step {w0 w : World} {ops : List WalRecord} {op : WalRecord} (h : Replayed w0 w ops)
    (hdata : op.type.isData = true) (hok : w.table.opSucceeds op = true)
    (hnew : op.type = .insert → w.table.nextRowId ≤ op.rowId) : ∃ w', Replayed w0 w' (ops ++ [op]) := by
  obtain ⟨-, -, hact⟩ := h.tracked.inv.begun
  obtain ⟨o, ho, hstep⟩ := redo_step hact hdata hok hnew
  -- begin, the write, commit
  let w2 := w.begun.wrote (w.begun.table.redo w.newReader op).2 w.table.txnMgr.nextId op.rowId op.write
  let w3 := w2.withClients (w2.clients.put (w2.table.txnMgr.commit w.newReader))
    (.commit w.table.txnMgr.nextId w2.table.txnMgr.nextId)
  have hact2 : w2.clients.active w.table.txnMgr.nextId = some w.newReader := hact
  have hstep3 : w2.step (.txn (.commit w.table.txnMgr.nextId)) = some w3 := by
    simp only [World.step, txnStep, Clients.step, hact2]
    rfl
  refine ⟨w3, (h.tracked.begun.step ho hstep).step (by simp) hstep3, ?_, ?_, ?_, ?_⟩
  · intro t txn ht
    have ht : Function.update (Function.update w.handle w.table.txnMgr.nextId (some w.newReader))
        w.table.txnMgr.nextId (some (w2.table.txnMgr.commit w.newReader).1) t = some txn := ht
    rw [Function.update_apply] at ht
    split at ht
    · rw [← Option.some.inj ht]
      rfl
    · next hne =>
      rw [Function.update_of_ne hne] at ht
      exact h.allCommitted t txn ht
  · rw [List.foldl_append, ← h.table]
    rfl
  · intro x
    have hlog : (w3.row x).hist = (w.row x).hist ++ if op.rowId = x then [(w.table.txnMgr.nextId, op.write)] else [] := by
      show (((w.log ++ [_]) ++ [_]) ++ [_]).filterMap (Event.writeTo x) = w.log.filterMap (Event.writeTo x) ++ _
      simp only [List.filterMap_append, List.append_assoc, List.append_cancel_left_eq]
      by_cases hx : op.rowId = x <;> simp [List.filterMap_cons, Event.writeTo, hx]
    rw [hlog, writesTo_concat, List.map_append, h.hist]
    by_cases hx : op.rowId = x <;> simp [hx]
  · intro n hn hids
    have hle := h.nextRowId n hn fun q hq => hids q (List.mem_append_left _ hq)
    show (w.table.begun.redo w.newReader op).2.nextRowId ≤ n
    rw [redo_nextRowId, show w.table.begun.nextRowId = w.table.nextRowId from rfl]
    split
    · next hty =>
      have := hids op (by simp) hty
      unfold Table.raise
      split <;> omega
    · exact hle

/-- The writes can be made again, one after the other. -/
structure Replayable (w0 : World) (ops : List WalRecord) : Prop where
  data : ∀ op ∈ ops, op.type.isData = true
  legal : ∀ x, ∃ p, Runs.run Phase.next (phaseOf (Keyed.find (basePairs w0.table.baseSegments) x)) (writesTo x ops) =
    some p
  fresh : ∀ op ∈ ops, op.type = .insert → w0.table.nextRowId ≤ op.rowId
  ordered : ops.Pairwise fun a b => a.type = .insert → b.type = .insert → a.rowId < b.rowId

theorem Replayable.of_concat {w0 : World} {ops : List WalRecord} {op : WalRecord} (h : Replayable w0 (ops ++ [op])) :
    Replayable w0 ops where
  data := fun q hq => h.data q (List.mem_append_left _ hq)
  legal := by
    intro x
    obtain ⟨p, hp⟩ := h.legal x
    rw [writesTo_concat] at hp
    exact Runs.run_prefix hp
  fresh := fun q hq => h.fresh q (List.mem_append_left _ hq)
  ordered := (List.pairwise_append.mp h.ordered).1

/-- The row that an update or a delete is for is there. -/
theorem Replayable.present {w0 : World} {ops : List WalRecord} {op : WalRecord} (h : Replayable w0 (ops ++ [op]))
    (hdata : op.type.isData = true) (hty : op.type ≠ .insert) {hist : List (Nat × Write)}
    (hhist : hist.map (·.2) = writesTo op.rowId ops) :
    final (Keyed.find (basePairs w0.table.baseSegments) op.rowId) (values hist) ≠ none := by
  obtain ⟨p, hp⟩ := h.legal op.rowId
  rw [writesTo_concat, if_pos rfl, ← hhist, Runs.run_append_eq_some] at hp
  obtain ⟨q, hq, hlast⟩ := hp
  obtain ⟨p', hnext, -⟩ := Runs.run_cons_eq_some.mp hlast
  refine (present_iff hq).mp ?_
  -- only a row that is there can be updated or deleted
  unfold WalRecord.write at hnext
  cases hop : op.type with
  | insert => exact absurd hop hty
  | update =>
    rw [hop] at hnext
    cases q <;> simp [Phase.next] at hnext ⊢
  | delete =>
    rw [hop] at hnext
    cases q <;> simp [Phase.next] at hnext ⊢
  | _ =>
    rw [hop] at hdata
    cases hdata

/-- **All of them are made again**, and no call fails. -/
theorem exists_replayed {w0 : World} (h0 : w0.Start) (hall : w0.AllCommitted) {ops : List WalRecord}
    (h : Replayable w0 ops) :
    (∃ w, Replayed w0 w ops) ∧
      ∀ pre op post, ops = pre ++ op :: post → (pre.foldl Table.applyOp w0.table).opSucceeds op = true := by
  induction ops using List.reverseRecOn with
  | nil =>
    refine ⟨⟨w0, h0.tracked, hall, rfl, fun x => ?_, fun n hn _ => hn⟩, fun pre op post hnil => ?_⟩
    · rw [h0.row_eq]
      rfl
    · simp at hnil
  | append_singleton ops op ih =>
    obtain ⟨⟨w, hw⟩, hops⟩ := ih h.of_concat
    have hdata := h.data op (by simp)
    have hok : w.table.opSucceeds op = true :=
      opSucceeds_of_present hw.tracked hw.allCommitted fun hty => h.present hdata hty (hw.hist op.rowId)
    refine ⟨hw.step hdata hok fun hty => ?_, fun pre q post heq => ?_⟩
    · refine hw.nextRowId _ (h.fresh op (by simp) hty) fun q hq hqty => ?_
      exact (List.pairwise_append.mp h.ordered).2.2 q hq op (by simp) hqty hty
    · rcases List.eq_nil_or_concat post with rfl | ⟨l, z, rfl⟩
      · obtain ⟨rfl, hlast⟩ := List.append_inj' heq rfl
        rw [← List.singleton_inj.mp hlast, ← hw.table]
        exact hok
      · rw [List.concat_eq_append, ← List.cons_append, ← List.append_assoc] at heq
        exact hops pre q l (List.append_inj' heq rfl).1

/-- **What a new reader finds** after a replay. -/
theorem Replayed.scan {w0 w : World} {ops : List WalRecord} (h : Replayed w0 w ops)
    (hbase : (Keyed.keys (basePairs w0.table.baseSegments)).Nodup) :
    ∃ rows, (ops.foldl Table.applyOp w0.table).newReaderRows = some rows ∧
      rows.Perm ((Keyed.applyAll (basePairs w0.table.baseSegments) (ops.map WalRecord.effect)).map (·.2)) := by
  rw [← h.table]
  refine h.tracked.scan (Keyed.keys_applyAll_nodup _ hbase) fun x => ?_
  have hcommitted : w.committedHist x = (w.row x).hist := by
    unfold committedHist
    rw [List.filter_eq_self]
    intro p hp
    obtain ⟨txn, ht⟩ := LogOk.handle_of_hist h.tracked.log hp
    exact (committed_iff h.tracked.inv).mpr ⟨txn, ht, h.allCommitted _ _ ht⟩
  rw [hcommitted, find_effects _ _ (h.hist x)]

end World

end CoreDB
