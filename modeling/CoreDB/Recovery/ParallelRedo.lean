import CoreDB.Recovery.RowSlots
import CoreDB.Table.Committed

/-!
# Redo with several workers (`recovery/recovery_manager.cpp`, sharded replay)

The records to replay are dealt to workers by row id; each worker replays its shard in
order, and the workers' `Begin`, `InsertWithRowId`, `Update`, `Delete` and `Commit` calls
interleave in any way.  `ParallelRedo.step` is the next call of one worker.

All records of a row are in one shard.  So when a call is made on a row, everybody who
has written to the row before has committed by the caller's snapshot (`Inv.settled`), and
what the call does to the row does not depend on what the other workers do.
`parallel_redo_eq_sequential`: the table is, for a new reader and for the allocator of row
ids, the one that replaying the records one after the other leaves.
-/

namespace CoreDB

/-- Where a worker is in `ApplyOp`. -/
inductive ApplyPhase where
  | idle
  | begun (txn : Transaction)
  | applied (txn : Transaction)
deriving DecidableEq, Repr

/-- The transaction that the worker has open. -/
def ApplyPhase.txn : ApplyPhase → Option Transaction
  | .idle => none
  | .begun txn => some txn
  | .applied txn => some txn

structure Worker where
  /-- What is left of the shard, the record that is being applied in front. -/
  shard : List WalRecord
  phase : ApplyPhase := .idle
deriving DecidableEq, Repr

/-- The records whose call has not been made yet. -/
def Worker.pending (k : Worker) : List WalRecord :=
  match k.phase with
  | .applied _ => k.shard.tail
  | _ => k.shard

structure ParallelRedo where
  table : Table
  worker : Nat → Worker
  /-- The records whose calls have been made, in the order of the calls. -/
  applied : List WalRecord := []

namespace ParallelRedo

/-- The shard of worker `w`. -/
def shardOf (numWorkers : Nat) (ops : List WalRecord) (w : Nat) : List WalRecord :=
  ops.filter fun op => op.rowId % numWorkers == w

def start (t : Table) (numWorkers : Nat) (ops : List WalRecord) : ParallelRedo :=
  { table := t, worker := fun w => { shard := shardOf numWorkers ops w } }

/-- The next call of worker `w`, if it has not returned. -/
def step (s : ParallelRedo) (w : Nat) : Option ParallelRedo :=
  match s.worker w with
  | ⟨[], _⟩ => none
  | ⟨op :: rest, .idle⟩ =>
    some { s with
      table := s.table.begun
      worker := Function.update s.worker w ⟨op :: rest, .begun s.table.txnMgr.begin.1⟩ }
  | ⟨op :: rest, .begun txn⟩ =>
    some {
      table := (s.table.redo txn op).2
      worker := Function.update s.worker w ⟨op :: rest, .applied txn⟩
      applied := s.applied ++ [op] }
  | ⟨_ :: rest, .applied txn⟩ =>
    some { s with
      table := { s.table with txnMgr := (s.table.txnMgr.commit txn).2 }
      worker := Function.update s.worker w ⟨rest, .idle⟩ }

/-- All workers have returned. -/
def Joined (s : ParallelRedo) : Prop := ∀ w, (s.worker w).shard = []

/-! ## What a step can be -/

inductive Step (s : ParallelRedo) (w : Nat) : ParallelRedo → Prop where
  | begin (op : WalRecord) (rest : List WalRecord) (hat : s.worker w = ⟨op :: rest, .idle⟩) :
      Step s w { s with
        table := s.table.begun
        worker := Function.update s.worker w ⟨op :: rest, .begun s.table.txnMgr.begin.1⟩ }
  | redo (op : WalRecord) (rest : List WalRecord) (txn : Transaction) (hat : s.worker w = ⟨op :: rest, .begun txn⟩) :
      Step s w {
        table := (s.table.redo txn op).2
        worker := Function.update s.worker w ⟨op :: rest, .applied txn⟩
        applied := s.applied ++ [op] }
  | commit (op : WalRecord) (rest : List WalRecord) (txn : Transaction)
      (hat : s.worker w = ⟨op :: rest, .applied txn⟩) :
      Step s w { s with
        table := { s.table with txnMgr := (s.table.txnMgr.commit txn).2 }
        worker := Function.update s.worker w ⟨rest, .idle⟩ }

theorem step_cases {s s' : ParallelRedo} {w : Nat} (h : s.step w = some s') : Step s w s' := by
  unfold step at h
  split at h
  · cases h
  · next op rest hat =>
    cases h
    exact .begin op rest hat
  · next op rest txn hat =>
    cases h
    exact .redo op rest txn hat
  · next op rest txn hat =>
    cases h
    exact .commit op rest txn hat

/-! ## The invariant -/

/-- A transaction that left its id in a record: it has committed by the snapshot of the
worker whose row it is, or it is the worker's own. -/
def Settled (m : TransactionManager) (phase : ApplyPhase) (f : Nat) : Prop :=
  f = 0 ∨
    match phase with
    | .idle => (m.getStatus f).committedBy m.lastCommitTs = true
    | .begun txn => (m.getStatus f).committedBy txn.snapshotTs = true
    | .applied txn => f = txn.txnId ∨ (m.getStatus f).committedBy m.lastCommitTs = true

/-- The transaction manager and the transactions that workers have open. -/
structure MgrInv (m : TransactionManager) (phase : Nat → ApplyPhase) : Prop where
  last : m.lastCommitTs < m.nextId
  zero : m.status 0 = none
  unused : ∀ f, m.nextId ≤ f → m.status f = none
  txn : ∀ w txn, (phase w).txn = some txn → m.status txn.txnId = none ∧ 0 < txn.txnId ∧ txn.txnId < m.nextId ∧
    txn.snapshotTs ≤ m.lastCommitTs
  distinct : ∀ w w' txn txn', (phase w).txn = some txn → (phase w').txn = some txn' → txn.txnId = txn'.txnId → w = w'

structure Inv (t : Table) (numWorkers : Nat) (ops : List WalRecord) (s : ParallelRedo) : Prop where
  base : s.table.baseSegments = t.baseSegments
  nextRowId : s.table.nextRowId =
    ((s.applied.filter fun op => op.type == .insert).map (·.rowId)).foldl Table.raise t.nextRowId
  slots : ∀ x, slotsOf s.table.delta x =
    (s.applied.filter fun op => op.rowId == x).foldl (Slot.redo (t.rowIdExistsInBase x)) []
  order : ∀ w, shardOf numWorkers ops w =
    (s.applied.filter fun op => op.rowId % numWorkers == w) ++ (s.worker w).pending
  idle : ∀ w, (s.worker w).shard = [] → (s.worker w).phase = .idle
  mgr : MgrInv s.table.txnMgr fun w => (s.worker w).phase
  settled : ∀ a ∈ s.table.delta, ∀ f, f = a.createdTxn ∨ f = a.deletedTxn →
    Settled s.table.txnMgr (s.worker (a.rowId % numWorkers)).phase f

theorem inv_start {t : Table} (hdelta : t.delta = []) (hmgr : t.txnMgr = {}) (numWorkers : Nat)
    (ops : List WalRecord) : Inv t numWorkers ops (start t numWorkers ops) where
  base := rfl
  nextRowId := rfl
  slots := by
    intro x
    show slotsOf t.delta x = _
    rw [hdelta]
    rfl
  order := by
    intro w
    rfl
  idle := fun _ _ => rfl
  mgr := by
    show MgrInv t.txnMgr _
    rw [hmgr]
    exact ⟨by decide, rfl, fun _ _ => rfl, by simp [start, ApplyPhase.txn], by simp [start, ApplyPhase.txn]⟩
  settled := by
    intro a ha
    have ha : a ∈ t.delta := ha
    rw [hdelta] at ha
    cases ha

theorem phase_update (worker : Nat → Worker) (w : Nat) (k : Worker) :
    (fun v => (Function.update worker w k v).phase) = Function.update (fun v => (worker v).phase) w k.phase :=
  funext fun v => Function.apply_update (fun _ k => k.phase) worker w k v

/-- A worker that moves on without making its call keeps the order. -/
theorem order_update {numWorkers : Nat} {ops applied : List WalRecord} {worker : Nat → Worker} {w : Nat} {k : Worker}
    (h : ∀ v, shardOf numWorkers ops v =
      (applied.filter fun op => op.rowId % numWorkers == v) ++ (worker v).pending)
    (hk : k.pending = (worker w).pending) (v : Nat) : shardOf numWorkers ops v =
      (applied.filter fun op => op.rowId % numWorkers == v) ++ (Function.update worker w k v).pending := by
  rw [h v]
  by_cases hv : v = w
  · subst hv
    rw [Function.update_self, hk]
  · rw [Function.update_of_ne hv]

theorem idle_update {worker : Nat → Worker} {w : Nat} {k : Worker}
    (h : ∀ v, (worker v).shard = [] → (worker v).phase = .idle) (hk : k.shard = [] → k.phase = .idle) (v : Nat) :
    (Function.update worker w k v).shard = [] → (Function.update worker w k v).phase = .idle := by
  by_cases hv : v = w
  · subst hv
    rw [Function.update_self]
    exact hk
  · rw [Function.update_of_ne hv]
    exact h v

/-! ### Begin -/

theorem MgrInv.begin {m : TransactionManager} {phase : Nat → ApplyPhase} (h : MgrInv m phase) (w : Nat) :
    MgrInv m.begin.2 (Function.update phase w (.begun m.begin.1)) where
  last := Nat.lt_succ_of_lt h.last
  zero := h.zero
  unused := fun f hf => h.unused f (Nat.le_of_succ_le hf)
  txn := by
    intro v txn hv
    by_cases hvw : v = w
    · subst hvw
      rw [Function.update_self] at hv
      cases hv
      exact ⟨h.unused _ (Nat.le_refl _), Nat.lt_of_le_of_lt (Nat.zero_le _) h.last, Nat.lt_succ_self _, Nat.le_refl _⟩
    · rw [Function.update_of_ne hvw] at hv
      obtain ⟨hst, hpos, hlt, hle⟩ := h.txn v txn hv
      exact ⟨hst, hpos, Nat.lt_succ_of_lt hlt, hle⟩
  distinct := by
    have hnew : ∀ v txn, (phase v).txn = some txn → txn.txnId ≠ m.nextId := by
      intro v txn hv
      have := (h.txn v txn hv).2.2.1
      omega
    intro v v' txn txn' hv hv' heq
    by_cases hvw : v = w
    · by_cases hvw' : v' = w
      · rw [hvw, hvw']
      · subst hvw
        rw [Function.update_self] at hv
        rw [Function.update_of_ne hvw'] at hv'
        cases hv
        exact absurd heq.symm (hnew v' txn' hv')
    · rw [Function.update_of_ne hvw] at hv
      by_cases hvw' : v' = w
      · subst hvw'
        rw [Function.update_self] at hv'
        cases hv'
        exact absurd heq (hnew v txn hv)
      · rw [Function.update_of_ne hvw'] at hv'
        exact h.distinct v v' txn txn' hv hv' heq

section
variable {t : Table} {numWorkers : Nat} {ops : List WalRecord} {s : ParallelRedo} (h : s.Inv t numWorkers ops)
  {w : Nat} {op : WalRecord} {rest : List WalRecord} {txn : Transaction}
include h

theorem Inv.begin (hat : s.worker w = ⟨op :: rest, .idle⟩) :
    Inv t numWorkers ops { s with
      table := s.table.begun
      worker := Function.update s.worker w ⟨op :: rest, .begun s.table.txnMgr.begin.1⟩ } where
  base := h.base
  nextRowId := h.nextRowId
  slots := h.slots
  order := order_update h.order (by rw [hat]; rfl)
  idle := idle_update h.idle (by simp)
  mgr := by
    rw [phase_update]
    exact h.mgr.begin w
  settled := by
    intro a ha f hf
    have hset := h.settled a ha f hf
    by_cases hw : a.rowId % numWorkers = w
    · -- the snapshot of the new transaction is the last commit
      rw [hw, hat] at hset
      rw [hw]
      simp only [Function.update_self]
      exact hset
    · simp only [Function.update_of_ne hw]
      exact hset

/-! ### The call -/

theorem Inv.row_of_pending {v : Nat} (hop : op ∈ (s.worker v).pending) : op.rowId % numWorkers = v := by
  have hmem : op ∈ shardOf numWorkers ops v := by
    rw [h.order v]
    exact List.mem_append_right _ hop
  simpa using (List.mem_filter.mp hmem).2

/-- **What the caller finds is settled.** -/
theorem Inv.settledFor (hat : s.worker w = ⟨op :: rest, .begun txn⟩) {a : DeltaRecord} (ha : a ∈ s.table.delta)
    (hax : a.rowId = op.rowId) : a.SettledFor s.table.txnMgr txn := by
  have hrow : a.rowId % numWorkers = w := by
    rw [hax]
    exact h.row_of_pending (by rw [hat]; simp [Worker.pending])
  have hset : ∀ f, f = a.createdTxn ∨ f = a.deletedTxn →
      f = 0 ∨ (s.table.txnMgr.getStatus f).committedBy txn.snapshotTs = true := by
    intro f hf
    have := h.settled a ha f hf
    rw [hrow, hat] at this
    exact this
  have hactive : s.table.txnMgr.status txn.txnId = none := (h.mgr.txn w txn (by simp only [hat]; rfl)).1
  refine ⟨(hset _ (Or.inl rfl)).imp id fun hc => ?_, (hset _ (Or.inr rfl)).imp id fun hc => ⟨fun heq => ?_, ?_⟩⟩
  · simp [TransactionManager.sees, hc]
  · rw [heq] at hc
    simp [TransactionManager.getStatus, hactive, TxnStatus.committedBy] at hc
  · simp only [TxnStatus.committedBy, Bool.and_eq_true, beq_iff_eq] at hc
    exact hc.1

omit h in
theorem settled_applied {m : TransactionManager} {f : Nat} (hle : txn.snapshotTs ≤ m.lastCommitTs)
    (hf : Settled m (.begun txn) f) : Settled m (.applied txn) f := by
  refine hf.imp id fun hc => Or.inr ?_
  simp only [TxnStatus.committedBy, Bool.and_eq_true, beq_iff_eq, decide_eq_true_iff] at hc ⊢
  exact ⟨hc.1, Nat.le_trans hc.2 hle⟩

omit h in
theorem MgrInv.redo {m : TransactionManager} {phase : Nat → ApplyPhase} (hm : MgrInv m phase)
    (hw : phase w = .begun txn) : MgrInv m (Function.update phase w (.applied txn)) := by
  have htxn : ∀ v, (Function.update phase w (.applied txn) v).txn = (phase v).txn := by
    intro v
    by_cases hv : v = w
    · subst hv
      rw [Function.update_self, hw]
      rfl
    · rw [Function.update_of_ne hv]
  refine ⟨hm.last, hm.zero, hm.unused, fun v txn' hv => ?_, fun v v' a b hv hv' => ?_⟩
  · rw [htxn] at hv
    exact hm.txn v txn' hv
  · rw [htxn] at hv hv'
    exact hm.distinct v v' a b hv hv'

/-- The ids in the records of a row whose call has been made. -/
theorem Inv.settled_redo (hat : s.worker w = ⟨op :: rest, .begun txn⟩)
    (hdone : Redone s.table (s.table.redo txn op).2 txn op) :
    ∀ a ∈ (s.table.redo txn op).2.delta, ∀ f, f = a.createdTxn ∨ f = a.deletedTxn →
      Settled s.table.txnMgr
        (Function.update s.worker w ⟨op :: rest, .applied txn⟩ (a.rowId % numWorkers)).phase f := by
  obtain ⟨-, -, -, hle⟩ := h.mgr.txn w txn (by simp only [hat]; rfl)
  have hrow : op.rowId % numWorkers = w := h.row_of_pending (by rw [hat]; simp [Worker.pending])
  intro a ha f hf
  by_cases hax : a.rowId = op.rowId
  · have hold : ∀ a ∈ s.table.delta, a.rowId = op.rowId →
        Settled s.table.txnMgr (.applied txn) a.createdTxn ∧ Settled s.table.txnMgr (.applied txn) a.deletedTxn := by
      intro a ha hax
      have hset : ∀ f, f = a.createdTxn ∨ f = a.deletedTxn → Settled s.table.txnMgr (.begun txn) f := by
        intro f hf
        have := h.settled a ha f hf
        rw [hax, hrow, hat] at this
        exact this
      exact ⟨settled_applied hle (hset _ (Or.inl rfl)), settled_applied hle (hset _ (Or.inr rfl))⟩
    have hids := hdone.ids (Settled s.table.txnMgr (.applied txn)) (Or.inl rfl) (Or.inr (Or.inl rfl)) hold a ha hax
    rw [hax, hrow]
    simp only [Function.update_self]
    rcases hf with rfl | rfl
    · exact hids.1
    · exact hids.2
  · have hmem : a ∈ s.table.delta := by
      have hin : a ∈ (s.table.redo txn op).2.delta.filter fun b => b.rowId == a.rowId :=
        List.mem_filter.mpr ⟨ha, by simp⟩
      rw [hdone.others a.rowId hax] at hin
      exact List.mem_of_mem_filter hin
    have hset := h.settled a hmem f hf
    by_cases hw : a.rowId % numWorkers = w
    · rw [hw, hat] at hset
      rw [hw]
      simp only [Function.update_self]
      exact settled_applied hle hset
    · simp only [Function.update_of_ne hw]
      exact hset

theorem Inv.redo (hat : s.worker w = ⟨op :: rest, .begun txn⟩) :
    Inv t numWorkers ops {
      table := (s.table.redo txn op).2
      worker := Function.update s.worker w ⟨op :: rest, .applied txn⟩
      applied := s.applied ++ [op] } := by
  obtain ⟨-, hpos, -, -⟩ := h.mgr.txn w txn (by simp only [hat]; rfl)
  have hrow : op.rowId % numWorkers = w := h.row_of_pending (by rw [hat]; simp [Worker.pending])
  have hdone : Redone s.table (s.table.redo txn op).2 txn op :=
    redo_slots (Nat.ne_of_gt hpos) fun a ha hax => h.settledFor hat ha hax
  have hinBase : s.table.rowIdExistsInBase = t.rowIdExistsInBase := by
    funext x
    unfold Table.rowIdExistsInBase
    rw [h.base]
  refine ⟨hdone.base.trans h.base, ?_, fun x => ?_, fun v => ?_, idle_update h.idle (by simp), ?_, ?_⟩
  · rw [hdone.nextRowId, h.nextRowId, List.filter_append]
    by_cases hty : op.type = .insert
    · simp [hty]
    · simp [hty]
  · rw [List.filter_append]
    by_cases hx : op.rowId = x
    · subst hx
      rw [hdone.slots, hinBase, h.slots]
      simp
    · have hne : (op.rowId == x) = false := by simpa using hx
      rw [slotsOf, hdone.others x (Ne.symm hx)]
      simp only [List.filter_cons, hne, List.filter_nil, Bool.false_eq_true, if_false, List.append_nil]
      exact h.slots x
  · rw [h.order v, List.filter_append]
    by_cases hv : v = w
    · subst hv
      have hself : (op.rowId % numWorkers == v) = true := by simpa using hrow
      simp [hat, Worker.pending, hself]
    · have hother : (op.rowId % numWorkers == v) = false := by
        rw [hrow]
        simpa using Ne.symm hv
      simp [hother, Function.update_of_ne hv]
  · show MgrInv (s.table.redo txn op).2.txnMgr _
    rw [hdone.mgr, phase_update]
    exact h.mgr.redo (by simp only [hat])
  · show ∀ a ∈ (s.table.redo txn op).2.delta, ∀ f, _ → Settled (s.table.redo txn op).2.txnMgr _ f
    rw [hdone.mgr]
    exact h.settled_redo hat hdone

/-! ### Commit -/

omit h in
theorem getStatus_commit (m : TransactionManager) (txn : Transaction) (f : Nat) :
    (m.commit txn).2.getStatus f =
      if f = txn.txnId then { state := .committed, commitTs := m.nextId } else m.getStatus f := by
  unfold TransactionManager.getStatus TransactionManager.commit
  simp only [Function.update_apply]
  split <;> rfl

omit h in
/-- What had committed has committed. -/
theorem committedBy_commit {m : TransactionManager} (htxn : m.status txn.txnId = none) {f ts : Nat}
    (hf : (m.getStatus f).committedBy ts = true) : ((m.commit txn).2.getStatus f).committedBy ts = true := by
  rw [getStatus_commit]
  by_cases heq : f = txn.txnId
  · subst heq
    simp [TransactionManager.getStatus, htxn, TxnStatus.committedBy] at hf
  · rw [if_neg heq]
    exact hf

omit h in
theorem committedBy_mono {st : TxnStatus} {ts ts' : Nat} (hle : ts ≤ ts') (hst : st.committedBy ts = true) :
    st.committedBy ts' = true := by
  simp only [TxnStatus.committedBy, Bool.and_eq_true, beq_iff_eq, decide_eq_true_iff] at hst ⊢
  exact ⟨hst.1, Nat.le_trans hst.2 hle⟩

omit h in
theorem MgrInv.commit {m : TransactionManager} {phase : Nat → ApplyPhase} (hm : MgrInv m phase)
    (hw : phase w = .applied txn) : MgrInv (m.commit txn).2 (Function.update phase w .idle) := by
  obtain ⟨-, hpos, hlt, -⟩ := hm.txn w txn (by rw [hw]; rfl)
  have hother : ∀ v txn', (Function.update phase w .idle v).txn = some txn' → (phase v).txn = some txn' ∧ v ≠ w := by
    intro v txn' hv
    by_cases hvw : v = w
    · subst hvw
      rw [Function.update_self] at hv
      cases hv
    · rw [Function.update_of_ne hvw] at hv
      exact ⟨hv, hvw⟩
  have hstatus : ∀ f, f ≠ txn.txnId → (m.commit txn).2.status f = m.status f := fun f hf =>
    Function.update_of_ne hf _ _
  refine ⟨Nat.lt_succ_self _, ?_, fun f hf => ?_, fun v txn' hv => ?_, fun v v' a b hv hv' heq => ?_⟩
  · rw [hstatus 0 (by omega)]
    exact hm.zero
  · have hf : m.nextId + 1 ≤ f := hf
    rw [hstatus f (by omega)]
    exact hm.unused f (by omega)
  · obtain ⟨hv, hne⟩ := hother v txn' hv
    obtain ⟨hst, hpos', hlt', hle⟩ := hm.txn v txn' hv
    refine ⟨?_, hpos', Nat.lt_succ_of_lt hlt', Nat.le_trans hle (Nat.le_of_lt hm.last)⟩
    rw [hstatus txn'.txnId fun heq => hne (hm.distinct v w txn' txn hv (by rw [hw]; rfl) heq)]
    exact hst
  · exact hm.distinct v v' a b (hother v a hv).1 (hother v' b hv').1 heq

theorem Inv.commit (hat : s.worker w = ⟨op :: rest, .applied txn⟩) :
    Inv t numWorkers ops { s with
      table := { s.table with txnMgr := (s.table.txnMgr.commit txn).2 }
      worker := Function.update s.worker w ⟨rest, .idle⟩ } where
  base := h.base
  nextRowId := h.nextRowId
  slots := h.slots
  order := order_update h.order (by rw [hat]; rfl)
  idle := idle_update h.idle fun _ => rfl
  mgr := by
    rw [phase_update]
    exact h.mgr.commit (by simp only [hat])
  settled := by
    have hactive := (h.mgr.txn w txn (by simp only [hat]; rfl)).1
    have hlast : s.table.txnMgr.lastCommitTs ≤ (s.table.txnMgr.commit txn).2.lastCommitTs := Nat.le_of_lt h.mgr.last
    intro a ha f hf
    have hset := h.settled a ha f hf
    by_cases hw : a.rowId % numWorkers = w
    · rw [hw, hat] at hset
      rw [hw]
      simp only [Function.update_self]
      refine hset.imp id fun hc => ?_
      rcases hc with rfl | hc
      · show ((s.table.txnMgr.commit txn).2.getStatus txn.txnId).committedBy s.table.txnMgr.nextId = true
        rw [getStatus_commit, if_pos rfl]
        simp [TxnStatus.committedBy]
      · exact committedBy_mono hlast (committedBy_commit hactive hc)
    · simp only [Function.update_of_ne hw]
      refine hset.imp id fun hc => ?_
      -- another worker's row: its snapshot stays, and the last commit only grows
      cases hphase : (s.worker (a.rowId % numWorkers)).phase with
      | idle =>
        rw [hphase] at hc
        exact committedBy_mono hlast (committedBy_commit hactive hc)
      | begun txn' =>
        rw [hphase] at hc
        exact committedBy_commit hactive hc
      | applied txn' =>
        rw [hphase] at hc
        exact hc.imp id fun hc => committedBy_mono hlast (committedBy_commit hactive hc)

/-- **One call** of one worker keeps the invariant. -/
theorem Inv.step {s' : ParallelRedo} (hs : s.step w = some s') : s'.Inv t numWorkers ops := by
  cases step_cases hs with
  | begin op rest hat => exact h.begin hat
  | redo op rest txn hat => exact h.redo hat
  | commit op rest txn hat => exact h.commit hat

end

/-- **Every interleaving** keeps it. -/
theorem inv_run {t : Table} (hdelta : t.delta = []) (hmgr : t.txnMgr = {}) {numWorkers : Nat} {ops : List WalRecord}
    {schedule : List Nat} {s : ParallelRedo} (hrun : Runs.run step (start t numWorkers ops) schedule = some s) :
    s.Inv t numWorkers ops :=
  Runs.run_invariant (Q := fun _ _ => True) (fun _ _ _ h _ hs => h.step hs) (inv_start hdelta hmgr numWorkers ops)
    (Runs.along_of_forall _ fun _ _ _ => trivial) hrun

/-! ## When all workers have returned -/

section
variable {t : Table} {numWorkers : Nat} {ops : List WalRecord} {s : ParallelRedo} (h : s.Inv t numWorkers ops)
  (hjoined : s.Joined)
include h hjoined

/-- The calls on a row have been made in the order of the log. -/
theorem Inv.applied_row (x : Nat) :
    (s.applied.filter fun op => op.rowId == x) = ops.filter fun op => op.rowId == x := by
  have hpending : (s.worker (x % numWorkers)).pending = [] := by
    have hnil := hjoined (x % numWorkers)
    unfold Worker.pending
    split <;> simp [hnil]
  have horder := h.order (x % numWorkers)
  rw [hpending, List.append_nil] at horder
  have hsplit : ∀ l : List WalRecord, (l.filter fun op => op.rowId == x) =
      (l.filter fun op => op.rowId % numWorkers == x % numWorkers).filter fun op => op.rowId == x := by
    intro l
    rw [List.filter_filter]
    apply List.filter_congr
    intro op _
    by_cases hop : op.rowId = x <;> simp [hop]
  rw [hsplit s.applied, ← horder, hsplit ops]
  rfl

theorem Inv.final {a : DeltaRecord} (ha : a ∈ s.table.delta) : a.Final s.table.txnMgr := by
  intro f hf
  have hset := h.settled a ha f hf
  rw [h.idle _ (hjoined _)] at hset
  exact hset

end

/-- All calls have been made. -/
theorem Inv.applied_perm {t : Table} {numWorkers : Nat} {ops : List WalRecord} {s : ParallelRedo}
    (h : s.Inv t numWorkers ops) (hjoined : s.Joined) : s.applied.Perm ops := by
  have hkeyed : (s.applied.map fun op => (op.rowId, op)).Perm (ops.map fun op => (op.rowId, op)) := by
    refine Keyed.perm_of_keys fun x => ?_
    have hfilter : ∀ l : List WalRecord, (l.map fun op => (op.rowId, op)).filter (fun p => p.1 == x) =
        (l.filter fun op => op.rowId == x).map fun op => (op.rowId, op) := fun l => List.filter_map
    rw [hfilter, hfilter, h.applied_row hjoined]
  have hmap : ∀ l : List WalRecord, (l.map fun op => (op.rowId, op)).map (·.2) = l := fun l => by
    rw [List.map_map]
    exact List.map_id l
  have := hkeyed.map (·.2)
  rwa [hmap, hmap] at this

theorem raise_eq_max (next id : Nat) : Table.raise next id = max next (id + 1) := by
  unfold Table.raise
  split <;> omega

/-- Raising the allocator in another order. -/
theorem raise_right_comm : RightCommutative Table.raise where
  right_comm := by
    intro next a b
    simp only [raise_eq_max]
    omega

section
variable {t : Table} {ops : List WalRecord} {n n' : Nat} {s s' : ParallelRedo} (h : s.Inv t n ops)
  (h' : s'.Inv t n' ops) (hj : s.Joined) (hj' : s'.Joined)
include h h' hj hj'

theorem nextRowId_eq : s.table.nextRowId = s'.table.nextRowId := by
  have hperm := (h.applied_perm hj).trans (h'.applied_perm hj').symm
  have := raise_right_comm
  rw [h.nextRowId, h'.nextRowId]
  exact ((hperm.filter _).map _).foldl_eq _

theorem slots_eq (x : Nat) : slotsOf s.table.delta x = slotsOf s'.table.delta x := by
  rw [h.slots, h'.slots, h.applied_row hj, h'.applied_row hj']

/-- A new reader finds the same rows. -/
theorem newReaderRows_eq : Option.Rel List.Perm s.table.newReaderRows s'.table.newReaderRows := by
  have hmerge : ∀ {u : ParallelRedo} {k : Nat}, u.Inv t k ops → u.Joined →
      (∀ x, Keyed.find (mergeDelta u.table.txnMgr.begin.2 u.table.txnMgr.begin.1 u.table.delta).fromDelta x =
        (((slotsOf u.table.delta x).filter Slot.shows).getLast?).map (·.row)) ∧
      (∀ x, x ∈ (mergeDelta u.table.txnMgr.begin.2 u.table.txnMgr.begin.1 u.table.delta).suppressBase ↔
        ∃ z ∈ slotsOf u.table.delta x, (z.shows || z.hides) = true) := by
    intro u k hu hju
    refine mergeDelta_slots ?_ (Nat.lt_of_le_of_lt (Nat.zero_le _) hu.mgr.last) fun a ha => hu.final hju ha
    simp [TransactionManager.getStatus, hu.mgr.zero]
  obtain ⟨hfind, hsup⟩ := hmerge h hj
  obtain ⟨hfind', hsup'⟩ := hmerge h' hj'
  have hdelta := Keyed.perm_of_find_eq (mergeDelta_spec ..).1 (mergeDelta_spec ..).1 fun x =>
    (hfind x).trans ((congrArg (fun l => ((l.filter Slot.shows).getLast?).map (·.row))
      (slots_eq h h' hj hj' x)).trans (hfind' x).symm)
  have hsup_eq : ∀ x, x ∈ (mergeDelta s.table.txnMgr.begin.2 s.table.txnMgr.begin.1 s.table.delta).suppressBase ↔
      x ∈ (mergeDelta s'.table.txnMgr.begin.2 s'.table.txnMgr.begin.1 s'.table.delta).suppressBase := by
    intro x
    rw [hsup, hsup', slots_eq h h' hj hj']
  unfold Table.newReaderRows materializeVisibleRows materializeKeyed Table.snapshotForScan
  simp only [h.base, h'.base, fun seg rs => rowsExcept_congr seg hsup_eq rs]
  cases collect _ t.baseSegments with
  | none => exact Option.Rel.none
  | some rows => exact Option.Rel.some (((hdelta.append_right rows).map _))

end

/-! ## One worker -/

/-- The three calls of `ApplyOp`, one after the other. -/
theorem run_applyOp (s : ParallelRedo) {w : Nat} {op : WalRecord} {rest : List WalRecord}
    (hat : s.worker w = ⟨op :: rest, .idle⟩) :
    Runs.run step s [w, w, w] = some {
      table := s.table.applyOp op
      worker := Function.update s.worker w ⟨rest, .idle⟩
      applied := s.applied ++ [op] } := by
  simp only [Runs.run, step, hat, Function.update_self, Function.update_idem]
  rfl

/-- **A worker by itself** replays its shard one record after the other. -/
theorem run_alone (w : Nat) : ∀ (l : List WalRecord) (s : ParallelRedo), s.worker w = ⟨l, .idle⟩ →
    ∃ schedule s', Runs.run step s schedule = some s' ∧ s'.table = l.foldl Table.applyOp s.table ∧
      s'.worker = Function.update s.worker w ⟨[], .idle⟩ := by
  intro l
  induction l with
  | nil =>
    intro s hat
    refine ⟨[], s, rfl, rfl, ?_⟩
    rw [← hat, Function.update_eq_self]
  | cons op l ih =>
    intro s hat
    obtain ⟨schedule, s', hrun, htable, hworker⟩ := ih {
      table := s.table.applyOp op
      worker := Function.update s.worker w ⟨l, .idle⟩
      applied := s.applied ++ [op] } (Function.update_self ..)
    refine ⟨[w, w, w] ++ schedule, s', Runs.run_append_eq_some.mpr ⟨_, run_applyOp s hat, hrun⟩, htable, ?_⟩
    rw [hworker, Function.update_idem]

/-- The sequential replay is a run of one worker. -/
theorem run_sequential (t : Table) (ops : List WalRecord) : ∃ schedule s,
    Runs.run step (start t 1 ops) schedule = some s ∧ s.Joined ∧ s.table = ops.foldl Table.applyOp t := by
  have hshard : ∀ w, shardOf 1 ops w = if w = 0 then ops else [] := by
    intro w
    unfold shardOf
    by_cases hw : w = 0
    · simp [hw, Nat.mod_one]
    · simp [hw, Ne.symm hw, Nat.mod_one]
  obtain ⟨schedule, s, hrun, htable, hworker⟩ := run_alone 0 ops (start t 1 ops) (by simp [start, hshard])
  refine ⟨schedule, s, hrun, fun w => ?_, htable⟩
  rw [hworker]
  by_cases hw : w = 0
  · subst hw
    rw [Function.update_self]
  · rw [Function.update_of_ne hw]
    simp [start, hshard, hw]

/-! ## Every interleaving can be completed -/

/-- Who was dealt nothing has nothing to do. -/
theorem shard_eq_nil {t : Table} {numWorkers : Nat} {ops : List WalRecord} {schedule : List Nat} {s : ParallelRedo}
    (hrun : Runs.run step (start t numWorkers ops) schedule = some s) :
    ∀ w, shardOf numWorkers ops w = [] → (s.worker w).shard = [] := by
  refine Runs.run_invariant (Q := fun _ _ => True)
    (I := fun s => ∀ w, shardOf numWorkers ops w = [] → (s.worker w).shard = []) ?_ (fun _ hw => hw)
    (Runs.along_of_forall _ fun _ _ _ => trivial) hrun
  intro s v s' h _ hs w hw
  have hstuck : ∀ {op : WalRecord} {rest : List WalRecord} {phase : ApplyPhase}, s.worker v = ⟨op :: rest, phase⟩ →
      w ≠ v := by
    rintro op rest phase hat rfl
    have hnil := h w hw
    rw [hat] at hnil
    cases hnil
  cases step_cases hs with
  | begin op rest hat =>
    simp only [Function.update_of_ne (hstuck hat)]
    exact h w hw
  | redo op rest txn hat =>
    simp only [Function.update_of_ne (hstuck hat)]
    exact h w hw
  | commit op rest txn hat =>
    simp only [Function.update_of_ne (hstuck hat)]
    exact h w hw

theorem shardOf_eq_nil {numWorkers : Nat} (hn : 0 < numWorkers) (ops : List WalRecord) {w : Nat}
    (hw : numWorkers ≤ w) : shardOf numWorkers ops w = [] := by
  unfold shardOf
  rw [List.filter_eq_nil_iff]
  intro op _ hop
  have hlt := Nat.mod_lt op.rowId hn
  have heq : op.rowId % numWorkers = w := by simpa using hop
  omega

/-- A worker can return without the others moving. -/
theorem finish (s : ParallelRedo) (w : Nat) (h : (s.worker w).shard = [] → (s.worker w).phase = .idle) :
    ∃ schedule s', Runs.run step s schedule = some s' ∧ s'.worker = Function.update s.worker w ⟨[], .idle⟩ := by
  -- once the record at hand is committed, the worker goes on by itself
  have hrest : ∀ (first : List Nat) (s1 : ParallelRedo) (rest : List WalRecord), Runs.run step s first = some s1 →
      s1.worker = Function.update s.worker w ⟨rest, .idle⟩ →
      ∃ schedule s', Runs.run step s schedule = some s' ∧ s'.worker = Function.update s.worker w ⟨[], .idle⟩ := by
    intro first s1 rest hfirst hworker
    obtain ⟨schedule, s', hrun, -, hw⟩ := run_alone w rest s1 (by rw [hworker, Function.update_self])
    refine ⟨first ++ schedule, s', Runs.run_append_eq_some.mpr ⟨s1, hfirst, hrun⟩, ?_⟩
    rw [hw, hworker, Function.update_idem]
  match hat : s.worker w with
  | ⟨[], phase⟩ =>
    rw [hat] at h
    obtain rfl := h rfl
    exact ⟨[], s, rfl, by rw [← hat, Function.update_eq_self]⟩
  | ⟨op :: rest, .idle⟩ => exact hrest [w, w, w] _ rest (run_applyOp s hat) rfl
  | ⟨op :: rest, .begun txn⟩ =>
    refine hrest [w, w] {
      table := { (s.table.redo txn op).2 with txnMgr := ((s.table.redo txn op).2.txnMgr.commit txn).2 }
      worker := Function.update s.worker w ⟨rest, .idle⟩
      applied := s.applied ++ [op] } rest ?_ rfl
    simp only [Runs.run, step, hat, Function.update_self, Function.update_idem]
  | ⟨op :: rest, .applied txn⟩ =>
    refine hrest [w] { s with
      table := { s.table with txnMgr := (s.table.txnMgr.commit txn).2 }
      worker := Function.update s.worker w ⟨rest, .idle⟩ } rest ?_ rfl
    simp only [Runs.run, step, hat]

theorem exists_joined (n : Nat) : ∀ s : ParallelRedo, (∀ w, (s.worker w).shard = [] → (s.worker w).phase = .idle) →
    (∀ w, n ≤ w → (s.worker w).shard = []) → ∃ schedule s', Runs.run step s schedule = some s' ∧ s'.Joined := by
  induction n with
  | zero =>
    intro s _ hempty
    exact ⟨[], s, rfl, fun w => hempty w (Nat.zero_le w)⟩
  | succ n ih =>
    intro s hidle hempty
    obtain ⟨first, s1, hfirst, hworker⟩ := finish s n (hidle n)
    obtain ⟨schedule, s', hrun, hjoined⟩ := ih s1
      (by rw [hworker]; exact idle_update hidle fun _ => rfl)
      (by
        intro w hw
        rw [hworker]
        by_cases hwn : w = n
        · subst hwn
          rw [Function.update_self]
        · rw [Function.update_of_ne hwn]
          exact hempty w (by omega))
    exact ⟨first ++ schedule, s', Runs.run_append_eq_some.mpr ⟨s1, hfirst, hrun⟩, hjoined⟩

end ParallelRedo

/-- **Parallel redo is sequential redo.**  For every table without delta records, every
list of records and every interleaving of the workers' calls: the workers can always go
on until all have returned, and then the table gives a new reader the rows, and the
allocator the next row id, that replaying the records one after the other would give. -/
theorem parallel_redo_eq_sequential (t : Table) (hdelta : t.delta = []) (hmgr : t.txnMgr = {})
    (ops : List WalRecord) (numWorkers : Nat) (hn : 0 < numWorkers) (schedule : List Nat) (s : ParallelRedo)
    (hrun : Runs.run ParallelRedo.step (ParallelRedo.start t numWorkers ops) schedule = some s) :
    (∃ more s', Runs.run ParallelRedo.step s more = some s' ∧ s'.Joined) ∧
      (s.Joined → s.table.nextRowId = (ops.foldl Table.applyOp t).nextRowId ∧
        Option.Rel List.Perm s.table.newReaderRows (ops.foldl Table.applyOp t).newReaderRows) := by
  have h := ParallelRedo.inv_run hdelta hmgr hrun
  refine ⟨ParallelRedo.exists_joined numWorkers s h.idle fun w hw =>
    ParallelRedo.shard_eq_nil hrun w (ParallelRedo.shardOf_eq_nil hn ops hw), fun hjoined => ?_⟩
  obtain ⟨alone, s', hrun', hjoined', htable⟩ := ParallelRedo.run_sequential t ops
  have h' := ParallelRedo.inv_run hdelta hmgr hrun'
  rw [← htable]
  exact ⟨ParallelRedo.nextRowId_eq h h' hjoined hjoined', ParallelRedo.newReaderRows_eq h h' hjoined hjoined'⟩

/-- Rows 1 and 2 are inserted, 1 is updated and 2 deleted, and a row that is not there is
updated. -/
def fiveRecords : List WalRecord :=
  [{ type := .insert, rowId := 1, row := [.int64 7#64] }, { type := .insert, rowId := 2, row := [.int64 8#64] },
    { type := .update, rowId := 1, row := [.int64 9#64] }, { type := .delete, rowId := 2 },
    { type := .update, rowId := 5, row := [.int64 1#64] }]

/-- Two workers in turn, the second a call ahead. -/
def inTurn : List Nat := [1, 0, 1, 0, 1, 0, 1, 0, 1, 0, 1, 0, 1, 1, 1]

theorem parallel_redo_inTurn : ∃ s,
    Runs.run ParallelRedo.step (ParallelRedo.start { userSchema := oneColumn } 2 fiveRecords) inTurn = some s ∧
      s.Joined ∧ s.table.nextRowId = 3 ∧ Option.Rel List.Perm s.table.newReaderRows (some [[.int64 9#64]]) := by
  obtain ⟨s, hrun, hdone⟩ := Runs.exists_of_any
    (o := Runs.run ParallelRedo.step (ParallelRedo.start { userSchema := oneColumn } 2 fiveRecords) inTurn)
    (p := fun s => (s.worker 0).shard.isEmpty && (s.worker 1).shard.isEmpty) (by decide +kernel)
  obtain ⟨h0, h1⟩ := Bool.and_eq_true_iff.mp hdone
  have hjoined : s.Joined := by
    intro w
    match w with
    | 0 => exact List.isEmpty_iff.mp h0
    | 1 => exact List.isEmpty_iff.mp h1
    | w + 2 => exact ParallelRedo.shard_eq_nil hrun _ (ParallelRedo.shardOf_eq_nil (by decide) _ (by omega))
  obtain ⟨hnext, hrows⟩ := (parallel_redo_eq_sequential { userSchema := oneColumn } rfl rfl fiveRecords 2 (by decide)
    inTurn s hrun).2 hjoined
  refine ⟨s, hrun, hjoined, ?_, ?_⟩
  · rw [hnext]
    decide +kernel
  · rw [show (some [[.int64 9#64]] : Option (List Row)) =
      (fiveRecords.foldl Table.applyOp { userSchema := oneColumn }).newReaderRows by decide +kernel]
    exact hrows

end CoreDB
