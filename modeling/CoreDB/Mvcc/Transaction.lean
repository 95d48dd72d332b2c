import CoreDB.Lib.Runs
import Mathlib.Data.List.Sort
import Mathlib.Data.List.Perm.Basic

/-!
# Transactions (`mvcc/transaction.h`, `mvcc/transaction.cpp`)

`TransactionManager` hands out transaction ids and commit timestamps from one
counter and keeps the snapshots in use.  Callers hold the `Transaction` handles;
`Clients` is the manager together with every handle it has issued, and
`Clients.step` is one `Begin`, `Commit` or `Abort` by whoever holds the handle.
A handle is resolved at most once: other calls are not steps.  The 64-bit
counter is a natural number here.

`Clients.Inv` is what every run keeps; `Clients.Later` is what can change from
one moment to a later one.
-/

namespace CoreDB

inductive TxnState where
  | active
  | committed
  | aborted
deriving DecidableEq, Repr

structure Transaction where
  txnId : Nat := 0
  snapshotTs : Nat := 0
  commitTs : Nat := 0
  state : TxnState := .active
deriving DecidableEq, Repr

structure TxnStatus where
  state : TxnState := .active
  commitTs : Nat := 0
deriving DecidableEq, Repr

/-- Committed, at or before `ts`. -/
def TxnStatus.committedBy (st : TxnStatus) (ts : Nat) : Bool :=
  st.state == .committed && decide (st.commitTs ≤ ts)

structure TransactionManager where
  nextId : Nat := 1
  lastCommitTs : Nat := 0
  /-- A `std::multiset`: the list is kept in order. -/
  activeSnapshots : List Nat := []
  activeTxnIds : List Nat := []
  status : Nat → Option TxnStatus := fun _ => none

namespace TransactionManager

def begin (m : TransactionManager) : Transaction × TransactionManager :=
  let txn : Transaction := { txnId := m.nextId, snapshotTs := m.lastCommitTs, state := .active }
  (txn, { m with
    nextId := m.nextId + 1
    activeSnapshots := m.activeSnapshots.orderedInsert (· ≤ ·) txn.snapshotTs
    activeTxnIds := txn.txnId :: m.activeTxnIds })

def commit (m : TransactionManager) (txn : Transaction) : Transaction × TransactionManager :=
  let txn := { txn with commitTs := m.nextId, state := .committed }
  (txn, { m with
    nextId := m.nextId + 1
    status := Function.update m.status txn.txnId (some { state := .committed, commitTs := txn.commitTs })
    lastCommitTs := txn.commitTs
    activeTxnIds := m.activeTxnIds.erase txn.txnId
    activeSnapshots := m.activeSnapshots.erase txn.snapshotTs })

def abort (m : TransactionManager) (txn : Transaction) : Transaction × TransactionManager :=
  let txn := { txn with state := .aborted }
  (txn, { m with
    status := Function.update m.status txn.txnId (some { state := .aborted, commitTs := 0 })
    activeTxnIds := m.activeTxnIds.erase txn.txnId
    activeSnapshots := m.activeSnapshots.erase txn.snapshotTs })

/-- An id without an entry reports as active. -/
def getStatus (m : TransactionManager) (txnId : Nat) : TxnStatus := (m.status txnId).getD {}

def oldestActiveSnapshot (m : TransactionManager) : Nat := m.activeSnapshots.headD m.lastCommitTs

def activeTransactionCount (m : TransactionManager) : Nat := m.activeTxnIds.length

end TransactionManager

/-! ## The manager and its clients -/

structure Clients where
  mgr : TransactionManager := {}
  /-- The handle issued for a transaction id, as its holder sees it. -/
  handle : Nat → Option Transaction := fun _ => none

inductive TxnOp where
  | begin
  | commit (t : Nat)
  | abort (t : Nat)
deriving DecidableEq, Repr

namespace Clients

/-- The handle of `t`, while it is active. -/
def active (c : Clients) (t : Nat) : Option Transaction :=
  (c.handle t).filter fun txn => txn.state == .active

def put (c : Clients) (p : Transaction × TransactionManager) : Clients :=
  { mgr := p.2, handle := Function.update c.handle p.1.txnId (some p.1) }

def step (c : Clients) : TxnOp → Option Clients
  | .begin => some (c.put c.mgr.begin)
  | .commit t =>
    match c.active t with
    | some txn => some (c.put (c.mgr.commit txn))
    | none => none
  | .abort t =>
    match c.active t with
    | some txn => some (c.put (c.mgr.abort txn))
    | none => none

end Clients

/-- What the manager has on record for a handle. -/
def Transaction.recorded (txn : Transaction) : Option TxnStatus :=
  match txn.state with
  | .active => none
  | .committed => some { state := .committed, commitTs := txn.commitTs }
  | .aborted => some { state := .aborted, commitTs := 0 }

/-- The invariant of `Begin`, `Commit` and `Abort` runs. -/
structure Clients.Inv (c : Clients) : Prop where
  id : ∀ t txn, c.handle t = some txn → txn.txnId = t ∧ 0 < t ∧ t < c.mgr.nextId
  snap : ∀ t txn, c.handle t = some txn → txn.snapshotTs < t ∧ txn.snapshotTs ≤ c.mgr.lastCommitTs
  status : ∀ t, c.mgr.status t = (c.handle t).bind Transaction.recorded
  commitTs : ∀ t txn, c.handle t = some txn → txn.state = .committed →
    t < txn.commitTs ∧ txn.commitTs ≤ c.mgr.lastCommitTs
  commitInj : ∀ t u txn utx, c.handle t = some txn → c.handle u = some utx → txn.state = .committed →
    utx.state = .committed → txn.commitTs = utx.commitTs → t = u
  last : c.mgr.lastCommitTs < c.mgr.nextId
  activeIds : ∀ t, t ∈ c.mgr.activeTxnIds ↔ ∃ txn, c.handle t = some txn ∧ txn.state = .active
  activeNodup : c.mgr.activeTxnIds.Nodup
  snapshots : c.mgr.activeSnapshots.Perm
    (c.mgr.activeTxnIds.map fun t => ((c.handle t).map (·.snapshotTs)).getD 0)
  sorted : c.mgr.activeSnapshots.Pairwise (· ≤ ·)

/-- From `c` to a later moment `c'`: handles stay, a resolved one is final, new
commit timestamps come from the counter, and the watermark does not fall. -/
structure Clients.Later (c c' : Clients) : Prop where
  handle : ∀ t txn, c.handle t = some txn → ∃ txn', c'.handle t = some txn' ∧
    txn'.snapshotTs = txn.snapshotTs ∧ (txn.state ≠ .active ∨ txn'.state = .active → txn' = txn)
  fresh : ∀ t txn', c'.handle t = some txn' → txn'.state = .committed →
    c.handle t = some txn' ∨ c.mgr.nextId ≤ txn'.commitTs
  begun : ∀ t txn', c'.handle t = some txn' → c.handle t = none → c.mgr.lastCommitTs ≤ txn'.snapshotTs
  oldest : c.mgr.oldestActiveSnapshot ≤ c'.mgr.oldestActiveSnapshot
  nextId : c.mgr.nextId ≤ c'.mgr.nextId
  last : c.mgr.lastCommitTs ≤ c'.mgr.lastCommitTs

namespace Clients

theorem active_eq_some {c : Clients} {t : Nat} {txn : Transaction} :
    c.active t = some txn ↔ c.handle t = some txn ∧ txn.state = .active := by
  simp [active, Option.filter_eq_some_iff]

theorem inv_empty : ({} : Clients).Inv where
  id := by simp
  snap := by simp
  status := by simp
  commitTs := by simp
  commitInj := by simp
  last := by simp
  activeIds := by simp
  activeNodup := by simp
  snapshots := by simp
  sorted := by simp

/-! ### The watermark -/

section
variable {c : Clients} (h : c.Inv)
include h

theorem Inv.snapshot_mem {t : Nat} {txn : Transaction} (ht : c.active t = some txn) :
    txn.snapshotTs ∈ c.mgr.activeSnapshots := by
  obtain ⟨hh, hst⟩ := active_eq_some.mp ht
  rw [h.snapshots.mem_iff, List.mem_map]
  exact ⟨t, (h.activeIds t).mpr ⟨txn, hh, hst⟩, by simp [hh]⟩

theorem Inv.mem_snapshots_le {s : Nat} (hs : s ∈ c.mgr.activeSnapshots) : s ≤ c.mgr.lastCommitTs := by
  rw [h.snapshots.mem_iff, List.mem_map] at hs
  obtain ⟨t, ht, rfl⟩ := hs
  obtain ⟨txn, hh, -⟩ := (h.activeIds t).mp ht
  simpa [hh] using (h.snap t txn hh).2

theorem Inv.oldest_le_last : c.mgr.oldestActiveSnapshot ≤ c.mgr.lastCommitTs := by
  unfold TransactionManager.oldestActiveSnapshot
  cases hs : c.mgr.activeSnapshots with
  | nil => simp
  | cons s l => exact h.mem_snapshots_le (by rw [hs]; exact List.mem_cons_self)

theorem Inv.oldest_le_mem {s : Nat} (hs : s ∈ c.mgr.activeSnapshots) : c.mgr.oldestActiveSnapshot ≤ s := by
  have hsorted := h.sorted
  unfold TransactionManager.oldestActiveSnapshot
  cases hl : c.mgr.activeSnapshots with
  | nil => rw [hl] at hs; cases hs
  | cons a l =>
    rw [hl] at hs hsorted
    rw [List.pairwise_cons] at hsorted
    rcases List.mem_cons.mp hs with rfl | hs
    · exact Nat.le_refl _
    · exact hsorted.1 s hs

/-- The watermark is at most every active snapshot. -/
theorem Inv.oldest_le {t : Nat} {txn : Transaction} (ht : c.active t = some txn) :
    c.mgr.oldestActiveSnapshot ≤ txn.snapshotTs :=
  h.oldest_le_mem (h.snapshot_mem ht)

end

/-- A watermark over fewer snapshots, or a later last commit, is not lower. -/
theorem oldest_mono {m m' : TransactionManager} (hs : ∀ s ∈ m'.activeSnapshots, m.oldestActiveSnapshot ≤ s)
    (hl : m.oldestActiveSnapshot ≤ m'.lastCommitTs) : m.oldestActiveSnapshot ≤ m'.oldestActiveSnapshot := by
  show _ ≤ m'.activeSnapshots.headD m'.lastCommitTs
  cases hm : m'.activeSnapshots with
  | nil => simpa using hl
  | cons a l => exact hs a (by rw [hm]; exact List.mem_cons_self)

/-! ### Begin -/

section
variable {c : Clients} (h : c.Inv)
include h

theorem Inv.handle_nextId : c.handle c.mgr.nextId = none := by
  cases hh : c.handle c.mgr.nextId with
  | none => rfl
  | some txn => have := (h.id _ txn hh).2.2; omega

theorem inv_begin : (c.put c.mgr.begin).Inv := by
  have hnew := h.handle_nextId
  have hlast := h.last
  have hother : ∀ t txn, (c.put c.mgr.begin).handle t = some txn →
      (t = c.mgr.nextId ∧ txn = c.mgr.begin.1) ∨ (t ≠ c.mgr.nextId ∧ c.handle t = some txn) := by
    intro t txn ht
    simp only [put, TransactionManager.begin, Function.update_apply] at ht ⊢
    split at ht
    · next heq => exact Or.inl ⟨heq, (Option.some.inj ht).symm⟩
    · next hne => exact Or.inr ⟨hne, ht⟩
  refine ⟨?_, ?_, ?_, ?_, ?_, ?_, ?_, ?_, ?_, ?_⟩
  · intro t txn ht
    rcases hother t txn ht with ⟨rfl, rfl⟩ | ⟨-, ht⟩
    · exact ⟨rfl, by omega, by simp [put, TransactionManager.begin]⟩
    · obtain ⟨h1, h2, h3⟩ := h.id t txn ht
      exact ⟨h1, h2, by simp only [put, TransactionManager.begin]; omega⟩
  · intro t txn ht
    rcases hother t txn ht with ⟨rfl, rfl⟩ | ⟨-, ht⟩
    · exact ⟨hlast, Nat.le_refl _⟩
    · exact h.snap t txn ht
  · intro t
    have hst := h.status t
    simp only [put, TransactionManager.begin, Function.update_apply] at hst ⊢
    split
    · next heq => rw [heq, hnew] at hst; rw [heq, hst]; rfl
    · exact hst
  · intro t txn ht hcm
    rcases hother t txn ht with ⟨rfl, rfl⟩ | ⟨-, ht⟩
    · cases hcm
    · exact h.commitTs t txn ht hcm
  · intro t u txn utx ht hu hct hcu heq
    rcases hother t txn ht with ⟨rfl, rfl⟩ | ⟨-, ht⟩
    · cases hct
    · rcases hother u utx hu with ⟨rfl, rfl⟩ | ⟨-, hu⟩
      · cases hcu
      · exact h.commitInj t u txn utx ht hu hct hcu heq
  · simp only [put, TransactionManager.begin]; omega
  · intro t
    simp only [put, TransactionManager.begin, List.mem_cons, Function.update_apply]
    by_cases heq : t = c.mgr.nextId
    · simp [heq]
    · simp [heq, h.activeIds t]
  · simp only [put, TransactionManager.begin, List.nodup_cons, h.activeNodup, and_true]
    intro hm
    obtain ⟨txn, hh, -⟩ := (h.activeIds _).mp hm
    rw [hnew] at hh
    cases hh
  · simp only [put, TransactionManager.begin, List.map_cons, Function.update_self, Option.map_some,
      Option.getD_some]
    refine (List.perm_orderedInsert _ _ _).trans (List.Perm.cons _ (h.snapshots.trans (List.Perm.of_eq ?_)))
    apply List.map_congr_left
    intro t ht
    obtain ⟨txn, hh, -⟩ := (h.activeIds _).mp ht
    rw [Function.update_of_ne]
    rintro rfl
    rw [hnew] at hh
    cases hh
  · exact h.sorted.orderedInsert _ _

theorem later_begin : c.Later (c.put c.mgr.begin) := by
  have hnew := h.handle_nextId
  refine ⟨?_, ?_, ?_, ?_, ?_, Nat.le_refl _⟩
  · intro t txn ht
    refine ⟨txn, ?_, rfl, fun _ => rfl⟩
    simp only [put, TransactionManager.begin]
    rw [Function.update_of_ne, ht]
    rintro rfl
    rw [hnew] at ht
    cases ht
  · intro t txn' ht hcm
    simp only [put, TransactionManager.begin, Function.update_apply] at ht
    split at ht
    · rw [← Option.some.inj ht] at hcm; cases hcm
    · exact Or.inl ht
  · intro t txn' ht hno
    simp only [put, TransactionManager.begin, Function.update_apply] at ht
    split at ht
    · rw [← Option.some.inj ht]
    · rw [hno] at ht; cases ht
  · apply oldest_mono
    · intro s hs
      simp only [put, TransactionManager.begin, List.mem_orderedInsert] at hs
      rcases hs with rfl | hs
      · exact h.oldest_le_last
      · exact h.oldest_le_mem hs
    · exact h.oldest_le_last
  · simp [put, TransactionManager.begin]

end

/-! ### Commit and abort -/

section
variable {c : Clients} (h : c.Inv) {t : Nat} {txn : Transaction} (ht : c.active t = some txn)
include h ht

theorem Inv.active_id : txn.txnId = t := (h.id t txn (active_eq_some.mp ht).1).1

/-- Dropping one transaction from both active sets keeps them in step. -/
theorem Inv.snapshots_erase (txn' : Transaction) :
    (c.mgr.activeSnapshots.erase txn.snapshotTs).Perm ((c.mgr.activeTxnIds.erase t).map fun u =>
      ((Function.update c.handle t (some txn') u).map (·.snapshotTs)).getD 0) := by
  obtain ⟨hh, hst⟩ := active_eq_some.mp ht
  have hmem : t ∈ c.mgr.activeTxnIds := (h.activeIds t).mpr ⟨txn, hh, hst⟩
  have hsplit := h.snapshots.trans ((List.perm_cons_erase hmem).map _)
  simp only [List.map_cons, hh, Option.map_some, Option.getD_some] at hsplit
  have herase := hsplit.erase txn.snapshotTs
  rw [List.erase_cons_head] at herase
  refine herase.trans (List.Perm.of_eq ?_)
  apply List.map_congr_left
  intro u hu
  rw [Function.update_of_ne]
  rintro rfl
  exact (List.Nodup.not_mem_erase h.activeNodup) hu

omit ht in
theorem Inv.activeIds_erase (txn' : Transaction) (hst : txn'.state ≠ .active) (u : Nat) :
    u ∈ c.mgr.activeTxnIds.erase t ↔
      ∃ v, Function.update c.handle t (some txn') u = some v ∧ v.state = .active := by
  rw [h.activeNodup.mem_erase_iff, Function.update_apply]
  by_cases hu : u = t
  · simp [hu, hst]
  · simp [hu, h.activeIds u]

omit h ht in
/-- Handles after resolving `t`. -/
theorem handle_resolved (txn' : Transaction) (u : Nat) (v : Transaction)
    (hv : Function.update c.handle t (some txn') u = some v) :
    (u = t ∧ v = txn') ∨ (u ≠ t ∧ c.handle u = some v) := by
  rw [Function.update_apply] at hv
  split at hv
  · next heq => exact Or.inl ⟨heq, (Option.some.inj hv).symm⟩
  · next hne => exact Or.inr ⟨hne, hv⟩

theorem inv_commit : (c.put (c.mgr.commit txn)).Inv := by
  obtain rfl := h.active_id ht
  obtain ⟨hh, hst⟩ := active_eq_some.mp ht
  have hlast := h.last
  obtain ⟨-, hpos, hlt⟩ := h.id _ txn hh
  have hcases := handle_resolved (c := c) (t := txn.txnId)
    { txn with commitTs := c.mgr.nextId, state := .committed }
  simp only [put, TransactionManager.commit]
  refine ⟨?_, ?_, ?_, ?_, ?_, ?_, ?_, ?_, ?_, ?_⟩ <;> dsimp only
  · intro u v hv
    rcases hcases u v hv with ⟨rfl, rfl⟩ | ⟨-, hv⟩
    · exact ⟨rfl, hpos, by omega⟩
    · obtain ⟨h1, h2, h3⟩ := h.id u v hv
      exact ⟨h1, h2, by omega⟩
  · intro u v hv
    rcases hcases u v hv with ⟨rfl, rfl⟩ | ⟨-, hv⟩
    · have := h.snap _ txn hh
      dsimp only
      omega
    · have := h.snap u v hv
      omega
  · intro u
    rw [Function.update_apply, Function.update_apply]
    split
    · simp [Transaction.recorded]
    · exact h.status u
  · intro u v hv hcm
    rcases hcases u v hv with ⟨rfl, rfl⟩ | ⟨-, hv⟩
    · exact ⟨hlt, Nat.le_refl _⟩
    · have := h.commitTs u v hv hcm
      omega
  · intro u w v wtx hu hw hcu hcw heq
    rcases hcases u v hu with ⟨rfl, rfl⟩ | ⟨-, hu⟩ <;> rcases hcases w wtx hw with ⟨rfl, rfl⟩ | ⟨-, hw⟩
    · rfl
    · have := h.commitTs w wtx hw hcw
      dsimp only at heq
      omega
    · have := h.commitTs u v hu hcu
      dsimp only at heq
      omega
    · exact h.commitInj u w v wtx hu hw hcu hcw heq
  · omega
  · exact h.activeIds_erase _ (by simp)
  · exact h.activeNodup.erase _
  · exact h.snapshots_erase ht _
  · exact h.sorted.sublist List.erase_sublist

theorem inv_abort : (c.put (c.mgr.abort txn)).Inv := by
  obtain rfl := h.active_id ht
  obtain ⟨hh, hst⟩ := active_eq_some.mp ht
  obtain ⟨-, hpos, hlt⟩ := h.id _ txn hh
  have hcases := handle_resolved (c := c) (t := txn.txnId) { txn with state := .aborted }
  simp only [put, TransactionManager.abort]
  refine ⟨?_, ?_, ?_, ?_, ?_, h.last, ?_, ?_, ?_, ?_⟩ <;> dsimp only
  · intro u v hv
    rcases hcases u v hv with ⟨rfl, rfl⟩ | ⟨-, hv⟩
    · exact ⟨rfl, hpos, hlt⟩
    · exact h.id u v hv
  · intro u v hv
    rcases hcases u v hv with ⟨rfl, rfl⟩ | ⟨-, hv⟩
    · exact h.snap _ txn hh
    · exact h.snap u v hv
  · intro u
    rw [Function.update_apply, Function.update_apply]
    split
    · simp [Transaction.recorded]
    · exact h.status u
  · intro u v hv hcm
    rcases hcases u v hv with ⟨rfl, rfl⟩ | ⟨-, hv⟩
    · cases hcm
    · exact h.commitTs u v hv hcm
  · intro u w v wtx hu hw hcu hcw heq
    rcases hcases u v hu with ⟨rfl, rfl⟩ | ⟨-, hu⟩
    · cases hcu
    · rcases hcases w wtx hw with ⟨rfl, rfl⟩ | ⟨-, hw⟩
      · cases hcw
      · exact h.commitInj u w v wtx hu hw hcu hcw heq
  · exact h.activeIds_erase _ (by simp)
  · exact h.activeNodup.erase _
  · exact h.snapshots_erase ht _
  · exact h.sorted.sublist List.erase_sublist

/-- Resolving an active handle, by either outcome, is a later moment. -/
theorem later_resolve (txn' : Transaction) (m : TransactionManager)
    (hid : txn'.txnId = t) (hsnap : txn'.snapshotTs = txn.snapshotTs) (hres : txn'.state ≠ .active)
    (hcm : txn'.state = .committed → c.mgr.nextId ≤ txn'.commitTs)
    (hact : m.activeSnapshots = c.mgr.activeSnapshots.erase txn.snapshotTs)
    (hnext : c.mgr.nextId ≤ m.nextId) (hlast : c.mgr.lastCommitTs ≤ m.lastCommitTs) :
    c.Later (c.put (txn', m)) := by
  obtain ⟨hh, hst⟩ := active_eq_some.mp ht
  have hhandle : (c.put (txn', m)).handle = Function.update c.handle t (some txn') := by
    simp [put, hid]
  refine ⟨?_, ?_, ?_, ?_, hnext, hlast⟩
  · intro u v hv
    by_cases hu : u = t
    · subst hu
      rw [hh] at hv
      obtain rfl := Option.some.inj hv
      refine ⟨txn', by rw [hhandle, Function.update_self], hsnap, fun hne => ?_⟩
      exact hne.elim (fun h => absurd hst h) fun h => absurd h hres
    · exact ⟨v, by rw [hhandle, Function.update_of_ne hu, hv], rfl, fun _ => rfl⟩
  · intro u v hv hvc
    rw [hhandle] at hv
    rcases handle_resolved txn' u v hv with ⟨rfl, rfl⟩ | ⟨-, hv⟩
    · exact Or.inr (hcm hvc)
    · exact Or.inl hv
  · intro u v hv hno
    rw [hhandle] at hv
    rcases handle_resolved txn' u v hv with ⟨rfl, rfl⟩ | ⟨-, hv⟩
    · rw [hh] at hno; cases hno
    · rw [hno] at hv; cases hv
  · apply oldest_mono
    · intro s hs
      simp only [put, hact] at hs
      exact h.oldest_le_mem (List.mem_of_mem_erase hs)
    · exact Nat.le_trans h.oldest_le_last hlast

theorem later_commit : c.Later (c.put (c.mgr.commit txn)) := by
  have hid := h.active_id ht
  have hlast := h.last
  refine later_resolve h ht _ _ hid rfl (by simp) (fun _ => Nat.le_refl _) rfl ?_ ?_
  · exact Nat.le_succ _
  · show c.mgr.lastCommitTs ≤ c.mgr.nextId
    omega

theorem later_abort : c.Later (c.put (c.mgr.abort txn)) := by
  have hid := h.active_id ht
  exact later_resolve h ht _ _ hid rfl (by simp) (fun hc => by cases hc) rfl (Nat.le_refl _) (Nat.le_refl _)

end

/-! ### Steps -/

/-- What a step can be. -/
theorem step_cases {c c' : Clients} {op : TxnOp} (hs : c.step op = some c') :
    (op = .begin ∧ c' = c.put c.mgr.begin) ∨
    (∃ t txn, op = .commit t ∧ c.active t = some txn ∧ c' = c.put (c.mgr.commit txn)) ∨
    (∃ t txn, op = .abort t ∧ c.active t = some txn ∧ c' = c.put (c.mgr.abort txn)) := by
  cases op with
  | begin => exact Or.inl ⟨rfl, (Option.some.inj hs).symm⟩
  | commit t =>
    simp only [step] at hs
    split at hs
    · next txn ht => exact Or.inr (Or.inl ⟨t, txn, rfl, ht, (Option.some.inj hs).symm⟩)
    · cases hs
  | abort t =>
    simp only [step] at hs
    split at hs
    · next txn ht => exact Or.inr (Or.inr ⟨t, txn, rfl, ht, (Option.some.inj hs).symm⟩)
    · cases hs

theorem inv_step {c c' : Clients} {op : TxnOp} (h : c.Inv) (hs : c.step op = some c') : c'.Inv := by
  rcases step_cases hs with ⟨-, rfl⟩ | ⟨t, txn, -, ht, rfl⟩ | ⟨t, txn, -, ht, rfl⟩
  · exact inv_begin h
  · exact inv_commit h ht
  · exact inv_abort h ht

theorem later_step {c c' : Clients} {op : TxnOp} (h : c.Inv) (hs : c.step op = some c') : c.Later c' := by
  rcases step_cases hs with ⟨-, rfl⟩ | ⟨t, txn, -, ht, rfl⟩ | ⟨t, txn, -, ht, rfl⟩
  · exact later_begin h
  · exact later_commit h ht
  · exact later_abort h ht

end Clients

end CoreDB
