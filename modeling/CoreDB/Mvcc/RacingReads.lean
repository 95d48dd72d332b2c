import CoreDB.Mvcc.Delta
import CoreDB.Mvcc.Visibility

/-!
# Status reads that race with commits (`mvcc/delta.cpp`)

`ClaimOrInsertBaseTombstone` holds the lock of the delta layer, and `GetStatus` takes the
manager's lock for each answer: transactions commit and abort between the answers.
`claimUnder obs` is the claim whose `k`-th read is answered by the manager `obs k`, three
reads being reserved for each record, as in `compactUnder`.

What a snapshot sees is settled and a resolved transaction stays resolved, so a record that
was skipped or could be taken at its reads is skipped or can be taken later.  Only a
conflict can go away.  `claimUnder_eq`: the racing claim is the claim at one moment, the
one of its last read.
-/

namespace CoreDB

/-- `IsVisible` with its two reads at two moments. -/
def isVisibleUnder (rec : DeltaRecord) (reader : Transaction) (atCreated atDeleted : TransactionManager) : Bool :=
  let createdVisible :=
    if rec.createdTxn = 0 then true
    else if rec.createdTxn = reader.txnId then true
    else (atCreated.getStatus rec.createdTxn).committedBy reader.snapshotTs
  if !createdVisible then false
  else if rec.deletedTxn = 0 then true
  else
    let deletedVisible :=
      if rec.deletedTxn = reader.txnId then true
      else (atDeleted.getStatus rec.deletedTxn).committedBy reader.snapshotTs
    !deletedVisible

def claimIfVisibleUnder (obs : Nat → TransactionManager) (k : Nat) (it : DeltaRecord) (writer : Transaction) :
    ClaimStep :=
  if isVisibleUnder it writer (obs k) (obs (k + 1)) then .claim else .skip

def claimStepUnder (obs : Nat → TransactionManager) (k : Nat) (it : DeltaRecord) (writer : Transaction) : ClaimStep :=
  if it.deletedTxn ≠ 0 ∧ it.deletedTxn ≠ writer.txnId then
    match ((obs k).getStatus it.deletedTxn).state with
    | .active => .conflict
    | .committed => .skip
    | .aborted => claimIfVisibleUnder obs (k + 1) it writer
  else if it.deletedTxn = writer.txnId then .skip
  else claimIfVisibleUnder obs (k + 1) it writer

def claimLoopUnder (rowId : Nat) (writer : Transaction) (obs : Nat → TransactionManager) :
    Nat → Bool → List DeltaRecord → ClaimLoop
  | _, touched, [] => { touched, result := none, records := [] }
  | k, touched, it :: rest =>
    if it.rowId ≠ rowId then
      let r := claimLoopUnder rowId writer obs (k + 3) touched rest
      { r with records := it :: r.records }
    else
      match claimStepUnder obs k it writer with
      | .conflict => { touched := true, result := some .conflict, records := it :: rest }
      | .claim =>
        { touched := true, result := some .ok, records := it.claimedBy writer.txnId :: rest }
      | .skip =>
        let r := claimLoopUnder rowId writer obs (k + 3) true rest
        { r with records := it :: r.records }

def DeltaLayer.claimUnder (records : DeltaLayer) (rowId : Nat) (writer : Transaction)
    (obs : Nat → TransactionManager) (existsInBase : Bool) : WriteResult × DeltaLayer :=
  let r := claimLoopUnder rowId writer obs 0 false records.reverse
  match r.result with
  | some res => (res, r.records.reverse)
  | none =>
    if !r.touched && existsInBase then
      (.ok, records ++ [.tombstone rowId writer.txnId])
    else (.notFound, records)

/-! ## Moments -/

/-- The reads `obs` are made one after the other, from `c` on. -/
structure Readings (c : Clients) (obs : Nat → TransactionManager) (moment : Nat → Clients) : Prop where
  mgr : ∀ k, (moment k).mgr = obs k
  inv : ∀ k, (moment k).Inv
  from_start : ∀ k, c.Later (moment k)
  next : ∀ k, (moment k).Later (moment (k + 1))

section
variable {c : Clients} {obs : Nat → TransactionManager} {moment : Nat → Clients} (h : Readings c obs moment)
include h

theorem Readings.later {j k : Nat} (hle : j ≤ k) : (moment j).Later (moment k) := by
  obtain ⟨d, rfl⟩ := Nat.exists_eq_add_of_le hle
  induction d with
  | zero => exact Clients.Later.refl _
  | succ d ih => exact (ih (by omega)).trans (h.next _)

/-- A resolved transaction stays resolved. -/
theorem Readings.getStatus_eq {j k t : Nat} (hle : j ≤ k) (hst : ((obs j).getStatus t).state ≠ .active) :
    (obs k).getStatus t = (obs j).getStatus t := by
  rw [← h.mgr] at hst
  rw [← h.mgr, ← h.mgr]
  cases ht : (moment j).handle t with
  | none => exact absurd (by rw [(h.inv j).getStatus_of_none ht]) hst
  | some txn =>
    obtain ⟨txn', ht', -, hfinal⟩ := (h.later hle).handle t txn ht
    have hne : txn.state ≠ .active := by
      rw [← (h.inv j).state_of_handle ht]
      exact hst
    obtain rfl := hfinal (Or.inl hne)
    unfold TransactionManager.getStatus
    rw [(h.inv j).status, (h.inv k).status, ht, ht']

/-- What the writer sees is what it saw at the start. -/
theorem Readings.sees_eq {w : Transaction} (hc : c.Inv) (hw : w.snapshotTs ≤ c.mgr.lastCommitTs) (k t : Nat) :
    (obs k).sees w t = c.mgr.sees w t := by
  rw [← h.mgr]
  exact (h.from_start k).sees_eq hc (h.inv k) hw t

end

theorem isVisibleUnder_eq (rec : DeltaRecord) (r : Transaction) (m m' : TransactionManager) :
    isVisibleUnder rec r m m' = ((rec.createdTxn == 0 || m.sees r rec.createdTxn) &&
      !(rec.deletedTxn != 0 && m'.sees r rec.deletedTxn)) := by
  unfold isVisibleUnder TransactionManager.sees
  by_cases h1 : rec.createdTxn = 0 <;> by_cases h2 : rec.createdTxn = r.txnId <;>
    by_cases h3 : rec.deletedTxn = 0 <;> by_cases h4 : rec.deletedTxn = r.txnId <;>
    cases (m.getStatus rec.createdTxn).committedBy r.snapshotTs <;>
    cases (m'.getStatus rec.deletedTxn).committedBy r.snapshotTs <;> simp_all

/-! ## One record -/

section
variable {c : Clients} {obs : Nat → TransactionManager} {moment : Nat → Clients} (h : Readings c obs moment)
  {w : Transaction} (hc : c.Inv) (hw : w.snapshotTs ≤ c.mgr.lastCommitTs)
include h hc hw

theorem Readings.isVisible_eq (rec : DeltaRecord) (a b k : Nat) :
    isVisibleUnder rec w (obs a) (obs b) = isVisible rec w (obs k) := by
  rw [isVisibleUnder_eq, CoreDB.isVisible_eq]
  simp only [h.sees_eq hc hw]

omit h hc hw in
/-- A conflict is found at its read. -/
theorem conflict_of_claimStepUnder {k : Nat} {it : DeltaRecord} (hs : claimStepUnder obs k it w = .conflict) :
    claimStep it w (obs k) = .conflict := by
  have hno : claimIfVisibleUnder obs (k + 1) it w ≠ .conflict := by
    unfold claimIfVisibleUnder
    split <;> simp
  unfold claimStepUnder at hs
  unfold claimStep
  by_cases hd : it.deletedTxn ≠ 0 ∧ it.deletedTxn ≠ w.txnId
  · rw [if_pos hd] at hs ⊢
    cases hst : ((obs k).getStatus it.deletedTxn).state with
    | active => rfl
    | committed => simp [hst] at hs
    | aborted =>
      simp only [hst] at hs
      exact absurd hs hno
  · rw [if_neg hd] at hs
    split at hs
    · cases hs
    · exact absurd hs hno

/-- **Any other outcome stays** what it was at the reads. -/
theorem Readings.settled {k j : Nat} (hle : k ≤ j) {it : DeltaRecord} (hs : claimStepUnder obs k it w ≠ .conflict) :
    claimStep it w (obs j) = claimStepUnder obs k it w := by
  have hvis : claimIfVisibleUnder obs (k + 1) it w = claimIfVisible it w (obs j) := by
    rw [claimIfVisibleUnder, claimIfVisible, h.isVisible_eq hc hw it (k + 1) (k + 1 + 1) j]
  unfold claimStepUnder at hs ⊢
  unfold claimStep
  rw [hvis] at hs ⊢
  by_cases hd : it.deletedTxn ≠ 0 ∧ it.deletedTxn ≠ w.txnId
  · rw [if_pos hd] at hs ⊢
    have hst : ((obs k).getStatus it.deletedTxn).state ≠ .active := by
      intro hact
      rw [hact] at hs
      exact hs rfl
    have hsame := h.getStatus_eq hle hst
    cases hk : ((obs k).getStatus it.deletedTxn).state with
    | active => exact absurd hk hst
    | committed => simp [hd, hsame, hk]
    | aborted => simp [hd, hsame, hk]
  · rw [if_neg hd, if_neg hd]

/-! ## The walk -/

/-- **The walk is a walk at one moment.** -/
theorem Readings.claimLoop_eq (x : Nat) : ∀ (l : List DeltaRecord) (k : Nat) (touched : Bool),
    ∃ j, k ≤ j ∧ j ≤ k + 3 * l.length ∧ claimLoopUnder x w obs k touched l = claimLoop x w (obs j) touched l
  | [], k, touched => ⟨k, Nat.le_refl _, by simp, rfl⟩
  | it :: rest, k, touched => by
    by_cases hx : it.rowId = x
    · cases hs : claimStepUnder obs k it w with
      | conflict =>
        refine ⟨k, Nat.le_refl _, by simp, ?_⟩
        simp [claimLoopUnder, claimLoop, hx, hs, conflict_of_claimStepUnder hs]
      | claim =>
        have hnot : claimStepUnder obs k it w ≠ .conflict := by rw [hs]; simp
        have hsame := h.settled hc hw (Nat.le_refl k) hnot
        refine ⟨k, Nat.le_refl _, by simp, ?_⟩
        simp [claimLoopUnder, claimLoop, hx, hsame, hs]
      | skip =>
        obtain ⟨j, hkj, hjlen, hrest⟩ := Readings.claimLoop_eq x rest (k + 3) true
        have hnot : claimStepUnder obs k it w ≠ .conflict := by rw [hs]; simp
        have hsame := h.settled hc hw (show k ≤ j by omega) hnot
        refine ⟨j, by omega, by rw [List.length_cons]; omega, ?_⟩
        simp [claimLoopUnder, claimLoop, hx, hsame, hs, hrest]
    · obtain ⟨j, hkj, hjlen, hrest⟩ := Readings.claimLoop_eq x rest (k + 3) touched
      refine ⟨j, by omega, by rw [List.length_cons]; omega, ?_⟩
      simp [claimLoopUnder, claimLoop, hx, hrest]

/-- **The racing claim is the claim at one moment** of its reads. -/
theorem Readings.claimUnder_eq (records : DeltaLayer) (x : Nat) (inBase : Bool) :
    ∃ j, records.claimUnder x w obs inBase = records.claimOrInsertBaseTombstone x w (obs j) inBase := by
  obtain ⟨j, -, -, hloop⟩ := h.claimLoop_eq hc hw x records.reverse 0 false
  refine ⟨j, ?_⟩
  unfold DeltaLayer.claimUnder DeltaLayer.claimOrInsertBaseTombstone
  cases hres : (claimLoop x w (obs j) false records.reverse).result with
  | some res => simp [hloop, hres]
  | none => simp [hloop, hres]

end

end CoreDB
