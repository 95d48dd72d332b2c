import CoreDB.Mvcc.Transaction
import CoreDB.Storage.Types
import CoreDB.Lib.VersionChain

/-!
# The delta layer (`mvcc/delta.h`, `mvcc/delta.cpp`)

Row versions that are not in a base segment yet, oldest first, and tombstones
that claim base rows.  `isVisible` is the snapshot rule for one record;
`claimOrInsertBaseTombstone` is the write path of `Update` and `Delete`: it walks
the records of a row from the newest and takes the first one it may supersede.
-/

namespace CoreDB

structure DeltaRecord where
  rowId : Nat := 0
  createdTxn : Nat := 0
  /-- 0: not (yet) superseded. -/
  deletedTxn : Nat := 0
  row : Row := []
  isBaseTombstone : Bool := false
deriving DecidableEq, Repr

/-- The record `ClaimOrInsertBaseTombstone` appends for a base row. -/
def DeltaRecord.tombstone (rowId deletedTxn : Nat) : DeltaRecord :=
  { rowId, createdTxn := 0, deletedTxn, row := [], isBaseTombstone := true }

/-- The record `Insert` appends. -/
def DeltaRecord.version (rowId createdTxn : Nat) (row : Row) : DeltaRecord :=
  { rowId, createdTxn, deletedTxn := 0, row, isBaseTombstone := false }

/-- The record once `txn` has claimed it. -/
def DeltaRecord.claimedBy (rec : DeltaRecord) (txn : Nat) : DeltaRecord := { rec with deletedTxn := txn }

inductive WriteResult where
  | ok
  | notFound
  | conflict
deriving DecidableEq, Repr

def isVisible (rec : DeltaRecord) (reader : Transaction) (txm : TransactionManager) : Bool :=
  let createdVisible :=
    if rec.createdTxn = 0 then true
    else if rec.createdTxn = reader.txnId then true
    else (txm.getStatus rec.createdTxn).committedBy reader.snapshotTs
  if !createdVisible then false
  else if rec.deletedTxn = 0 then true
  else
    let deletedVisible :=
      if rec.deletedTxn = reader.txnId then true
      else (txm.getStatus rec.deletedTxn).committedBy reader.snapshotTs
    !deletedVisible

/-- What the claim loop does at a record of the wanted row. -/
inductive ClaimStep where
  | conflict
  | skip
  | claim
deriving DecidableEq, Repr

def claimIfVisible (it : DeltaRecord) (writer : Transaction) (txm : TransactionManager) : ClaimStep :=
  if isVisible it writer txm then .claim else .skip

def claimStep (it : DeltaRecord) (writer : Transaction) (txm : TransactionManager) : ClaimStep :=
  if it.deletedTxn ≠ 0 ∧ it.deletedTxn ≠ writer.txnId then
    match (txm.getStatus it.deletedTxn).state with
    | .active => .conflict
    | .committed => .skip
    -- that claim never really happened: reclaim
    | .aborted => claimIfVisible it writer txm
  else if it.deletedTxn = writer.txnId then .skip
  else claimIfVisible it writer txm

/-- Outcome of the walk over the records: `touched`, the result if the loop
returned, and the records. -/
structure ClaimLoop where
  touched : Bool
  result : Option WriteResult
  records : List DeltaRecord
deriving DecidableEq, Repr

/-- The loop of `ClaimOrInsertBaseTombstone`, over the records newest first. -/
def claimLoop (rowId : Nat) (writer : Transaction) (txm : TransactionManager) :
    Bool → List DeltaRecord → ClaimLoop
  | touched, [] => { touched, result := none, records := [] }
  | touched, it :: rest =>
    if it.rowId ≠ rowId then
      let r := claimLoop rowId writer txm touched rest
      { r with records := it :: r.records }
    else
      match claimStep it writer txm with
      | .conflict => { touched := true, result := some .conflict, records := it :: rest }
      | .claim =>
        { touched := true, result := some .ok, records := it.claimedBy writer.txnId :: rest }
      | .skip =>
        let r := claimLoop rowId writer txm true rest
        { r with records := it :: r.records }

abbrev DeltaLayer := List DeltaRecord

namespace DeltaLayer

def insert (records : DeltaLayer) (rowId createdTxn : Nat) (row : Row) : DeltaLayer :=
  records ++ [.version rowId createdTxn row]

def claimOrInsertBaseTombstone (records : DeltaLayer) (rowId : Nat) (writer : Transaction)
    (txm : TransactionManager) (existsInBase : Bool) : WriteResult × DeltaLayer :=
  let r := claimLoop rowId writer txm false records.reverse
  match r.result with
  | some res => (res, r.records.reverse)
  | none =>
    if !r.touched && existsInBase then
      (.ok, records ++ [.tombstone rowId writer.txnId])
    else (.notFound, records)

end DeltaLayer

/-! ## What a transaction sees -/

namespace TransactionManager

/-- `r` sees what `t` wrote: its own writes, and what committed by its snapshot. -/
def sees (m : TransactionManager) (r : Transaction) (t : Nat) : Bool :=
  t == r.txnId || (m.getStatus t).committedBy r.snapshotTs

def isAborted (m : TransactionManager) (t : Nat) : Bool := (m.getStatus t).state == .aborted

end TransactionManager

theorem isVisible_eq (rec : DeltaRecord) (r : Transaction) (m : TransactionManager) :
    isVisible rec r m = ((rec.createdTxn == 0 || m.sees r rec.createdTxn) &&
      !(rec.deletedTxn != 0 && m.sees r rec.deletedTxn)) := by
  unfold isVisible TransactionManager.sees
  by_cases h1 : rec.createdTxn = 0 <;> by_cases h2 : rec.createdTxn = r.txnId <;>
    by_cases h3 : rec.deletedTxn = 0 <;> by_cases h4 : rec.deletedTxn = r.txnId <;>
    cases (m.getStatus rec.createdTxn).committedBy r.snapshotTs <;>
    cases (m.getStatus rec.deletedTxn).committedBy r.snapshotTs <;> simp_all

/-! ## The claim -/

/-- A record the loop may take: not superseded by anyone but an aborted
transaction, and visible to the writer. -/
theorem claimStep_eq_claim (it : DeltaRecord) (w : Transaction) (m : TransactionManager) (hw : w.txnId ≠ 0) :
    claimStep it w m = .claim ↔
      (it.deletedTxn = 0 ∨ (it.deletedTxn ≠ w.txnId ∧ m.isAborted it.deletedTxn = true)) ∧
        isVisible it w m = true := by
  unfold claimStep claimIfVisible TransactionManager.isAborted
  by_cases h1 : it.deletedTxn = 0
  · simp [h1, Ne.symm hw]
  · by_cases h2 : it.deletedTxn = w.txnId
    · simp [h2, hw]
    · simp only [ne_eq, h1, not_false_eq_true, h2, and_self, if_true, false_or, true_and]
      cases (m.getStatus it.deletedTxn).state <;> simp

/-- A conflict is with the active claimant of the record. -/
theorem conflict_of_claimStep {it : DeltaRecord} {w : Transaction} {m : TransactionManager}
    (h : claimStep it w m = .conflict) :
    it.deletedTxn ≠ 0 ∧ it.deletedTxn ≠ w.txnId ∧ (m.getStatus it.deletedTxn).state = .active := by
  unfold claimStep claimIfVisible at h
  split at h
  · next hd =>
    split at h
    · next hact => exact ⟨hd.1, hd.2, hact⟩
    · cases h
    · split at h <;> cases h
  · split at h
    · cases h
    · split at h <;> cases h

/-- What the walk does: it takes a record of the row that the loop may take, with
every newer record of the row skipped; or it meets a conflict; or it runs through
all of them. -/
theorem claimLoop_spec (x : Nat) (w : Transaction) (m : TransactionManager) :
    ∀ (l : List DeltaRecord) (touched : Bool),
    (∃ new it old, l = new ++ it :: old ∧ it.rowId = x ∧ claimStep it w m = .claim ∧
      (∀ a ∈ new, a.rowId = x → claimStep a w m = .skip) ∧
      claimLoop x w m touched l =
        { touched := true, result := some .ok, records := new ++ it.claimedBy w.txnId :: old }) ∨
    (∃ it ∈ l, it.rowId = x ∧ claimStep it w m = .conflict ∧
      claimLoop x w m touched l = { touched := true, result := some .conflict, records := l }) ∨
    ((∀ a ∈ l, a.rowId = x → claimStep a w m = .skip) ∧
      claimLoop x w m touched l =
        { touched := touched || l.any (fun a => a.rowId == x), result := none, records := l })
  | [], touched => by right; right; simp [claimLoop]
  | a :: l, touched => by
    by_cases ha : a.rowId = x
    · cases hs : claimStep a w m with
      | claim =>
        left
        exact ⟨[], a, l, rfl, ha, hs, by simp, by simp [claimLoop, ha, hs]⟩
      | conflict =>
        right; left
        exact ⟨a, List.mem_cons_self, ha, hs, by simp [claimLoop, ha, hs]⟩
      | skip =>
        rcases claimLoop_spec x w m l true with ⟨new, it, old, rfl, hx, hc, hnew, hl⟩ |
          ⟨it, hit, hx, hc, hl⟩ | ⟨hall, hl⟩
        · left
          refine ⟨a :: new, it, old, rfl, hx, hc, ?_, by simp [claimLoop, ha, hs, hl]⟩
          intro b hb hbx
          rcases List.mem_cons.mp hb with rfl | hb
          · exact hs
          · exact hnew b hb hbx
        · right; left
          exact ⟨it, List.mem_cons_of_mem _ hit, hx, hc, by simp [claimLoop, ha, hs, hl]⟩
        · right; right
          refine ⟨fun b hb hbx => ?_, by simp [claimLoop, ha, hs, hl]⟩
          rcases List.mem_cons.mp hb with rfl | hb
          · exact hs
          · exact hall b hb hbx
    · rcases claimLoop_spec x w m l touched with ⟨new, it, old, rfl, hx, hc, hnew, hl⟩ |
        ⟨it, hit, hx, hc, hl⟩ | ⟨hall, hl⟩
      · left
        refine ⟨a :: new, it, old, rfl, hx, hc, ?_, by simp [claimLoop, ha, hl]⟩
        intro b hb hbx
        rcases List.mem_cons.mp hb with rfl | hb
        · exact absurd hbx ha
        · exact hnew b hb hbx
      · right; left
        exact ⟨it, List.mem_cons_of_mem _ hit, hx, hc, by simp [claimLoop, ha, hl]⟩
      · right; right
        have hne : (a.rowId == x) = false := by simpa using ha
        refine ⟨fun b hb hbx => ?_, by simp [claimLoop, ha, hne, hl]⟩
        rcases List.mem_cons.mp hb with rfl | hb
        · exact absurd hbx ha
        · exact hall b hb hbx

/-- **What a claim can do.**  It supersedes a record of the row, all newer records
of the row being skipped; or, if the delta has no record of the row and the base
does, it appends a tombstone; or it changes nothing. -/
theorem claim_cases (records : DeltaLayer) (x : Nat) (w : Transaction) (m : TransactionManager) (inBase : Bool) :
    (∃ old it new, records = old ++ it :: new ∧ it.rowId = x ∧ claimStep it w m = .claim ∧
      (∀ a ∈ new, a.rowId = x → claimStep a w m = .skip) ∧
      records.claimOrInsertBaseTombstone x w m inBase =
        (.ok, old ++ it.claimedBy w.txnId :: new)) ∨
    ((∀ a ∈ records, a.rowId ≠ x) ∧ inBase = true ∧
      records.claimOrInsertBaseTombstone x w m inBase =
        (.ok, records ++ [.tombstone x w.txnId])) ∨
    (((∃ a ∈ records, a.rowId = x ∧ claimStep a w m = .conflict) ∨
        ((∀ a ∈ records, a.rowId = x → claimStep a w m = .skip) ∧
          (inBase = false ∨ ∃ a ∈ records, a.rowId = x))) ∧
      ∃ res, res ≠ .ok ∧ records.claimOrInsertBaseTombstone x w m inBase = (res, records)) := by
  unfold DeltaLayer.claimOrInsertBaseTombstone
  rcases claimLoop_spec x w m records.reverse false with ⟨new, it, old, hl, hx, hc, hnew, hr⟩ |
    ⟨it, hit, hx, hc, hr⟩ | ⟨hall, hr⟩
  · left
    refine ⟨old.reverse, it, new.reverse, ?_, hx, hc, fun a ha => hnew a (List.mem_reverse.mp ha), ?_⟩
    · have := congrArg List.reverse hl
      simpa using this
    · simp [hr]
  · right; right
    exact ⟨Or.inl ⟨it, List.mem_reverse.mp hit, hx, hc⟩, .conflict, by simp, by simp [hr]⟩
  · by_cases hb : (∀ a ∈ records, a.rowId ≠ x) ∧ inBase = true
    · right; left
      refine ⟨hb.1, hb.2, ?_⟩
      have hany : records.reverse.any (fun a => a.rowId == x) = false := by
        simpa using hb.1
      simp [hr, hany, hb.2]
    · right; right
      have hfail : ¬ ((!records.reverse.any (fun a => a.rowId == x)) && inBase) = true := by
        intro h
        simp only [Bool.and_eq_true, Bool.not_eq_true', List.any_eq_false, List.mem_reverse,
          beq_iff_eq] at h
        exact hb ⟨h.1, h.2⟩
      refine ⟨Or.inr ⟨fun a ha => hall a (List.mem_reverse.mpr ha), ?_⟩, .notFound, by simp, ?_⟩
      · cases hib : inBase with
        | false => exact Or.inl rfl
        | true =>
          right
          apply Classical.byContradiction
          intro hno
          exact hb ⟨fun a ha hax => hno ⟨a, ha, hax⟩, hib⟩
      · simp only [hr, Bool.false_or, hfail, Bool.false_eq_true, if_false]

end CoreDB
