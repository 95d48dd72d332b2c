import CoreDB.Recovery.RecoveryManager
import CoreDB.Table.Scan

/-!
# Redo of one row, without the transactions

While a record is replayed, everything its transaction finds about the row comes from
transactions that have committed by its snapshot.  Which of them wrote a delta record
does not matter then, only whether the record has been superseded: a `Slot`.

`redo_slots`: what a replayed call does to the row is `Slot.redo`, whatever the ids and
timestamps are, and whether the call succeeds or not.  `mergeDelta_slots`: what a later
reader finds in the delta depends on the slots alone.
-/

namespace CoreDB

/-- A delta record, without the transactions that created and superseded it. -/
structure Slot where
  tombstone : Bool
  superseded : Bool
  row : Row
deriving DecidableEq, Repr

def DeltaRecord.slot (a : DeltaRecord) : Slot :=
  { tombstone := a.isBaseTombstone, superseded := a.deletedTxn != 0, row := a.row }

/-- The slots of row `x`, oldest first. -/
def slotsOf (records : DeltaLayer) (x : Nat) : List Slot :=
  (records.filter fun a => a.rowId == x).map DeltaRecord.slot

namespace Slot

/-- Supersede the newest slot that is not superseded. -/
def claimNewest : List Slot → Option (List Slot)
  | [] => none
  | s :: rest =>
    match claimNewest rest with
    | some rest' => some (s :: rest')
    | none => if s.superseded then none else some ({ s with superseded := true } :: rest)

/-- The claim of an update or delete; the first one of a base row leaves a tombstone. -/
def claim (inBase : Bool) (slots : List Slot) : Option (List Slot) :=
  match claimNewest slots with
  | some slots' => some slots'
  | none => if slots = [] ∧ inBase = true then some [⟨true, true, []⟩] else none

/-- What replaying a record does to the slots of its row. -/
def redo (inBase : Bool) (slots : List Slot) (op : WalRecord) : List Slot :=
  match op.type with
  | .insert => slots ++ [⟨false, false, op.row⟩]
  | .update =>
    match claim inBase slots with
    | some slots' => slots' ++ [⟨false, false, op.row⟩]
    | none => slots
  | .delete => (claim inBase slots).getD slots
  | _ => slots

theorem claimNewest_eq_none {slots : List Slot} (h : ∀ s ∈ slots, s.superseded = true) :
    claimNewest slots = none := by
  induction slots with
  | nil => rfl
  | cons s slots ih =>
    rw [claimNewest, ih fun s' hs' => h s' (List.mem_cons_of_mem _ hs')]
    simp [h s List.mem_cons_self]

theorem claimNewest_append {old new : List Slot} {s : Slot} (hs : s.superseded = false)
    (hnew : ∀ s' ∈ new, s'.superseded = true) :
    claimNewest (old ++ s :: new) = some (old ++ { s with superseded := true } :: new) := by
  induction old with
  | nil =>
    rw [List.nil_append, claimNewest, claimNewest_eq_none hnew]
    simp [hs]
  | cons s' old ih =>
    rw [List.cons_append, claimNewest, ih]
    rfl

end Slot

theorem slotsOf_append (a b : DeltaLayer) (x : Nat) : slotsOf (a ++ b) x = slotsOf a x ++ slotsOf b x := by
  simp [slotsOf]

theorem slotsOf_cons_self {a : DeltaRecord} {x : Nat} (h : a.rowId = x) (l : DeltaLayer) :
    slotsOf (a :: l) x = a.slot :: slotsOf l x := by
  simp [slotsOf, h]

/-! ## The claim -/

/-- Whoever created and superseded the record has committed by the snapshot of `txn`. -/
structure DeltaRecord.SettledFor (m : TransactionManager) (txn : Transaction) (a : DeltaRecord) : Prop where
  created : a.createdTxn = 0 ∨ m.sees txn a.createdTxn = true
  deleted : a.deletedTxn = 0 ∨ (a.deletedTxn ≠ txn.txnId ∧ (m.getStatus a.deletedTxn).state = .committed)

theorem claimStep_of_settled {m : TransactionManager} {txn : Transaction} {a : DeltaRecord} (hpos : txn.txnId ≠ 0)
    (h : a.SettledFor m txn) : claimStep a txn m = if a.deletedTxn = 0 then .claim else .skip := by
  by_cases h0 : a.deletedTxn = 0
  · rw [if_pos h0]
    refine (claimStep_eq_claim a txn m hpos).mpr ⟨Or.inl h0, ?_⟩
    rw [isVisible_eq]
    rcases h.created with hc | hc <;> simp [hc, h0]
  · rw [if_neg h0]
    obtain ⟨hne, hst⟩ := h.deleted.resolve_left h0
    simp [claimStep, h0, hne, hst]

section
variable {records : DeltaLayer} {x : Nat} {txn : Transaction} {m : TransactionManager} (hpos : txn.txnId ≠ 0)
  (hsettled : ∀ a ∈ records, a.rowId = x → a.SettledFor m txn)
include hpos hsettled

theorem superseded_of_skip {l : DeltaLayer} (hl : ∀ a ∈ l, a ∈ records)
    (hskip : ∀ a ∈ l, a.rowId = x → claimStep a txn m = .skip) : ∀ s ∈ slotsOf l x, s.superseded = true := by
  intro s hs
  obtain ⟨a, ha, rfl⟩ := List.mem_map.mp hs
  obtain ⟨ha, hax⟩ := List.mem_filter.mp ha
  have hax : a.rowId = x := by simpa using hax
  have hstep := hskip a ha hax
  rw [claimStep_of_settled hpos (hsettled a (hl a ha) hax)] at hstep
  by_cases h0 : a.deletedTxn = 0
  · rw [if_pos h0] at hstep
    cases hstep
  · simp [DeltaRecord.slot, h0]

/-- **A claim on settled records** is a claim on their slots.  The other rows keep their
records, and what appears in the row are the ids that were there and the writer's. -/
theorem claim_slots (inBase : Bool) :
    (∃ records', records.claimOrInsertBaseTombstone x txn m inBase = (.ok, records') ∧
      Slot.claim inBase (slotsOf records x) = some (slotsOf records' x) ∧
      (∀ y, y ≠ x → (records'.filter fun a => a.rowId == y) = records.filter fun a => a.rowId == y) ∧
      ∀ P : Nat → Prop, P 0 → P txn.txnId →
        (∀ a ∈ records, a.rowId = x → P a.createdTxn ∧ P a.deletedTxn) →
        ∀ a ∈ records', a.rowId = x → P a.createdTxn ∧ P a.deletedTxn) ∨
    (Slot.claim inBase (slotsOf records x) = none ∧
      ∃ res, res ≠ .ok ∧ records.claimOrInsertBaseTombstone x txn m inBase = (res, records)) := by
  rcases claim_cases records x txn m inBase with ⟨old, it, new, hrec, hitx, hclaim, hskip, hr⟩ | ⟨hno, hin, hr⟩ |
    ⟨hwhy, res, hres, hr⟩
  · left
    have hlive : it.deletedTxn = 0 := by
      rw [claimStep_of_settled hpos (hsettled it (by rw [hrec]; simp) hitx)] at hclaim
      by_cases h0 : it.deletedTxn = 0
      · exact h0
      · rw [if_neg h0] at hclaim
        cases hclaim
    have hnew := superseded_of_skip hpos hsettled (fun a ha => by rw [hrec]; simp [ha]) hskip
    refine ⟨_, hr, ?_, fun y hy => ?_, fun P h0 ht hP a ha hax => ?_⟩
    · rw [hrec, slotsOf_append, slotsOf_cons_self hitx, slotsOf_append,
        slotsOf_cons_self (show (it.claimedBy txn.txnId).rowId = x from hitx), Slot.claim,
        Slot.claimNewest_append (by simp [DeltaRecord.slot, hlive]) hnew]
      simp [DeltaRecord.slot, DeltaRecord.claimedBy, hpos]
    · rw [hrec]
      simp [DeltaRecord.claimedBy, hitx, Ne.symm hy]
    · rcases List.mem_append.mp ha with ha | ha
      · exact hP a (by rw [hrec]; simp [ha]) hax
      · rcases List.mem_cons.mp ha with rfl | ha
        · exact ⟨(hP it (by rw [hrec]; simp) hitx).1, ht⟩
        · exact hP a (by rw [hrec]; simp [ha]) hax
  · left
    have hnil : slotsOf records x = [] := by
      unfold slotsOf
      rw [List.map_eq_nil_iff, List.filter_eq_nil_iff]
      intro a ha hax
      exact hno a ha (by simpa using hax)
    refine ⟨_, hr, ?_, fun y hy => ?_, fun P h0 ht hP a ha hax => ?_⟩
    · rw [slotsOf_append, hnil, slotsOf_cons_self (show (DeltaRecord.tombstone x txn.txnId).rowId = x from rfl)]
      simp [Slot.claim, Slot.claimNewest, hin, DeltaRecord.slot, DeltaRecord.tombstone, hpos, slotsOf]
    · simp [DeltaRecord.tombstone, Ne.symm hy]
    · rcases List.mem_append.mp ha with ha | ha
      · exact hP a ha hax
      · rw [List.mem_singleton.mp ha]
        exact ⟨h0, ht⟩
  · right
    refine ⟨?_, res, hres, hr⟩
    rcases hwhy with ⟨a, ha, hax, hconf⟩ | ⟨hskip, hno⟩
    · rw [claimStep_of_settled hpos (hsettled a ha hax)] at hconf
      split at hconf <;> cases hconf
    · rw [Slot.claim, Slot.claimNewest_eq_none (superseded_of_skip hpos hsettled (fun a ha => ha) hskip)]
      refine if_neg ?_
      rintro ⟨hnil, hin⟩
      rcases hno with hno | ⟨a, ha, hax⟩
      · rw [hin] at hno
        cases hno
      · have hmem : a.slot ∈ slotsOf records x :=
          List.mem_map.mpr ⟨a, List.mem_filter.mpr ⟨ha, by simpa using hax⟩, rfl⟩
        rw [hnil] at hmem
        cases hmem

end

/-! ## A replayed call -/

/-- What a replayed call does, from `t` to `t'`. -/
structure Redone (t t' : Table) (txn : Transaction) (op : WalRecord) : Prop where
  base : t'.baseSegments = t.baseSegments
  mgr : t'.txnMgr = t.txnMgr
  nextRowId : t'.nextRowId = if op.type = .insert then Table.raise t.nextRowId op.rowId else t.nextRowId
  slots : slotsOf t'.delta op.rowId = Slot.redo (t.rowIdExistsInBase op.rowId) (slotsOf t.delta op.rowId) op
  others : ∀ y, y ≠ op.rowId → (t'.delta.filter fun a => a.rowId == y) = t.delta.filter fun a => a.rowId == y
  ids : ∀ P : Nat → Prop, P 0 → P txn.txnId →
    (∀ a ∈ t.delta, a.rowId = op.rowId → P a.createdTxn ∧ P a.deletedTxn) →
    ∀ a ∈ t'.delta, a.rowId = op.rowId → P a.createdTxn ∧ P a.deletedTxn

theorem slotsOf_version (records : DeltaLayer) (x t : Nat) (row : Row) :
    slotsOf (records ++ [.version x t row]) x = slotsOf records x ++ [⟨false, false, row⟩] := by
  rw [slotsOf_append, slotsOf_cons_self (show (DeltaRecord.version x t row).rowId = x from rfl)]
  rfl

theorem filter_version {x y : Nat} (h : y ≠ x) (records : DeltaLayer) (t : Nat) (row : Row) :
    ((records ++ [DeltaRecord.version x t row]).filter fun a => a.rowId == y) = records.filter fun a => a.rowId == y := by
  simp [DeltaRecord.version, Ne.symm h]

/-- The ids of a row to which a version has been appended. -/
theorem ids_version {records : DeltaLayer} {x t : Nat} {row : Row} {P : Nat → Prop} (h0 : P 0) (ht : P t)
    (h : ∀ a ∈ records, a.rowId = x → P a.createdTxn ∧ P a.deletedTxn) :
    ∀ a ∈ records ++ [.version x t row], a.rowId = x → P a.createdTxn ∧ P a.deletedTxn := by
  intro a ha hax
  rcases List.mem_append.mp ha with ha | ha
  · exact h a ha hax
  · rw [List.mem_singleton.mp ha]
    exact ⟨ht, h0⟩

/-- **One redo** of a row whose records are settled. -/
theorem redo_slots {t : Table} {txn : Transaction} {op : WalRecord} (hpos : txn.txnId ≠ 0)
    (hsettled : ∀ a ∈ t.delta, a.rowId = op.rowId → a.SettledFor t.txnMgr txn) :
    Redone t (t.redo txn op).2 txn op := by
  have hclaim := claim_slots hpos hsettled (t.rowIdExistsInBase op.rowId)
  cases hty : op.type with
  | insert =>
    simp only [Table.redo, hty, Table.insertWithRowId, DeltaLayer.insert]
    refine ⟨rfl, rfl, by simp [hty], ?_, fun y hy => filter_version hy _ _ _, fun P h0 ht hP => ids_version h0 ht hP⟩
    rw [slotsOf_version]
    simp [Slot.redo, hty]
  | update =>
    simp only [Table.redo, hty, Table.update, DeltaLayer.insert]
    rcases hclaim with ⟨records', hr, hslots, hothers, hids⟩ | ⟨hslots, res, hres, hr⟩
    · rw [hr, if_pos rfl]
      refine ⟨rfl, rfl, by simp [hty], ?_, fun y hy => ?_, fun P h0 ht hP => ids_version h0 ht (hids P h0 ht hP)⟩
      · rw [slotsOf_version]
        simp [Slot.redo, hty, hslots]
      · rw [filter_version hy, hothers y hy]
    · rw [hr, if_neg hres]
      exact ⟨rfl, rfl, by simp [hty], by simp [Slot.redo, hty, hslots], fun _ _ => rfl, fun _ _ _ hP => hP⟩
  | delete =>
    simp only [Table.redo, hty, Table.delete]
    rcases hclaim with ⟨records', hr, hslots, hothers, hids⟩ | ⟨hslots, res, hres, hr⟩
    · rw [hr]
      exact ⟨rfl, rfl, by simp [hty], by simp [Slot.redo, hty, hslots], hothers, hids⟩
    · rw [hr]
      exact ⟨rfl, rfl, by simp [hty], by simp [Slot.redo, hty, hslots], fun _ _ => rfl, fun _ _ _ hP => hP⟩
  | _ =>
    simp only [Table.redo, hty]
    exact ⟨rfl, rfl, by simp [hty], by simp [Slot.redo, hty], fun _ _ => rfl, fun _ _ _ hP => hP⟩

/-! ## What a later reader finds -/

namespace Slot

/-- The slot is a version that counts. -/
def shows (s : Slot) : Bool := !s.tombstone && !s.superseded

/-- The slot is a tombstone that counts. -/
def hides (s : Slot) : Bool := s.tombstone && s.superseded

end Slot

/-- Every transaction in the record has committed by now. -/
def DeltaRecord.Final (m : TransactionManager) (a : DeltaRecord) : Prop :=
  ∀ f, f = a.createdTxn ∨ f = a.deletedTxn → f = 0 ∨ (m.getStatus f).committedBy m.lastCommitTs = true

section
variable {m : TransactionManager} (hzero : (m.getStatus 0).state ≠ .committed) (hpos : 0 < m.nextId)
include hzero hpos

/-- A reader who begins now sees a transaction of a final record, but not the nobody
that id 0 stands for. -/
theorem sees_begin {f : Nat} (h : f = 0 ∨ (m.getStatus f).committedBy m.lastCommitTs = true) :
    m.begin.2.sees m.begin.1 f = (f != 0) := by
  have hget : ∀ f, m.begin.2.getStatus f = m.getStatus f := fun _ => rfl
  unfold TransactionManager.sees
  rw [hget]
  show (f == m.nextId || (m.getStatus f).committedBy m.lastCommitTs) = (f != 0)
  by_cases hf : f = 0
  · subst hf
    have hne : (0 == m.nextId) = false := by simp; omega
    simp [hne, TxnStatus.committedBy, hzero]
  · rcases h with h | h
    · exact absurd h hf
    · simp [h, hf]

theorem shows_begin {a : DeltaRecord} (h : a.Final m) : a.shows m.begin.2 m.begin.1 = a.slot.shows := by
  have hcreated := sees_begin hzero hpos (h a.createdTxn (Or.inl rfl))
  have hdeleted := sees_begin hzero hpos (h a.deletedTxn (Or.inr rfl))
  unfold DeltaRecord.shows Slot.shows DeltaRecord.slot
  rw [isVisible_eq, hcreated, hdeleted]
  simp only [bne, Bool.or_not_self, Bool.true_and, Bool.and_self]

theorem hides_begin {a : DeltaRecord} (h : a.Final m) : a.hides m.begin.2 m.begin.1 = a.slot.hides := by
  unfold DeltaRecord.hides Slot.hides DeltaRecord.slot
  rw [sees_begin hzero hpos (h a.deletedTxn (Or.inr rfl))]

/-- **The delta loop of a new reader**, read off the slots. -/
theorem mergeDelta_slots {records : DeltaLayer} (h : ∀ a ∈ records, a.Final m) :
    (∀ x, Keyed.find (mergeDelta m.begin.2 m.begin.1 records).fromDelta x =
      (((slotsOf records x).filter Slot.shows).getLast?).map (·.row)) ∧
    (∀ x, x ∈ (mergeDelta m.begin.2 m.begin.1 records).suppressBase ↔
      ∃ s ∈ slotsOf records x, (s.shows || s.hides) = true) := by
  obtain ⟨-, hfind, hsup⟩ := mergeDelta_spec m.begin.2 m.begin.1 records
  refine ⟨fun x => ?_, fun x => ?_⟩
  · have hfilter : (records.filter fun a => a.rowId == x && a.shows m.begin.2 m.begin.1) =
        (records.filter fun a => a.rowId == x).filter fun a => a.slot.shows := by
      rw [List.filter_filter]
      apply List.filter_congr
      intro a ha
      rw [shows_begin hzero hpos (h a ha), Bool.and_comm]
    rw [hfind, hfilter, slotsOf, List.filter_map, List.getLast?_map, Option.map_map]
    rfl
  · rw [hsup]
    constructor
    · rintro ⟨a, ha, hax, hs⟩
      rw [shows_begin hzero hpos (h a ha), hides_begin hzero hpos (h a ha)] at hs
      exact ⟨a.slot, List.mem_map.mpr ⟨a, List.mem_filter.mpr ⟨ha, by simpa using hax⟩, rfl⟩, hs⟩
    · rintro ⟨s, hs, hshow⟩
      obtain ⟨a, ha, rfl⟩ := List.mem_map.mp hs
      obtain ⟨ha, hax⟩ := List.mem_filter.mp ha
      refine ⟨a, ha, by simpa using hax, ?_⟩
      rw [shows_begin hzero hpos (h a ha), hides_begin hzero hpos (h a ha)]
      exact hshow

end

/-- The base part of a scan looks only at which ids are suppressed. -/
theorem rowsExcept_congr (seg : Segment) {suppressed suppressed' : List Nat}
    (h : ∀ x, x ∈ suppressed ↔ x ∈ suppressed') (rs : List Nat) :
    seg.rowsExcept suppressed rs = seg.rowsExcept suppressed' rs := by
  have hcontains : ∀ x, suppressed.contains x = suppressed'.contains x := by
    intro x
    rw [Bool.eq_iff_iff, List.contains_iff_mem, List.contains_iff_mem]
    exact h x
  induction rs with
  | nil => rfl
  | cons r rs ih => rw [Segment.rowsExcept, Segment.rowsExcept, hcontains, ih]

end CoreDB
