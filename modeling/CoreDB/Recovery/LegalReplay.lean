import CoreDB.Recovery.ParallelRedo
import CoreDB.Recovery.Replay

/-!
# Replaying legal histories

Records whose writes to each row can be made one after the other are all made again,
in whatever order the rows come.  Inserted ids need not be in order: threads take their
ids from the table before they write their records, so the log need not have them so.

* `Standing`: the slots of a row, by the phase in which its writes have left it.
* `Standing.redo`: a legal write finds what it needs, and leaves the next phase.
* `replay_of_legal`: no call fails, and a new reader finds the rows that the writes left.
-/

namespace CoreDB

open VersionChain (final)

/-! ## One row -/

/-- The slots of a row with base value `b`, once its writes have left it in a phase and
with a value. -/
inductive Standing (b : Option Row) : Phase → Option Row → List Slot → Prop where
  | absent (hb : b = none) : Standing b .absent none []
  | base (row : Row) (hb : b = some row) : Standing b .present (some row) []
  | holds (old : List Slot) (row : Row) (hold : ∀ s ∈ old, s.superseded = true)
      (hidden : b ≠ none → ∃ s ∈ old, s.hides = true) : Standing b .present (some row) (old ++ [⟨false, false, row⟩])
  | gone (slots : List Slot) (hold : ∀ s ∈ slots, s.superseded = true)
      (hidden : b ≠ none → ∃ s ∈ slots, s.hides = true) : Standing b .gone none slots

theorem standing_start (b : Option Row) : Standing b (phaseOf b) b [] := by
  cases b with
  | none => exact .absent rfl
  | some row => exact .base row rfl

/-- A row that is there can be claimed, and nothing of it counts afterwards. -/
theorem Standing.claim {b v : Option Row} {slots : List Slot} (h : Standing b .present v slots) :
    ∃ slots', Slot.claim b.isSome slots = some slots' ∧ (∀ s ∈ slots', s.superseded = true) ∧
      (b ≠ none → ∃ s ∈ slots', s.hides = true) := by
  cases h with
  | base row hb =>
    subst hb
    exact ⟨[⟨true, true, []⟩], rfl, by simp, fun _ => ⟨_, List.mem_singleton.mpr rfl, rfl⟩⟩
  | holds old row hold hidden =>
    refine ⟨old ++ [⟨false, true, row⟩], ?_, ?_, fun hb => ?_⟩
    · rw [Slot.claim, Slot.claimNewest_append (by rfl) (by simp)]
    · intro s hs
      rcases List.mem_append.mp hs with hs | hs
      · exact hold s hs
      · rw [List.mem_singleton.mp hs]
    · obtain ⟨s, hs, hh⟩ := hidden hb
      exact ⟨s, List.mem_append_left _ hs, hh⟩

/-- The replayed call finds its row in the slots. -/
def Slot.finds (inBase : Bool) (slots : List Slot) (op : WalRecord) : Bool :=
  op.type == .insert || (Slot.claim inBase slots).isSome

/-- **One legal write.** -/
theorem Standing.redo {b v : Option Row} {p q : Phase} {slots : List Slot} {op : WalRecord} (h : Standing b p v slots)
    (hdata : op.type.isData = true) (hnext : p.next op.write = some q) :
    Slot.finds b.isSome slots op = true ∧ Standing b q op.write.value (Slot.redo b.isSome slots op) := by
  cases hty : op.type with
  | insert =>
    have hw : op.write = .insert op.row := by simp [WalRecord.write, hty]
    rw [hw] at hnext ⊢
    cases h with
    | absent hb =>
      cases hnext
      refine ⟨by simp [Slot.finds, hty], ?_⟩
      simp only [Slot.redo, hty]
      exact .holds [] op.row (by simp) fun hne => absurd hb hne
    | base row hb => cases hnext
    | holds old row hold hidden => cases hnext
    | gone slots hold hidden => cases hnext
  | update =>
    have hw : op.write = .update op.row := by simp [WalRecord.write, hty]
    rw [hw] at hnext ⊢
    obtain ⟨rfl, rfl⟩ : p = .present ∧ q = .present := by
      cases p <;> cases hnext
      exact ⟨rfl, rfl⟩
    obtain ⟨slots', hclaim, hold, hidden⟩ := h.claim
    refine ⟨by simp [Slot.finds, hclaim], ?_⟩
    simp only [Slot.redo, hty, hclaim]
    exact .holds slots' op.row hold hidden
  | delete =>
    have hw : op.write = .delete := by simp [WalRecord.write, hty]
    rw [hw] at hnext ⊢
    obtain ⟨rfl, rfl⟩ : p = .present ∧ q = .gone := by
      cases p <;> cases hnext
      exact ⟨rfl, rfl⟩
    obtain ⟨slots', hclaim, hold, hidden⟩ := h.claim
    refine ⟨by simp [Slot.finds, hclaim], ?_⟩
    simp only [Slot.redo, hty, hclaim, Option.getD_some]
    exact .gone slots' hold hidden
  | _ =>
    rw [hty] at hdata
    cases hdata

/-- The writes of some records, each with its transaction. -/
def writesOfRecords (ops : List WalRecord) : List (Nat × Write) := ops.map fun op => (op.txnId, op.write)

/-- **A legal history** of one row. -/
theorem standing_foldl (b : Option Row) (ops : List WalRecord) (hdata : ∀ op ∈ ops, op.type.isData = true) :
    ∀ {q : Phase}, Runs.run Phase.next (phaseOf b) (ops.map WalRecord.write) = some q →
      Standing b q (final b (values (writesOfRecords ops))) (ops.foldl (Slot.redo b.isSome) []) := by
  induction ops using List.reverseRecOn with
  | nil =>
    intro q hq
    cases hq
    exact standing_start b
  | append_singleton ops op ih =>
    intro q hq
    rw [List.map_append, Runs.run_append_eq_some] at hq
    obtain ⟨p, hp, hlast⟩ := hq
    obtain ⟨q', hnext, heq⟩ := Runs.run_cons_eq_some.mp hlast
    cases heq
    have hstand := ih (fun o ho => hdata o (List.mem_append_left _ ho)) hp
    have hvalue : final b (values (writesOfRecords (ops ++ [op]))) = op.write.value := by
      simp [writesOfRecords, values, VersionChain.final_concat]
    rw [List.foldl_append, hvalue]
    exact (hstand.redo (hdata op (by simp)) hnext).2

/-- What a reader makes of the slots: the version, if one counts, and whether the base
copies are hidden. -/
theorem Standing.view {b v : Option Row} {p : Phase} {slots : List Slot} (h : Standing b p v slots) :
    (((slots.filter Slot.shows).getLast?).map (·.row)).or
      (if slots.any (fun s => s.shows || s.hides) then none else b) = v := by
  have hnone : ∀ {l : List Slot}, (∀ s ∈ l, s.superseded = true) → l.filter Slot.shows = [] := by
    intro l hl
    rw [List.filter_eq_nil_iff]
    intro s hs
    simp [Slot.shows, hl s hs]
  cases h with
  | absent hb => simp [hb]
  | base row hb => simp [hb]
  | holds old row hold hidden =>
    rw [List.filter_append, hnone hold]
    simp [Slot.shows]
  | gone slots hold hidden =>
    rw [hnone hold]
    cases b with
    | none => simp
    | some row =>
      obtain ⟨s, hs, hh⟩ := hidden (by simp)
      have hany : slots.any (fun s => s.shows || s.hides) = true :=
        List.any_eq_true.mpr ⟨s, hs, by simp [hh]⟩
      simp [hany]

/-! ## The table -/

/-- What a replay keeps, whether its calls succeed or not. -/
structure ReplayedSlots (t t' : Table) (ops : List WalRecord) : Prop where
  base : t'.baseSegments = t.baseSegments
  slots : ∀ x, slotsOf t'.delta x =
    (ops.filter fun op => op.rowId == x).foldl (Slot.redo (t.rowIdExistsInBase x)) []
  final : ∀ a ∈ t'.delta, a.Final t'.txnMgr
  zero : t'.txnMgr.status 0 = none
  unused : ∀ f, t'.txnMgr.nextId ≤ f → t'.txnMgr.status f = none
  pos : 0 < t'.txnMgr.nextId

section
variable {t : Table} (hdelta : t.delta = []) (hmgr : t.txnMgr = {})
include hdelta hmgr

theorem replayedSlots (ops : List WalRecord) : ReplayedSlots t (ops.foldl Table.applyOp t) ops := by
  obtain ⟨schedule, s, hrun, hjoined, htable⟩ := ParallelRedo.run_sequential t ops
  have h := ParallelRedo.inv_run hdelta hmgr hrun
  rw [← htable]
  refine ⟨h.base, fun x => ?_, fun a ha => h.final hjoined ha, h.mgr.zero, h.mgr.unused,
    Nat.lt_of_le_of_lt (Nat.zero_le _) h.mgr.last⟩
  rw [h.slots x, h.applied_row hjoined]

/-- The next call succeeds if the slots of its row have what it needs. -/
theorem opSucceeds_of_finds (pre : List WalRecord) {op : WalRecord}
    (hfinds : Slot.finds (t.rowIdExistsInBase op.rowId)
      ((pre.filter fun o => o.rowId == op.rowId).foldl (Slot.redo (t.rowIdExistsInBase op.rowId)) []) op = true) :
    (pre.foldl Table.applyOp t).opSucceeds op = true := by
  have h := replayedSlots hdelta hmgr pre
  generalize pre.foldl Table.applyOp t = t' at h
  -- whoever is in the delta has committed by the snapshot of the replaying transaction
  have hsettled : ∀ a ∈ t'.delta, a.rowId = op.rowId → a.SettledFor t'.begun.txnMgr t'.txnMgr.begin.1 := by
    intro a ha _
    have hcommitted : ∀ f, f = a.createdTxn ∨ f = a.deletedTxn →
        f = 0 ∨ (t'.begun.txnMgr.getStatus f).committedBy t'.txnMgr.lastCommitTs = true := h.final a ha
    refine ⟨(hcommitted _ (Or.inl rfl)).imp id fun hc => ?_, (hcommitted _ (Or.inr rfl)).imp id fun hc => ⟨?_, ?_⟩⟩
    · unfold TransactionManager.sees
      rw [Bool.or_eq_true]
      exact Or.inr hc
    · rintro heq
      have hnone : t'.begun.txnMgr.getStatus t'.txnMgr.nextId = {} := by
        show (t'.txnMgr.status t'.txnMgr.nextId).getD {} = {}
        rw [h.unused _ (Nat.le_refl _)]
        rfl
      rw [heq, show t'.txnMgr.begin.1.txnId = t'.txnMgr.nextId from rfl, hnone] at hc
      simp [TxnStatus.committedBy] at hc
    · simp only [TxnStatus.committedBy, Bool.and_eq_true, beq_iff_eq] at hc
      exact hc.1
  have hinBase : t'.begun.rowIdExistsInBase op.rowId = t.rowIdExistsInBase op.rowId := by
    unfold Table.rowIdExistsInBase Table.begun
    rw [h.base]
  rw [← h.slots op.rowId] at hfinds
  have hpos : t'.txnMgr.begin.1.txnId ≠ 0 := Nat.ne_of_gt h.pos
  have hclaim := claim_slots (m := t'.begun.txnMgr) hpos hsettled (t.rowIdExistsInBase op.rowId)
  unfold Table.opSucceeds Table.redo
  have hok : op.type ≠ .insert → ∃ records', t'.delta.claimOrInsertBaseTombstone op.rowId t'.txnMgr.begin.1
      t'.begun.txnMgr (t.rowIdExistsInBase op.rowId) = (.ok, records') := by
    intro hty
    have hne : (op.type == WalRecordType.insert) = false := by simpa using hty
    rcases hclaim with ⟨records', hr, -⟩ | ⟨hnone, -⟩
    · exact ⟨records', hr⟩
    · rw [Slot.finds, hne, hnone] at hfinds
      cases hfinds
  cases hty : op.type with
  | update =>
    obtain ⟨records', hr⟩ := hok (by rw [hty]; simp)
    have hr' : t'.begun.delta.claimOrInsertBaseTombstone op.rowId t'.txnMgr.begin.1 t'.begun.txnMgr
        (t'.begun.rowIdExistsInBase op.rowId) = (.ok, records') := by
      rw [hinBase]
      exact hr
    simp [Table.update, hr']
  | delete =>
    obtain ⟨records', hr⟩ := hok (by rw [hty]; simp)
    have hr' : t'.begun.delta.claimOrInsertBaseTombstone op.rowId t'.txnMgr.begin.1 t'.begun.txnMgr
        (t'.begun.rowIdExistsInBase op.rowId) = (.ok, records') := by
      rw [hinBase]
      exact hr
    simp [Table.delete, hr']
  | _ => rfl

end

/-! ## All records -/

/-- The writes to each row can be made one after the other, from the rows of `base`. -/
structure LegalRecords (base : List (Nat × Row)) (ops : List WalRecord) : Prop where
  data : ∀ op ∈ ops, op.type.isData = true
  legal : ∀ x, ∃ p, Runs.run Phase.next (phaseOf (Keyed.find base x)) (writesTo x ops) = some p

theorem LegalRecords.standing {base : List (Nat × Row)} {ops : List WalRecord} (h : LegalRecords base ops) (x : Nat) :
    ∃ p, Standing (Keyed.find base x) p (Keyed.find (Keyed.applyAll base (ops.map WalRecord.effect)) x)
      ((ops.filter fun op => op.rowId == x).foldl (Slot.redo (Keyed.find base x).isSome) []) := by
  obtain ⟨p, hp⟩ := h.legal x
  refine ⟨p, ?_⟩
  have hhist : (writesOfRecords (ops.filter fun op => op.rowId == x)).map (·.2) = writesTo x ops := by
    simp [writesOfRecords, writesTo]
  rw [find_effects base ops hhist]
  exact standing_foldl _ _ (fun op hop => h.data op (List.mem_of_mem_filter hop)) hp

/-- A record finds what its write needs in what those before it have left. -/
theorem LegalRecords.finds {base : List (Nat × Row)} {pre post : List WalRecord} {op : WalRecord}
    (h : LegalRecords base (pre ++ op :: post)) :
    Slot.finds (Keyed.find base op.rowId).isSome
      ((pre.filter fun o => o.rowId == op.rowId).foldl (Slot.redo (Keyed.find base op.rowId).isSome) []) op = true := by
  obtain ⟨q, hq⟩ := h.legal op.rowId
  have hsplit : writesTo op.rowId (pre ++ op :: post) = writesTo op.rowId pre ++ op.write :: writesTo op.rowId post := by
    simp [writesTo]
  rw [hsplit, Runs.run_append_eq_some] at hq
  obtain ⟨p, hp, hrest⟩ := hq
  obtain ⟨p', hnext, -⟩ := Runs.run_cons_eq_some.mp hrest
  have hstand := standing_foldl (Keyed.find base op.rowId) (pre.filter fun o => o.rowId == op.rowId)
    (fun o ho => h.data o (List.mem_append_left _ (List.mem_of_mem_filter ho))) hp
  exact (hstand.redo (h.data op (by simp)) hnext).1

/-- The rows that a reader gathers from the slots and the base are those the writes left. -/
theorem perm_applyAll {base fromDelta : List (Nat × Row)} {suppressed : List Nat} {ops : List WalRecord}
    (hbase : (Keyed.keys base).Nodup) (hkeys : (Keyed.keys fromDelta).Nodup)
    (hfind : ∀ x, Keyed.find fromDelta x =
      (((((ops.filter fun op => op.rowId == x).foldl (Slot.redo (Keyed.find base x).isSome) []).filter
        Slot.shows).getLast?).map (·.row)))
    (hsup : ∀ x, x ∈ suppressed ↔
      ∃ s ∈ (ops.filter fun op => op.rowId == x).foldl (Slot.redo (Keyed.find base x).isSome) [],
        (s.shows || s.hides) = true)
    (h : LegalRecords base ops) :
    (fromDelta ++ base.filter fun p => !suppressed.contains p.1).Perm
      (Keyed.applyAll base (ops.map WalRecord.effect)) := by
  refine Keyed.perm_of_find_eq ?_ (Keyed.keys_applyAll_nodup _ hbase) fun x => ?_
  · rw [Keyed.keys, List.map_append, List.nodup_append]
    refine ⟨hkeys, Keyed.keys_filter_nodup _ hbase, ?_⟩
    rintro x hx y hy rfl
    -- a row with a version that counts is suppressed
    obtain ⟨p, hp, rfl⟩ := List.mem_map.mp hx
    have hsome := hfind p.1
    rw [Keyed.find_of_mem hkeys (show (p.1, p.2) ∈ fromDelta from hp)] at hsome
    obtain ⟨s, hs, -⟩ := Option.map_eq_some_iff.mp hsome.symm
    obtain ⟨hs, hshow⟩ := List.mem_filter.mp (List.mem_of_getLast? hs)
    obtain ⟨q, hq, hqx⟩ := List.mem_map.mp hy
    have hnot := (List.mem_filter.mp hq).2
    have hmem := (hsup p.1).mpr ⟨s, hs, by simp [hshow]⟩
    simp only [hqx, Bool.not_eq_true', List.contains_eq_mem, decide_eq_false_iff_not] at hnot
    exact hnot hmem
  · obtain ⟨p, hstand⟩ := h.standing x
    rw [← hstand.view, Keyed.find_append, hfind x, Keyed.find_filter_key base (fun y => !suppressed.contains y) x]
    congr 1
    by_cases hx : x ∈ suppressed
    · rw [if_pos (List.any_eq_true.mpr ((hsup x).mp hx))]
      simp [hx]
    · have hnone := mt (fun hany => (hsup x).mpr (List.any_eq_true.mp hany)) hx
      rw [if_neg hnone]
      simp [hx]

theorem inBase_eq (t : Table) (x : Nat) : t.rowIdExistsInBase x = (Keyed.find (basePairs t.baseSegments) x).isSome := by
  rw [Bool.eq_iff_iff, Table.rowIdExistsInBase_iff, Option.isSome_iff_ne_none, Ne, Ne, Keyed.find_eq_none_iff,
    List.map_eq_nil_iff, List.filter_eq_nil_iff, Keyed.keys, List.mem_map]
  refine not_congr ⟨fun h => ?_, fun h p hp hpx => h ⟨p, hp, by simpa using hpx⟩⟩
  rintro ⟨p, hp, rfl⟩
  exact h p hp (by simp)

/-- **Legal records are all made again.**  No call fails, and a new reader finds the rows
that the writes have left. -/
theorem replay_of_legal {t : Table} (hdelta : t.delta = []) (hmgr : t.txnMgr = {})
    (hread : ∀ seg ∈ t.baseSegments, seg.Readable) (hbase : (Keyed.keys (basePairs t.baseSegments)).Nodup)
    {ops : List WalRecord} (h : LegalRecords (basePairs t.baseSegments) ops) :
    (∃ rows, (ops.foldl Table.applyOp t).newReaderRows = some rows ∧
      rows.Perm ((Keyed.applyAll (basePairs t.baseSegments) (ops.map WalRecord.effect)).map (·.2))) ∧
    ∀ pre op post, ops = pre ++ op :: post → (pre.foldl Table.applyOp t).opSucceeds op = true := by
  constructor
  · have hs := replayedSlots hdelta hmgr ops
    generalize ops.foldl Table.applyOp t = t' at hs
    obtain ⟨hfind, hsup⟩ := mergeDelta_slots (m := t'.txnMgr) (by simp [TransactionManager.getStatus, hs.zero]) hs.pos
      hs.final
    have hkeys := (mergeDelta_spec t'.txnMgr.begin.2 t'.txnMgr.begin.1 t'.delta).1
    have hrows := materializeKeyed_eq t'.txnMgr.begin.2 (t'.snapshotForScan t'.txnMgr.begin.1) (by
      show ∀ seg ∈ t'.baseSegments, seg.Readable
      rw [hs.base]
      exact hread)
    refine ⟨_, by rw [Table.newReaderRows, materializeVisibleRows, hrows]; rfl, List.Perm.map _ ?_⟩
    show ((mergeDelta t'.txnMgr.begin.2 t'.txnMgr.begin.1 t'.delta).fromDelta ++
      (basePairs t'.baseSegments).filter fun p =>
        !(mergeDelta t'.txnMgr.begin.2 t'.txnMgr.begin.1 t'.delta).suppressBase.contains p.1).Perm _
    rw [hs.base]
    exact perm_applyAll hbase hkeys (fun x => (hfind x).trans (by rw [hs.slots x, inBase_eq]))
      (fun x => (hsup x).trans (by rw [hs.slots x, inBase_eq])) h
  · rintro pre op post rfl
    refine opSucceeds_of_finds hdelta hmgr pre ?_
    rw [inBase_eq]
    exact h.finds

end CoreDB
