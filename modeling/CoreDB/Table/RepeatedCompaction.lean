import CoreDB.Table.AcceptedRows

/-!
# `Compact` again and again

A second `Compact` right after a first one finds other heads: where the newest record of a
row was a version of an aborted transaction, the record before it is now the newest.  It
promotes and purges nothing all the same, so it leaves the base alone; what it can still do
is to drop the tombstone of an aborted claim.  From then on `Compact` changes nothing but
the number of its runs (`compact_settles`).

The argument is about one row at a time: `Exact` says which action each record of a row
gets, the last one being the head.
-/

namespace CoreDB

/-- What `Compact` does to a record if nothing happens meanwhile. -/
def TransactionManager.action (m : TransactionManager) (isHead : Bool) (a : DeltaRecord) : Action :=
  classify (fun _ => m) m.oldestActiveSnapshot isHead 0 a

/-- The records of a row with their actions. -/
def Exact (m : TransactionManager) (acts : List (DeltaRecord × Action)) : Prop :=
  ∀ older p newer, acts = older ++ p :: newer → p.2 = m.action newer.isEmpty p.1

theorem exact_actsOf (m : TransactionManager) (snapshot : List DeltaRecord) (x : Nat) :
    Exact m (actsOf (fun _ => m) m.oldestActiveSnapshot snapshot x) := by
  intro older p newer hsplit
  unfold actsOf at hsplit
  obtain ⟨A', B', hAB, -, hB⟩ := List.filter_eq_append_iff.mp hsplit
  obtain ⟨A, B, hB', hA, hp, hnewer⟩ := List.filter_eq_cons_iff.mp hB
  rw [hB', ← List.append_assoc] at hAB
  obtain ⟨k, isHead, hact, hhead⟩ := classified_split hAB
  have hpx : p.1.rowId = x := by simpa using hp
  have hempty : newer.isEmpty = isHead := by
    rw [Bool.eq_iff_iff, List.isEmpty_iff, hhead, ← hnewer, List.filter_eq_nil_iff, hpx]
    simp
  rw [hempty, hact]
  rfl

section
variable {m : TransactionManager} {acts acts' : List (DeltaRecord × Action)}

theorem Exact.tail {p : DeltaRecord × Action} (h : Exact m (p :: acts)) : Exact m acts := by
  intro older q newer hsplit
  exact h (p :: older) q newer (by rw [hsplit, List.cons_append])

/-- The actions are determined by the records. -/
theorem Exact.unique (h : Exact m acts) (h' : Exact m acts') (hfst : acts.map (·.1) = acts'.map (·.1)) :
    acts = acts' := by
  induction acts generalizing acts' with
  | nil => exact (List.map_eq_nil_iff.mp hfst.symm).symm
  | cons p acts ih =>
    cases acts' with
    | nil => cases hfst
    | cons p' acts' =>
      obtain ⟨hp, hrest⟩ := List.cons.inj hfst
      obtain rfl := ih h.tail h'.tail hrest
      have hact : p.2 = p'.2 := by
        rw [h [] p acts rfl, h' [] p' acts rfl, show p.1 = p'.1 from hp]
      rw [Prod.ext hp hact]

/-- What is retained stays so, whether it is the head or not; only the tombstone of an aborted
claim goes. -/
theorem action_of_retained {a : DeltaRecord} {isHead : Bool} (h : m.action isHead a = .retain)
    (htomb : a.isBaseTombstone = true → a.deletedTxn ≠ 0)
    (hclosed : a.isBaseTombstone = false → a.deletedTxn ≠ 0 →
      (m.getStatus a.deletedTxn).committedBy m.oldestActiveSnapshot = true →
      (m.getStatus a.createdTxn).committedBy m.oldestActiveSnapshot = true)
    (hclaimed : isHead = false → (m.getStatus a.createdTxn).state ≠ .aborted → a.deletedTxn ≠ 0)
    (isHead' : Bool) : m.action isHead' a = .retain ∨
      m.action isHead' a = .drop ∧ isHead' = true ∧ a.isBaseTombstone = true := by
  unfold TransactionManager.action classify at h ⊢
  cases ht : a.isBaseTombstone with
  | true =>
    have hne := htomb ht
    cases isHead <;> cases isHead' <;> simp [ht, hne] at h ⊢ <;> grind
  | false =>
    cases isHead <;> cases isHead' <;> simp [ht] at h hclosed hclaimed ⊢ <;> grind

end

/-! ## A row after a first and a second `Compact` -/

namespace World

theorem exact_acts (w : World) (x : Nat) : Exact w.table.txnMgr (w.acts x) := exact_actsOf _ _ x

section
variable {w w1 : World} {x : Nat} (h : w.Inv)
include h

theorem action_again {a : DeltaRecord} {older newer : List (DeltaRecord × Action)}
    (hsplit : w.acts x = older ++ (a, .retain) :: newer) (isHead : Bool) :
    w.table.txnMgr.action isHead a = .retain ∨
      w.table.txnMgr.action isHead a = .drop ∧ isHead = true ∧ a.isBaseTombstone = true := by
  have hrec : (w.row x).records = older.map (·.1) ++ a :: newer.map (·.1) := by
    rw [records_eq_acts, hsplit]
    simp
  have hok := (h.rows x).ok a (by rw [hrec]; simp)
  refine action_of_retained (w.exact_acts x older (a, .retain) newer hsplit).symm (fun ht => (hok.tombstone ht).2)
    (fun hnt hne hst => ?_) (fun hhead hal => ?_) isHead
  · obtain ⟨u, -, h0 | hsees⟩ := hok.claim hne
    · exact absurd h0 (hok.version hnt).1
    · exact h.clients.stable_of_Sees hsees hst
  · -- a record that is not the head has been claimed
    cases newer with
    | nil => cases hhead
    | cons b newer =>
      have horder := (h.rows x).order
      rw [hrec, List.pairwise_append, List.pairwise_cons] at horder
      refine (horder.2.1.1 b.1 (by simp)).2 ?_
      have hal : (w.clients.mgr.getStatus a.createdTxn).state ≠ .aborted := hal
      simp [Clients.alive, TransactionManager.isAborted, hal]

variable (hmgr : w1.table.txnMgr = w.table.txnMgr)
  (hrec : (w1.row x).records = ((w.acts x).filter fun p => p.2 == .retain).map (·.1))
include hmgr hrec

/-- **The second `Compact`** retains what the first one has, but for a tombstone that is alone. -/
theorem acts_again : (∀ p ∈ w1.acts x, p.2 = .retain) ∨ ∃ a, w1.acts x = [(a, .drop)] := by
  by_cases hall : ∀ p ∈ w1.acts x, p.2 = .retain
  · exact Or.inl hall
  · obtain ⟨p, hp⟩ := Classical.not_forall.mp hall
    obtain ⟨hp, hne⟩ := Classical.not_imp.mp hp
    obtain ⟨older, newer, hsplit⟩ := List.append_of_mem hp
    have hrec1 : (w1.row x).records = older.map (·.1) ++ p.1 :: newer.map (·.1) := by
      rw [records_eq_acts, hsplit]
      simp
    have hin : (p.1, Action.retain) ∈ w.acts x := by
      have hmem : p.1 ∈ (w1.row x).records := by rw [hrec1]; simp
      rw [hrec] at hmem
      obtain ⟨⟨b, act⟩, hb, hpb⟩ := List.mem_map.mp hmem
      obtain ⟨hb, hact⟩ := List.mem_filter.mp hb
      rw [← hpb, ← beq_iff_eq.mp hact]
      exact hb
    obtain ⟨older', newer', hsplit'⟩ := List.append_of_mem hin
    have hexact := w1.exact_acts x older p newer hsplit
    rw [hmgr] at hexact
    rcases action_again h hsplit' newer.isEmpty with hact | ⟨hact, hnewer, htomb⟩
    · exact absurd (hexact.trans hact) hne
    · -- a tombstone comes first, so the head is all there is
      have hsub : (w1.row x).records.Sublist (w.row x).records := by
        rw [hrec, records_eq_acts]
        exact List.filter_sublist.map _
      have horder := (h.rows x).order.sublist hsub
      rw [hrec1, List.pairwise_append] at horder
      refine Or.inr ⟨p.1, ?_⟩
      rw [hsplit, List.isEmpty_iff.mp hnewer]
      cases older with
      | nil => rw [List.nil_append, ← hexact.trans hact]
      | cons o older =>
        have hbefore := horder.2.2 o.1 (by simp) p.1 (by simp)
        rw [hbefore.1] at htomb
        cases htomb

omit h in
/-- **The third one** retains everything. -/
theorem acts_settled (hagain : (∀ p ∈ w.acts x, p.2 = .retain) ∨ ∃ a, w.acts x = [(a, .drop)]) :
    ∀ p ∈ w1.acts x, p.2 = .retain := by
  rcases hagain with hall | ⟨a, hdrop⟩
  · have hsame : w1.acts x = w.acts x := by
      refine (w1.exact_acts x).unique (hmgr ▸ w.exact_acts x) ?_
      rw [← records_eq_acts, hrec, List.filter_eq_self.mpr fun p hp => by simp [hall p hp]]
    rw [hsame]
    exact hall
  · have hnil : w1.acts x = [] := by
      have hmap := w1.records_eq_acts x
      rw [hrec, hdrop] at hmap
      exact List.map_eq_nil_iff.mp hmap.symm
    rw [hnil]
    simp

end

end World

/-! ## The whole delta -/

/-- Every record is retained or promoted at most once. -/
theorem length_gather_le (acts : List (DeltaRecord × Action)) :
    (gather acts).retained.length + (gather acts).liveStableRows.length ≤ acts.length := by
  induction acts using List.reverseRecOn with
  | nil => simp [gather]
  | append_singleton acts p ih =>
    rw [gather_concat, List.length_append, List.length_singleton]
    have hle := List.length_filter_le (fun q => decide (q.1 ≠ p.1.rowId)) (gather acts).liveStableRows
    cases hact : p.2 <;> simp only [CompactState.record, Keyed.put, Keyed.erase, List.length_append,
      List.length_singleton] <;> omega

/-- `Compact` when it promotes and purges nothing. -/
theorem Table.compactUnder_idle {t : Table} {obs : Nat → TransactionManager}
    (h : ∀ p ∈ classified obs t.txnMgr.oldestActiveSnapshot t.delta, p.2 = .retain ∨ p.2 = .drop) :
    t.compactUnder obs = some { t with
      delta := (compactLoop obs t.txnMgr.oldestActiveSnapshot t.delta).retained
      metrics := { t.metrics with
        runs := t.metrics.runs + 1
        rowsRetired := t.metrics.rowsRetired +
          (t.delta.length - (compactLoop obs t.txnMgr.oldestActiveSnapshot t.delta).retained.length) } } := by
  have hlive : (compactLoop obs t.txnMgr.oldestActiveSnapshot t.delta).liveStableRows = [] := by
    rw [List.eq_nil_iff_forall_not_mem]
    intro p hp
    obtain ⟨q, hq, hact, -⟩ := exists_promoted hp
    rcases h q hq with hq | hq <;> rw [hact] at hq <;> cases hq
  have hpurged : (compactLoop obs t.txnMgr.oldestActiveSnapshot t.delta).stablyDeletedRowIds = [] := by
    rw [List.eq_nil_iff_forall_not_mem]
    intro x hx
    obtain ⟨q, hq, -, hact⟩ := (mem_gather_purged _ x).mp hx
    rcases h q hq with hq | hq <;> rw [hact] at hq <;> cases hq
  unfold compactUnder
  simp [hlive, hpurged]

namespace World

/-- The records of the delta with what `Compact` does to them. -/
def allActs (w : World) : List (DeltaRecord × Action) :=
  classified (fun _ => w.table.txnMgr) w.table.txnMgr.oldestActiveSnapshot w.table.delta

theorem mem_acts {w : World} {p : DeltaRecord × Action} (hp : p ∈ w.allActs) : p ∈ w.acts p.1.rowId :=
  List.mem_filter.mpr ⟨hp, by simp⟩

theorem step_compact {w : World} (hfits : w.fits = true) {t : Table}
    (ht : w.table.compactUnder (fun _ => w.table.txnMgr) = some t) (hm : t.txnMgr = w.table.txnMgr) :
    w.step (.compact []) = some { w with table := t } := by
  have hobs : w.observed [] = fun _ => w.table.txnMgr := rfl
  simp only [step, hfits, if_true, List.flatten_nil, Runs.run_nil, hobs, ht, Option.map_some]
  rw [← hm]

/-- A first `Compact`. -/
theorem compact_first {w : World} (h : w.Inv) (hsound : w.table.Sound) (hfits : w.fits = true) :
    ∃ w1, w.step (.compact []) = some w1 ∧ w1.table.txnMgr = w.table.txnMgr ∧ w1.fits = true ∧
      ∀ x, (w1.row x).records = ((w.acts x).filter fun p => p.2 == .retain).map (·.1) := by
  have hran : Runs.run txnStep w [].flatten = some w := rfl
  obtain ⟨hj, t, ht, hto⟩ := compactedTo h hsound hfits hran
  have hstate : compactLoop (w.observed []) w.table.txnMgr.oldestActiveSnapshot w.table.delta = w.compactState := rfl
  rw [hstate] at hto
  refine ⟨_, step_compact hfits ht hto.txnMgr, hto.txnMgr, ?_, fun x => ?_⟩
  · have hcount : w.compactState.retained.length + w.compactState.liveStableRows.length ≤ w.table.delta.length := by
      have hlen := congrArg List.length (map_fst_classified (fun _ => w.table.txnMgr)
        w.table.txnMgr.oldestActiveSnapshot w.table.delta)
      rw [List.length_map] at hlen
      exact Nat.le_trans (length_gather_le _) (Nat.le_of_eq hlen)
    have hfilter := List.length_filter_le (fun p => !w.compactState.stablyDeletedRowIds.contains p.1)
      (basePairs w.table.baseSegments)
    unfold fits at hfits ⊢
    obtain ⟨hid, hsmall⟩ := of_decide_eq_true hfits
    refine decide_eq_true ⟨by rw [hto.nextRowId]; exact hid, ?_⟩
    rw [hto.base, hto.delta, CompactState.rebase, List.length_append]
    omega
  · have hrow := hto.rewritten.row (w.log.filterMap (Event.writeTo x)) x (hj x)
    have hrec := congrArg RowState.records hrow
    exact hrec

/-- A second one, which leaves the base alone. -/
theorem compact_second {w : World} (hfits : w.fits = true)
    (hacts : ∀ x, (∀ p ∈ w.acts x, p.2 = .retain) ∨ ∃ a, w.acts x = [(a, .drop)]) :
    ∃ w1, w.step (.compact []) = some w1 ∧ w1.table.baseSegments = w.table.baseSegments ∧ w1.fits = true ∧
      ∀ p ∈ w1.allActs, p.2 = .retain := by
  have hidle : ∀ p ∈ w.allActs, p.2 = .retain ∨ p.2 = .drop := by
    intro p hp
    rcases hacts p.1.rowId with hall | ⟨a, ha⟩
    · exact Or.inl (hall p (mem_acts hp))
    · have hmem := mem_acts hp
      rw [ha, List.mem_singleton] at hmem
      exact Or.inr (congrArg Prod.snd hmem)
  have hret : w.compactState.retained = (w.allActs.filter fun p => p.2 == .retain).map (·.1) := gather_retained _
  have hfst : w.allActs.map (·.1) = w.table.delta := map_fst_classified ..
  obtain ⟨w1, hw1, hmgr, hdelta, hbase, hnext⟩ : ∃ w1, w.step (.compact []) = some w1 ∧
      w1.table.txnMgr = w.table.txnMgr ∧ w1.table.delta = w.compactState.retained ∧
      w1.table.baseSegments = w.table.baseSegments ∧ w1.table.nextRowId = w.table.nextRowId :=
    ⟨_, step_compact hfits (Table.compactUnder_idle hidle) rfl, rfl, rfl, rfl, rfl⟩
  refine ⟨w1, hw1, hbase, ?_, fun p hp => ?_⟩
  · have hle : w.compactState.retained.length ≤ w.table.delta.length := by
      rw [hret, ← hfst, List.length_map, List.length_map]
      exact List.length_filter_le _ _
    unfold fits at hfits ⊢
    obtain ⟨hid, hsmall⟩ := of_decide_eq_true hfits
    rw [hbase, hdelta, hnext]
    exact decide_eq_true ⟨hid, Nat.lt_of_le_of_lt (Nat.add_le_add_left hle _) hsmall⟩
  · refine acts_settled hmgr ?_ (hacts p.1.rowId) p (mem_acts hp)
    change w1.table.delta.filter (fun a => a.rowId == p.1.rowId) =
      ((w.allActs.filter fun q => q.1.rowId == p.1.rowId).filter fun q => q.2 == .retain).map (·.1)
    rw [hdelta, hret, List.filter_map, List.filter_filter, List.filter_filter]
    simp only [Function.comp_def, Bool.and_comm]

/-- The table after `n` more runs that find nothing to do. -/
def moreRuns (w : World) (n : Nat) : World :=
  { w with table := { w.table with metrics := { w.table.metrics with runs := w.table.metrics.runs + n } } }

theorem compact_of_retain {w : World} (hfits : w.fits = true) (hall : ∀ p ∈ w.allActs, p.2 = .retain) :
    w.step (.compact []) = some (w.moreRuns 1) := by
  have hdelta : w.compactState.retained = w.table.delta := by
    have hret : w.compactState.retained = (w.allActs.filter fun p => p.2 == .retain).map (·.1) := gather_retained _
    have hself : (w.allActs.filter fun p => p.2 == .retain) = w.allActs :=
      List.filter_eq_self.mpr fun p hp => beq_iff_eq.mpr (hall p hp)
    rw [hret, hself]
    exact map_fst_classified ..
  have hidle : w.table.compactUnder (fun _ => w.table.txnMgr) = some { w.table with
      delta := w.compactState.retained
      metrics := { w.table.metrics with
        runs := w.table.metrics.runs + 1
        rowsRetired := w.table.metrics.rowsRetired + (w.table.delta.length - w.compactState.retained.length) } } :=
    Table.compactUnder_idle fun p hp => Or.inl (hall p hp)
  rw [hdelta, Nat.sub_self, Nat.add_zero] at hidle
  exact step_compact hfits hidle rfl

theorem run_of_retain {w : World} (hfits : w.fits = true) (hall : ∀ p ∈ w.allActs, p.2 = .retain) (n : Nat) :
    Runs.run step w (List.replicate n (.compact [])) = some (w.moreRuns n) := by
  induction n generalizing w with
  | zero => rfl
  | succ n ih =>
    rw [List.replicate_succ, Runs.run_cons_eq_some]
    refine ⟨w.moreRuns 1, compact_of_retain hfits hall, ?_⟩
    have hrest := ih (w := w.moreRuns 1) hfits hall
    have hadd : (w.moreRuns 1).moreRuns n = w.moreRuns (n + 1) := by
      simp only [moreRuns, Nat.add_assoc, Nat.add_comm 1 n]
    rwa [hadd] at hrest

end World

/-- **`Compact` settles.**  In every reachable state, with any transactions active, a second
`Compact` leaves the base segments of the first one alone, and after it any number of further
ones changes nothing but the number of runs. -/
theorem compact_settles (schema : Schema) (ops : List Op) (hconf : ∀ op ∈ ops, op.conforms schema = true) (w : World)
    (hrun : Runs.run World.step (World.create schema) ops = some w) (hfits : w.fits = true) :
    ∃ w1 w2, w.step (.compact []) = some w1 ∧ w1.step (.compact []) = some w2 ∧
      w2.table.baseSegments = w1.table.baseSegments ∧
      ∀ n, Runs.run World.step w2 (List.replicate n (.compact [])) = some (w2.moreRuns n) := by
  have hgood := World.good_run (World.good_create schema) hconf hrun
  obtain ⟨w1, hw1, hmgr, hfits1, hrec⟩ := World.compact_first hgood.toInv hgood.sound hfits
  obtain ⟨w2, hw2, hbase, hfits2, hall⟩ := World.compact_second hfits1
    fun x => World.acts_again hgood.toInv hmgr (hrec x)
  exact ⟨w1, w2, hw1, hw2, hbase, World.run_of_retain hfits2 hall⟩

/-- A row of the base, whose update has been aborted. -/
def abortedBaseUpdate : List Op := insertOne ++ [.compact [], .txn .begin, .update 3 1 [.int64 8#64], .txn (.abort 3)]

/-- The first `Compact` drops the version, the second one the tombstone. -/
theorem compact_settles_abortedBaseUpdate : ∃ w w1 w2,
    Runs.run World.step (World.create oneColumn) abortedBaseUpdate = some w ∧ w.step (.compact []) = some w1 ∧
    w1.step (.compact []) = some w2 ∧ w.table.delta.length = 2 ∧ w1.table.delta.length = 1 ∧ w2.table.delta = [] ∧
    ∀ n, Runs.run World.step w2 (List.replicate n (.compact [])) = some (w2.moreRuns n) := by
  have hcheck : ((Runs.run World.step (World.create oneColumn) abortedBaseUpdate).any fun w => w.fits &&
      w.table.delta.length == 2 && (w.step (.compact [])).any fun w1 => w1.table.delta.length == 1 &&
        (w1.step (.compact [])).any fun w2 => w2.table.delta == []) = true := by
    decide +kernel
  obtain ⟨w, hw, hfacts⟩ := Runs.exists_of_any hcheck
  simp only [Bool.and_eq_true, beq_iff_eq] at hfacts
  obtain ⟨⟨hfits, hlen⟩, hfirst⟩ := hfacts
  obtain ⟨w1, w2, hw1, hw2, -, hmore⟩ := compact_settles oneColumn abortedBaseUpdate (by decide) w hw hfits
  simp only [hw1, hw2, Option.any_some, Bool.and_eq_true, beq_iff_eq] at hfirst
  exact ⟨w, w1, w2, hw, hw1, hw2, hlen, hfirst.1, hfirst.2, hmore⟩

end CoreDB
