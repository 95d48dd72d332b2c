import CoreDB.Table.Table
import CoreDB.Mvcc.RowHistory

/-!
# What `Compact` does to one row

`Compact` reads the watermark once and then the status of each transaction when
it comes to it.  `Verdict` says what its classification of a record means in
terms of the moment it started, `c`, and the moment it ended, `c'`: "committed by
the watermark" does not change in between (`Window.committedBy`), and an abort it
has observed is final.

For one row this leaves four outcomes (`compact_cases`): the base row is purged
together with its tombstone; the newest version moves into the base; a tombstone
whose claim was aborted goes; or some dead versions at the old end of the chain go.
In each of them the writes that leave the chain are settled.
-/

namespace CoreDB

open VersionChain (Linked Closed Born Died writes)

/-- Every status `Compact` reads between `c` and `c'` is that of some moment in between. -/
def Window (c c' : Clients) (obs : Nat → TransactionManager) : Prop :=
  ∀ k, ∃ m : Clients, m.mgr = obs k ∧ m.Inv ∧ c.Later m ∧ m.Later c'

section
variable {c c' : Clients} {obs : Nat → TransactionManager} (hc : c.Inv) (hc' : c'.Inv)
  (hw : Window c c' obs)
include hc hw

theorem Window.committedBy (k t : Nat) :
    ((obs k).getStatus t).committedBy c.mgr.oldestActiveSnapshot = c.stable t := by
  obtain ⟨m, hm, hinv, hl, -⟩ := hw k
  rw [← hm]
  unfold Clients.stable
  rw [Bool.eq_iff_iff]
  exact ⟨hl.committedBy_old hc hinv hc.oldest_le_last, hl.committedBy hc hinv⟩

omit hc in
include hc' in
theorem Window.aborted {k t : Nat} (h : (((obs k).getStatus t).state == .aborted) = true) :
    c'.alive t = false := by
  obtain ⟨m, hm, hinv, -, hl⟩ := hw k
  have hab : m.mgr.isAborted t = true := by
    unfold TransactionManager.isAborted
    rw [hm]
    exact h
  simp [Clients.alive, hl.isAborted hinv hc' hab]

end

/-- What a record's action tells about it. -/
def Verdict (c c' : Clients) (isHead : Bool) (a : DeltaRecord) : Action → Prop
  | .drop => (a.isBaseTombstone = false ∧ c'.alive a.createdTxn = false) ∨
      (Died DeltaRecord.ver (c.stable · = true) a ∧ (isHead = true → a.isBaseTombstone = false)) ∨
      (isHead = true ∧ a.isBaseTombstone = true ∧ c'.alive a.deletedTxn = false)
  | .retain => ¬ Died DeltaRecord.ver (c.stable · = true) a ∧
      (isHead = true → a.isBaseTombstone = false → c.stable a.createdTxn = true → a.deletedTxn ≠ 0)
  | .promote => isHead = true ∧ a.isBaseTombstone = false ∧ c.stable a.createdTxn = true ∧ a.deletedTxn = 0
  | .purge => isHead = true ∧ a.isBaseTombstone = true ∧ Died DeltaRecord.ver (c.stable · = true) a

theorem classify_verdict {c c' : Clients} {obs : Nat → TransactionManager} (hc : c.Inv) (hc' : c'.Inv)
    (hw : Window c c' obs) (isHead : Bool) (k : Nat) (a : DeltaRecord) (hok : RowState.RecordOk c a) :
    Verdict c c' isHead a (classify obs c.mgr.oldestActiveSnapshot isHead k a) := by
  -- a stable claim is on a record of stable creation
  have hclosed : Died DeltaRecord.ver (c.stable · = true) a → a.isBaseTombstone = false →
      c.stable a.createdTxn = true := by
    intro hd hnt
    obtain ⟨hne, hs⟩ := died_iff.mp hd
    obtain ⟨u, -, h0 | hsees⟩ := hok.claim hne
    · exact absurd h0 (hok.version hnt).1
    · exact hc.stable_of_Sees hsees hs
  unfold classify
  simp only [hw.committedBy hc]
  split
  · next hab =>
    simp only [Bool.and_eq_true, Bool.not_eq_true'] at hab
    exact Or.inl ⟨hab.1, hw.aborted hc' hab.2⟩
  · cases isHead with
    | false =>
      simp only [Bool.not_false, if_true]
      split
      · next hd => exact Or.inr (Or.inl ⟨died_iff.mpr hd, by simp⟩)
      · next hd => exact ⟨fun h => hd (died_iff.mp h), by simp⟩
    | true =>
      simp only [Bool.not_true, Bool.false_eq_true, if_false]
      cases ht : a.isBaseTombstone with
      | true =>
        have hne := (hok.tombstone ht).2
        simp only [if_true]
        split
        · next hs => exact ⟨rfl, ht, died_iff.mpr ⟨hne, hs⟩⟩
        · next hs =>
          split
          · next hab => exact Or.inr (Or.inr ⟨rfl, ht, hw.aborted hc' hab⟩)
          · refine ⟨fun hd => hs (died_iff.mp hd).2, fun _ hnt => ?_⟩
            rw [ht] at hnt
            cases hnt
      | false =>
        simp only [Bool.false_eq_true, if_false]
        split
        · next hs =>
          have hs : c.stable a.createdTxn = false := by simpa using hs
          refine ⟨fun hd => ?_, fun _ _ h => ?_⟩
          · rw [hclosed hd ht] at hs
            cases hs
          · rw [hs] at h
            cases h
        · next hs =>
          split
          · next h0 => exact ⟨rfl, ht, by simpa using hs, h0⟩
          · next h0 =>
            split
            · next hd => exact Or.inr (Or.inl ⟨died_iff.mpr ⟨h0, hd⟩, fun _ => ht⟩)
            · next hd => exact ⟨fun h => hd (died_iff.mp h).2, fun _ _ _ => h0⟩

/-! ## One row -/

/-- The records of a row with their actions: the last one is the head. -/
def Judged (c c' : Clients) (acts : List (DeltaRecord × Action)) : Prop :=
  ∀ older p newer, acts = older ++ p :: newer → Verdict c c' newer.isEmpty p.1 p.2

section
variable {c c' : Clients} {init : List (DeltaRecord × Action)} {hd : DeltaRecord} {act : Action}

theorem Judged.older (hj : Judged c c' (init ++ [(hd, act)])) : ∀ p ∈ init, Verdict c c' false p.1 p.2 := by
  intro p hp
  obtain ⟨l1, l2, rfl⟩ := List.append_of_mem hp
  have hv := hj l1 p (l2 ++ [(hd, act)]) (by simp)
  rwa [show (l2 ++ [(hd, act)]).isEmpty = false by cases l2 <;> rfl] at hv

theorem Judged.head (hj : Judged c c' (init ++ [(hd, act)])) : Verdict c c' true hd act :=
  hj init (hd, act) [] rfl

/-- No older record is purged or promoted. -/
theorem Judged.older_action (hj : Judged c c' (init ++ [(hd, act)])) :
    ∀ p ∈ init, p.2 = .drop ∨ p.2 = .retain := by
  intro p hp
  have hv := hj.older p hp
  cases hact : p.2 with
  | drop => exact Or.inl rfl
  | retain => exact Or.inr rfl
  | promote => rw [hact] at hv; exact absurd hv.1 (by simp)
  | purge => rw [hact] at hv; exact absurd hv.1 (by simp)

theorem Judged.older_promoted (hj : Judged c c' (init ++ [(hd, act)])) :
    init.filter (fun p => p.2 == .promote) = [] := by
  rw [List.filter_eq_nil_iff]
  intro p hp
  rcases hj.older_action p hp with hact | hact <;> simp [hact]

/-- Of the older live records, those stay that have no stable claim. -/
theorem Judged.older_chain (hj : Judged c c' (init ++ [(hd, act)])) :
    ((init.filter fun p => p.2 == .retain).map (·.1)).filter (fun a => c'.alive a.createdTxn) =
      ((init.map (·.1)).filter fun a => c'.alive a.createdTxn).filter
        fun a => decide (¬ Died DeltaRecord.ver (c.stable · = true) a) := by
  rw [List.filter_map, List.filter_map, List.filter_map, List.filter_filter, List.filter_filter]
  congr 1
  apply List.filter_congr
  intro p hp
  simp only [Function.comp_apply]
  cases hal : c'.alive p.1.createdTxn with
  | false => simp
  | true =>
    have hv := hj.older p hp
    rcases hj.older_action p hp with hact | hact
    · rw [hact] at hv
      rcases hv with ⟨-, hab⟩ | ⟨hd, -⟩ | ⟨hf, -⟩
      · rw [hal] at hab; cases hab
      · simp [hact, hd]
      · cases hf
    · rw [hact] at hv
      simp [hact, hv.1]

end

namespace RowState

/-- The row after `Compact`. -/
def compacted (s : RowState) (acts : List (DeltaRecord × Action)) : RowState where
  records := (acts.filter fun p => p.2 == .retain).map (·.1)
  hist := s.hist
  base := (if acts.any fun p => p.2 == .purge then [] else s.base) ++
    (acts.filter fun p => p.2 == .promote).map (·.1.row)

theorem compacted_sublist {s : RowState} {acts : List (DeltaRecord × Action)} (hrec : s.records = acts.map (·.1)) :
    (s.compacted acts).records.Sublist s.records := by
  rw [hrec]
  exact List.filter_sublist.map _

/-- What happens to the chain and the base copies of a row. -/
inductive Outcome (c c' : Clients) (s s' : RowState) : Prop where
  | purge (h : DeltaRecord) (chain_eq : s.chain c' = [h]) (tombstone : h.isBaseTombstone = true)
      (died : Died DeltaRecord.ver (c.stable · = true) h) (chain' : s'.chain c' = []) (base' : s'.base = [])
  | promote (dead : List DeltaRecord) (h : DeltaRecord) (chain_eq : s.chain c' = dead ++ [h])
      (gone : ∀ b ∈ dead, Born DeltaRecord.ver (c.stable · = true) b ∧ Died DeltaRecord.ver (c.stable · = true) b)
      (version : h.isBaseTombstone = false) (stable : c.stable h.createdTxn = true) (live : h.deletedTxn = 0)
      (last : s.records.getLast? = some h) (chain' : s'.chain c' = []) (base' : s'.base = s.base ++ [h.row])
  | void (h : DeltaRecord) (chain_eq : s.chain c' = [h]) (tombstone : h.isBaseTombstone = true)
      (aborted : c'.alive h.deletedTxn = false) (chain' : s'.chain c' = []) (base' : s'.base = s.base)
  | shed (dead : List DeltaRecord) (chain_eq : s.chain c' = dead ++ s'.chain c')
      (gone : ∀ b ∈ dead, Born DeltaRecord.ver (c.stable · = true) b ∧ Died DeltaRecord.ver (c.stable · = true) b)
      (covered : ∀ b ∈ dead, b.isBaseTombstone = true → ∃ older newer, s.records = older ++ b :: newer ∧ newer ≠ [])
      (base' : s'.base = s.base)

section
variable {c c' : Clients} {s : RowState} (hc : c.Inv) (hc' : c'.Inv) (hl : c.Later c') (h : s.Inv c')
  {init : List (DeltaRecord × Action)} {hd : DeltaRecord} {act : Action}
  (hj : Judged c c' (init ++ [(hd, act)])) (hrec : s.records = init.map (·.1) ++ [hd])

theorem compacted_base (hj : Judged c c' (init ++ [(hd, act)])) :
    (s.compacted (init ++ [(hd, act)])).base =
      (if act = .purge then [] else s.base) ++ (if act = .promote then [hd.row] else []) := by
  have hpurge : init.any (fun p => p.2 == .purge) = false := by
    rw [List.any_eq_false]
    intro p hp
    rcases hj.older_action p hp with hact | hact <;> simp [hact]
  simp only [compacted, List.any_append, hpurge, List.filter_append, hj.older_promoted]
  cases act <;> simp

include hc hl hc' h

theorem Inv.closed_stable : Closed DeltaRecord.ver (c.stable · = true) (s.chain c') := by
  refine h.closed fun u t hs hu => ?_
  -- what a stable transaction saw had committed by the watermark already
  obtain ⟨utx, hut, hcm, hle⟩ := (hc.stable_iff u).mp hu
  obtain ⟨utx', hut', -, hf⟩ := hl.handle u utx hut
  obtain rfl := hf (Or.inl (by rw [hcm]; simp))
  obtain ⟨v, hv, hsees⟩ := hs
  rw [hut'] at hv
  obtain rfl := Option.some.inj hv
  have hid := (hc.id u utx' hut).1
  rcases (hc'.sees_iff utx' t).mp hsees with heq | ⟨txn, ht, htc, htle⟩
  · rw [heq, hid]
    exact hu
  · have hcts := (hc.commitTs u utx' hut hcm).1
    have hsnap := (hc.snap u utx' hut).1
    have hcb : (c'.mgr.getStatus t).committedBy c.mgr.oldestActiveSnapshot = true :=
      (hc'.committedBy_iff t _).mpr ⟨txn, ht, htc, by omega⟩
    exact hl.committedBy_old hc hc' hc.oldest_le_last hcb

include hj hrec

omit hc hc' hl h hj in
theorem chain_head (hal : c'.alive hd.createdTxn = true) :
    s.chain c' = ((init.map (·.1)).filter fun a => c'.alive a.createdTxn) ++ [hd] := by
  simp [chain, hrec, List.filter_append, hal]

omit hc hc' hl h hrec in
theorem chain_compacted : (s.compacted (init ++ [(hd, act)])).chain c' =
    (((init.map (·.1)).filter fun a => c'.alive a.createdTxn).filter
      fun a => decide (¬ Died DeltaRecord.ver (c.stable · = true) a)) ++
      (if act = .retain ∧ c'.alive hd.createdTxn = true then [hd] else []) := by
  have hkeep := hj.older_chain
  unfold chain compacted
  simp only [List.filter_append, List.map_append, hkeep]
  congr 1
  by_cases hact : act = .retain
  · by_cases hal : c'.alive hd.createdTxn = true <;> simp [hact, hal]
  · simp [hact]

omit hc hl hj in
/-- The head of a row is a tombstone only if it is alone in the chain. -/
theorem chain_tombstone (ht : hd.isBaseTombstone = true) :
    s.chain c' = [hd] ∧ (init.map (·.1)).filter (fun a => c'.alive a.createdTxn) = [] := by
  have h0 := ((h.ok hd (by rw [hrec]; simp)).tombstone ht).1
  have hal : c'.alive hd.createdTxn = true := by
    rw [h0]; exact Clients.alive_iff.mpr hc'.not_aborted_zero
  have hch : s.chain c' = ((init.map (·.1)).filter fun a => c'.alive a.createdTxn) ++ [hd] := by
    simp [chain, hrec, List.filter_append, hal]
  have hlink := h.linked
  rw [hch] at hlink
  have hnil := VersionChain.linked_unborn_first hlink (txnField_eq_none.mpr h0)
  exact ⟨by rw [hch, hnil]; rfl, hnil⟩

omit hj in
/-- Dropping exactly the stably dead versions. -/
theorem shed_of_filter (s' : RowState)
    (hch : s'.chain c' = (s.chain c').filter fun a => decide (¬ Died DeltaRecord.ver (c.stable · = true) a))
    (hbase : s'.base = s.base)
    (hhd : Died DeltaRecord.ver (c.stable · = true) hd → hd.isBaseTombstone = false) : Outcome c c' s s' := by
  obtain ⟨dead, heq, hdead⟩ := VersionChain.drop_dead h.linked (h.closed_stable hc hc' hl)
  rw [← hch] at heq
  refine .shed dead heq hdead (fun b hb ht => ?_) hbase
  have hmem : b ∈ s.records := List.mem_of_mem_filter (show b ∈ s.chain c' by rw [heq]; simp [hb])
  rw [hrec] at hmem
  rcases List.mem_append.mp hmem with hmem | hmem
  · obtain ⟨l1, l2, hsplit⟩ := List.append_of_mem hmem
    exact ⟨l1, l2 ++ [hd], by rw [hrec, hsplit]; simp, by simp⟩
  · rw [List.mem_singleton.mp hmem] at ht hb
    rw [hhd (hdead hd hb).2] at ht
    cases ht

theorem compact_head_cases : Outcome c c' s (s.compacted (init ++ [(hd, act)])) := by
  have hbase := compacted_base (s := s) hj
  have hch' := chain_compacted (s := s) hj
  have hv := hj.head
  have hclosed := h.closed_stable hc hc' hl
  cases act with
  | purge =>
    obtain ⟨-, ht, hdied⟩ := hv
    obtain ⟨hch, hnil⟩ := chain_tombstone hc' h hrec ht
    exact .purge hd hch ht hdied (by rw [hch', hnil]; simp) (by rw [hbase]; simp)
  | promote =>
    obtain ⟨-, ht, hst, h0⟩ := hv
    have hal := hc'.alive_of_stable (hl.stable hc hc' hst)
    have hch := chain_head hrec hal
    have hlink := h.linked
    rw [hch] at hlink hclosed
    have hdead := VersionChain.dead_of_last hlink hclosed (born_iff.mpr (Or.inr hst))
    have hnil : ((init.map (·.1)).filter fun a => c'.alive a.createdTxn).filter
        (fun a => decide (¬ Died DeltaRecord.ver (c.stable · = true) a)) = [] := by
      rw [List.filter_eq_nil_iff]
      exact fun b hb hd => of_decide_eq_true hd (hdead b hb).2
    exact .promote _ hd hch hdead ht hst h0 (by rw [hrec]; simp) (by rw [hch', hnil]; simp) (by rw [hbase]; simp)
  | drop =>
    rcases hv with ⟨-, hab⟩ | ⟨hdied, hnt⟩ | ⟨-, ht, hab⟩
    · refine shed_of_filter hc hc' hl h hrec _ ?_ (by rw [hbase]; simp) fun hd' => ?_
      · rw [hch']
        simp [chain, hrec, List.filter_append, hab]
      · by_cases ht : hd.isBaseTombstone = true
        · have h0 := ((h.ok hd (by rw [hrec]; simp)).tombstone ht).1
          rw [h0, Clients.alive_iff.mpr hc'.not_aborted_zero] at hab
          cases hab
        · simpa using ht
    · refine shed_of_filter hc hc' hl h hrec _ ?_ (by rw [hbase]; simp) fun _ => hnt rfl
      rw [hch']
      by_cases hal : c'.alive hd.createdTxn = true
      · rw [chain_head hrec hal, List.filter_append (p := fun a => decide _)]
        simp [hdied]
      · simp [chain, hrec, List.filter_append, hal]
    · obtain ⟨hch, hnil⟩ := chain_tombstone hc' h hrec ht
      exact .void hd hch ht hab (by rw [hch', hnil]; simp) (by rw [hbase]; simp)
  | retain =>
    refine shed_of_filter hc hc' hl h hrec _ ?_ (by rw [hbase]; simp) fun hd' => absurd hd' hv.1
    rw [hch']
    by_cases hal : c'.alive hd.createdTxn = true
    · rw [chain_head hrec hal, List.filter_append (p := fun a => decide _)]
      simp [hal, hv.1]
    · simp [chain, hrec, List.filter_append, hal]

end

/-- **What `Compact` can do to a row.** -/
theorem compact_cases {c c' : Clients} {s : RowState} (hc : c.Inv) (hc' : c'.Inv) (hl : c.Later c')
    (h : s.Inv c') {acts : List (DeltaRecord × Action)} (hj : Judged c c' acts)
    (hrec : s.records = acts.map (·.1)) : Outcome c c' s (s.compacted acts) := by
  rcases List.eq_nil_or_concat acts with rfl | ⟨init, ⟨hd, act⟩, rfl⟩
  · have hch : s.chain c' = [] := by simp [chain, hrec]
    exact .shed [] (by rw [hch]; rfl) (by simp) (by simp) (by simp [compacted])
  · rw [List.concat_eq_append] at hj hrec ⊢
    exact compact_head_cases hc hc' hl h hj (by simpa using hrec)

/-- Writes of versions of settled birth, whose last death is settled or void. -/
theorem settled_writes {c c' : Clients} {l : List DeltaRecord}
    (hborn : ∀ b ∈ l, Born DeltaRecord.ver (c.stable · = true) b)
    (hlast : ∀ b ∈ l.getLast?, b.deletedTxn = 0 ∨ c'.alive b.deletedTxn = false ∨ c.stable b.deletedTxn = true) :
    ∀ p ∈ writes DeltaRecord.ver c'.alive l, c.stable p.1 = true := by
  intro p hp
  unfold writes at hp
  rcases List.mem_append.mp hp with hp | hp
  · obtain ⟨b, hb, hput⟩ := List.mem_flatMap.mp hp
    exact hborn b hb _ (VersionChain.mem_put hput).1
  · obtain ⟨b, hb, hdel⟩ := List.mem_flatMap.mp hp
    obtain ⟨hdied, hal, -⟩ := VersionChain.mem_del hdel
    obtain ⟨heq, hne⟩ := txnField_eq_some.mp hdied
    rcases hlast b (by simpa using hb) with h0 | hab | hst
    · exact absurd h0 hne
    · rw [heq, hal] at hab; cases hab
    · rw [← heq]; exact hst

theorem Inv.tombstone_created {c : Clients} {s : RowState} (h : s.Inv c) {a : DeltaRecord}
    (ha : a ∈ s.chain c) (ht : a.isBaseTombstone = true) : a.createdTxn = 0 :=
  ((h.ok a (List.mem_of_mem_filter ha)).tombstone ht).1

section
variable {c c' : Clients} {s s' : RowState} (hc : c.Inv) (hc' : c'.Inv) (hl : c.Later c')
include hc hc' hl

/-- The writes that leave the chain are settled. -/
theorem Outcome.writes_eq (hinv : s.Inv c') (ho : Outcome c c' s s') : ∃ gone,
    writes DeltaRecord.ver c'.alive (s.chain c') = gone ++ writes DeltaRecord.ver c'.alive (s'.chain c') ∧
      ∀ p ∈ gone, c'.stable p.1 = true := by
  have hup : ∀ P : List (Nat × Option Row), (∀ p ∈ P, c.stable p.1 = true) → ∀ p ∈ P, c'.stable p.1 = true :=
    fun P hP p hp => hl.stable hc hc' (hP p hp)
  cases ho with
  | purge h hch ht hdied hch' hb =>
    refine ⟨writes DeltaRecord.ver c'.alive (s.chain c'), by rw [hch']; simp, hup _ ?_⟩
    rw [hch]
    refine settled_writes (fun b hb => ?_) fun b hb => ?_
    · rw [List.mem_singleton.mp hb]
      exact born_iff.mpr (Or.inl (hinv.tombstone_created (by rw [hch]; simp) ht))
    · simp only [List.getLast?_singleton, Option.mem_some_iff] at hb
      rw [← hb]
      exact Or.inr (Or.inr (died_iff.mp hdied).2)
  | promote dead h hch hgone ht hst h0 _ hch' hb =>
    refine ⟨writes DeltaRecord.ver c'.alive (s.chain c'), by rw [hch']; simp, hup _ ?_⟩
    rw [hch]
    refine settled_writes (fun b hb => ?_) fun b hb => ?_
    · rcases List.mem_append.mp hb with hb | hb
      · exact (hgone b hb).1
      · rw [List.mem_singleton.mp hb]
        exact born_iff.mpr (Or.inr hst)
    · simp only [List.getLast?_concat, Option.mem_some_iff] at hb
      rw [← hb]
      exact Or.inl h0
  | void h hch ht hab hch' hb =>
    refine ⟨writes DeltaRecord.ver c'.alive (s.chain c'), by rw [hch']; simp, hup _ ?_⟩
    rw [hch]
    refine settled_writes (fun b hb => ?_) fun b hb => ?_
    · rw [List.mem_singleton.mp hb]
      exact born_iff.mpr (Or.inl (hinv.tombstone_created (by rw [hch]; simp) ht))
    · simp only [List.getLast?_singleton, Option.mem_some_iff] at hb
      rw [← hb]
      exact Or.inr (Or.inl hab)
  | shed dead hch hgone _ hb =>
    by_cases hnil : s'.chain c' = []
    · refine ⟨writes DeltaRecord.ver c'.alive (s.chain c'), by rw [hnil]; simp, hup _ ?_⟩
      rw [hch, hnil, List.append_nil]
      refine settled_writes (fun b hb => (hgone b hb).1) fun b hb => Or.inr (Or.inr ?_)
      exact (died_iff.mp (hgone b (List.mem_of_getLast? (by simpa using hb))).2).2
    · refine ⟨dead.flatMap (VersionChain.put DeltaRecord.ver), ?_, hup _ fun p hp => ?_⟩
      · rw [hch, VersionChain.writes_append _ _ hnil]
      · obtain ⟨b, hb, hput⟩ := List.mem_flatMap.mp hp
        exact (hgone b hb).1 _ (VersionChain.mem_put hput).1

theorem Outcome.settled (hinv : s.Inv c') (ho : Outcome c c' s s') (hhist : s'.hist = s.hist)
    {P : List (Nat × Option Row)} (hset : s.Settled c' P) : ∃ gone,
    writes DeltaRecord.ver c'.alive (s.chain c') = gone ++ writes DeltaRecord.ver c'.alive (s'.chain c') ∧
      s'.Settled c' (P ++ gone) := by
  obtain ⟨hP, hstable⟩ := hset
  obtain ⟨gone, hgone, hset⟩ := ho.writes_eq hc hc' hl hinv
  refine ⟨gone, hgone, ?_, fun p hp => ?_⟩
  · rw [List.append_assoc, ← hgone, ← hP]
    simp only [liveHist, hhist]
  · rcases List.mem_append.mp hp with hp | hp
    · exact hstable p hp
    · exact hset p hp

omit hc hc' hl in
theorem Outcome.chain_suffix (ho : Outcome c c' s s') : s'.chain c' <:+ s.chain c' := by
  cases ho with
  | purge h _ _ _ hch' _ => rw [hch']; exact List.nil_suffix
  | promote dead h _ _ _ _ _ _ hch' _ => rw [hch']; exact List.nil_suffix
  | void h _ _ _ hch' _ => rw [hch']; exact List.nil_suffix
  | shed dead hch _ _ _ => exact ⟨dead, hch.symm⟩

/-- **`Compact` keeps the invariant of every row.** -/
theorem Inv.compacted (h : s.Inv c') {acts : List (DeltaRecord × Action)} (hj : Judged c c' acts)
    (hrec : s.records = acts.map (·.1)) : (s.compacted acts).Inv c' := by
  have ho := compact_cases hc hc' hl h hj hrec
  have hsub := compacted_sublist hrec
  refine ⟨fun a ha => h.ok a (hsub.subset ha), h.linked.of_suffix ho.chain_suffix, h.order.sublist hsub, ?_, h.seen⟩
  obtain ⟨P, hP⟩ := h.hist
  obtain ⟨gone, -, hP'⟩ := ho.settled hc hc' hl h rfl hP
  exact ⟨P ++ gone, hP'⟩

end

end RowState

end CoreDB
