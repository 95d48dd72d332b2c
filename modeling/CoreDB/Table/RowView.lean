import CoreDB.Table.RowCompaction

/-!
# What a reader sees of one row

`RowState.view` is what `MaterializeVisibleRows` returns for one row id: the
visible version, or else the base copies unless a visible tombstone hides them.

`Grounded` ties the base copies to the history: they are what the settled writes
left, unless a version in the chain has taken their place.  It also says that the
live writes are legal: a row is inserted once, before anything else, and deleted
at most once, after everything else.  Under it a reader's view is the value left
by the live writes it sees (`Grounded.view_eq`).

Every step but one keeps `Grounded`.  The exception is a `Compact` that drops a
base tombstone of settled claim while a newer record of the row exists: it leaves
the base copy in place with nothing in front of it (`Covered`).
-/

namespace CoreDB

open VersionChain (Linked Closed Born Died Visible writes final)

/-! ## Legal histories -/

inductive Phase where
  | absent
  | present
  | gone
deriving DecidableEq, Repr

def Phase.next : Phase → Write → Option Phase
  | .absent, .insert _ => some .present
  | .present, .update _ => some .present
  | .present, .delete => some .gone
  | _, _ => none

def phaseOf : Option Row → Phase
  | none => .absent
  | some _ => .present

/-- The writes can be made one after the other, from the base value `b`. -/
def Legal (b : Option Row) (h : List (Nat × Write)) : Prop :=
  ∃ p, Runs.run Phase.next (phaseOf b) (h.map (·.2)) = some p

theorem Legal.of_prefix {b : Option Row} {h h' : List (Nat × Write)} (hl : Legal b h) (hp : h' <+: h) :
    Legal b h' := by
  obtain ⟨p, hp'⟩ := hl
  obtain ⟨l, rfl⟩ := hp
  rw [List.map_append] at hp'
  exact Runs.run_prefix hp'

theorem Phase.next_value {p q : Phase} {w : Write} (h : p.next w = some q) :
    q = .present ↔ w.value ≠ none := by
  cases p <;> cases w <;> simp [Phase.next] at h <;> subst h <;> simp [Write.value]

/-- The phase and the value after a legal history. -/
theorem present_iff {b : Option Row} {h : List (Nat × Write)} {p : Phase}
    (hp : Runs.run Phase.next (phaseOf b) (h.map (·.2)) = some p) :
    p = .present ↔ final b (values h) ≠ none := by
  rcases List.eq_nil_or_concat h with rfl | ⟨l, w, rfl⟩
  · simp only [List.map_nil, Runs.run_nil, Option.some.injEq] at hp
    subst hp
    cases b <;> simp [phaseOf, values]
  · rw [List.concat_eq_append] at hp ⊢
    rw [List.map_append, Runs.run_append_eq_some] at hp
    obtain ⟨q, -, hq⟩ := hp
    simp only [List.map_cons, List.map_nil, Runs.run_cons_eq_some, Runs.run_nil] at hq
    obtain ⟨p', hnext, heq⟩ := hq
    rw [Option.some.inj heq] at hnext
    rw [show values (l ++ [w]) = values l ++ [(w.1, w.2.value)] by simp [values], VersionChain.final_concat]
    exact Phase.next_value hnext

/-- An update or a delete of a row that is there is legal. -/
theorem Legal.concat {b : Option Row} {h : List (Nat × Write)} (hl : Legal b h) (t : Nat) {w : Write}
    (hw : ∀ row, w ≠ .insert row) (hv : final b (values h) ≠ none) : Legal b (h ++ [(t, w)]) := by
  obtain ⟨p, hp⟩ := hl
  obtain rfl := (present_iff hp).mpr hv
  have hnext : ∃ q, Phase.next .present w = some q := by
    cases w with
    | insert row => exact absurd rfl (hw row)
    | update row => exact ⟨_, rfl⟩
    | delete => exact ⟨_, rfl⟩
  obtain ⟨q, hq⟩ := hnext
  refine ⟨q, ?_⟩
  rw [List.map_append]
  exact Runs.run_append_eq_some.mpr ⟨_, hp, Runs.run_cons_eq_some.mpr ⟨q, hq, rfl⟩⟩

theorem run_gone_of_delete {p q : Phase} {t : Nat} {l l' : List (Nat × Write)}
    (h : Runs.run Phase.next p ((l ++ (t, .delete) :: l').map (·.2)) = some q) : l' = [] ∧ q = .gone := by
  rw [List.map_append, Runs.run_append_eq_some] at h
  obtain ⟨p1, -, h⟩ := h
  rw [List.map_cons, Runs.run_cons_eq_some] at h
  obtain ⟨p2, hnext, h⟩ := h
  have hgone : p2 = .gone := by
    cases p1 <;> simp [Phase.next] at hnext
    exact hnext.symm
  subst hgone
  cases l' with
  | nil => exact ⟨rfl, (Option.some.inj h).symm⟩
  | cons w l' =>
    rw [List.map_cons, Runs.run_cons_eq_some] at h
    obtain ⟨p3, hnext, -⟩ := h
    cases w.2 <;> simp [Phase.next] at hnext

/-- A delete is the last write. -/
theorem Legal.delete_last {b : Option Row} {t : Nat} {l l' : List (Nat × Write)}
    (h : Legal b (l ++ (t, .delete) :: l')) : l' = [] := by
  obtain ⟨p, hp⟩ := h
  exact (run_gone_of_delete hp).1

/-! ## The view of a row -/

namespace RowState

def visibleVersions (m : TransactionManager) (r : Transaction) (s : RowState) : List DeltaRecord :=
  s.records.filter fun a => !a.isBaseTombstone && isVisible a r m

/-- A visible tombstone hides the base copies. -/
def hidden (m : TransactionManager) (r : Transaction) (s : RowState) : Bool :=
  s.records.any fun a => a.isBaseTombstone && m.sees r a.deletedTxn

def view (m : TransactionManager) (r : Transaction) (s : RowState) : List Row :=
  match (s.visibleVersions m r).getLast? with
  | some a => [a.row]
  | none => if s.hidden m r then [] else s.base

/-- The base copies are what the settled writes `P` left, unless a version of the
chain has taken their place. -/
structure Ground (c : Clients) (b : Option Row) (s : RowState) (P : List (Nat × Option Row)) : Prop where
  nil : s.chain c = [] → s.base = (final b P).toList
  tombstone : ∀ a l, s.chain c = a :: l → a.isBaseTombstone = true → s.base = (final b P).toList ∧ s.base ≠ []
  version : ∀ a l, s.chain c = a :: l → a.isBaseTombstone = false →
    s.base = [] ∧ ((P = [] ∧ b = none) ∨ c.stable a.createdTxn = true)

structure Grounded (c : Clients) (b : Option Row) (s : RowState) : Prop where
  legal : Legal b (s.liveHist c)
  ground : ∃ P, s.Settled c P ∧ s.Ground c b P

theorem isVisible_iff {c : Clients} {r : Transaction} {a : DeltaRecord} :
    isVisible a r c.mgr = true ↔ Visible DeltaRecord.ver (c.mgr.sees r · = true) a := by
  rw [isVisible_eq]
  unfold Visible
  rw [born_iff, died_iff]
  by_cases h0 : a.deletedTxn = 0 <;> simp [h0]

/-! ## Reading -/

theorem view_of_not_visible {m : TransactionManager} {r : Transaction} {s : RowState}
    (hno : ∀ a ∈ s.records, a.isBaseTombstone = false → isVisible a r m = false) :
    s.view m r = if s.hidden m r then [] else s.base := by
  have hnil : s.visibleVersions m r = [] := by
    unfold visibleVersions
    rw [List.filter_eq_nil_iff]
    intro a ha hv
    simp only [Bool.and_eq_true, Bool.not_eq_true'] at hv
    rw [hno a ha hv.1] at hv
    cases hv.2
  unfold view
  rw [hnil]
  rfl

section
variable {c : Clients} {s : RowState} {t : Nat} {r : Transaction} (hc : c.Inv) (h : s.Inv c)
  (hr : c.active t = some r)
include hc hr

theorem alive_of_sees {u : Nat} (hu : c.mgr.sees r u = true) : c.alive u = true :=
  hc.alive_of_Sees ((Clients.Sees_of_active hr).mpr hu) (hc.alive_of_active hr)

theorem mem_chain_of_visible {a : DeltaRecord} (ha : a ∈ s.records) (hv : isVisible a r c.mgr = true) :
    a ∈ s.chain c := by
  refine List.mem_filter.mpr ⟨ha, ?_⟩
  rcases born_iff.mp (isVisible_iff.mp hv).1 with h0 | hs
  · rw [h0]
    exact Clients.alive_iff.mpr hc.not_aborted_zero
  · exact alive_of_sees hc hr hs

include h

omit hr in
theorem mem_chain_of_tombstone {a : DeltaRecord} (ha : a ∈ s.records) (ht : a.isBaseTombstone = true) :
    a ∈ s.chain c := by
  refine List.mem_filter.mpr ⟨ha, ?_⟩
  rw [((h.ok a ha).tombstone ht).1]
  exact Clients.alive_iff.mpr hc.not_aborted_zero

omit hc hr in
/-- A tombstone is the oldest version of its chain. -/
theorem Inv.tombstone_first {a : DeltaRecord} (ha : a ∈ s.chain c) (ht : a.isBaseTombstone = true) :
    ∃ l, s.chain c = a :: l := by
  obtain ⟨l1, l2, hsplit⟩ := List.append_of_mem ha
  have hlink := h.linked
  rw [hsplit] at hlink
  have h0 := ((h.ok a (List.mem_of_mem_filter ha)).tombstone ht).1
  have hnil := VersionChain.linked_unborn_first hlink (txnField_eq_none.mpr h0)
  exact ⟨l2, by rw [hsplit, hnil]; rfl⟩

omit hc hr in
/-- A chain that starts with a version has versions only. -/
theorem Inv.versions_only {a : DeltaRecord} {l : List DeltaRecord} (hch : s.chain c = a :: l)
    (ht : a.isBaseTombstone = false) : ∀ d ∈ s.chain c, d.isBaseTombstone = false := by
  intro d hd
  cases hdt : d.isBaseTombstone with
  | false => rfl
  | true =>
    obtain ⟨l', hl'⟩ := h.tombstone_first hd hdt
    rw [hch] at hl'
    rw [(List.cons.inj hl').1, hdt] at ht
    cases ht

theorem closed_sees : Closed DeltaRecord.ver (c.mgr.sees r · = true) (s.chain c) := by
  refine h.closed fun u v hs hu => ?_
  exact (Clients.Sees_of_active hr).mp (hc.Sees_trans ((Clients.Sees_of_active hr).mpr hu) hs)

/-- The visible version is the only one. -/
theorem view_of_visible {a : DeltaRecord} (ha : a ∈ s.records) (ht : a.isBaseTombstone = false)
    (hv : isVisible a r c.mgr = true) : s.view c.mgr r = [a.row] := by
  have hmem := mem_chain_of_visible hc hr ha hv
  have hall : ∀ b ∈ s.visibleVersions c.mgr r, b = a := by
    intro b hb
    obtain ⟨hb, hbv⟩ := List.mem_filter.mp hb
    simp only [Bool.and_eq_true, Bool.not_eq_true'] at hbv
    rcases VersionChain.linked_split _ h.linked (closed_sees hc h hr) with hnone | ⟨l1, d, l2, hsplit⟩
    · exact absurd (isVisible_iff.mp hv).1 (hnone a hmem)
    · rw [hsplit.eq_of_visible (mem_chain_of_visible hc hr hb hbv.2) (isVisible_iff.mp hbv.2),
        hsplit.eq_of_visible hmem (isVisible_iff.mp hv)]
  have hin : a ∈ s.visibleVersions c.mgr r := List.mem_filter.mpr ⟨ha, by simp [ht, hv]⟩
  unfold view
  cases hlast : (s.visibleVersions c.mgr r).getLast? with
  | none =>
    rw [List.getLast?_eq_none_iff] at hlast
    rw [hlast] at hin
    cases hin
  | some b => rw [hall b (List.mem_of_getLast? hlast)]

omit hr in
/-- With a tombstone in front, it alone decides whether the base copies show. -/
theorem hidden_of_tombstone {a : DeltaRecord} {l : List DeltaRecord} (hch : s.chain c = a :: l)
    (ht : a.isBaseTombstone = true) :
    s.hidden c.mgr r = true ↔ Died DeltaRecord.ver (c.mgr.sees r · = true) a := by
  have hmem : a ∈ s.chain c := by rw [hch]; simp
  have hok := h.ok a (List.mem_of_mem_filter hmem)
  unfold hidden
  rw [List.any_eq_true, died_iff]
  constructor
  · rintro ⟨b, hb, hbt⟩
    simp only [Bool.and_eq_true] at hbt
    obtain ⟨l', hl'⟩ := h.tombstone_first (mem_chain_of_tombstone hc h hb hbt.1) hbt.1
    rw [hch] at hl'
    rw [(List.cons.inj hl').1]
    exact ⟨((h.ok b hb).tombstone hbt.1).2, hbt.2⟩
  · rintro ⟨-, hs⟩
    exact ⟨a, List.mem_of_mem_filter hmem, by simp [ht, hs]⟩

omit hr in
theorem hidden_of_no_tombstone (hno : ∀ a ∈ s.chain c, a.isBaseTombstone = false) :
    s.hidden c.mgr r = false := by
  unfold hidden
  rw [List.any_eq_false]
  intro a ha hat
  simp only [Bool.and_eq_true] at hat
  rw [hno a (mem_chain_of_tombstone hc h ha hat.1)] at hat
  cases hat.1

omit h in
/-- The settled writes are seen, and of the chain's writes those of transactions seen. -/
theorem Settled.values_seen {P : List (Nat × Option Row)} (hs : s.Settled c P) :
    values ((s.liveHist c).filter fun p => c.mgr.sees r p.1) =
      P ++ (writes DeltaRecord.ver c.alive (s.chain c)).filter fun w => decide (c.mgr.sees r w.1 = true) := by
  obtain ⟨hP, hstable⟩ := hs
  have hmap : values ((s.liveHist c).filter fun p => c.mgr.sees r p.1) =
      (values (s.liveHist c)).filter fun w => decide (c.mgr.sees r w.1 = true) := by
    unfold values
    rw [List.filter_map]
    simp [Function.comp_def]
  have hPr : P.filter (fun w => decide (c.mgr.sees r w.1 = true)) = P := by
    rw [List.filter_eq_self]
    exact fun p hp => decide_eq_true (hc.sees_of_stable hr (hstable p hp))
  rw [hmap, hP, List.filter_append, hPr]

omit hc hr h in
theorem not_visible_of_hidden (hno : ∀ a ∈ s.records, a.isBaseTombstone = false → isVisible a r c.mgr = false)
    {d : DeltaRecord} (hd : d ∈ s.chain c) (hdt : d.isBaseTombstone = false) :
    ¬ Visible DeltaRecord.ver (c.mgr.sees r · = true) d := by
  intro hvis
  have hnv := hno d (List.mem_of_mem_filter hd) hdt
  rw [isVisible_iff.mpr hvis] at hnv
  cases hnv

section
variable {b : Option Row} {P : List (Nat × Option Row)} (hg : s.Ground c b P)
  (hno : ∀ a ∈ s.records, a.isBaseTombstone = false → isVisible a r c.mgr = false)
include hg hno

/-- With no version visible and a tombstone in front, the base copies show unless its
claim is seen. -/
theorem Ground.base_of_tombstone {a : DeltaRecord} {l : List DeltaRecord} (hch : s.chain c = a :: l)
    (ht : a.isBaseTombstone = true) : (if s.hidden c.mgr r then [] else s.base) = (final (final b P)
      ((writes DeltaRecord.ver c.alive (s.chain c)).filter fun w => decide (c.mgr.sees r w.1 = true))).toList := by
  obtain ⟨-, hkept, -, hdead⟩ := VersionChain.final_known (S := (c.mgr.sees r · = true))
    (final b P) (s.chain c) h.linked (closed_sees hc h hr) (fun a ha => h.proper ha) (fun _ hu => alive_of_sees hc hr hu)
  have hmem : a ∈ s.chain c := by rw [hch]; simp
  have hborn : Born DeltaRecord.ver (c.mgr.sees r · = true) a :=
    born_iff.mpr (Or.inl ((h.ok a (List.mem_of_mem_filter hmem)).tombstone ht).1)
  by_cases hd : Died DeltaRecord.ver (c.mgr.sees r · = true) a
  · have hgone : ∀ d ∈ s.chain c, ¬ Visible DeltaRecord.ver (c.mgr.sees r · = true) d := by
      intro d hd' hvis
      cases hdt : d.isBaseTombstone with
      | true =>
        obtain ⟨l', hl'⟩ := h.tombstone_first hd' hdt
        rw [hch] at hl'
        rw [← (List.cons.inj hl').1] at hvis
        exact hvis.2 hd
      | false => exact not_visible_of_hidden hno hd' hdt hvis
    rw [if_pos ((hidden_of_tombstone hc h hch ht).mpr hd), hdead hgone ⟨a, hmem, hborn⟩]
    rfl
  · have hnh : ¬ s.hidden c.mgr r = true := fun hh => hd ((hidden_of_tombstone hc h hch ht).mp hh)
    rw [if_neg hnh, hkept a hmem ⟨hborn, hd⟩ (by simp [DeltaRecord.ver, ht])]
    exact (hg.tombstone a l hch ht).1

/-- With no version visible and a version in front, there is nothing to show. -/
theorem Ground.base_of_version {a : DeltaRecord} {l : List DeltaRecord} (hch : s.chain c = a :: l)
    (ht : a.isBaseTombstone = false) : (if s.hidden c.mgr r then [] else s.base) = (final (final b P)
      ((writes DeltaRecord.ver c.alive (s.chain c)).filter fun w => decide (c.mgr.sees r w.1 = true))).toList := by
  obtain ⟨-, -, hnone, hdead⟩ := VersionChain.final_known (S := (c.mgr.sees r · = true))
    (final b P) (s.chain c) h.linked (closed_sees hc h hr) (fun a ha => h.proper ha) (fun _ hu => alive_of_sees hc hr hu)
  obtain ⟨hbase, hfirst⟩ := hg.version a l hch ht
  have hnt := h.versions_only hch ht
  rw [hidden_of_no_tombstone hc h hnt, hbase]
  by_cases hknown : ∃ d ∈ s.chain c, Born DeltaRecord.ver (c.mgr.sees r · = true) d
  · rw [hdead (fun d hd => not_visible_of_hidden hno hd (hnt d hd)) hknown]
    rfl
  · -- nothing of the chain is seen, so its first version is not settled
    have hunborn : ∀ d ∈ s.chain c, ¬ Born DeltaRecord.ver (c.mgr.sees r · = true) d :=
      fun d hd hb => hknown ⟨d, hd, hb⟩
    rw [hnone hunborn]
    rcases hfirst with ⟨rfl, rfl⟩ | hst
    · rfl
    · exact absurd (born_iff.mpr (Or.inr (hc.sees_of_stable hr hst))) (hunborn a (by rw [hch]; simp))

end

/-- **Reading a row.**  The view is the value left by the live writes the reader sees. -/
theorem Grounded.view_eq {b : Option Row} (hg : s.Grounded c b) :
    s.view c.mgr r = (final b (values ((s.liveHist c).filter fun p => c.mgr.sees r p.1))).toList := by
  obtain ⟨P, hsettled, hground⟩ := hg.ground
  obtain ⟨hsome, -, hnone, -⟩ := VersionChain.final_known (S := (c.mgr.sees r · = true))
    (final b P) (s.chain c) h.linked (closed_sees hc h hr) (fun a ha => h.proper ha) (fun _ hu => alive_of_sees hc hr hu)
  rw [hsettled.values_seen hc hr, VersionChain.final_append]
  by_cases hex : ∃ a ∈ s.records, a.isBaseTombstone = false ∧ isVisible a r c.mgr = true
  · obtain ⟨a, ha, ht, hv⟩ := hex
    rw [view_of_visible hc h hr ha ht hv,
      hsome a (mem_chain_of_visible hc hr ha hv) (isVisible_iff.mp hv) a.row (by simp [DeltaRecord.ver, ht])]
    rfl
  · have hno : ∀ a ∈ s.records, a.isBaseTombstone = false → isVisible a r c.mgr = false := by
      intro a ha ht
      cases hv : isVisible a r c.mgr with
      | false => rfl
      | true => exact absurd ⟨a, ha, ht, hv⟩ hex
    rw [view_of_not_visible hno]
    cases hch : s.chain c with
    | nil =>
      rw [hidden_of_no_tombstone hc h (by rw [hch]; simp), ← hch, hnone (by rw [hch]; simp)]
      simpa using hground.nil hch
    | cons a l =>
      rw [← hch]
      cases ht : a.isBaseTombstone with
      | true => exact hground.base_of_tombstone hc h hr hno hch ht
      | false => exact hground.base_of_version hc h hr hno hch ht

end

/-! ## What keeps `Grounded` -/

theorem grounded_start (c : Clients) (base : Option Row) : Grounded c base { base := base.toList } where
  legal := ⟨phaseOf base, rfl⟩
  ground := by
    refine ⟨[], ⟨by simp [values, liveHist, chain], by simp⟩, fun _ => rfl, ?_, ?_⟩
    · intro a l hch; simp [chain] at hch
    · intro a l hch; simp [chain] at hch

section
variable {c : Clients} {s : RowState} {b : Option Row} (hc : c.Inv) (h : s.Inv c) (hg : s.Grounded c b)
include hc h hg

theorem Grounded.later {c' : Clients} (hc' : c'.Inv) (hl : c.Later c') : s.Grounded c' b := by
  obtain ⟨P, hset, hground⟩ := hg.ground
  have hpre : s.chain c' <+: s.chain c := by
    rw [chain_later hc hc' hl]
    exact VersionChain.filter_born_prefix h.linked (h.closed_later hc hc' hl)
  refine ⟨hg.legal.of_prefix ?_, P, h.settled_later hc hc' hl hset, ?_, ?_, ?_⟩
  · -- whoever saw an aborted write has aborted: the live writes shrink from the end
    rw [liveHist_later hc hc' hl]
    refine Keyed.filter_prefix _ _ (h.seen.imp fun hs hq => ?_)
    exact hc'.alive_of_Sees (hl.Sees hc hc' hs) hq
  · intro hnil
    cases hch : s.chain c with
    | nil => exact hground.nil hch
    | cons a l =>
      have hgone : c'.alive a.createdTxn = false := by
        cases hal : c'.alive a.createdTxn with
        | false => rfl
        | true =>
          have hmem : a ∈ s.chain c' := List.mem_filter.mpr
            ⟨List.mem_of_mem_filter (show a ∈ s.chain c by rw [hch]; simp), hal⟩
          rw [hnil] at hmem
          cases hmem
      cases ht : a.isBaseTombstone with
      | true =>
        rw [h.tombstone_created (by rw [hch]; simp) ht, Clients.alive_iff.mpr hc'.not_aborted_zero] at hgone
        cases hgone
      | false =>
        obtain ⟨hbase, hfirst⟩ := hground.version a l hch ht
        rcases hfirst with ⟨rfl, rfl⟩ | hst
        · exact hbase
        · rw [hc'.alive_of_stable (hl.stable hc hc' hst)] at hgone
          cases hgone
  · intro a l hch ht
    obtain ⟨l', hl'⟩ := hpre
    rw [hch] at hl'
    exact hground.tombstone a (l ++ l') hl'.symm ht
  · intro a l hch ht
    obtain ⟨l', hl'⟩ := hpre
    rw [hch] at hl'
    obtain ⟨hbase, hfirst⟩ := hground.version a (l ++ l') hl'.symm ht
    exact ⟨hbase, hfirst.imp id fun hst => hl.stable hc hc' hst⟩

variable {t : Nat} {r : Transaction} (hr : c.active t = some r)
include hr

/-- A row that can be claimed is there. -/
theorem Grounded.present_of_claim {l : List DeltaRecord} {it : DeltaRecord}
    (hch : s.chain c = l ++ [it]) (hclaim : claimStep it r c.mgr = .claim) :
    final b (values (s.liveHist c)) ≠ none := by
  obtain ⟨P, ⟨hP, -⟩, hground⟩ := hg.ground
  have hmem : it ∈ s.chain c := by rw [hch]; simp
  have hok := h.ok it (List.mem_of_mem_filter hmem)
  have hdead : VersionChain.del DeltaRecord.ver c.alive it = [] := del_of_claim hc hr hclaim
  rw [hP, hch, VersionChain.writes_concat, hdead, List.append_nil]
  cases ht : it.isBaseTombstone with
  | true =>
    obtain ⟨l', hl'⟩ := h.tombstone_first hmem ht
    obtain ⟨hbase, hne⟩ := hground.tombstone it l' hl' ht
    have hlink := h.linked
    rw [hch] at hlink
    have h0 := txnField_eq_none.mpr (hok.tombstone ht).1
    have hnil := VersionChain.linked_unborn_first hlink h0
    rw [hnil]
    simp only [List.nil_append, List.flatMap_singleton]
    rw [show VersionChain.put DeltaRecord.ver it = [] by simp [VersionChain.put, DeltaRecord.ver, ht]]
    rw [List.append_nil]
    intro hnone
    rw [hbase, hnone] at hne
    exact hne rfl
  | false =>
    have hput : VersionChain.put DeltaRecord.ver it = [(it.createdTxn, some it.row)] := by
      simp [VersionChain.put, DeltaRecord.ver, ht, txnField, (hok.version ht).1]
    rw [List.flatMap_append, List.flatMap_singleton, hput, ← List.append_assoc, VersionChain.final_concat]
    simp

theorem Grounded.claim {old new : List DeltaRecord} {it : DeltaRecord} (hrec : s.records = old ++ it :: new)
    (hclaim : claimStep it r c.mgr = .claim) {w : Write} (hw : ∀ row, w ≠ .insert row) (x : Nat) :
    Grounded c b (s.written ((old ++ it.claimedBy t :: new) ++ w.versions x t) t w) := by
  obtain ⟨hchain, -⟩ := h.chain_claim hc hr hrec hclaim
  have hchain' := h.chain_claimed hc hr hrec hclaim w x
  obtain ⟨P, hset, hground⟩ := hg.ground
  refine ⟨?_, P, h.settled_claim hc hr hrec hclaim w x hset, ?_, ?_, ?_⟩
  · rw [show liveHist c (s.written ((old ++ it.claimedBy t :: new) ++ w.versions x t) t w) =
      s.liveHist c ++ [(t, w)] from liveHist_concat hc hr w]
    exact hg.legal.concat t hw (hg.present_of_claim hc h hr hchain hclaim)
  · intro hnil
    rw [hchain'] at hnil
    simp at hnil
  · -- the oldest version keeps its birth, and the base is untouched
    intro a l hch ht
    rw [hchain'] at hch
    cases hold : old.filter (fun a => c.alive a.createdTxn) with
    | nil =>
      rw [hold] at hch hchain
      obtain ⟨rfl, -⟩ := List.cons.inj hch
      exact hground.tombstone it [] hchain ht
    | cons d l' =>
      rw [hold] at hch hchain
      obtain ⟨rfl, -⟩ := List.cons.inj hch
      exact hground.tombstone d _ hchain ht
  · intro a l hch ht
    rw [hchain'] at hch
    cases hold : old.filter (fun a => c.alive a.createdTxn) with
    | nil =>
      rw [hold] at hch hchain
      obtain ⟨rfl, -⟩ := List.cons.inj hch
      exact hground.version it [] hchain ht
    | cons d l' =>
      rw [hold] at hch hchain
      obtain ⟨rfl, -⟩ := List.cons.inj hch
      exact hground.version d _ hchain ht

omit h in
theorem Grounded.tombstone (hrec : s.records = []) (hin : s.base ≠ []) {w : Write}
    (hw : ∀ row, w ≠ .insert row) (x : Nat) :
    Grounded c b (s.written ([.tombstone x t] ++ w.versions x t) t w) := by
  obtain ⟨P, hset, hground⟩ := hg.ground
  have hnil : s.chain c = [] := by simp [chain, hrec]
  have hbase := hground.nil hnil
  have hchain' := chain_tombstoned (s := s) hc hr w x
  refine ⟨?_, P, settled_tombstone hc hr hrec w x hset, ?_, ?_, ?_⟩
  · rw [show liveHist c (s.written ([.tombstone x t] ++ w.versions x t) t w) =
      s.liveHist c ++ [(t, w)] from liveHist_concat hc hr w]
    refine hg.legal.concat t hw ?_
    rw [hset.1, hnil, VersionChain.writes_nil, List.append_nil]
    intro hnone
    rw [hbase, hnone] at hin
    exact hin rfl
  · intro hch
    rw [hchain'] at hch
    simp at hch
  · intro a l _ _
    exact ⟨hbase, hin⟩
  · intro a l hch ht
    rw [hchain'] at hch
    obtain ⟨rfl, -⟩ := List.cons.inj hch
    simp [DeltaRecord.tombstone] at ht

end

theorem grounded_insert {c : Clients} {t : Nat} {r : Transaction} (hc : c.Inv) (hr : c.active t = some r)
    (x : Nat) (row : Row) :
    Grounded c none { records := [.version x t row], hist := [(t, .insert row)], base := [] } := by
  have hchain := chain_inserted hc hr x row []
  refine ⟨⟨.present, ?_⟩, [], settled_insert hc hr x row [], ?_, ?_, ?_⟩
  · simp [liveHist, hc.alive_of_active hr, Runs.run, phaseOf, Phase.next]
  · intro hnil
    rw [hchain] at hnil
    cases hnil
  · intro a l hch ht
    rw [hchain] at hch
    obtain ⟨rfl, -⟩ := List.cons.inj hch
    simp [DeltaRecord.version] at ht
  · exact fun a l _ _ => ⟨rfl, Or.inl ⟨rfl, rfl⟩⟩

/-- A base tombstone of settled claim has a newer record of its row behind it. -/
def Covered (c : Clients) (s : RowState) : Prop :=
  ∃ older a newer, s.records = older ++ a :: newer ∧ newer ≠ [] ∧ a.isBaseTombstone = true ∧
    c.stable a.deletedTxn = true

section
variable {c c' : Clients} {s s' : RowState} {b : Option Row} (hc : c.Inv) (hc' : c'.Inv) (hl : c.Later c')
  (h : s.Inv c') (ho : Outcome c c' s s') (hcov : ¬ Covered c s)

theorem final_writes_delete {alive : Nat → Bool} {l : List DeltaRecord} {a : DeltaRecord} (v : Option Row)
    (hne : a.deletedTxn ≠ 0) (hal : alive a.deletedTxn = true) :
    final v (writes DeltaRecord.ver alive (l ++ [a])) = none := by
  have hdel : VersionChain.del DeltaRecord.ver alive a = [(a.deletedTxn, none)] := by
    simp [VersionChain.del, DeltaRecord.ver, txnField, hne, hal]
  rw [VersionChain.writes_concat, hdel, VersionChain.final_concat]

theorem final_writes_put {alive : Nat → Bool} {l : List DeltaRecord} {a : DeltaRecord} (v : Option Row)
    (h0 : a.deletedTxn = 0) (hc0 : a.createdTxn ≠ 0) (ht : a.isBaseTombstone = false) :
    final v (writes DeltaRecord.ver alive (l ++ [a])) = some a.row := by
  have hdel : VersionChain.del DeltaRecord.ver alive a = [] := by
    simp [VersionChain.del, DeltaRecord.ver, txnField, h0]
  have hput : VersionChain.put DeltaRecord.ver a = [(a.createdTxn, some a.row)] := by
    simp [VersionChain.put, DeltaRecord.ver, ht, txnField, hc0]
  rw [VersionChain.writes_concat, hdel, List.append_nil, List.flatMap_append, List.flatMap_singleton, hput,
    VersionChain.final_concat]

/-- With an empty chain only the value is left to check. -/
theorem ground_of_empty {P gone : List (Nat × Option Row)} (hnil : s'.chain c' = [])
    (hgone : writes DeltaRecord.ver c'.alive (s.chain c') = gone ++ writes DeltaRecord.ver c'.alive (s'.chain c'))
    (hbase : s'.base = (final (final b P) (writes DeltaRecord.ver c'.alive (s.chain c'))).toList) :
    s'.Ground c' b (P ++ gone) := by
  have hall : gone = writes DeltaRecord.ver c'.alive (s.chain c') := by
    rw [hgone, hnil]
    simp
  refine ⟨fun _ => ?_, fun a l hch => ?_, fun a l hch => ?_⟩
  · rw [VersionChain.final_append, hall]
    exact hbase
  · rw [hnil] at hch
    cases hch
  · rw [hnil] at hch
    cases hch

include hcov

/-- No tombstone is among settled deletes that newer records follow. -/
theorem not_tombstone_of_not_covered {d : DeltaRecord} (hdied : Died DeltaRecord.ver (c.stable · = true) d)
    (hfollowed : d.isBaseTombstone = true → ∃ older newer, s.records = older ++ d :: newer ∧ newer ≠ []) :
    d.isBaseTombstone = false := by
  cases hdt : d.isBaseTombstone with
  | false => rfl
  | true =>
    obtain ⟨older, newer, hsplit, hne⟩ := hfollowed hdt
    exact absurd ⟨older, d, newer, hsplit, hne, hdt, (died_iff.mp hdied).2⟩ hcov

/-- A version is promoted only if the base has no copy of its row. -/
theorem base_of_promoted {P : List (Nat × Option Row)} (hg : s.Ground c' b P) {dead : List DeltaRecord}
    {a : DeltaRecord} (hch : s.chain c' = dead ++ [a])
    (hdead : ∀ d ∈ dead, Died DeltaRecord.ver (c.stable · = true) d) (ht : a.isBaseTombstone = false)
    (hlast : s.records.getLast? = some a) : s.base = [] := by
  cases hfirst : s.chain c' with
  | nil =>
    rw [hfirst] at hch
    cases dead <;> cases hch
  | cons d l =>
    have hmem : d ∈ s.chain c' := by rw [hfirst]; simp
    have hdt : d.isBaseTombstone = false := by
      rw [hch] at hmem
      rcases List.mem_append.mp hmem with hd | hd
      · -- a tombstone in front would be covered by the promoted version
        refine not_tombstone_of_not_covered hcov (hdead d hd) fun hdt => ?_
        obtain ⟨older, newer, hsplit⟩ := List.append_of_mem (List.mem_of_mem_filter (hch ▸ hmem : d ∈ s.chain c'))
        refine ⟨older, newer, hsplit, ?_⟩
        rintro rfl
        rw [hsplit, List.getLast?_concat] at hlast
        rw [Option.some.inj hlast, ht] at hdt
        cases hdt
      · rw [List.mem_singleton.mp hd]
        exact ht
    exact (hg.version d l hfirst hdt).1

include hc hc' hl h

/-- What is left of a chain whose oldest versions were dropped. -/
theorem ground_of_shed {P gone : List (Nat × Option Row)} (hg : s.Ground c' b P) {init : List DeltaRecord}
    {z : DeltaRecord} (hch : s.chain c' = (init ++ [z]) ++ s'.chain c')
    (hgone : writes DeltaRecord.ver c'.alive (s.chain c') = gone ++ writes DeltaRecord.ver c'.alive (s'.chain c'))
    (hdead : ∀ d ∈ init ++ [z], Died DeltaRecord.ver (c.stable · = true) d)
    (hfollowed : ∀ d ∈ init ++ [z], d.isBaseTombstone = true →
      ∃ older newer, s.records = older ++ d :: newer ∧ newer ≠ [])
    (hbase : s'.base = s.base) : s'.Ground c' b (P ++ gone) := by
  have hver : ∃ e l, s.chain c' = e :: l ∧ e ∈ init ++ [z] := by
    cases init with
    | nil => exact ⟨z, _, hch, by simp⟩
    | cons e init => exact ⟨e, _, hch, by simp⟩
  obtain ⟨e, le, hfirst, he⟩ := hver
  have het := not_tombstone_of_not_covered hcov (hdead e he) (hfollowed e he)
  have hempty : s.base = [] := (hg.version e le hfirst het).1
  have hdz := hdead z (by simp)
  cases hch' : s'.chain c' with
  | nil =>
    refine ground_of_empty hch' hgone ?_
    rw [hbase, hempty, hch, hch', List.append_nil]
    obtain ⟨hne, hst⟩ := died_iff.mp hdz
    rw [final_writes_delete _ hne (hc'.alive_of_stable (hl.stable hc hc' hst))]
    rfl
  | cons a l =>
    have hmem : a ∈ s.chain c' := by rw [hch, hch']; simp
    have hat := h.versions_only hfirst het a hmem
    refine ⟨fun hn => ?_, fun d l' hd hdt => ?_, fun d l' hd _ => ⟨hbase.trans hempty, Or.inr ?_⟩⟩
    · rw [hch'] at hn
      cases hn
    · rw [hch'] at hd
      rw [← (List.cons.inj hd).1, hat] at hdt
      cases hdt
    · -- the version behind the dropped ones was born with the last delete
      rw [hch'] at hd
      rw [← (List.cons.inj hd).1]
      have hlink := h.linked
      rw [hch, hch', List.append_assoc, List.singleton_append] at hlink
      have hza := (List.isChain_append_cons_cons.mp hlink).2.1
      rcases born_iff.mp ((VersionChain.died_iff_born_of_link hza).mp hdz) with h0 | hst
      · exact absurd h0 ((h.ok a (List.mem_of_mem_filter hmem)).version hat).1
      · exact hl.stable hc hc' hst

include ho

/-- Unless a tombstone is covered, `Compact` keeps the base in step with the history. -/
theorem Outcome.ground {P : List (Nat × Option Row)} (hg : s.Ground c' b P) {gone : List (Nat × Option Row)}
    (hgone : writes DeltaRecord.ver c'.alive (s.chain c') = gone ++ writes DeltaRecord.ver c'.alive (s'.chain c')) :
    s'.Ground c' b (P ++ gone) := by
  cases ho with
  | purge a hch ht hdied hch' hbase =>
    refine ground_of_empty hch' hgone ?_
    obtain ⟨hne, hst⟩ := died_iff.mp hdied
    rw [hbase, hch, ← List.nil_append [a],
      final_writes_delete _ hne (hc'.alive_of_stable (hl.stable hc hc' hst))]
    rfl
  | promote dead a hch hdead ht hst h0 hlast hch' hbase =>
    refine ground_of_empty hch' hgone ?_
    have hmem : a ∈ s.chain c' := by rw [hch]; simp
    have hok := h.ok a (List.mem_of_mem_filter hmem)
    rw [hbase, base_of_promoted hcov hg hch (fun d hd => (hdead d hd).2) ht hlast, hch,
      final_writes_put _ h0 (hok.version ht).1 ht]
    rfl
  | void a hch ht hab hch' hbase =>
    refine ground_of_empty hch' hgone ?_
    have hput : VersionChain.put DeltaRecord.ver a = [] := by simp [VersionChain.put, DeltaRecord.ver, ht]
    have hdel : VersionChain.del DeltaRecord.ver c'.alive a = [] := by
      by_cases h0 : a.deletedTxn = 0 <;> simp [VersionChain.del, DeltaRecord.ver, txnField, h0, hab]
    rw [hbase, hch, ← List.nil_append [a], VersionChain.writes_concat, hdel]
    simp only [List.nil_append, List.flatMap_singleton, hput, List.append_nil, VersionChain.final_nil]
    exact (hg.tombstone a [] hch ht).1
  | shed dead hch hdead hcovd hbase =>
    rcases List.eq_nil_or_concat dead with rfl | ⟨init, z, rfl⟩
    · rw [List.nil_append] at hch
      rw [hch] at hgone
      have hnil : gone = [] := by simpa using hgone
      rw [hnil, List.append_nil]
      refine ⟨fun hn => ?_, fun a l ha => ?_, fun a l ha => ?_⟩
      · rw [hbase]; exact hg.nil (by rw [hch, hn])
      · rw [hbase]; exact hg.tombstone a l (by rw [hch, ha])
      · rw [hbase]; exact hg.version a l (by rw [hch, ha])
    · rw [List.concat_eq_append] at hch hdead hcovd
      exact ground_of_shed hc hc' hl h hcov hg hch hgone (fun d hd => (hdead d hd).2) hcovd hbase

end

theorem Grounded.compacted {c c' : Clients} {s : RowState} {b : Option Row} (hc : c.Inv) (hc' : c'.Inv)
    (hl : c.Later c') (h : s.Inv c') (hg : s.Grounded c' b) (hcov : ¬ Covered c s)
    {acts : List (DeltaRecord × Action)} (hj : Judged c c' acts) (hrec : s.records = acts.map (·.1)) :
    (s.compacted acts).Grounded c' b := by
  have ho := compact_cases hc hc' hl h hj hrec
  obtain ⟨P, hset, hground⟩ := hg.ground
  obtain ⟨gone, hgone, hset'⟩ := ho.settled hc hc' hl h rfl hset
  exact ⟨hg.legal, P ++ gone, hset', ho.ground hc hc' hl h hcov hground hgone⟩

/-! ## A write that must succeed -/

section
variable {c : Clients} {s : RowState} {b : Option Row} {t : Nat} {r : Transaction} (hc : c.Inv)
  (h : s.Inv c) (hr : c.active t = some r) (hseen : ∀ p ∈ s.liveHist c, c.Sees t p.1)
include h hseen

/-- Whoever made a version that counts is seen. -/
theorem seen_creator {a : DeltaRecord} (ha : a ∈ s.chain c) (ht : a.isBaseTombstone = false) :
    c.Sees t a.createdTxn := by
  obtain ⟨P, hP, -⟩ := h.hist
  have hput : (a.createdTxn, some a.row) ∈ VersionChain.put DeltaRecord.ver a := by
    have := ((h.ok a (List.mem_of_mem_filter ha)).version ht).1
    simp [VersionChain.put, DeltaRecord.ver, ht, txnField, this]
  have hmem : (a.createdTxn, some a.row) ∈ values (s.liveHist c) := by
    rw [hP]
    exact List.mem_append_right _ (List.mem_append_left _ (List.mem_flatMap.mpr ⟨a, ha, hput⟩))
  obtain ⟨p, hp, heq⟩ := List.mem_map.mp hmem
  rw [← (Prod.mk.inj heq).1]
  exact hseen p hp

/-- Whoever holds a claim that counts is seen. -/
theorem seen_claimant {a : DeltaRecord} (ha : a ∈ s.chain c) (hne : a.deletedTxn ≠ 0)
    (hal : c.alive a.deletedTxn = true) : c.Sees t a.deletedTxn := by
  obtain ⟨l1, l2, hsplit⟩ := List.append_of_mem ha
  cases l2 with
  | nil =>
    obtain ⟨P, hP, -⟩ := h.hist
    have hdel : VersionChain.del DeltaRecord.ver c.alive a = [(a.deletedTxn, none)] := by
      simp [VersionChain.del, DeltaRecord.ver, txnField, hne, hal]
    have hmem : (a.deletedTxn, none) ∈ values (s.liveHist c) := by
      rw [hP, hsplit, VersionChain.writes_concat, hdel]
      simp
    obtain ⟨p, hp, heq⟩ := List.mem_map.mp hmem
    rw [← (Prod.mk.inj heq).1]
    exact hseen p hp
  | cons d l2 =>
    have hlink := h.linked
    rw [hsplit] at hlink
    obtain ⟨hborn, heq⟩ := (List.isChain_append_cons_cons.mp hlink).2.1
    have hd : d ∈ s.chain c := by rw [hsplit]; simp
    simp only [DeltaRecord.ver] at hborn heq
    have hid : a.deletedTxn = d.createdTxn := by
      obtain ⟨u, hu⟩ := Option.ne_none_iff_exists'.mp hborn
      rw [hu] at heq
      rw [(txnField_eq_some.mp heq).1, (txnField_eq_some.mp hu).1]
    rw [hid]
    refine seen_creator h hseen hd ?_
    cases hdt : d.isBaseTombstone with
    | false => rfl
    | true => exact absurd (txnField_eq_none.mpr (h.tombstone_created hd hdt)) hborn

include hc hr

/-- Whoever sees all writes of a row meets no conflict. -/
theorem no_conflict {a : DeltaRecord} (ha : a ∈ s.records) : claimStep a r c.mgr ≠ .conflict := by
  intro hconf
  obtain ⟨hne, hother, hact⟩ := conflict_of_claimStep hconf
  obtain ⟨u, hu, hcreated⟩ := (h.ok a ha).claim hne
  rw [hc.state_of_handle hu] at hact
  have huact := Clients.active_eq_some.mpr ⟨hu, hact⟩
  have hal := hc.alive_of_active huact
  have hmem : a ∈ s.chain c := by
    refine List.mem_filter.mpr ⟨ha, ?_⟩
    rcases hcreated with h0 | hs
    · rw [h0]
      exact Clients.alive_iff.mpr hc.not_aborted_zero
    · exact hc.alive_of_Sees hs hal
  -- the claimant is active, so it is seen only by itself
  exact hother (hc.sees_active huact ((Clients.Sees_of_active hr).mp (seen_claimant h hseen hmem hne hal)))

/-- The newest version of a row that is there can be claimed. -/
theorem claim_newest {l : List DeltaRecord} {it : DeltaRecord} (hch : s.chain c = l ++ [it])
    (hv : final b (values (s.liveHist c)) ≠ none) : claimStep it r c.mgr = .claim := by
  obtain ⟨hid, -, -, hpos⟩ := hc.active_handle hr
  have hitc : it ∈ s.chain c := by rw [hch]; simp
  have hfree : it.deletedTxn = 0 ∨ c.alive it.deletedTxn = false := by
    apply Classical.byContradiction
    intro hcon
    obtain ⟨hne, hal⟩ := not_or.mp hcon
    have hal : c.alive it.deletedTxn = true := by simpa using hal
    obtain ⟨P, hP, -⟩ := h.hist
    rw [hP, hch, VersionChain.final_append, final_writes_delete _ hne hal] at hv
    exact hv rfl
  refine (claimStep_eq_claim it r c.mgr (by omega)).mpr ⟨?_, isVisible_iff.mpr ⟨?_, ?_⟩⟩
  · refine hfree.imp id fun hab => ⟨fun heq => ?_, by simpa [Clients.alive] using hab⟩
    rw [heq, hid, hc.alive_of_active hr] at hab
    cases hab
  · cases ht : it.isBaseTombstone with
    | true => exact born_iff.mpr (Or.inl (h.tombstone_created hitc ht))
    | false => exact born_iff.mpr (Or.inr ((Clients.Sees_of_active hr).mp (seen_creator h hseen hitc ht)))
  · intro hd
    obtain ⟨hne, hs⟩ := died_iff.mp hd
    have hal := hc.alive_of_Sees ((Clients.Sees_of_active hr).mpr hs) (hc.alive_of_active hr)
    rcases hfree with h0 | hab
    · exact hne h0
    · rw [hal] at hab; cases hab

/-- **A present row can be claimed** by a transaction that sees all of its writes.  A row
that is only in the base must have no records. -/
theorem Grounded.claim_possible (hg : s.Grounded c b) (hfirst : s.chain c = [] → s.base ≠ [] → s.records = [])
    (hv : final b (values (s.liveHist c)) ≠ none) :
    ¬ ((∃ a ∈ s.records, claimStep a r c.mgr = .conflict) ∨
      ((∀ a ∈ s.records, claimStep a r c.mgr = .skip) ∧ (s.base = [] ∨ s.records ≠ []))) := by
  rintro (⟨a, ha, hconf⟩ | ⟨hskip, hno⟩)
  · exact no_conflict hc h hr hseen ha hconf
  · rcases List.eq_nil_or_concat (s.chain c) with hch | ⟨l, it, hch⟩
    · obtain ⟨P, hP, hground⟩ := hg.ground
      rw [hP.1, hch, VersionChain.writes_nil, List.append_nil] at hv
      have hbase : s.base ≠ [] := by
        rw [hground.nil hch]
        cases hf : final b P with
        | none => exact absurd hf hv
        | some v => simp
      exact hno.elim hbase fun hrec => hrec (hfirst hch hbase)
    · rw [List.concat_eq_append] at hch
      have hit : it ∈ s.chain c := by rw [hch]; simp
      have hskipit := hskip it (List.mem_of_mem_filter hit)
      rw [claim_newest hc h hr hseen hch hv] at hskipit
      cases hskipit

end

end RowState

end CoreDB
