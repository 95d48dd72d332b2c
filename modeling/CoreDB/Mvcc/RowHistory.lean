import CoreDB.Mvcc.Visibility

/-!
# The history of one row

Everything the table knows about one row id: its delta records, the writes that
transactions have made to it (those that returned), and its copies in the base.
The records whose creator has not aborted form a linked version chain, and the
writes of transactions that have not aborted are the writes behind that chain,
after a settled part `P` that no reader can miss.

`RowState.Inv` says this; it holds of every row in every run, whatever `Compact`
does.  `RowState.later` is what time does to it: transactions begin, commit and
abort.  The writes and `Compact` are in the sections after it.
-/

namespace CoreDB

open VersionChain (Linked Closed Born Died Visible writes)

/-- A write that was made to a row. -/
inductive Write where
  | insert (row : Row)
  | update (row : Row)
  | delete
deriving DecidableEq, Repr

/-- What the row holds after the write. -/
def Write.value : Write → Option Row
  | .insert row => some row
  | .update row => some row
  | .delete => none

structure RowState where
  /-- The delta records of the row, oldest first. -/
  records : List DeltaRecord := []
  /-- The writes to the row, each with its transaction. -/
  hist : List (Nat × Write) := []
  /-- The row's copies in the base segments. -/
  base : List Row := []

/-- A transaction id field: 0 is nobody. -/
def txnField (t : Nat) : Option Nat := if t = 0 then none else some t

def DeltaRecord.ver (rec : DeltaRecord) : VersionChain.Version Nat Row where
  born := txnField rec.createdTxn
  died := txnField rec.deletedTxn
  val := if rec.isBaseTombstone then none else some rec.row

theorem txnField_eq_some {t u : Nat} : txnField t = some u ↔ t = u ∧ t ≠ 0 := by
  unfold txnField
  split <;> simp_all

theorem txnField_eq_none {t : Nat} : txnField t = none ↔ t = 0 := by
  unfold txnField
  split <;> simp_all

theorem born_iff {S : Nat → Prop} {a : DeltaRecord} :
    Born DeltaRecord.ver S a ↔ a.createdTxn = 0 ∨ S a.createdTxn := by
  simp only [VersionChain.Born, DeltaRecord.ver, txnField_eq_some]
  by_cases h : a.createdTxn = 0
  · simp [h]
  · simp [h]

theorem died_iff {S : Nat → Prop} {a : DeltaRecord} :
    Died DeltaRecord.ver S a ↔ a.deletedTxn ≠ 0 ∧ S a.deletedTxn := by
  simp only [Died, DeltaRecord.ver, txnField_eq_some]
  constructor
  · rintro ⟨t, ⟨rfl, hne⟩, hs⟩
    exact ⟨hne, hs⟩
  · rintro ⟨hne, hs⟩
    exact ⟨_, ⟨rfl, hne⟩, hs⟩

instance (S : Nat → Prop) [DecidablePred S] : DecidablePred (Born DeltaRecord.ver S) :=
  fun _ => decidable_of_iff _ born_iff.symm

instance (S : Nat → Prop) [DecidablePred S] : DecidablePred (Died DeltaRecord.ver S) :=
  fun _ => decidable_of_iff _ died_iff.symm

/-- The writes with the values they leave. -/
def values (h : List (Nat × Write)) : List (Nat × Option Row) := h.map fun p => (p.1, p.2.value)

namespace RowState

/-- The records that were not created by an aborted transaction. -/
def chain (c : Clients) (s : RowState) : List DeltaRecord := s.records.filter fun a => c.alive a.createdTxn

/-- The writes of transactions that have not aborted. -/
def liveHist (c : Clients) (s : RowState) : List (Nat × Write) := s.hist.filter fun p => c.alive p.1

/-- The shape of a record: a tombstone stands for a base row, a version has a
creator, and a record was visible to whoever claimed it. -/
structure RecordOk (c : Clients) (a : DeltaRecord) : Prop where
  tombstone : a.isBaseTombstone = true → a.createdTxn = 0 ∧ a.deletedTxn ≠ 0
  version : a.isBaseTombstone = false → a.createdTxn ≠ 0 ∧ ∃ u, c.handle a.createdTxn = some u
  claim : a.deletedTxn ≠ 0 → ∃ u, c.handle a.deletedTxn = some u ∧
    (a.createdTxn = 0 ∨ c.Sees a.deletedTxn a.createdTxn)

/-- A record followed by another one of its row has been claimed, unless its
creator aborted; and a tombstone comes first. -/
def Before (c : Clients) (a b : DeltaRecord) : Prop :=
  b.isBaseTombstone = false ∧ (c.alive a.createdTxn = true → a.deletedTxn ≠ 0)

/-- The live writes are a settled part `P` and the writes behind the chain. -/
def Settled (c : Clients) (s : RowState) (P : List (Nat × Option Row)) : Prop :=
  values (s.liveHist c) = P ++ writes DeltaRecord.ver c.alive (s.chain c) ∧ ∀ p ∈ P, c.stable p.1 = true

structure Inv (c : Clients) (s : RowState) : Prop where
  ok : ∀ a ∈ s.records, RecordOk c a
  linked : Linked DeltaRecord.ver (s.chain c)
  order : s.records.Pairwise (Before c)
  hist : ∃ P, s.Settled c P
  seen : (s.liveHist c).Pairwise fun p q => c.Sees q.1 p.1

theorem inv_empty (c : Clients) (base : List Row) : Inv c { base } where
  ok := by simp
  linked := List.isChain_nil
  order := List.Pairwise.nil
  hist := ⟨[], by simp [values, liveHist, chain], by simp⟩
  seen := List.Pairwise.nil

/-- Whoever knows a record's claim knows its creation, if knowledge is closed under
what its members see. -/
theorem Inv.closed {c : Clients} {s : RowState} (h : s.Inv c) {S : Nat → Prop}
    (hS : ∀ u t, c.Sees u t → S u → S t) : Closed DeltaRecord.ver S (s.chain c) := by
  intro a ha hd
  obtain ⟨hne, hs⟩ := died_iff.mp hd
  obtain ⟨u, -, hc⟩ := (h.ok a (List.mem_of_mem_filter ha)).claim hne
  exact born_iff.mpr (hc.imp id fun hsees => hS _ _ hsees hs)

theorem Inv.proper {c : Clients} {s : RowState} (h : s.Inv c) {a : DeltaRecord} (ha : a ∈ s.chain c) :
    VersionChain.Proper DeltaRecord.ver a := by
  have hok := h.ok a (List.mem_of_mem_filter ha)
  unfold VersionChain.Proper DeltaRecord.ver
  simp only [txnField_eq_none]
  cases ht : a.isBaseTombstone with
  | true => simp [(hok.tombstone ht).1]
  | false => simp [(hok.version ht).1]

/-! ## Time passes -/

section
variable {c c' : Clients} (hc : c.Inv) (hc' : c'.Inv) (hl : c.Later c')
include hc hc' hl

theorem RecordOk.later {a : DeltaRecord} (h : RecordOk c a) : RecordOk c' a where
  tombstone := h.tombstone
  version := by
    intro ht
    obtain ⟨h0, u, hu⟩ := h.version ht
    obtain ⟨u', hu', -⟩ := hl.handle _ u hu
    exact ⟨h0, u', hu'⟩
  claim := by
    intro hne
    obtain ⟨u, hu, hs⟩ := h.claim hne
    obtain ⟨u', hu', -⟩ := hl.handle _ u hu
    exact ⟨u', hu', hs.imp id fun hs => hl.Sees hc hc' hs⟩

/-- Later, the chain and the live writes are what is left once the newly aborted
transactions are gone. -/
theorem chain_later (s : RowState) :
    s.chain c' = (s.chain c).filter fun a => decide (Born DeltaRecord.ver (c'.alive · = true) a) := by
  unfold chain
  rw [List.filter_filter]
  apply List.filter_congr
  intro a _
  have hzero : c'.alive 0 = true := Clients.alive_iff.mpr hc'.not_aborted_zero
  have hborn : Born DeltaRecord.ver (c'.alive · = true) a ↔ c'.alive a.createdTxn = true := by
    rw [born_iff]
    constructor
    · rintro (h0 | h)
      · rw [h0]; exact hzero
      · exact h
    · exact Or.inr
  cases ha : c'.alive a.createdTxn with
  | false => simp [hborn, ha]
  | true => simp [hborn, ha, hl.alive hc hc' ha]

theorem liveHist_later (s : RowState) :
    s.liveHist c' = (s.liveHist c).filter fun p => c'.alive p.1 := by
  unfold liveHist
  rw [List.filter_filter]
  apply List.filter_congr
  intro p _
  cases ha : c'.alive p.1 with
  | false => simp
  | true => simp [hl.alive hc hc' ha]

theorem Inv.closed_later {s : RowState} (h : s.Inv c) :
    Closed DeltaRecord.ver (c'.alive · = true) (s.chain c) :=
  h.closed fun _ _ hs hu => hc'.alive_of_Sees (hl.Sees hc hc' hs) hu

/-- The settled part stays. -/
theorem Inv.settled_later {s : RowState} (h : s.Inv c) {P : List (Nat × Option Row)}
    (hset : s.Settled c P) : s.Settled c' P := by
  obtain ⟨hP, hstable⟩ := hset
  refine ⟨?_, fun p hp => hl.stable hc hc' (hstable p hp)⟩
  have hval : values (s.liveHist c') = (values (s.liveHist c)).filter fun p => decide (c'.alive p.1 = true) := by
    rw [liveHist_later hc hc' hl]
    unfold values
    rw [List.filter_map]
    simp [Function.comp_def]
  have hfilterP : P.filter (fun p => decide (c'.alive p.1 = true)) = P := by
    rw [List.filter_eq_self]
    intro p hp
    exact decide_eq_true (hc'.alive_of_stable (hl.stable hc hc' (hstable p hp)))
  rw [hval, hP, List.filter_append, hfilterP, VersionChain.filter_writes _ h.linked (h.closed_later hc hc' hl),
    chain_later hc hc' hl]
  congr 2
  funext t
  cases ha : c'.alive t with
  | false => simp
  | true => simp [hl.alive hc hc' ha]

/-- **Time keeps the invariant.** -/
theorem Inv.later {s : RowState} (h : s.Inv c) : s.Inv c' where
  ok := fun a ha => (h.ok a ha).later hc hc' hl
  linked := by
    rw [chain_later hc hc' hl]
    exact h.linked.of_prefix (VersionChain.filter_born_prefix h.linked (h.closed_later hc hc' hl))
  order := h.order.imp fun hab => ⟨hab.1, fun ha => hab.2 (hl.alive hc hc' ha)⟩
  hist := by
    obtain ⟨P, hP⟩ := h.hist
    exact ⟨P, h.settled_later hc hc' hl hP⟩
  seen := by
    rw [liveHist_later hc hc' hl]
    exact (h.seen.imp fun hs => hl.Sees hc hc' hs).sublist List.filter_sublist

end

end RowState

/-- The record a write appends for the row it leaves. -/
def Write.versions (w : Write) (x t : Nat) : List DeltaRecord :=
  w.value.toList.map (DeltaRecord.version x t)

namespace RowState

/-! ## Writes -/

section
variable {c : Clients} {s : RowState} {t : Nat} {r : Transaction} (hc : c.Inv) (h : s.Inv c)
  (hr : c.active t = some r)
include hc hr

theorem versions_alive (w : Write) (x : Nat) :
    (w.versions x t).filter (fun a => c.alive a.createdTxn) = w.versions x t := by
  rw [List.filter_eq_self]
  intro a ha
  obtain ⟨row, -, rfl⟩ := List.mem_map.mp ha
  exact hc.alive_of_active hr

theorem liveHist_concat (w : Write) :
    liveHist c { s with hist := s.hist ++ [(t, w)] } = s.liveHist c ++ [(t, w)] := by
  unfold liveHist
  rw [List.filter_append]
  simp [hc.alive_of_active hr]

theorem claim_visible {it : DeltaRecord} (hclaim : claimStep it r c.mgr = .claim) :
    (it.deletedTxn = 0 ∨ c.alive it.deletedTxn = false) ∧ (it.createdTxn = 0 ∨ c.Sees t it.createdTxn) := by
  obtain ⟨-, -, -, hpos⟩ := hc.active_handle hr
  obtain ⟨hdel, hvis⟩ := (claimStep_eq_claim it r c.mgr (by omega)).mp hclaim
  rw [isVisible_eq, Bool.and_eq_true, Bool.or_eq_true, beq_iff_eq] at hvis
  refine ⟨hdel.imp id fun hd => by simp [Clients.alive, hd.2], hvis.1.imp id fun hs => ?_⟩
  exact (Clients.Sees_of_active hr).mpr hs

/-- A record that can be claimed has not been deleted by anyone who counts. -/
theorem del_of_claim {it : DeltaRecord} (hclaim : claimStep it r c.mgr = .claim) :
    VersionChain.del DeltaRecord.ver c.alive it = [] := by
  unfold VersionChain.del DeltaRecord.ver txnField
  rcases (claim_visible hc hr hclaim).1 with h0 | hab
  · simp [h0]
  · by_cases h0 : it.deletedTxn = 0 <;> simp [h0, hab]

include h

/-- A record that can be claimed is the newest of the chain. -/
theorem Inv.chain_claim {old new : List DeltaRecord} {it : DeltaRecord}
    (hrec : s.records = old ++ it :: new) (hclaim : claimStep it r c.mgr = .claim) :
    s.chain c = (old.filter fun a => c.alive a.createdTxn) ++ [it] ∧
      new.filter (fun a => c.alive a.createdTxn) = [] := by
  obtain ⟨hdel, hvis⟩ := claim_visible hc hr hclaim
  have hit : c.alive it.createdTxn = true := by
    rcases hvis with h0 | hs
    · rw [h0]; exact Clients.alive_iff.mpr hc.not_aborted_zero
    · exact hc.alive_of_Sees hs (hc.alive_of_active hr)
  have hchain : s.chain c = (old.filter fun a => c.alive a.createdTxn) ++
      it :: new.filter fun a => c.alive a.createdTxn := by
    simp [chain, hrec, List.filter_append, hit]
  cases hnew : new.filter (fun a => c.alive a.createdTxn) with
  | nil => exact ⟨by rw [hchain, hnew], rfl⟩
  | cons b l =>
    -- a successor `b` would be born in the transaction `it` died in, which has aborted
    have hlink : VersionChain.Link DeltaRecord.ver it b := by
      have hl := h.linked
      rw [hchain, hnew] at hl
      exact (List.isChain_append_cons_cons.mp hl).2.1
    have hb : c.alive b.createdTxn = true :=
      (List.mem_filter.mp (show b ∈ new.filter fun a => c.alive a.createdTxn by rw [hnew]; simp)).2
    obtain ⟨hborn, heq⟩ := hlink
    simp only [DeltaRecord.ver] at hborn heq
    rcases hdel with h0 | hab
    · rw [h0] at heq
      exact absurd heq.symm hborn
    · obtain ⟨u, hu⟩ := Option.ne_none_iff_exists'.mp hborn
      rw [hu, txnField_eq_some] at heq
      rw [txnField_eq_some] at hu
      rw [heq.1, ← hu.1, hb] at hab
      cases hab

/-- Everything live that has been written to a row is seen by a transaction that
claims one of its records. -/
theorem Inv.seen_of_claim {l : List DeltaRecord} {it : DeltaRecord}
    (hchain : s.chain c = l ++ [it]) (hclaim : claimStep it r c.mgr = .claim) :
    ∀ p ∈ s.liveHist c, c.Sees t p.1 := by
  obtain ⟨hdel, hvis⟩ := claim_visible hc hr hclaim
  have hborn : ∀ b ∈ s.chain c, Born DeltaRecord.ver (c.Sees t) b := by
    have hlink := h.linked
    have hclosed := h.closed fun u v hs hu => hc.Sees_trans (r := t) hu hs
    rw [hchain] at hlink hclosed ⊢
    exact VersionChain.born_of_last hlink hclosed (born_iff.mpr hvis)
  obtain ⟨P, hP, hstable⟩ := h.hist
  intro p hp
  have hpv : (p.1, p.2.value) ∈ P ++ writes DeltaRecord.ver c.alive (s.chain c) := by
    rw [← hP]
    exact List.mem_map.mpr ⟨p, hp, rfl⟩
  rcases List.mem_append.mp hpv with hp | hp
  · exact (Clients.Sees_of_active hr).mpr (hc.sees_of_stable hr (hstable _ hp))
  · rw [hchain, VersionChain.writes_concat] at hp
    rcases List.mem_append.mp hp with hp | hp
    · obtain ⟨b, hb, hput⟩ := List.mem_flatMap.mp hp
      exact hborn b (by rw [hchain]; exact hb) _ (VersionChain.mem_put hput).1
    · obtain ⟨hdied, hal, -⟩ := VersionChain.mem_del hp
      obtain ⟨heq, hne⟩ := txnField_eq_some.mp hdied
      rcases hdel with h0 | hab
      · exact absurd h0 hne
      · rw [heq, hal] at hab
        cases hab

end

/-- The row after one more write: its records are now `records`. -/
def written (s : RowState) (records : List DeltaRecord) (t : Nat) (w : Write) : RowState :=
  { s with records, hist := s.hist ++ [(t, w)] }

theorem mem_versions {w : Write} {x t : Nat} {a : DeltaRecord} (ha : a ∈ w.versions x t) :
    ∃ row, a = .version x t row := by
  obtain ⟨row, -, rfl⟩ := List.mem_map.mp ha
  exact ⟨row, rfl⟩

theorem recordOk_version {c : Clients} (x : Nat) {t : Nat} {u : Transaction} (row : Row) (ht : t ≠ 0)
    (hu : c.handle t = some u) : RecordOk c (.version x t row) where
  tombstone := fun h => by simp [DeltaRecord.version] at h
  version := fun _ => ⟨ht, u, hu⟩
  claim := fun h => absurd rfl h

theorem pairwise_versions (c : Clients) (w : Write) (x t : Nat) : (w.versions x t).Pairwise (Before c) := by
  cases hv : w.value with
  | none => simp [Write.versions, hv]
  | some row => simp [Write.versions, hv]

/-- What `w` adds to the writes of a chain that ends in a record claimed by `t`. -/
theorem writes_versions {c : Clients} {l : List DeltaRecord} {a b : DeltaRecord} {t : Nat} (w : Write)
    (x : Nat) (hborn : b.ver.born = a.ver.born) (hval : b.ver.val = a.ver.val)
    (hdel : VersionChain.del DeltaRecord.ver c.alive a = []) (hdied : b.deletedTxn = t) (ht0 : t ≠ 0)
    (ht : c.alive t = true) :
    writes DeltaRecord.ver c.alive (l ++ [b] ++ w.versions x t) =
      writes DeltaRecord.ver c.alive (l ++ [a]) ++ [(t, w.value)] := by
  have hd : b.ver.died = some t := txnField_eq_some.mpr ⟨hdied, by rw [hdied]; exact ht0⟩
  cases hv : w.value with
  | none =>
    simp only [Write.versions, hv, Option.toList_none, List.map_nil, List.append_nil]
    exact VersionChain.writes_delete hborn hval hdel hd ht
  | some row =>
    simp only [Write.versions, hv, Option.toList_some, List.map_cons, List.map_nil]
    refine VersionChain.writes_replace hborn hval hdel ?_ rfl ?_
    · exact txnField_eq_some.mpr ⟨rfl, ht0⟩
    · exact txnField_eq_none.mpr rfl

theorem linked_versions {l : List DeltaRecord} {a : DeltaRecord} {t : Nat} (w : Write) (x : Nat)
    (h : Linked DeltaRecord.ver (l ++ [a])) (hdied : a.deletedTxn = t) (ht0 : t ≠ 0) :
    Linked DeltaRecord.ver (l ++ [a] ++ w.versions x t) := by
  cases hv : w.value with
  | none => simpa [Write.versions, hv] using h
  | some row =>
    simp only [Write.versions, hv, Option.toList_some, List.map_cons, List.map_nil]
    refine h.concat ⟨?_, ?_⟩
    · simp [DeltaRecord.ver, DeltaRecord.version, txnField_eq_none, ht0]
    · simp [DeltaRecord.ver, DeltaRecord.version, hdied]

section
variable {c : Clients} {s : RowState} {t : Nat} {r : Transaction} (hc : c.Inv) (h : s.Inv c)
  (hr : c.active t = some r) {old new : List DeltaRecord} {it : DeltaRecord}
  (hrec : s.records = old ++ it :: new) (hclaim : claimStep it r c.mgr = .claim) (w : Write) (x : Nat)
include hc h hr hrec hclaim

theorem Inv.chain_claimed : chain c (s.written ((old ++ it.claimedBy t :: new) ++ w.versions x t) t w) =
    (old.filter fun a => c.alive a.createdTxn) ++ [it.claimedBy t] ++ w.versions x t := by
  obtain ⟨hchain, hnew⟩ := h.chain_claim hc hr hrec hclaim
  have hit : it ∈ s.chain c := by rw [hchain]; simp
  have hitalive : c.alive it.createdTxn = true := (List.mem_filter.mp hit).2
  simp only [chain, written]
  rw [List.filter_append, List.filter_append, List.filter_cons, hnew, versions_alive hc hr]
  simp [DeltaRecord.claimedBy, hitalive]

theorem Inv.ok_claimed : ∀ a ∈ (old ++ it.claimedBy t :: new) ++ w.versions x t, RecordOk c a := by
  obtain ⟨-, hvis⟩ := claim_visible hc hr hclaim
  obtain ⟨hh, -⟩ := Clients.active_eq_some.mp hr
  have ht0 : t ≠ 0 := by have := (hc.id t r hh).2.1; omega
  intro a ha
  rcases List.mem_append.mp ha with ha | ha
  · rcases List.mem_append.mp ha with ha | ha
    · exact h.ok a (by rw [hrec]; simp [ha])
    · rcases List.mem_cons.mp ha with rfl | ha
      · have hok := h.ok it (by rw [hrec]; simp)
        exact ⟨fun ht => ⟨(hok.tombstone ht).1, ht0⟩, hok.version, fun _ => ⟨r, hh, hvis⟩⟩
      · exact h.ok a (by rw [hrec]; simp [ha])
  · obtain ⟨row, rfl⟩ := mem_versions ha
    exact recordOk_version x row ht0 hh

theorem Inv.order_claimed : ((old ++ it.claimedBy t :: new) ++ w.versions x t).Pairwise (Before c) := by
  obtain ⟨hchain, hnew⟩ := h.chain_claim hc hr hrec hclaim
  obtain ⟨hid, -, -, hpos⟩ := hc.active_handle hr
  have ht0 : t ≠ 0 := by omega
  have horder := h.order
  rw [hrec, List.pairwise_append, List.pairwise_cons] at horder
  obtain ⟨h1, ⟨h2, h3⟩, h4⟩ := horder
  rw [List.pairwise_append, List.pairwise_append, List.pairwise_cons]
  refine ⟨⟨h1, ⟨fun b hb => ⟨(h2 b hb).1, fun _ => ht0⟩, h3⟩, fun a ha b hb => ?_⟩,
    pairwise_versions c w x t, fun a ha b hb => ?_⟩
  · rcases List.mem_cons.mp hb with rfl | hb
    · exact h4 a ha it List.mem_cons_self
    · exact h4 a ha b (List.mem_cons_of_mem _ hb)
  · obtain ⟨row, rfl⟩ := mem_versions hb
    refine ⟨rfl, fun hal => ?_⟩
    rcases List.mem_append.mp ha with ha | ha
    · exact (h4 a ha it List.mem_cons_self).2 hal
    · rcases List.mem_cons.mp ha with rfl | ha
      · exact ht0
      · -- the records after `it` were created by aborted transactions
        have hmem : a ∈ new.filter fun a => c.alive a.createdTxn := List.mem_filter.mpr ⟨ha, hal⟩
        rw [hnew] at hmem
        cases hmem

theorem Inv.settled_claim {P : List (Nat × Option Row)} (hset : s.Settled c P) :
    Settled c (s.written ((old ++ it.claimedBy t :: new) ++ w.versions x t) t w) P := by
  obtain ⟨hP, hstable⟩ := hset
  obtain ⟨hchain, -⟩ := h.chain_claim hc hr hrec hclaim
  obtain ⟨hid, -, -, hpos⟩ := hc.active_handle hr
  have ht0 : t ≠ 0 := by omega
  have hlist : liveHist c (s.written ((old ++ it.claimedBy t :: new) ++ w.versions x t) t w) =
      s.liveHist c ++ [(t, w)] := liveHist_concat hc hr w
  have hdead := del_of_claim hc hr hclaim
  refine ⟨?_, hstable⟩
  rw [hlist, h.chain_claimed hc hr hrec hclaim w x,
    writes_versions (t := t) w x (a := it) (b := it.claimedBy t) rfl rfl hdead rfl ht0
      (hc.alive_of_active hr), ← List.append_assoc, ← hchain, ← hP]
  simp [values]

/-- **Claiming a record** keeps the invariant; the write is the newest one. -/
theorem Inv.claim : Inv c (s.written ((old ++ it.claimedBy t :: new) ++ w.versions x t) t w) := by
  obtain ⟨hchain, hnew⟩ := h.chain_claim hc hr hrec hclaim
  have hchain' := h.chain_claimed hc hr hrec hclaim w x
  have hlist : liveHist c (s.written ((old ++ it.claimedBy t :: new) ++ w.versions x t) t w) =
      s.liveHist c ++ [(t, w)] := liveHist_concat hc hr w
  obtain ⟨hid, -, -, hpos⟩ := hc.active_handle hr
  have ht0 : t ≠ 0 := by omega
  refine ⟨h.ok_claimed hc hr hrec hclaim w x, ?_, h.order_claimed hc hr hrec hclaim w x, ?_, ?_⟩
  · rw [hchain']
    have hlinked := h.linked
    rw [hchain] at hlinked
    exact linked_versions w x (hlinked.concat_congr (b := it.claimedBy t) rfl) rfl ht0
  · obtain ⟨P, hP⟩ := h.hist
    exact ⟨P, h.settled_claim hc hr hrec hclaim w x hP⟩
  · rw [hlist, List.pairwise_append]
    refine ⟨h.seen, List.pairwise_singleton _ _, fun p hp q hq => ?_⟩
    rw [List.mem_singleton.mp hq]
    exact h.seen_of_claim hc hr hchain hclaim p hp

end

section
variable {c : Clients} {s : RowState} {t : Nat} {r : Transaction} (hc : c.Inv) (h : s.Inv c)
  (hr : c.active t = some r) (hrec : s.records = [])
include hc h hr hrec

omit hc hr in
theorem Inv.settled_of_no_records : ∀ p ∈ s.liveHist c, c.stable p.1 = true := by
  obtain ⟨P, hP, hstable⟩ := h.hist
  intro p hp
  have hmem : (p.1, p.2.value) ∈ values (s.liveHist c) := List.mem_map.mpr ⟨p, hp, rfl⟩
  rw [hP, show s.chain c = [] by simp [chain, hrec]] at hmem
  exact hstable _ (by simpa using hmem)

omit h hrec in
theorem chain_tombstoned (w : Write) (x : Nat) :
    chain c (s.written ([.tombstone x t] ++ w.versions x t) t w) = [] ++ [.tombstone x t] ++ w.versions x t := by
  have hzero : c.alive 0 = true := Clients.alive_iff.mpr hc.not_aborted_zero
  simp only [chain, written]
  rw [List.filter_append, versions_alive hc hr]
  simp [DeltaRecord.tombstone, hzero]

omit h in
theorem settled_tombstone (w : Write) (x : Nat) {P : List (Nat × Option Row)} (hset : s.Settled c P) :
    Settled c (s.written ([.tombstone x t] ++ w.versions x t) t w) P := by
  obtain ⟨hP, hstable⟩ := hset
  obtain ⟨hid, -, -, hpos⟩ := hc.active_handle hr
  have ht0 : t ≠ 0 := by omega
  have hchain : s.chain c = [] := by simp [chain, hrec]
  have hlist : liveHist c (s.written ([.tombstone x t] ++ w.versions x t) t w) = s.liveHist c ++ [(t, w)] :=
    liveHist_concat hc hr w
  -- the chain starts like the one of an unclaimed base row
  have hbase : writes DeltaRecord.ver c.alive ([] ++ [DeltaRecord.tombstone x 0]) = [] := by
    simp [writes, VersionChain.put, VersionChain.del, DeltaRecord.ver, DeltaRecord.tombstone, txnField]
  refine ⟨?_, hstable⟩
  rw [hlist, chain_tombstoned hc hr w x,
    writes_versions (t := t) w x (a := .tombstone x 0) (b := .tombstone x t) rfl rfl ?_ rfl ht0
      (hc.alive_of_active hr), hbase]
  · rw [hchain] at hP
    simpa [values] using hP
  · simp [VersionChain.del, DeltaRecord.ver, DeltaRecord.tombstone, txnField]

/-- **A tombstone** for a row without records keeps the invariant. -/
theorem Inv.tombstone (w : Write) (x : Nat) :
    Inv c (s.written ([.tombstone x t] ++ w.versions x t) t w) := by
  obtain ⟨hh, -⟩ := Clients.active_eq_some.mp hr
  have ht0 : t ≠ 0 := by have := (hc.id t r hh).2.1; omega
  have hlist : liveHist c (s.written ([.tombstone x t] ++ w.versions x t) t w) = s.liveHist c ++ [(t, w)] :=
    liveHist_concat hc hr w
  refine ⟨?_, ?_, ?_, ?_, ?_⟩
  · intro a ha
    rcases List.mem_append.mp ha with ha | ha
    · rw [List.mem_singleton.mp ha]
      exact ⟨fun _ => ⟨rfl, ht0⟩, fun hf => by simp [DeltaRecord.tombstone] at hf, fun _ => ⟨r, hh, Or.inl rfl⟩⟩
    · obtain ⟨row, rfl⟩ := mem_versions ha
      exact recordOk_version x row ht0 hh
  · rw [chain_tombstoned hc hr w x]
    exact linked_versions w x (List.isChain_singleton _) rfl ht0
  · refine List.pairwise_append.mpr ⟨List.pairwise_singleton _ _, pairwise_versions c w x t, fun a ha b hb => ?_⟩
    rw [List.mem_singleton.mp ha]
    obtain ⟨row, rfl⟩ := mem_versions hb
    exact ⟨rfl, fun _ => ht0⟩
  · obtain ⟨P, hP⟩ := h.hist
    exact ⟨P, settled_tombstone hc hr hrec w x hP⟩
  · rw [hlist, List.pairwise_append]
    refine ⟨h.seen, List.pairwise_singleton _ _, fun p hp q hq => ?_⟩
    rw [List.mem_singleton.mp hq]
    exact (Clients.Sees_of_active hr).mpr (hc.sees_of_stable hr (h.settled_of_no_records hrec p hp))

end

section
variable {c : Clients} {t : Nat} {r : Transaction} (hc : c.Inv) (hr : c.active t = some r)
include hc hr

theorem chain_inserted (x : Nat) (row : Row) (base : List Row) :
    chain c { records := [.version x t row], hist := [(t, .insert row)], base } = [.version x t row] := by
  simp [chain, DeltaRecord.version, hc.alive_of_active hr]

theorem settled_insert (x : Nat) (row : Row) (base : List Row) :
    Settled c { records := [.version x t row], hist := [(t, .insert row)], base } [] := by
  obtain ⟨hid, -, -, hpos⟩ := hc.active_handle hr
  have ht0 : t ≠ 0 := by omega
  refine ⟨?_, by simp⟩
  rw [chain_inserted hc hr]
  simp [values, liveHist, hc.alive_of_active hr, writes, VersionChain.put, VersionChain.del, DeltaRecord.ver,
    DeltaRecord.version, txnField, ht0, Write.value]

/-- **Inserting** a row of which there is no trace keeps the invariant. -/
theorem inv_insert (x : Nat) (row : Row) (base : List Row) :
    Inv c { records := [.version x t row], hist := [(t, .insert row)], base } := by
  obtain ⟨hid, -, -, hpos⟩ := hc.active_handle hr
  refine ⟨?_, ?_, List.pairwise_singleton _ _, ⟨[], settled_insert hc hr x row base⟩, ?_⟩
  · intro a ha
    rw [List.mem_singleton.mp ha]
    exact recordOk_version x row (by omega) (Clients.active_eq_some.mp hr).1
  · rw [chain_inserted hc hr]
    exact List.isChain_singleton _
  · simp [liveHist, hc.alive_of_active hr]

end

end RowState

end CoreDB
