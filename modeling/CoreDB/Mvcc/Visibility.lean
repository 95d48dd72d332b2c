import CoreDB.Mvcc.Delta

/-!
# What is seen, what is stable, and how that changes over time

The status table read through the handles: `committedBy`, `isAborted` and `sees`
as statements about handles; seeing is transitive (`sees_trans`); what committed
by the watermark is seen by every active transaction (`sees_of_stable`).  The
second half says which of these facts survive to a later moment.
-/

namespace CoreDB

namespace Clients

/-- Committed at or before the compaction watermark. -/
def stable (c : Clients) (t : Nat) : Bool :=
  (c.mgr.getStatus t).committedBy c.mgr.oldestActiveSnapshot

/-- Not aborted. -/
def alive (c : Clients) (t : Nat) : Bool := !c.mgr.isAborted t

/-- Transaction `u` sees what `t` wrote. -/
def Sees (c : Clients) (u t : Nat) : Prop := ∃ utx, c.handle u = some utx ∧ c.mgr.sees utx t = true

theorem alive_iff {c : Clients} {t : Nat} : c.alive t = true ↔ c.mgr.isAborted t = false := by
  simp [alive]

section
variable {c : Clients} (h : c.Inv)
include h

theorem Inv.getStatus_of_handle {t : Nat} {txn : Transaction} (ht : c.handle t = some txn) :
    c.mgr.getStatus t = txn.recorded.getD {} := by
  unfold TransactionManager.getStatus
  rw [h.status t, ht, Option.bind_some]

theorem Inv.getStatus_of_none {t : Nat} (ht : c.handle t = none) : c.mgr.getStatus t = {} := by
  unfold TransactionManager.getStatus
  rw [h.status t, ht, Option.bind_none, Option.getD_none]

theorem Inv.committedBy_iff (t ts : Nat) : (c.mgr.getStatus t).committedBy ts = true ↔
    ∃ txn, c.handle t = some txn ∧ txn.state = .committed ∧ txn.commitTs ≤ ts := by
  cases ht : c.handle t with
  | none => simp [h.getStatus_of_none ht, TxnStatus.committedBy]
  | some txn =>
    rw [h.getStatus_of_handle ht]
    cases hs : txn.state <;> simp [Transaction.recorded, hs, TxnStatus.committedBy]

theorem Inv.isAborted_iff (t : Nat) :
    c.mgr.isAborted t = true ↔ ∃ txn, c.handle t = some txn ∧ txn.state = .aborted := by
  unfold TransactionManager.isAborted
  cases ht : c.handle t with
  | none => simp [h.getStatus_of_none ht]
  | some txn =>
    rw [h.getStatus_of_handle ht]
    cases hs : txn.state <;> simp [Transaction.recorded, hs]

theorem Inv.state_of_handle {t : Nat} {txn : Transaction} (ht : c.handle t = some txn) :
    (c.mgr.getStatus t).state = txn.state := by
  rw [h.getStatus_of_handle ht]
  cases hs : txn.state <;> simp [Transaction.recorded, hs]

theorem Inv.not_aborted_zero : c.mgr.isAborted 0 = false := by
  cases hz : c.mgr.isAborted 0 with
  | false => rfl
  | true =>
    obtain ⟨txn, ht, -⟩ := (h.isAborted_iff 0).mp hz
    have := (h.id 0 txn ht).2.1
    omega

theorem Inv.sees_iff (r : Transaction) (t : Nat) : c.mgr.sees r t = true ↔
    t = r.txnId ∨ ∃ txn, c.handle t = some txn ∧ txn.state = .committed ∧ txn.commitTs ≤ r.snapshotTs := by
  unfold TransactionManager.sees
  rw [Bool.or_eq_true, beq_iff_eq, h.committedBy_iff]

/-- **Seeing is transitive.** -/
theorem Inv.sees_trans {r u : Transaction} (hr : c.handle r.txnId = some r) (hu : c.handle u.txnId = some u)
    {t : Nat} (hru : c.mgr.sees r u.txnId = true) (hut : c.mgr.sees u t = true) : c.mgr.sees r t = true := by
  rcases (h.sees_iff r _).mp hru with heq | ⟨u', hu', hcm, hle⟩
  · rw [heq, hr] at hu
    obtain rfl := Option.some.inj hu
    exact hut
  · rw [hu] at hu'
    obtain rfl := Option.some.inj hu'
    rcases (h.sees_iff u t).mp hut with rfl | ⟨txn, ht, htc, htle⟩
    · exact hru
    · have hsnap := (h.snap _ u hu).1
      have hcts := (h.commitTs _ u hu hcm).1
      exact (h.sees_iff r t).mpr (Or.inr ⟨txn, ht, htc, by omega⟩)

/-- Nobody who is not aborted sees an aborted transaction. -/
theorem Inv.sees_not_aborted {r : Transaction} (hr : c.handle r.txnId = some r) (hst : r.state ≠ .aborted)
    {t : Nat} (hs : c.mgr.sees r t = true) : c.mgr.isAborted t = false := by
  cases ha : c.mgr.isAborted t with
  | false => rfl
  | true =>
    obtain ⟨txn, ht, hab⟩ := (h.isAborted_iff t).mp ha
    rcases (h.sees_iff r t).mp hs with rfl | ⟨txn', ht', hcm, -⟩
    · rw [hr] at ht
      rw [Option.some.inj ht] at hst
      exact absurd hab hst
    · rw [ht] at ht'
      rw [← Option.some.inj ht', hab] at hcm
      cases hcm

theorem Inv.stable_iff (t : Nat) : c.stable t = true ↔
    ∃ txn, c.handle t = some txn ∧ txn.state = .committed ∧ txn.commitTs ≤ c.mgr.oldestActiveSnapshot :=
  h.committedBy_iff t _

theorem Inv.stable_not_aborted {t : Nat} (hs : c.stable t = true) : c.mgr.isAborted t = false := by
  obtain ⟨txn, ht, hcm, -⟩ := (h.stable_iff t).mp hs
  cases ha : c.mgr.isAborted t with
  | false => rfl
  | true =>
    obtain ⟨txn', ht', hab⟩ := (h.isAborted_iff t).mp ha
    rw [ht] at ht'
    rw [← Option.some.inj ht', hcm] at hab
    cases hab

/-- What is stable is seen by every active transaction. -/
theorem Inv.sees_of_stable {t u : Nat} {r : Transaction} (hr : c.active u = some r)
    (hs : c.stable t = true) : c.mgr.sees r t = true := by
  obtain ⟨txn, ht, hcm, hle⟩ := (h.stable_iff t).mp hs
  exact (h.sees_iff r t).mpr (Or.inr ⟨txn, ht, hcm, Nat.le_trans hle (h.oldest_le hr)⟩)

/-- What a stable transaction saw is stable. -/
theorem Inv.stable_of_sees {u : Transaction} (hu : c.handle u.txnId = some u) {t : Nat}
    (hs : c.stable u.txnId = true) (hut : c.mgr.sees u t = true) : c.stable t = true := by
  obtain ⟨u', hu', hcm, hle⟩ := (h.stable_iff _).mp hs
  rw [hu] at hu'
  obtain rfl := Option.some.inj hu'
  rcases (h.sees_iff u t).mp hut with rfl | ⟨txn, ht, htc, htle⟩
  · exact hs
  · have hsnap := (h.snap _ u hu).1
    have hcts := (h.commitTs _ u hu hcm).1
    exact (h.stable_iff t).mpr ⟨txn, ht, htc, by omega⟩

theorem Inv.active_handle {t : Nat} {r : Transaction} (hr : c.active t = some r) :
    r.txnId = t ∧ c.handle r.txnId = some r ∧ r.state = .active ∧ 0 < r.txnId := by
  obtain ⟨hh, hst⟩ := active_eq_some.mp hr
  obtain ⟨hid, hpos, -⟩ := h.id t r hh
  exact ⟨hid, by rw [hid]; exact hh, hst, by omega⟩

/-- An active transaction is seen by nobody else. -/
theorem Inv.sees_active {r u : Transaction} {t : Nat} (hu : c.active t = some u)
    (hs : c.mgr.sees r t = true) : t = r.txnId := by
  obtain ⟨hh, hst⟩ := active_eq_some.mp hu
  rcases (h.sees_iff r t).mp hs with heq | ⟨txn, ht, hcm, -⟩
  · exact heq
  · rw [hh] at ht
    rw [← Option.some.inj ht, hst] at hcm
    cases hcm

omit h in
theorem Sees_of_active {t u : Nat} {r : Transaction} (hr : c.active u = some r) :
    c.Sees u t ↔ c.mgr.sees r t = true := by
  obtain ⟨hh, -⟩ := active_eq_some.mp hr
  constructor
  · rintro ⟨r', hr', hs⟩
    rw [hh] at hr'
    rw [Option.some.inj hr']
    exact hs
  · exact fun hs => ⟨r, hh, hs⟩

theorem Inv.Sees_trans {r u t : Nat} (hru : c.Sees r u) (hut : c.Sees u t) : c.Sees r t := by
  obtain ⟨rtx, hr, hsr⟩ := hru
  obtain ⟨utx, hu, hsu⟩ := hut
  have hrid := (h.id r rtx hr).1
  have huid := (h.id u utx hu).1
  subst hrid
  subst huid
  exact ⟨rtx, hr, h.sees_trans hr hu hsr hsu⟩

theorem Inv.alive_of_active {t : Nat} {r : Transaction} (hr : c.active t = some r) : c.alive t = true := by
  obtain ⟨hid, hh, hst, -⟩ := h.active_handle hr
  rw [alive_iff, ← hid]
  exact h.sees_not_aborted hh (by rw [hst]; simp) ((h.sees_iff r _).mpr (Or.inl rfl))

theorem Inv.alive_of_stable {t : Nat} (hs : c.stable t = true) : c.alive t = true :=
  alive_iff.mpr (h.stable_not_aborted hs)

/-- What a transaction that is not aborted sees is not aborted. -/
theorem Inv.alive_of_Sees {u t : Nat} (hut : c.Sees u t) (hu : c.alive u = true) : c.alive t = true := by
  obtain ⟨utx, huh, hs⟩ := hut
  have hid := (h.id u utx huh).1
  subst hid
  rw [alive_iff] at hu ⊢
  refine h.sees_not_aborted huh (fun hab => ?_) hs
  rw [(h.isAborted_iff _).mpr ⟨utx, huh, hab⟩] at hu
  cases hu

theorem Inv.stable_of_Sees {u t : Nat} (hut : c.Sees u t) (hu : c.stable u = true) : c.stable t = true := by
  obtain ⟨utx, huh, hs⟩ := hut
  have hid := (h.id u utx huh).1
  subst hid
  exact h.stable_of_sees huh hu hs

end

/-! ## Later moments -/

theorem Later.refl (c : Clients) : c.Later c where
  handle := fun _ txn ht => ⟨txn, ht, rfl, fun _ => rfl⟩
  fresh := fun _ _ ht _ => Or.inl ht
  begun := fun _ _ ht hno => by rw [hno] at ht; cases ht
  oldest := Nat.le_refl _
  nextId := Nat.le_refl _
  last := Nat.le_refl _

theorem Later.trans {c c' c'' : Clients} (h : c.Later c') (h' : c'.Later c'') : c.Later c'' where
  handle := by
    intro t txn ht
    obtain ⟨txn1, ht1, hs1, hf1⟩ := h.handle t txn ht
    obtain ⟨txn2, ht2, hs2, hf2⟩ := h'.handle t txn1 ht1
    refine ⟨txn2, ht2, hs2.trans hs1, fun hne => ?_⟩
    rcases hne with hne | hact
    · have h1 := hf1 (Or.inl hne)
      rw [hf2 (Or.inl (by rw [h1]; exact hne)), h1]
    · have h2 := hf2 (Or.inr hact)
      rw [h2] at hact ⊢
      exact hf1 (Or.inr hact)
  fresh := by
    intro t txn2 ht2 hcm
    rcases h'.fresh t txn2 ht2 hcm with ht1 | hle
    · rcases h.fresh t txn2 ht1 hcm with ht | hle
      · exact Or.inl ht
      · exact Or.inr hle
    · exact Or.inr (Nat.le_trans h.nextId hle)
  begun := by
    intro t txn2 ht2 hno
    cases h1 : c'.handle t with
    | none => exact Nat.le_trans h.last (h'.begun t txn2 ht2 h1)
    | some txn1 =>
      obtain ⟨txn2', ht2', hs, -⟩ := h'.handle t txn1 h1
      rw [ht2] at ht2'
      obtain rfl := Option.some.inj ht2'
      rw [hs]
      exact h.begun t txn1 h1 hno
  oldest := Nat.le_trans h.oldest h'.oldest
  nextId := Nat.le_trans h.nextId h'.nextId
  last := Nat.le_trans h.last h'.last

section
variable {c c' : Clients} (h : c.Inv) (h' : c'.Inv) (hl : c.Later c')
include h h' hl

theorem Later.committedBy {t ts : Nat} (hc : (c.mgr.getStatus t).committedBy ts = true) :
    (c'.mgr.getStatus t).committedBy ts = true := by
  obtain ⟨txn, ht, hcm, hle⟩ := (h.committedBy_iff t ts).mp hc
  obtain ⟨txn', ht', -, hf⟩ := hl.handle t txn ht
  obtain rfl := hf (Or.inl (by rw [hcm]; simp))
  exact (h'.committedBy_iff t ts).mpr ⟨txn', ht', hcm, hle⟩

/-- No new transaction is committed by an old timestamp. -/
theorem Later.committedBy_old {t ts : Nat} (hts : ts ≤ c.mgr.lastCommitTs)
    (hc : (c'.mgr.getStatus t).committedBy ts = true) : (c.mgr.getStatus t).committedBy ts = true := by
  obtain ⟨txn, ht, hcm, hle⟩ := (h'.committedBy_iff t ts).mp hc
  have hlast := h.last
  rcases hl.fresh t txn ht hcm with ht | hge
  · exact (h.committedBy_iff t ts).mpr ⟨txn, ht, hcm, hle⟩
  · omega

theorem Later.isAborted {t : Nat} (ha : c.mgr.isAborted t = true) : c'.mgr.isAborted t = true := by
  obtain ⟨txn, ht, hab⟩ := (h.isAborted_iff t).mp ha
  obtain ⟨txn', ht', -, hf⟩ := hl.handle t txn ht
  obtain rfl := hf (Or.inl (by rw [hab]; simp))
  exact (h'.isAborted_iff t).mpr ⟨txn', ht', hab⟩

theorem Later.not_isAborted {t : Nat} (ha : c'.mgr.isAborted t = false) : c.mgr.isAborted t = false := by
  cases hc : c.mgr.isAborted t with
  | false => rfl
  | true => rw [hl.isAborted h h' hc] at ha; cases ha

theorem Later.sees {r r' : Transaction} (hid : r'.txnId = r.txnId) (hsn : r'.snapshotTs = r.snapshotTs)
    {t : Nat} (hs : c.mgr.sees r t = true) : c'.mgr.sees r' t = true := by
  unfold TransactionManager.sees at hs ⊢
  rw [Bool.or_eq_true] at hs ⊢
  rw [hid, hsn]
  exact hs.imp id fun hc => hl.committedBy h h' hc

/-- **What a snapshot sees is settled.**  No later commit comes below it. -/
theorem Later.sees_eq {r : Transaction} (hts : r.snapshotTs ≤ c.mgr.lastCommitTs) (t : Nat) :
    c'.mgr.sees r t = c.mgr.sees r t := by
  unfold TransactionManager.sees
  congr 1
  rw [Bool.eq_iff_iff]
  exact ⟨hl.committedBy_old h h' hts, hl.committedBy h h'⟩

theorem Later.stable {t : Nat} (hs : c.stable t = true) : c'.stable t = true := by
  obtain ⟨txn, ht, hcm, hle⟩ := (h.stable_iff t).mp hs
  obtain ⟨txn', ht', -, hf⟩ := hl.handle t txn ht
  obtain rfl := hf (Or.inl (by rw [hcm]; simp))
  exact (h'.stable_iff t).mpr ⟨txn', ht', hcm, Nat.le_trans hle hl.oldest⟩

theorem Later.alive {t : Nat} (ha : c'.alive t = true) : c.alive t = true := by
  rw [alive_iff] at ha ⊢
  exact hl.not_isAborted h h' ha

theorem Later.Sees {u t : Nat} (hs : c.Sees u t) : c'.Sees u t := by
  obtain ⟨utx, hu, hs⟩ := hs
  obtain ⟨utx', hu', hsn, -⟩ := hl.handle u utx hu
  exact ⟨utx', hu', hl.sees h h' ((h'.id u utx' hu').1.trans (h.id u utx hu).1.symm) hsn hs⟩

omit h h' in
/-- A later active handle was active before, or has begun since. -/
theorem Later.active {t : Nat} {r : Transaction} (hr : c'.active t = some r) :
    c.active t = some r ∨ (c.handle t = none ∧ c.mgr.lastCommitTs ≤ r.snapshotTs) := by
  obtain ⟨hh, hst⟩ := active_eq_some.mp hr
  cases ht : c.handle t with
  | none => exact Or.inr ⟨rfl, hl.begun t r hh ht⟩
  | some txn =>
    left
    obtain ⟨txn', ht', -, hf⟩ := hl.handle t txn ht
    rw [hh] at ht'
    obtain rfl := Option.some.inj ht'
    obtain rfl := hf (Or.inr hst)
    exact active_eq_some.mpr ⟨ht, hst⟩

end

end Clients

end CoreDB
