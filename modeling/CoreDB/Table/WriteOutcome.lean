import CoreDB.Table.CompactionSafety

/-!
# When `Update` and `Delete` succeed

The claim loop walks the records of a row and decides by what it meets.  `MayWrite`
says the same in terms of the log: the row is in the writer's snapshot-isolation view,
and nobody who is active, or committed after the writer's snapshot, has updated or
deleted it.  Transactions that aborted do not count.

`write_outcome`: without `Compact`, a write succeeds if and only if `MayWrite`; and a
write that fails leaves the table as it was.
-/

namespace CoreDB

open VersionChain (final)

namespace World

/-- Another transaction has updated or deleted `x` that is active, or committed after
the snapshot of `r`. -/
def InConflict (w : World) (r : Transaction) (x : Nat) : Prop :=
  ∃ u wr txn, u ≠ r.txnId ∧ Event.write u x wr ∈ w.log ∧ (∀ row, wr ≠ .insert row) ∧ w.handle u = some txn ∧
    (txn.state = .active ∨ (txn.state = .committed ∧ r.snapshotTs < txn.commitTs))

/-- `r` may update and delete `x`. -/
def MayWrite (w : World) (base : List (Nat × Row)) (r : Transaction) (x : Nat) : Prop :=
  x ∈ Keyed.keys (siView base w.log r) ∧ ¬ w.InConflict r x

/-! ## Base rows get a tombstone first -/

/-- A base row that has records has a tombstone among them. -/
def TombstoneFirst (w : World) : Prop :=
  ∀ x, (w.row x).base ≠ [] → (w.row x).records ≠ [] → ∃ a ∈ (w.row x).records, a.isBaseTombstone = true

theorem Start.tombstoneFirst {w : World} (h : w.Start) : w.TombstoneFirst := by
  intro x _ hrec
  rw [h.row_eq x] at hrec
  exact absurd rfl hrec

theorem TombstoneFirst.step {w w' : World} {op : Op} (h : w.TombstoneFirst) (hw : w.Inv)
    (hop : ∀ d, op ≠ .compact d) (hs : Step w op w') : w'.TombstoneFirst := by
  intro y
  cases hs with
  | txn top c hc =>
    rw [row_withClients]
    exact h y
  | insert t x txn row hop' hact hnew =>
    by_cases hxy : x = y
    · subst hxy
      rw [row_insert w txn t x row (hw.fresh x hnew)]
      intro hbase
      exact absurd rfl hbase
    · rw [row_insert_other w txn t x y row hxy]
      exact h y
  | write t x txn delta wr hop' hcl =>
    obtain ⟨hother, hcase⟩ := hcl.cases (hw.active_id t txn hcl.active)
    by_cases hxy : x = y
    · subst hxy
      rw [row_claimed]
      intro hbase _
      rcases hcase with ⟨old, it, new, hrec, -, hdelta⟩ | ⟨-, -, hdelta⟩
      · obtain ⟨a, ha, hat⟩ := h x hbase (by rw [hrec]; simp)
        rw [hrec] at ha
        have hmem : ∃ a' ∈ old ++ it.claimedBy t :: new, a'.isBaseTombstone = true := by
          rcases List.mem_append.mp ha with ha | ha
          · exact ⟨a, List.mem_append_left _ ha, hat⟩
          · rcases List.mem_cons.mp ha with rfl | ha
            · exact ⟨a.claimedBy t, by simp, hat⟩
            · exact ⟨a, by simp [ha], hat⟩
        obtain ⟨a', ha', hat'⟩ := hmem
        refine ⟨a', List.mem_append_left _ ?_, hat'⟩
        rw [hdelta]
        exact ha'
      · exact ⟨.tombstone x t, List.mem_append_left _ (by rw [hdelta]; simp), rfl⟩
    · rw [row_claimed_other w wr hxy (hother y hxy)]
      exact h y
  | fail t x txn hop' hact href => exact h y
  | compact during w1 t hfits hran ht => exact absurd rfl (hop during)

/-- A base row without a chain has no records. -/
theorem TombstoneFirst.no_records {w : World} (h : w.TombstoneFirst) (hw : w.Inv) {x : Nat}
    (hchain : (w.row x).chain w.clients = []) (hbase : (w.row x).base ≠ []) : (w.row x).records = [] := by
  apply Classical.byContradiction
  intro hrec
  obtain ⟨a, ha, hat⟩ := h x hbase hrec
  have hmem := RowState.mem_chain_of_tombstone hw.clients (hw.rows x) ha hat
  rw [hchain] at hmem
  cases hmem

end World

/-! ## A successful claim sees everything -/

theorem Legal.present_of_concat {b : Option Row} {h : List (Nat × Write)} {t : Nat}
    (hl : Legal b (h ++ [(t, .delete)])) : final b (values h) ≠ none := by
  obtain ⟨p, hp⟩ := hl
  rw [List.map_append, Runs.run_append_eq_some] at hp
  obtain ⟨q, hq, hnext⟩ := hp
  refine (present_iff hq).mp ?_
  cases q with
  | present => rfl
  | absent => cases hnext
  | gone => cases hnext

theorem run_absent {p : Phase} {l : List Write} (h : Runs.run Phase.next p l = some .absent) : l = [] ∧ p = .absent := by
  rcases List.eq_nil_or_concat l with rfl | ⟨l, wr, rfl⟩
  · exact ⟨rfl, Option.some.inj h⟩
  · rw [List.concat_eq_append, Runs.run_append_eq_some] at h
    obtain ⟨q, -, h⟩ := h
    obtain ⟨q', hnext, heq⟩ := Runs.run_cons_eq_some.mp h
    rw [Option.some.inj heq] at hnext
    cases q <;> cases wr <;> cases hnext

/-- An insert is the first write, of a row that is not in the base. -/
theorem Legal.insert_first {b : Option Row} {t : Nat} {row : Row} {l l' : List (Nat × Write)}
    (h : Legal b (l ++ (t, .insert row) :: l')) : l = [] ∧ b = none := by
  obtain ⟨p, hp⟩ := h
  rw [List.map_append, Runs.run_append_eq_some] at hp
  obtain ⟨q, hq, hp⟩ := hp
  obtain ⟨q', hnext, -⟩ := Runs.run_cons_eq_some.mp hp
  have habsent : q = .absent := by
    cases q with
    | absent => rfl
    | present => cases hnext
    | gone => cases hnext
  rw [habsent] at hq
  obtain ⟨hl, hb⟩ := run_absent hq
  refine ⟨List.map_eq_nil_iff.mp hl, ?_⟩
  cases b with
  | none => rfl
  | some row => cases hb

namespace World

section
variable {w : World} (hw : w.Inv) {t x : Nat} {r : Transaction}
include hw

theorem Claimed.sees_all {delta : DeltaLayer} (hcl : w.Claimed t x r delta) :
    ∀ p ∈ (w.row x).liveHist w.clients, w.clients.Sees t p.1 := by
  obtain ⟨-, hcase⟩ := hcl.cases (hw.active_id t r hcl.active)
  rcases hcase with ⟨old, it, new, hrec, hclaim, -⟩ | ⟨hrec, -, -⟩
  · have hchain := ((hw.rows x).chain_claim hw.clients hcl.active hrec hclaim).1
    exact (hw.rows x).seen_of_claim hw.clients hcl.active hchain hclaim
  · obtain ⟨P, hP, hstable⟩ := (hw.rows x).hist
    intro p hp
    have hmem : (p.1, p.2.value) ∈ values ((w.row x).liveHist w.clients) := List.mem_map.mpr ⟨p, hp, rfl⟩
    have hchain : (w.row x).chain w.clients = [] := by simp [RowState.chain, hrec]
    rw [hP, hchain, VersionChain.writes_nil, List.append_nil] at hmem
    exact (Clients.Sees_of_active hcl.active).mpr (hw.clients.sees_of_stable hcl.active (hstable _ hmem))

variable (hlog : LogOk w.clients w.log) (hr : w.clients.active t = some r)
include hlog hr

theorem mem_siView_iff (base : List (Nat × Row)) :
    x ∈ Keyed.keys (siView base w.log r) ↔ final (Keyed.find base x)
      (values (((w.row x).liveHist w.clients).filter fun p => w.clients.mgr.sees r p.1)) ≠ none := by
  rw [← find_siView hw hlog hr base x, ne_eq, Keyed.find_eq_none_iff, not_not]

omit hw hlog in
theorem filter_sees_all (hseen : ∀ p ∈ (w.row x).liveHist w.clients, w.clients.Sees t p.1) :
    ((w.row x).liveHist w.clients).filter (fun p => w.clients.mgr.sees r p.1) = (w.row x).liveHist w.clients :=
  List.filter_eq_self.mpr fun p hp => (Clients.Sees_of_active hr).mp (hseen p hp)

variable {base : List (Nat × Row)} (hg : w.Grounded (Keyed.find base))
include hg

/-- What succeeds may be written. -/
theorem Claimed.mayWrite {delta : DeltaLayer} (hcl : w.Claimed t x r delta) : w.MayWrite base r x := by
  have hseen := hcl.sees_all hw
  have hid := hw.active_id t r hr
  refine ⟨?_, ?_⟩
  · rw [mem_siView_iff hw hlog hr base, filter_sees_all hr hseen]
    exact (World.Claimed.legal hw hg hcl (by simp)).present_of_concat
  · rintro ⟨u, wr, txn, hne, hmem, -, hh, hstate⟩
    have halive : w.clients.alive u = true := hw.alive_of_state hh (by rcases hstate with hs | hs <;> simp [hs])
    have hlive : (u, wr) ∈ (w.row x).liveHist w.clients := List.mem_filter.mpr ⟨mem_row_hist hmem, halive⟩
    rcases (hw.clients.sees_iff r u).mp ((Clients.Sees_of_active hr).mp (hseen _ hlive)) with heq | ⟨txn', hh', hc, hle⟩
    · exact hne heq
    · have heq : txn = txn' := Option.some.inj (hh.symm.trans hh')
      subst heq
      rcases hstate with hs | ⟨-, hlt⟩
      · rw [hs] at hc
        cases hc
      · omega

omit hlog in
/-- Of a row that someone not seen has inserted, no write is seen. -/
theorem not_seen_of_insert {u : Nat} {row : Row} (hp : (u, Write.insert row) ∈ (w.row x).liveHist w.clients)
    (hs : w.clients.mgr.sees r u = false) : Keyed.find base x = none ∧
      ((w.row x).liveHist w.clients).filter (fun q => w.clients.mgr.sees r q.1) = [] := by
  obtain ⟨l, l', hsplit⟩ := List.append_of_mem hp
  have hlegal := (hg x).legal
  rw [hsplit] at hlegal
  obtain ⟨rfl, hnone⟩ := hlegal.insert_first
  have hlater : ∀ q ∈ l', w.clients.Sees q.1 u := by
    have hpair := (hw.rows x).seen
    rw [hsplit] at hpair
    exact (List.pairwise_cons.mp hpair).1
  refine ⟨hnone, ?_⟩
  rw [hsplit, List.filter_eq_nil_iff]
  intro q hq hqs
  rcases List.mem_cons.mp hq with rfl | hq
  · rw [hs] at hqs
    cases hqs
  · have htrans := hw.clients.Sees_trans ((Clients.Sees_of_active hr).mpr hqs) (hlater q hq)
    rw [Clients.Sees_of_active hr, hs] at htrans
    cases htrans

omit hg hr in
/-- A live write that is not seen is in conflict, unless it is the insert. -/
theorem inConflict_of_not_seen {p : Nat × Write} (hp : p ∈ (w.row x).liveHist w.clients)
    (hs : w.clients.mgr.sees r p.1 = false) (hins : ∀ row, p.2 ≠ .insert row) : w.InConflict r x := by
  obtain ⟨hhist, halive⟩ := List.mem_filter.mp hp
  have hmem : Event.write p.1 x p.2 ∈ w.log := mem_filterMap_writeTo hhist
  obtain ⟨txn, hh, -⟩ := hlog.writer _ _ _ hmem
  have hne : p.1 ≠ r.txnId := fun heq => by
    rw [(hw.clients.sees_iff r p.1).mpr (Or.inl heq)] at hs
    cases hs
  refine ⟨p.1, p.2, txn, hne, hmem, hins, hh, ?_⟩
  cases hst : txn.state with
  | active => exact Or.inl rfl
  | committed =>
    refine Or.inr ⟨rfl, ?_⟩
    apply Nat.lt_of_not_le
    intro hle
    rw [(hw.clients.sees_iff r p.1).mpr (Or.inr ⟨txn, hh, hst, hle⟩)] at hs
    cases hs
  | aborted =>
    rw [Clients.alive_iff, (hw.clients.isAborted_iff p.1).mpr ⟨txn, hh, hst⟩] at halive
    cases halive

/-- Of a row that may be written, all live writes are seen. -/
theorem MayWrite.sees_all (hmay : w.MayWrite base r x) :
    ∀ p ∈ (w.row x).liveHist w.clients, w.clients.Sees t p.1 := by
  obtain ⟨hview, hfree⟩ := hmay
  rw [mem_siView_iff hw hlog hr base] at hview
  rintro ⟨u, wr⟩ hp
  rw [Clients.Sees_of_active hr]
  cases hs : w.clients.mgr.sees r u with
  | true => rfl
  | false =>
    exfalso
    cases wr with
    | insert row =>
      obtain ⟨hnone, hnil⟩ := not_seen_of_insert hw hr hg hp hs
      rw [hnil, hnone] at hview
      exact hview rfl
    | update row => exact hfree (inConflict_of_not_seen hw hlog hp hs (by simp))
    | delete => exact hfree (inConflict_of_not_seen hw hlog hp hs (by simp))

/-- What may be written succeeds. -/
theorem MayWrite.claimed (hfirst : w.TombstoneFirst) (hmay : w.MayWrite base r x) : ∃ delta, w.Claimed t x r delta := by
  have hseen := hmay.sees_all hw hlog hr hg
  have hview := hmay.1
  rw [mem_siView_iff hw hlog hr base, filter_sees_all hr hseen] at hview
  obtain ⟨delta, hok⟩ := exists_claim w x r ((hg x).claim_possible hw.clients (hw.rows x) hr hseen
    (hfirst.no_records hw) hview)
  exact ⟨delta, hr, hok⟩

end

theorem Start.tombstoneFirst_run {w0 w : World} (h0 : w0.Start) {ops : List Op} (hops : ∀ d, Op.compact d ∉ ops)
    (hrun : Runs.run World.step w0 ops = some w) : w.TombstoneFirst := by
  refine (Runs.run_invariant (Q := fun _ op => ∀ d, op ≠ .compact d) (I := fun u => u.Inv ∧ u.TombstoneFirst) ?_
    ⟨h0.inv, h0.tombstoneFirst⟩ (Runs.along_of_forall w0 fun _ op hop d hd => hops d (by rw [← hd]; exact hop)) hrun).2
  rintro u op u' ⟨hi, hf⟩ hop hs
  exact ⟨inv_step hi (fun d hd => absurd hd (hop d)) hs, hf.step hi hop (step_cases hi.active_id hs)⟩

end World

/-- **When a write succeeds.**  After any interleaving of begins, inserts, updates,
deletes, commits and aborts that does not wrap the allocator of row ids, an active
transaction's update or delete of a row succeeds if and only if the row is in its view and
no other transaction that is active, or committed after its snapshot, has updated or
deleted it.  A write that fails leaves the table, and with it everybody's view, as it was. -/
theorem write_outcome (w0 w : World) (h0 : w0.Start) (ops : List Op) (hops : ∀ d, Op.compact d ∉ ops)
    (hrun : Runs.run World.step64 w0 ops = some w)
    (hwrap : Runs.Along World.step64 (fun w op => w.noWrap op = true) w0 ops) (t : Nat) (r : Transaction)
    (hr : w.clients.active t = some r) (x : Nat) :
    (∀ row, (w.table.update r x row).1 = true ↔ w.MayWrite (basePairs w0.table.baseSegments) r x) ∧
      ((w.table.delete r x).1 = true ↔ w.MayWrite (basePairs w0.table.baseSegments) r x) ∧
      (∀ row, (w.table.update r x row).1 = false → (w.table.update r x row).2 = w.table) ∧
      ((w.table.delete r x).1 = false → (w.table.delete r x).2 = w.table) := by
  have hrun := World.run64_eq hwrap hrun
  obtain ⟨hw, hlog, hg, -⟩ := h0.uncompacted hops hrun
  have hfirst := h0.tombstoneFirst_run hops hrun
  have hrefused : ∀ res, res ≠ .ok → w.table.delta.claimOrInsertBaseTombstone x r w.table.txnMgr
      (w.table.rowIdExistsInBase x) = (res, w.table.delta) →
      ¬ w.MayWrite (basePairs w0.table.baseSegments) r x := by
    intro res hres hno hmay
    obtain ⟨delta, -, hok⟩ := hmay.claimed hw hlog hr hg hfirst
    rw [hno] at hok
    exact hres (Prod.mk.inj hok).1
  refine ⟨fun row => ?_, ?_, fun row => ?_, ?_⟩
  · rcases World.update_cases w.table r x row with ⟨delta, hok, heq⟩ | ⟨res, hres, hno, heq⟩
    · rw [heq]
      exact iff_of_true rfl (World.Claimed.mayWrite hw hlog hr hg ⟨hr, hok⟩)
    · rw [heq]
      exact iff_of_false (by simp) (hrefused res hres hno)
  · rcases World.delete_cases w.table r x with ⟨delta, hok, heq⟩ | ⟨res, hres, hno, heq⟩
    · rw [heq]
      exact iff_of_true rfl (World.Claimed.mayWrite hw hlog hr hg ⟨hr, hok⟩)
    · rw [heq]
      exact iff_of_false (by simp) (hrefused res hres hno)
  · rcases World.update_cases w.table r x row with ⟨delta, -, heq⟩ | ⟨res, -, -, heq⟩
    · rw [heq]
      intro h
      cases h
    · rw [heq]
      exact fun _ => rfl
  · rcases World.delete_cases w.table r x with ⟨delta, -, heq⟩ | ⟨res, -, -, heq⟩
    · rw [heq]
      intro h
      cases h
    · rw [heq]
      exact fun _ => rfl

/-- Transaction 1 updates row 5 and aborts, then 2 updates it; 3 is active as well. -/
def reclaimRun : List Op :=
  [.txn .begin, .txn .begin, .update 1 5 [.int64 71#64], .txn (.abort 1), .txn .begin, .update 2 5 [.int64 72#64]]

theorem write_outcome_reclaimed :
    ∃ w r r', Runs.run World.step64 (World.load oneColumn [oneRowSegment]) reclaimRun = some w ∧
      w.clients.active 2 = some r ∧ w.clients.active 3 = some r' ∧ w.MayWrite [(5, [.int64 70#64])] r 5 ∧
      ¬ w.MayWrite [(5, [.int64 70#64])] r' 5 := by
  have hbase : basePairs (World.load oneColumn [oneRowSegment]).table.baseSegments = [(5, [.int64 70#64])] := by
    decide +kernel
  obtain ⟨w, hrun, hok⟩ := Runs.exists_of_any (o := Runs.run World.step64 (World.load oneColumn [oneRowSegment]) reclaimRun)
    (p := fun w => ((w.clients.active 2).any fun r => (w.table.delete r 5).1) &&
      ((w.clients.active 3).any fun r => !(w.table.delete r 5).1)) (by decide +kernel)
  obtain ⟨h2, h3⟩ := Bool.and_eq_true_iff.mp hok
  obtain ⟨r, hr, hdel⟩ := Runs.exists_of_any h2
  obtain ⟨r', hr', hdel'⟩ := Runs.exists_of_any h3
  have hops : ∀ d, Op.compact d ∉ reclaimRun := by simp [reclaimRun]
  have hwrap : Runs.Along World.step64 (fun w op => w.noWrap op = true) (World.load oneColumn [oneRowSegment]) reclaimRun :=
    Runs.along_of_check (q := World.noWrap) (fun _ _ h => h) (by decide +kernel)
  have hmay := (write_outcome _ w start_oneRow reclaimRun hops hrun hwrap 2 r hr 5).2.1
  have hmay' := (write_outcome _ w start_oneRow reclaimRun hops hrun hwrap 3 r' hr' 5).2.1
  rw [hbase] at hmay hmay'
  refine ⟨w, r, r', hrun, hr, hr', hmay.mp hdel, fun h => ?_⟩
  rw [hmay'.mpr h] at hdel'
  cases hdel'

/-- The third insert of transaction 1 is given row id 1, which is in the base. -/
def wrappedInserts : List Op :=
  [.txn .begin, .txn .begin, .insert 1 [.int64 7#64], .insert 1 [.int64 8#64], .insert 1 [.int64 9#64]]

/-- Row 1 is in the view of transaction 2 and nobody has updated or deleted it, and the update of
2 is refused. -/
theorem write_refused_after_wrap : ∃ w r, (World.load64 oneColumn [lastIdSegment]).Start ∧
    Runs.run World.step64 (World.load64 oneColumn [lastIdSegment]) wrappedInserts = some w ∧
      w.clients.active 2 = some r ∧
      w.MayWrite (basePairs (World.load64 oneColumn [lastIdSegment]).table.baseSegments) r 1 ∧
      (w.table.update r 1 [.int64 72#64]).1 = false := by
  have hcheck : ((Runs.run World.step64 (World.load64 oneColumn [lastIdSegment]) wrappedInserts).any fun w =>
      (w.clients.active 2).any fun r =>
        decide (1 ∈ Keyed.keys (siView (basePairs (World.load64 oneColumn [lastIdSegment]).table.baseSegments) w.log r)) &&
        (w.log == [.begin 1, .begin 2, .write 1 18446744073709551615 (.insert [.int64 7#64]),
          .write 1 0 (.insert [.int64 8#64]), .write 1 1 (.insert [.int64 9#64])]) &&
        !(w.table.update r 1 [.int64 72#64]).1) = true := by
    decide +kernel
  obtain ⟨w, hrun, hp⟩ := Runs.exists_of_any hcheck
  obtain ⟨r, hr, hp⟩ := Runs.exists_of_any hp
  simp only [Bool.and_eq_true, decide_eq_true_iff, beq_iff_eq, Bool.not_eq_true'] at hp
  obtain ⟨⟨hview, hlog⟩, hrefused⟩ := hp
  refine ⟨w, r, start_lastId, hrun, hr, ⟨hview, ?_⟩, hrefused⟩
  -- all writes are inserts
  rintro ⟨u, wr, txn, -, hmem, hins, -⟩
  rw [hlog] at hmem
  simp only [List.mem_cons, reduceCtorEq, Event.write.injEq, List.not_mem_nil, or_false, false_or] at hmem
  rcases hmem with ⟨-, -, rfl⟩ | ⟨-, -, rfl⟩ | ⟨-, -, rfl⟩ <;> exact hins _ rfl

end CoreDB
