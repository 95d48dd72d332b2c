import CoreDB.Table.Quiescent

/-!
# What has been committed

A transaction that begins now sees what the committed transactions have written, and
nothing else.  `Tracked.scan` says so for the rows it scans; `Tracked.legal` says that
the committed writes to a row can be made one after the other, without those of the
transactions that are still active: whoever has written to a row sees all that was
written before, so the committed writes come first.

`issuedIds_step`: a table issues row ids in order.
-/

namespace CoreDB

open VersionChain (final)

/-- What a transaction that begins now would scan. -/
def Table.newReaderRows (t : Table) : Option (List Row) :=
  materializeVisibleRows t.txnMgr.begin.2 (t.snapshotForScan t.txnMgr.begin.1)

namespace World

def committed (w : World) (t : Nat) : Bool := (w.table.txnMgr.getStatus t).state == .committed

/-- The writes to row `x` of the transactions that have committed. -/
def committedHist (w : World) (x : Nat) : List (Nat × Write) := (w.row x).hist.filter fun p => w.committed p.1

/-- A world whose rows are in step with the writes made to the rows of `base`. -/
structure Tracked (base : List (Nat × Row)) (w : World) : Prop where
  inv : w.Inv
  log : LogOk w.clients w.log
  grounded : w.Grounded (Keyed.find base)
  readable : ∀ seg ∈ w.table.baseSegments, seg.Readable
  distinct : (Keyed.keys base).Nodup

theorem Start.tracked {w : World} (h : w.Start) : w.Tracked (basePairs w.table.baseSegments) where
  inv := h.inv
  log := by rw [h.log]; exact logOk_nil _
  grounded := h.grounded
  readable := h.readable
  distinct := by rw [keys_basePairs]; exact h.distinct

theorem Tracked.step {base : List (Nat × Row)} {w w' : World} {op : Op} (h : w.Tracked base)
    (hop : ∀ d, op ≠ .compact d) (hs : w.step op = some w') : w'.Tracked base where
  inv := inv_step h.inv (fun d hd => absurd hd (hop d)) hs
  log := logOk_step h.inv h.log hs
  grounded := by
    refine grounded_step h.inv (fun d hd => absurd hd (hop d)) h.grounded ?_ hs
    cases op with
    | compact d => exact absurd rfl (hop d)
    | _ => trivial
  readable := by
    rw [(step_cases h.inv.active_id hs).base_eq hop]
    exact h.readable
  distinct := h.distinct

theorem step_begin (w : World) : w.step (.txn .begin) = some w.begun := rfl

theorem Tracked.begun {base : List (Nat × Row)} {w : World} (h : w.Tracked base) : w.begun.Tracked base :=
  h.step (by simp) w.step_begin

section
variable {w : World} (h : w.Inv)
include h

theorem committed_iff {t : Nat} : w.committed t = true ↔
    ∃ txn, w.clients.handle t = some txn ∧ txn.state = .committed := by
  unfold committed
  rw [beq_iff_eq]
  cases ht : w.clients.handle t with
  | none => simp [show w.table.txnMgr.getStatus t = {} from h.clients.getStatus_of_none ht]
  | some txn => simp [show (w.table.txnMgr.getStatus t).state = txn.state from h.clients.state_of_handle ht]

/-- A new reader sees the committed transactions. -/
theorem newReader_sees {t : Nat} {txn : Transaction} (ht : w.clients.handle t = some txn) :
    w.begun.clients.mgr.sees w.newReader t = w.committed t := by
  obtain ⟨hinv, hlater, hact⟩ := h.begun
  have hne : t ≠ w.table.txnMgr.nextId := by
    rintro rfl
    have hnone : w.clients.handle w.table.txnMgr.nextId = none := h.clients.handle_nextId
    rw [hnone] at ht
    cases ht
  have hsame : w.begun.clients.handle t = w.clients.handle t := Function.update_of_ne hne _ _
  rw [Bool.eq_iff_iff, hinv.sees_iff, committed_iff h]
  constructor
  · rintro (heq | ⟨u, hu, hcm, -⟩)
    · exact absurd heq hne
    · exact ⟨u, hsame ▸ hu, hcm⟩
  · rintro ⟨u, hu, hcm⟩
    exact Or.inr ⟨u, hsame.trans hu, hcm, (h.clients.commitTs t u hu hcm).2⟩

end

theorem LogOk.handle_of_hist {w : World} (h : LogOk w.clients w.log) {x : Nat} {p : Nat × Write}
    (hp : p ∈ (w.row x).hist) : ∃ txn, w.clients.handle p.1 = some txn := by
  obtain ⟨txn, ht, -⟩ := h.writer _ _ _ (mem_filterMap_writeTo hp)
  exact ⟨txn, ht⟩

section
variable {base : List (Nat × Row)} {w : World} (h : w.Tracked base)
include h

theorem Tracked.filter_newReader (x : Nat) :
    ((w.begun.row x).liveHist w.begun.clients).filter (fun p => w.begun.clients.mgr.sees w.newReader p.1) =
      w.committedHist x := by
  have hrow : w.begun.row x = w.row x := row_withClients w _ .begin _ x
  rw [filter_sees_liveHist h.begun.inv h.inv.begun.2.2 x, hrow]
  apply List.filter_congr
  intro p hp
  obtain ⟨txn, ht⟩ := LogOk.handle_of_hist h.log hp
  exact newReader_sees h.inv ht

/-- **What a new reader scans** is what the committed writes have left. -/
theorem Tracked.scan {m : List (Nat × Row)} (hm : (Keyed.keys m).Nodup)
    (hfind : ∀ x, Keyed.find m x = final (Keyed.find base x) (values (w.committedHist x))) :
    ∃ rows, w.table.newReaderRows = some rows ∧ rows.Perm (m.map (·.2)) := by
  obtain ⟨rows, hrows, hperm⟩ := scan_siView h.begun.inv h.begun.log h.inv.begun.2.2 h.distinct h.begun.grounded
    h.begun.readable
  have hview : (siView base w.begun.log w.newReader).Perm m := by
    refine Keyed.perm_of_find_eq (Keyed.keys_applyAll_nodup _ h.distinct) hm fun x => ?_
    rw [find_siView h.begun.inv h.begun.log h.inv.begun.2.2, h.filter_newReader, hfind]
  refine ⟨rows.map (·.2), ?_, (hperm.trans hview).map _⟩
  have hscan : materializeKeyed w.table.txnMgr.begin.2 (w.table.snapshotForScan w.table.txnMgr.begin.1) = some rows :=
    hrows
  rw [Table.newReaderRows, materializeVisibleRows, hscan]
  rfl

/-- **The committed writes** to a row can be made one after the other. -/
theorem Tracked.legal (x : Nat) : Legal (Keyed.find base x) (w.committedHist x) := by
  have hc := h.inv.clients
  have halive : w.committedHist x = ((w.row x).liveHist w.clients).filter fun p => w.committed p.1 := by
    unfold committedHist RowState.liveHist
    rw [List.filter_filter]
    apply List.filter_congr
    intro p _
    cases hp : w.committed p.1 with
    | false => simp
    | true =>
      obtain ⟨txn, ht, hcm⟩ := (committed_iff h.inv).mp hp
      have hal := h.inv.alive_of_state ht (by rw [hcm]; simp)
      simp [hal]
  rw [halive]
  refine (h.grounded x).legal.of_prefix (Keyed.filter_prefix _ _ ((h.inv.rows x).seen.imp ?_))
  -- whoever is seen by a committed transaction has committed
  intro p q hsees hq
  obtain ⟨txn, ht, hcm⟩ := (committed_iff h.inv).mp hq
  obtain ⟨q', hq', hs⟩ := hsees
  rcases (hc.sees_iff q' p.1).mp hs with heq | ⟨u, hu, hucm, -⟩
  · rw [heq, (hc.id _ _ hq').1]
    exact hq
  · exact (committed_iff h.inv).mpr ⟨u, hu, hucm⟩

end

/-! ## A drained delta -/

section
variable {w w' : World} (h : w.Inv) (hq : w.Quiescent) (hc : Compacted w w') (h' : w'.Inv)
include h hq hc h'

/-- `Compact` with nobody active leaves no tombstone that a new reader sees. -/
theorem hidden_of_compacted (x : Nat) : (w'.row x).hidden w'.begun.clients.mgr w'.newReader = false := by
  obtain ⟨hci, hl, hr⟩ := h'.begun
  unfold RowState.hidden
  rw [List.any_eq_false]
  intro a ha hat
  rw [Bool.and_eq_true] at hat
  obtain ⟨hold, older, newer, -, hv⟩ := retained_of_mem hc (List.mem_of_mem_filter ha)
  have hne := ((h.recordOk hold).tombstone hat.1).2
  obtain ⟨u, hu, -⟩ := (h.recordOk hold).claim hne
  have hstable := (h.clients.sees_iff_stable hq hci (hc.later.trans hl) hr hu).mp hat.2
  exact hv.1 (died_iff.mpr ⟨hne, hstable⟩)

/-- **After it the base is what has been committed**, if nothing was stranded. -/
theorem base_of_drained {base : List (Nat × Row)} (ht : w'.Tracked base)
    (hstranded : ∀ a ∈ w.table.delta, w.stranded a = false) (x : Nat) :
    (w'.row x).base = (final (Keyed.find base x) (values (w'.committedHist x))).toList := by
  obtain ⟨hci, hl, hr⟩ := h'.begun
  have hdrained := (drained_iff h hq hc h' hc.sound).mpr hstranded
  have hrow : w'.begun.row x = w'.row x := row_withClients w' _ .begin _ x
  have hview := (ht.begun.grounded x).view_eq hci (ht.begun.inv.rows x) hr
  rw [ht.filter_newReader, hrow, RowState.view_of_not_visible, hidden_of_compacted h hq hc h'] at hview
  · exact hview
  · exact fun a ha hat => hdrained.delta a (List.mem_of_mem_filter ha) hat

end

end World

/-! ## Row ids -/

def Event.insertedId : Event → Option Nat
  | .write _ x (.insert _) => some x
  | _ => none

/-- The ids of inserted rows, in the order of the log. -/
def insertedIds (log : List Event) : List Nat := log.filterMap Event.insertedId

/-- The ids `ids` were issued in order, from `first` on, and the next one is `next`. -/
structure IssuedIds (first : Nat) (ids : List Nat) (next : Nat) : Prop where
  ordered : ids.Pairwise (· < ·)
  range : ∀ x ∈ ids, first ≤ x ∧ x < next
  le : first ≤ next

theorem issuedIds_nil {first next : Nat} (h : first ≤ next) : IssuedIds first [] next where
  ordered := List.Pairwise.nil
  range := by simp
  le := h

theorem IssuedIds.concat {first next x : Nat} {ids : List Nat} (h : IssuedIds first ids next) (hx : next ≤ x) :
    IssuedIds first (ids ++ [x]) (x + 1) where
  ordered := by
    rw [List.pairwise_append]
    refine ⟨h.ordered, List.pairwise_singleton _ _, fun a ha b hb => ?_⟩
    have := (h.range a ha).2
    rw [List.mem_singleton.mp hb]
    omega
  range := by
    intro y hy
    have hle := h.le
    rcases List.mem_append.mp hy with hy | hy
    · have := h.range y hy
      omega
    · rw [List.mem_singleton.mp hy]
      omega
  le := by
    have := h.le
    omega

namespace World

/-- **Ids are issued in order.** -/
theorem issuedIds_step {w w' : World} {op : Op} (h : w.Inv) (hsound : ∀ d, op = .compact d → w.table.Sound ∧ d = [])
    (hs : w.step op = some w') : ∃ es, w'.log = w.log ++ es ∧ ∀ first ids,
      IssuedIds first ids w.table.nextRowId → IssuedIds first (ids ++ insertedIds es) w'.table.nextRowId := by
  cases step_cases h.active_id hs with
  | txn top c hc =>
    refine ⟨[top.event w.table.txnMgr], rfl, fun first ids hids => ?_⟩
    have hnone : insertedIds [top.event w.table.txnMgr] = [] := by cases top <;> rfl
    rw [hnone, List.append_nil]
    exact hids
  | insert t x txn row _ hact hnew =>
    refine ⟨[.write t x (.insert row)], rfl, fun first ids hids => ?_⟩
    have hnext : (w.wrote (w.table.insertWithRowId txn x row) t x (.insert row)).table.nextRowId = x + 1 := by
      simp only [wrote, Table.insertWithRowId, Table.raise, if_pos hnew]
    rw [hnext]
    exact hids.concat hnew
  | write t x txn delta wr hop hcl =>
    refine ⟨[.write t x wr], rfl, fun first ids hids => ?_⟩
    have hnone : insertedIds [.write t x wr] = [] := by
      rcases hop with ⟨row, -, rfl⟩ | ⟨-, rfl⟩ <;> rfl
    rw [hnone, List.append_nil]
    exact hids
  | fail t x txn hop hact href => exact ⟨[], by simp, fun first ids hids => by simpa [insertedIds] using hids⟩
  | compact during w1 t hfits hran ht =>
    obtain ⟨hsd, rfl⟩ := hsound during rfl
    have hcomp := Step.compacted h hsd hfits hran ht
    obtain rfl := Option.some.inj hran
    refine ⟨[], by simp, fun first ids hids => ?_⟩
    rw [hcomp.nextRowId]
    simpa [insertedIds] using hids

end World

end CoreDB
