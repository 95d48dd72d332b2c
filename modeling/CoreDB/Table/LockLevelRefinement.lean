import CoreDB.Table.LockLevel

/-!
# The table under its locks refines the atomic table

`Refines base s w`: the world `w` has the transactions, the base and the allocator of `s`,
and for each row the records of `s` followed by the version that a call in flight has still
to append.  There is at most one such call for a row, since whoever writes to a row is the
only active transaction that has.

`Refines.step`: one part of one call in `s` is none, one or several calls of `w`.
-/

namespace CoreDB

/-- The begin, commit or abort, if the call is one. -/
def Op.asTxn : Op → Option TxnOp
  | .txn op => some op
  | _ => none

/-- The begins, commits and aborts of a part of a call. -/
def TableMove.txnOps : TableMove → List TxnOp
  | .txn op => [op]
  | .update _ _ _ during => during.flatten
  | .delete _ _ during => during.flatten
  | .insert _ _ => []
  | .append _ => []

/-! ## Runs of the atomic table -/

namespace World

/-- The calls `ops` lead from `w` to `w'`; `txns` are their begins, commits and aborts, and
`answers` the others, with what they return. -/
structure SerialRun (w : World) (ops : List Op) (w' : World) (txns : List TxnOp) (answers : List (Op × Answer)) :
    Prop where
  run : Runs.run step w ops = some w'
  txns : ops.filterMap Op.asTxn = txns
  calls : ops.filter (fun op => op.asTxn.isNone) = answers.map (·.1)
  answers : w.answers ops = answers

theorem SerialRun.nil (w : World) : w.SerialRun [] w [] [] := ⟨rfl, rfl, rfl, rfl⟩

theorem SerialRun.append {w w' w'' : World} {ops ops' : List Op} {txns txns' : List TxnOp}
    {answers answers' : List (Op × Answer)} (h : w.SerialRun ops w' txns answers)
    (h' : w'.SerialRun ops' w'' txns' answers') :
    w.SerialRun (ops ++ ops') w'' (txns ++ txns') (answers ++ answers') where
  run := Runs.run_append_eq_some.mpr ⟨w', h.run, h'.run⟩
  txns := by rw [List.filterMap_append, h.txns, h'.txns]
  calls := by rw [List.filter_append, h.calls, h'.calls, List.map_append]
  answers := by rw [answers_append h.run, h.answers, h'.answers]

theorem SerialRun.ofTxns {w w' : World} {ops : List TxnOp} (h : Runs.run step w (ops.map .txn) = some w') :
    w.SerialRun (ops.map .txn) w' ops [] := by
  refine ⟨h, ?_, ?_, w.answers_txns ops⟩
  · rw [List.filterMap_map]
    exact List.filterMap_some
  · rw [List.map_nil, List.filter_eq_nil_iff]
    intro op hop
    obtain ⟨o, -, rfl⟩ := List.mem_map.mp hop
    simp [Op.asTxn]

theorem SerialRun.ofCall {w w' : World} {op : Op} {a : Answer} (hop : op.asTxn = none) (hs : w.step op = some w')
    (ha : w.answer op = [(op, a)]) : w.SerialRun [op] w' [] [(op, a)] := by
  refine ⟨Runs.run_cons_eq_some.mpr ⟨w', hs, rfl⟩, by simp [hop], by simp [hop], ?_⟩
  rw [World.answers, ha, hs]
  rfl

end World

namespace Clients

theorem run_later {c c' : Clients} {ops : List TxnOp} (h : c.Inv) (hr : Runs.run step c ops = some c') :
    c'.Inv ∧ c.Later c' := by
  refine Runs.run_invariant (Q := fun _ _ => True) (I := fun d => d.Inv ∧ c.Later d) ?_ ⟨h, Later.refl c⟩
    (Runs.along_of_forall c fun _ _ _ => trivial) hr
  rintro d op d' ⟨hd, hl⟩ - hs
  exact ⟨inv_step hd hs, hl.trans (later_step hd hs)⟩

/-- Whoever does not commit or abort stays active. -/
theorem active_step {c c' : Clients} {op : TxnOp} (h : c.Inv) (hs : c.step op = some c') {t : Nat} {txn : Transaction}
    (ht : c.active t = some txn) (hc : op ≠ .commit t) (ha : op ≠ .abort t) : c'.active t = some txn := by
  obtain ⟨hh, hst⟩ := active_eq_some.mp ht
  have hput : ∀ p : Transaction × TransactionManager, p.1.txnId ≠ t → (c.put p).active t = some txn :=
    fun p hne => active_eq_some.mpr ⟨(Function.update_of_ne (Ne.symm hne) _ _).trans hh, hst⟩
  rcases step_cases hs with ⟨-, rfl⟩ | ⟨u, utx, rfl, hu, rfl⟩ | ⟨u, utx, rfl, hu, rfl⟩
  · refine hput _ fun heq => ?_
    have hnone := h.handle_nextId
    rw [show c.mgr.nextId = t from heq, hh] at hnone
    cases hnone
  · refine hput _ fun heq => hc ?_
    rw [← heq]
    exact congrArg _ (h.active_id hu).symm
  · refine hput _ fun heq => ha ?_
    rw [← heq]
    exact congrArg _ (h.active_id hu).symm

theorem active_run {c c' : Clients} {ops : List TxnOp} (h : c.Inv) (hr : Runs.run step c ops = some c') {t : Nat}
    {txn : Transaction} (ht : c.active t = some txn) (hops : ∀ op ∈ ops, op ≠ .commit t ∧ op ≠ .abort t) :
    c'.active t = some txn := by
  refine (Runs.run_invariant (Q := fun _ op => op ≠ .commit t ∧ op ≠ .abort t)
    (I := fun d => d.Inv ∧ d.active t = some txn) ?_ ⟨h, ht⟩ (Runs.along_of_forall c fun _ op hop => hops op hop) hr).2
  rintro d op d' ⟨hd, hact⟩ ⟨hc, ha⟩ hs
  exact ⟨inv_step hd hs, active_step hd hs hact hc ha⟩

end Clients

namespace TableThreads

theorem readings {s : TableThreads} (hinv : s.clients.Inv) {c : Clients} {during : List (List TxnOp)}
    (hr : Runs.run Clients.step s.clients during.flatten = some c) :
    Readings s.clients (s.observed during) (Runs.momentAt Clients.step s.clients during) := by
  have hat := fun k => Clients.run_later hinv (Runs.run_momentAt hr k).1
  refine ⟨fun k => ?_, fun k => (hat k).1, fun k => (hat k).2, fun k => ?_⟩
  · unfold observed
    rw [(Runs.run_momentAt hr k).1]
  · obtain ⟨ops, hops⟩ := Runs.run_momentAt_succ hr k
    exact (Clients.run_later (hat k).1 hops).2

/-- The version of row `x` that the call of a transaction has still to append. -/
def versionOf (x : Nat) (p : Nat × TableCall) : Option DeltaRecord :=
  if p.2.rowId = x then some (.version x p.1 p.2.row) else none

/-- The versions of row `x` that calls in flight have still to append. -/
def pending (s : TableThreads) (x : Nat) : List DeltaRecord := s.calls.filterMap (versionOf x)

/-- The call of transaction `t` has taken effect in `w`: its row has been written, and has a
record in the delta or none in the base. -/
structure InFlight (s : TableThreads) (w : World) (t : Nat) (call : TableCall) : Prop where
  active : ∃ txn, s.clients.active t = some txn
  written : ∃ wr, Event.write t call.rowId wr ∈ w.log
  quiet : (s.table.delta.filter fun a => a.rowId == call.rowId) ≠ [] ∨ s.table.rowIdExistsInBase call.rowId = false

structure Refines (base : List (Nat × Row)) (s : TableThreads) (w : World) : Prop where
  tracked : w.Tracked base
  clients : w.clients = s.clients
  segments : w.table.baseSegments = s.table.baseSegments
  next : w.table.nextRowId = s.table.nextRowId
  rows : ∀ x, (w.table.delta.filter fun a => a.rowId == x) =
    (s.table.delta.filter fun a => a.rowId == x) ++ s.pending x
  keys : (Keyed.keys s.calls).Nodup
  alone : ∀ x, (s.pending x).length ≤ 1
  calls : ∀ t call, Keyed.find s.calls t = some call → s.InFlight w t call

theorem caller_eq_some {s : TableThreads} {t : Nat} {txn : Transaction} :
    s.caller t = some txn ↔ Keyed.find s.calls t = none ∧ s.clients.active t = some txn := by
  unfold caller
  split
  · next hnone => simp [hnone]
  · next call hsome => simp [hsome]

theorem mem_pending {s : TableThreads} {x : Nat} {a : DeltaRecord} (ha : a ∈ s.pending x)
    (hkeys : (Keyed.keys s.calls).Nodup) :
    ∃ u call, Keyed.find s.calls u = some call ∧ call.rowId = x ∧ a = .version x u call.row := by
  obtain ⟨⟨u, call⟩, hmem, hv⟩ := List.mem_filterMap.mp ha
  refine ⟨u, call, Keyed.find_of_mem hkeys hmem, ?_⟩
  unfold versionOf at hv
  split at hv
  · next hx =>
    cases hv
    exact ⟨hx, rfl⟩
  · cases hv

theorem pending_put {calls : List (Nat × TableCall)} {t : Nat} (hcall : Keyed.find calls t = none) (x : Nat) (row : Row)
    (y : Nat) : (Keyed.put calls t { rowId := x, row }).filterMap (versionOf y) =
      calls.filterMap (versionOf y) ++ [DeltaRecord.version x t row].filter fun a => a.rowId == y := by
  rw [Keyed.filterMap_put _ hcall]
  by_cases hxy : x = y <;> simp [versionOf, DeltaRecord.version, hxy]

theorem find_put_calls {calls : List (Nat × TableCall)} {t u : Nat} {new call : TableCall}
    (hu : Keyed.find (Keyed.put calls t new) u = some call) :
    Keyed.find calls u = some call ∨ (u = t ∧ call = new) := by
  rw [Keyed.find_put] at hu
  split at hu
  · next heq => exact Or.inr ⟨heq, (Option.some.inj hu).symm⟩
  · exact Or.inl hu

section
variable {base : List (Nat × Row)} {s : TableThreads} {w : World} (h : s.Refines base w)
include h

theorem Refines.inv : s.clients.Inv := by
  rw [← h.clients]
  exact h.tracked.inv.clients

theorem Refines.inBase_eq (x : Nat) : w.table.rowIdExistsInBase x = s.table.rowIdExistsInBase x := by
  unfold Table.rowIdExistsInBase
  rw [h.segments]

/-! ## Begin, commit and abort -/

theorem Refines.txn {op : TxnOp} {c : Clients} (hallows : s.allows op = true) (hs : s.clients.step op = some c) :
    ∃ w', w.step (.txn op) = some w' ∧ (s.withClients c).Refines base w' := by
  have hstep : w.step (.txn op) = some (w.withClients c (op.event w.table.txnMgr)) := by
    show (w.clients.step op).map _ = _
    rw [h.clients, hs]
    rfl
  refine ⟨_, hstep, h.tracked.step (by simp) hstep, rfl, h.segments, h.next, h.rows, h.keys, h.alone,
    fun t call hcall => ?_⟩
  obtain ⟨⟨txn, hact⟩, ⟨wr, hwr⟩, hquiet⟩ := h.calls t call hcall
  refine ⟨⟨txn, ?_⟩, ⟨wr, List.mem_append_left _ hwr⟩, hquiet⟩
  have hcall : Keyed.find s.calls t = some call := hcall
  refine Clients.active_step h.inv hs hact ?_ ?_
  · rintro rfl
    simp [allows, hcall] at hallows
  · rintro rfl
    simp [allows, hcall] at hallows

end

/-- Any number of them. -/
theorem Refines.txns {base : List (Nat × Row)} : ∀ {ops : List TxnOp} {s : TableThreads} {w : World} {c : Clients},
    s.Refines base w → (∀ op ∈ ops, s.allows op = true) → Runs.run Clients.step s.clients ops = some c →
    ∃ w', Runs.run World.step w (ops.map .txn) = some w' ∧ (s.withClients c).Refines base w'
  | [], s, w, c, h, _, hr => by
    cases hr
    exact ⟨w, rfl, h⟩
  | op :: ops, s, w, c, h, hallows, hr => by
    obtain ⟨c1, hs, hrest⟩ := Runs.run_cons_eq_some.mp hr
    obtain ⟨w1, hw1, h1⟩ := h.txn (hallows op List.mem_cons_self) hs
    obtain ⟨w', hw', h'⟩ := Refines.txns (s := s.withClients c1) h1
      (fun o ho => hallows o (List.mem_cons_of_mem _ ho)) hrest
    exact ⟨w', Runs.run_cons_eq_some.mpr ⟨w1, hw1, hw'⟩, h'⟩

/-! ## Claims -/

theorem claim_ok_rows {records delta : DeltaLayer} {x : Nat} {w : Transaction} {m : TransactionManager} {inBase : Bool}
    (hok : records.claimOrInsertBaseTombstone x w m inBase = (.ok, delta)) {y : Nat}
    (hy : y = x ∨ (records.filter fun a => a.rowId == y) ≠ []) : (delta.filter fun a => a.rowId == y) ≠ [] := by
  by_cases hyx : y = x
  · subst hyx
    rcases claim_cases records y w m inBase with ⟨old, it, new, -, hit, -, -, hr⟩ | ⟨-, -, hr⟩ | ⟨-, res, hres, hr⟩
    · rw [hok] at hr
      simp [(Prod.mk.inj hr).2, List.filter_append, DeltaRecord.claimedBy, hit]
    · rw [hok] at hr
      simp [(Prod.mk.inj hr).2, List.filter_append, DeltaRecord.tombstone]
    · rw [hok] at hr
      exact absurd (Prod.mk.inj hr).1.symm hres
  · have hothers := (claim_row x w m records inBase).2.2 y hyx
    rw [hok] at hothers
    rw [hothers]
    exact hy.resolve_left hyx

theorem claim_refused {records delta : DeltaLayer} {x : Nat} {w : Transaction} {m : TransactionManager} {inBase : Bool}
    {res : WriteResult} (hres : res ≠ .ok) (hc : records.claimOrInsertBaseTombstone x w m inBase = (res, delta)) :
    delta = records := by
  rcases claim_cases records x w m inBase with ⟨old, it, new, -, -, -, -, hr⟩ | ⟨-, -, hr⟩ | ⟨-, res', -, hr⟩
  · rw [hc] at hr
    exact absurd (Prod.mk.inj hr).1 hres
  · rw [hc] at hr
    exact absurd (Prod.mk.inj hr).1 hres
  · rw [hc] at hr
    exact (Prod.mk.inj hr).2

section
variable {base : List (Nat × Row)} {s : TableThreads} {w : World} (h : s.Refines base w)
include h

/-- A version that a call in flight has still to append is visible to nobody else. -/
theorem Refines.not_visible {t x u : Nat} {txn : Transaction} {call : TableCall} (hcall : Keyed.find s.calls t = none)
    (hact : s.clients.active t = some txn) (hu : Keyed.find s.calls u = some call) :
    isVisible (.version x u call.row) txn s.table.txnMgr = false := by
  obtain ⟨utx, hutx⟩ := (h.calls u call hu).active
  obtain ⟨hid, -, -, hpos⟩ := h.inv.active_handle hutx
  have hsees : s.table.txnMgr.sees txn u = false := by
    rw [Bool.eq_false_iff]
    intro hs
    rw [h.inv.sees_active hutx hs, h.inv.active_id hact, hcall] at hu
    cases hu
  rw [isVisible_eq]
  simp [DeltaRecord.version, hsees]
  omega

theorem Refines.skips {t x : Nat} {txn : Transaction} (hcall : Keyed.find s.calls t = none)
    (hact : s.clients.active t = some txn) {a : DeltaRecord} (ha : a ∈ s.pending x) :
    claimStep a txn s.table.txnMgr = .skip := by
  obtain ⟨u, call, hu, -, rfl⟩ := mem_pending ha h.keys
  have hfree : (DeltaRecord.version x u call.row).deletedTxn = 0 := rfl
  simp [claimStep, claimIfVisible, h.not_visible hcall hact hu, hfree]

/-- **A claim** does the same in both. -/
theorem Refines.claim_eq {t : Nat} {txn : Transaction} (hcall : Keyed.find s.calls t = none)
    (hact : s.clients.active t = some txn) (x : Nat) {res : WriteResult} {delta : DeltaLayer}
    (hc : s.table.delta.claimOrInsertBaseTombstone x txn s.table.txnMgr (s.table.rowIdExistsInBase x) = (res, delta)) :
    ∃ delta', w.table.delta.claimOrInsertBaseTombstone x txn w.table.txnMgr (w.table.rowIdExistsInBase x) =
        (res, delta') ∧
      ∀ y, (delta'.filter fun a => a.rowId == y) = (delta.filter fun a => a.rowId == y) ++ s.pending y := by
  have hmgr : w.table.txnMgr = s.table.txnMgr := congrArg Clients.mgr h.clients
  have hquiet : s.pending x ≠ [] →
      (s.table.delta.filter fun a => a.rowId == x) ≠ [] ∨ s.table.rowIdExistsInBase x = false := by
    intro hne
    obtain ⟨a, ha⟩ := List.exists_mem_of_ne_nil _ hne
    obtain ⟨u, call, hu, rfl, -⟩ := mem_pending ha h.keys
    exact (h.calls u call hu).quiet
  obtain ⟨hres, hrow⟩ := claim_pending x txn s.table.txnMgr (h.rows x) (fun a ha => h.skips hcall hact ha) hquiet
  rw [hmgr, h.inBase_eq]
  rw [hc] at hres hrow
  refine ⟨(w.table.delta.claimOrInsertBaseTombstone x txn s.table.txnMgr (s.table.rowIdExistsInBase x)).2,
    Prod.ext hres rfl, fun y => ?_⟩
  by_cases hy : y = x
  · subst hy
    exact hrow
  · have hw := (claim_row x txn s.table.txnMgr w.table.delta (s.table.rowIdExistsInBase x)).2.2 y hy
    have hs := (claim_row x txn s.table.txnMgr s.table.delta (s.table.rowIdExistsInBase x)).2.2 y hy
    rw [hc] at hs
    rw [hw, hs]
    exact h.rows y

/-- The world in which a claim has succeeded and left a version, or none. -/
theorem Refines.claimed {t : Nat} {txn : Transaction} (hact : s.clients.active t = some txn) {x : Nat} {op : Op}
    {wr : Write} {delta delta' : DeltaLayer} {calls : List (Nat × TableCall)}
    (hstep : w.step op = some (w.claimed delta' t x wr)) (hop : ∀ d, op ≠ .compact d)
    (hok : s.table.delta.claimOrInsertBaseTombstone x txn s.table.txnMgr (s.table.rowIdExistsInBase x) = (.ok, delta))
    (hrows : ∀ y, (delta'.filter fun a => a.rowId == y) = (delta.filter fun a => a.rowId == y) ++ s.pending y)
    (hkeys : (Keyed.keys calls).Nodup)
    (hpending : ∀ y, calls.filterMap (versionOf y) = s.pending y ++ (wr.versions x t).filter fun a => a.rowId == y)
    (halone : ∀ y, (calls.filterMap (versionOf y)).length ≤ 1)
    (hcalls : ∀ u call, Keyed.find calls u = some call → Keyed.find s.calls u = some call ∨ (u = t ∧ call.rowId = x)) :
    ({ s with table := { s.table with delta }, calls } : TableThreads).Refines base (w.claimed delta' t x wr) := by
  refine ⟨h.tracked.step hop hstep, h.clients, h.segments, h.next, fun y => ?_, hkeys, halone, fun u call hcall => ?_⟩
  · show ((delta' ++ wr.versions x t).filter fun a => a.rowId == y) = (delta.filter fun a => a.rowId == y) ++
      calls.filterMap (versionOf y)
    rw [hpending, List.filter_append, hrows, List.append_assoc]
  · rcases hcalls u call hcall with hold | ⟨rfl, rfl⟩
    · obtain ⟨hutx, ⟨wu, hwu⟩, hquiet⟩ := h.calls u call hold
      refine ⟨hutx, ⟨wu, List.mem_append_left _ hwu⟩, hquiet.imp_left fun hne => ?_⟩
      exact claim_ok_rows hok (Or.inr hne)
    · refine ⟨⟨txn, hact⟩, ⟨wr, List.mem_append_right _ (List.mem_singleton.mpr rfl)⟩, Or.inl ?_⟩
      exact claim_ok_rows hok (Or.inl rfl)

/-- Whoever writes to a row finds no version of it that is still to be appended. -/
theorem Refines.pending_nil {t x : Nat} {txn : Transaction} (hcall : Keyed.find s.calls t = none)
    (hact : s.clients.active t = some txn) {w' : World} {wr : Write} (hinv : w'.Inv) (hclients : w'.clients = w.clients)
    (hlog : w'.log = w.log ++ [.write t x wr]) : s.pending x = [] := by
  rw [List.eq_nil_iff_forall_not_mem]
  intro a ha
  obtain ⟨u, call, hu, rfl, -⟩ := mem_pending ha h.keys
  obtain ⟨⟨utx, hutx⟩, ⟨wu, hwu⟩, -⟩ := h.calls u call hu
  rw [← h.clients] at hact hutx
  rw [hinv.only_writer hclients hlog hact hutx hwu, hcall] at hu
  cases hu

theorem Refines.alone_put {t x : Nat} (hcall : Keyed.find s.calls t = none) (hnil : s.pending x = []) (row : Row)
    (y : Nat) : ((Keyed.put s.calls t { rowId := x, row }).filterMap (versionOf y)).length ≤ 1 := by
  rw [pending_put hcall]
  by_cases hxy : x = y
  · subst hxy
    rw [show s.calls.filterMap (versionOf x) = [] from hnil]
    simp [DeltaRecord.version]
  · have hold := h.alone y
    unfold pending at hold
    simpa [DeltaRecord.version, hxy] using hold

/-- **A claim of `Update`.** -/
theorem Refines.update {t : Nat} {txn : Transaction} (hcall : Keyed.find s.calls t = none)
    (hact : s.clients.active t = some txn) (x : Nat) (row : Row) {res : WriteResult} {delta : DeltaLayer}
    (hc : s.table.delta.claimOrInsertBaseTombstone x txn s.table.txnMgr (s.table.rowIdExistsInBase x) = (res, delta)) :
    ∃ w', w.SerialRun [.update t x row] w' [] [(.update t x row, .wrote (res == .ok))] ∧
      ({ s with
        table := { s.table with delta }
        calls := if res = .ok then Keyed.put s.calls t { rowId := x, row } else s.calls } : TableThreads).Refines
          base w' := by
  obtain ⟨delta', hc', hrows⟩ := h.claim_eq hcall hact x hc
  have hactw : w.clients.active t = some txn := by rw [h.clients]; exact hact
  have hid := h.tracked.inv.active_id t txn hactw
  by_cases hok : res = .ok
  · subst hok
    have hup : w.table.update txn x row = (true, { w.table with delta := delta' ++ [.version x t row] }) := by
      simp [Table.update, hc', DeltaLayer.insert, hid, DeltaRecord.version]
    have hstep : w.step (.update t x row) = some (w.claimed delta' t x (.update row)) := by
      simp [World.step, hactw, hup, World.claimed, Write.versions, Write.value]
    refine ⟨_, World.SerialRun.ofCall rfl hstep (by simp [World.answer, hactw, hup]), ?_⟩
    rw [if_pos rfl]
    have hnil := h.pending_nil hcall hact (h.tracked.step (by simp) hstep).inv rfl rfl
    refine h.claimed hact hstep (by simp) hc hrows (Keyed.keys_put_nodup _ _ h.keys)
      (pending_put hcall x row) (h.alone_put hcall hnil row) (fun u call hu => ?_)
    rcases find_put_calls hu with hold | ⟨rfl, rfl⟩
    · exact Or.inl hold
    · exact Or.inr ⟨rfl, rfl⟩
  · obtain ⟨hdelta, hdelta'⟩ : delta = s.table.delta ∧ delta' = w.table.delta :=
      ⟨claim_refused hok hc, claim_refused hok hc'⟩
    subst hdelta hdelta'
    have hup : w.table.update txn x row = (false, w.table) := by
      simp [Table.update, hc', hok]
    have hstep : w.step (.update t x row) = some w := by
      simp [World.step, hactw, hup]
    refine ⟨w, World.SerialRun.ofCall rfl hstep (by simp [World.answer, hactw, hup, hok]), ?_⟩
    rw [if_neg hok]
    exact h

/-- **A claim of `Delete`.** -/
theorem Refines.delete {t : Nat} {txn : Transaction} (hcall : Keyed.find s.calls t = none)
    (hact : s.clients.active t = some txn) (x : Nat) {res : WriteResult} {delta : DeltaLayer}
    (hc : s.table.delta.claimOrInsertBaseTombstone x txn s.table.txnMgr (s.table.rowIdExistsInBase x) = (res, delta)) :
    ∃ w', w.SerialRun [.delete t x] w' [] [(.delete t x, .wrote (res == .ok))] ∧
      ({ s with table := { s.table with delta } } : TableThreads).Refines base w' := by
  obtain ⟨delta', hc', hrows⟩ := h.claim_eq hcall hact x hc
  have hactw : w.clients.active t = some txn := by rw [h.clients]; exact hact
  by_cases hok : res = .ok
  · subst hok
    have hdel : w.table.delete txn x = (true, { w.table with delta := delta' }) := by
      simp [Table.delete, hc']
    have hstep : w.step (.delete t x) = some (w.claimed delta' t x .delete) := by
      simp [World.step, hactw, hdel, World.claimed, Write.versions, Write.value]
    refine ⟨_, World.SerialRun.ofCall rfl hstep (by simp [World.answer, hactw, hdel]), ?_⟩
    refine h.claimed hact hstep (by simp) hc hrows h.keys (fun y => ?_) h.alone (fun u call hu => Or.inl hu)
    simp [pending, Write.versions, Write.value]
  · obtain ⟨hdelta, hdelta'⟩ : delta = s.table.delta ∧ delta' = w.table.delta :=
      ⟨claim_refused hok hc, claim_refused hok hc'⟩
    subst hdelta hdelta'
    have hdel : w.table.delete txn x = (false, w.table) := by
      simp [Table.delete, hc', hok]
    have hstep : w.step (.delete t x) = some w := by
      simp [World.step, hactw, hdel]
    exact ⟨w, World.SerialRun.ofCall rfl hstep (by simp [World.answer, hactw, hdel, hok]), h⟩

/-! ## Inserts and appends -/

theorem Refines.insert {t : Nat} {txn : Transaction} (hcall : Keyed.find s.calls t = none)
    (hact : s.clients.active t = some txn) (row : Row) :
    ∃ w', w.SerialRun [.insert t row] w' [] [(.insert t row, .rowId s.table.nextRowId)] ∧
      ({ s with
        table := { s.table with nextRowId := s.table.nextRowId + 1 }
        calls := Keyed.put s.calls t { rowId := s.table.nextRowId, row } } : TableThreads).Refines base w' := by
  have hactw : w.clients.active t = some txn := by rw [h.clients]; exact hact
  have hid := h.tracked.inv.active_id t txn hactw
  have hstep : w.step (.insert t row) =
      some (w.wrote (w.table.insert txn row).2 t (w.table.insert txn row).1 (.insert row)) := by
    simp [World.step, hactw]
  have hfresh := h.tracked.inv.fresh w.table.nextRowId (Nat.le_refl _)
  have hnone : (w.table.delta.filter fun a => a.rowId == w.table.nextRowId) = [] := congrArg RowState.records hfresh
  have hnil : s.pending s.table.nextRowId = [] := by
    have := h.rows s.table.nextRowId
    rw [← h.next, hnone, h.next] at this
    exact (List.append_eq_nil_iff.mp this.symm).2
  refine ⟨_, World.SerialRun.ofCall rfl hstep (by simp [World.answer, hactw, Table.insert, h.next]),
    h.tracked.step (by simp) hstep, h.clients, h.segments, congrArg (· + 1) h.next, fun y => ?_,
    Keyed.keys_put_nodup _ _ h.keys, h.alone_put hcall hnil row, fun u call hu => ?_⟩
  · show ((w.table.delta ++ [DeltaRecord.version w.table.nextRowId txn.txnId row]).filter fun a => a.rowId == y) =
      (s.table.delta.filter fun a => a.rowId == y) ++ (Keyed.put s.calls t _).filterMap (versionOf y)
    rw [pending_put hcall, List.filter_append, h.rows, h.next, hid, List.append_assoc]
    rfl
  · rcases find_put_calls hu with hold | ⟨rfl, rfl⟩
    · obtain ⟨hutx, ⟨wu, hwu⟩, hquiet⟩ := h.calls u call hold
      exact ⟨hutx, ⟨wu, List.mem_append_left _ hwu⟩, hquiet⟩
    · refine ⟨⟨txn, hact⟩, ⟨.insert row, ?_⟩, Or.inr ?_⟩
      · rw [← h.next]
        exact List.mem_append_right _ (List.mem_singleton.mpr rfl)
      · rw [Bool.eq_false_iff]
        intro hin
        have hin : w.table.rowIdExistsInBase w.table.nextRowId = true := by
          rw [h.inBase_eq, h.next]
          exact hin
        exact (Table.rowIdExistsInBase_iff _ _).mp hin (congrArg RowState.base hfresh)

/-- The version is appended; in the atomic table it is there already. -/
theorem Refines.append {t : Nat} {call : TableCall} (hcall : Keyed.find s.calls t = some call) :
    ({ s with
      table := { s.table with delta := s.table.delta.insert call.rowId t call.row }
      calls := Keyed.erase s.calls t } : TableThreads).Refines base w := by
  refine ⟨h.tracked, h.clients, h.segments, h.next, fun y => ?_, Keyed.keys_filter_nodup _ h.keys, fun y => ?_,
    fun u c hu => ?_⟩
  · show (w.table.delta.filter fun a => a.rowId == y) =
      ((s.table.delta ++ [DeltaRecord.version call.rowId t call.row]).filter fun a => a.rowId == y) ++
        (Keyed.erase s.calls t).filterMap (versionOf y)
    rw [h.rows, List.filter_append, List.append_assoc]
    congr 1
    by_cases hy : call.rowId = y
    · obtain ⟨hone, hnil⟩ := Keyed.filterMap_erase_of_some (versionOf y) hcall (if_pos hy) (h.alone y)
      rw [hnil, pending, hone]
      simp [DeltaRecord.version, hy]
    · rw [Keyed.filterMap_erase_of_none (versionOf y) h.keys hcall (if_neg hy)]
      simp [DeltaRecord.version, hy, pending]
  · refine Nat.le_trans ?_ (h.alone y)
    exact (List.Sublist.filterMap _ List.filter_sublist).length_le
  · have hold : Keyed.find s.calls u = some c := by
      rw [Keyed.find_erase] at hu
      split at hu
      · cases hu
      · exact hu
    obtain ⟨hutx, hwu, hquiet⟩ := h.calls u c hold
    refine ⟨hutx, hwu, hquiet.imp_left fun hne hnil => hne ?_⟩
    have hnil : ((s.table.delta ++ [DeltaRecord.version call.rowId t call.row]).filter fun a => a.rowId == c.rowId) = [] := hnil
    rw [List.filter_append, List.append_eq_nil_iff] at hnil
    exact hnil.1

/-! ## Claims with racing reads -/

/-- The claim with its reads is the claim at one moment: the calls before it and after it
are those of `during`. -/
theorem Refines.claim_moment {t x : Nat} {txn : Transaction} (hact : s.clients.active t = some txn)
    {during : List (List TxnOp)} {res : WriteResult} {delta : DeltaLayer} {c : Clients}
    (hc : s.claim txn x during = some (res, delta, c)) :
    ∃ before after c1, during.flatten = before ++ after ∧
      (∀ op ∈ during.flatten, s.allows op = true ∧ op ≠ .commit t ∧ op ≠ .abort t) ∧
      Runs.run Clients.step s.clients before = some c1 ∧ Runs.run Clients.step c1 after = some c ∧
      c1.active t = some txn ∧
      s.table.delta.claimOrInsertBaseTombstone x txn c1.mgr (s.table.rowIdExistsInBase x) = (res, delta) := by
  have hid := h.inv.active_id hact
  unfold claim at hc
  split at hc
  · next hall =>
    obtain ⟨c', hrun, heq⟩ := Option.map_eq_some_iff.mp hc
    simp only [Prod.mk.injEq] at heq
    obtain ⟨h1, h2, rfl⟩ := heq
    have hops : ∀ op ∈ during.flatten, s.allows op = true ∧ op ≠ .commit t ∧ op ≠ .abort t := by
      intro op hop
      have hop := List.all_eq_true.mp hall op hop
      simp only [Bool.and_eq_true, bne_iff_ne, hid] at hop
      exact ⟨hop.1.1, hop.1.2, hop.2⟩
    have hsnap : txn.snapshotTs ≤ s.clients.mgr.lastCommitTs :=
      (h.inv.snap t txn (Clients.active_eq_some.mp hact).1).2
    have hreads := readings h.inv hrun
    obtain ⟨j, hj⟩ := hreads.claimUnder_eq h.inv hsnap s.table.delta x (s.table.rowIdExistsInBase x)
    obtain ⟨hbefore, hafter⟩ := Runs.run_momentAt hrun j
    have hsplit : during.flatten = (during.take (j + 1)).flatten ++ (during.drop (j + 1)).flatten := by
      rw [← List.flatten_append, List.take_append_drop]
    refine ⟨_, _, _, hsplit, hops, hbefore, hafter, ?_, ?_⟩
    · refine Clients.active_run h.inv hbefore hact fun op hop => (hops op ?_).2
      rw [hsplit]
      exact List.mem_append_left _ hop
    · rw [hreads.mgr, ← hj, ← h1, ← h2]
  · cases hc

theorem Refines.answered (answers : List (Op × Answer)) : ({ s with answers } : TableThreads).Refines base w :=
  ⟨h.tracked, h.clients, h.segments, h.next, h.rows, h.keys, h.alone, fun t call hcall =>
    ⟨(h.calls t call hcall).active, (h.calls t call hcall).written, (h.calls t call hcall).quiet⟩⟩

omit h in
theorem allows_put {calls : List (Nat × TableCall)} {t : Nat} {new : TableCall} {op : TxnOp} {res : WriteResult}
    (hop : ({ s with calls } : TableThreads).allows op = true) (hcommit : op ≠ .commit t) (habort : op ≠ .abort t) :
    ({ s with calls := if res = .ok then Keyed.put calls t new else calls } : TableThreads).allows op = true := by
  by_cases hok : res = .ok
  · cases op with
    | begin => rfl
    | commit u =>
      have hne : u ≠ t := fun heq => hcommit (by rw [heq])
      simpa [allows, hok, Keyed.find_put, hne] using hop
    | abort u =>
      have hne : u ≠ t := fun heq => habort (by rw [heq])
      simpa [allows, hok, Keyed.find_put, hne] using hop
  · rw [if_neg hok]
    exact hop

/-- A call that takes effect between `before` and `after`. -/
theorem Refines.around (s2 : TableThreads) (op : Op) (a : Answer) {before after : List TxnOp} {c1 c : Clients}
    (hbefore : Runs.run Clients.step s.clients before = some c1) (hafter : Runs.run Clients.step c1 after = some c)
    (hallows : ∀ o ∈ before, s.allows o = true) (hallows' : ∀ o ∈ after, s2.allows o = true) (hs2 : s2.clients = c1)
    (hmid : ∀ w1, (s.withClients c1).Refines base w1 → ∃ w2, w1.SerialRun [op] w2 [] [(op, a)] ∧ s2.Refines base w2) :
    ∃ ops w', w.SerialRun ops w' (before ++ after) [(op, a)] ∧ (s2.withClients c).Refines base w' := by
  obtain ⟨w1, hw1, h1⟩ := h.txns hallows hbefore
  obtain ⟨w2, hw2, h2⟩ := hmid w1 h1
  rw [← hs2] at hafter
  obtain ⟨w3, hw3, h3⟩ := h2.txns hallows' hafter
  exact ⟨_, w3, (World.SerialRun.ofTxns hw1).append (hw2.append (World.SerialRun.ofTxns hw3)), h3⟩

/-- **One part of one call.** -/
theorem Refines.step {mv : TableMove} {s' : TableThreads} (hwrap : s.noWrap mv = true) (hs : s.step mv = some s') :
    ∃ ops w' new, w.SerialRun ops w' mv.txnOps new ∧ s'.answers = s.answers ++ new ∧ s'.Refines base w' := by
  cases mv with
  | txn op =>
    simp only [TableThreads.step] at hs
    split at hs
    · next hallows =>
      obtain ⟨c, hc, rfl⟩ := Option.map_eq_some_iff.mp hs
      obtain ⟨w', hw', h'⟩ := h.txn hallows hc
      refine ⟨[op].map .txn, w', [], World.SerialRun.ofTxns ?_, (List.append_nil _).symm, h'⟩
      exact Runs.run_cons_eq_some.mpr ⟨w', hw', rfl⟩
    · cases hs
  | insert t row =>
    simp only [TableThreads.step] at hs
    split at hs
    · cases hs
    · next txn hcaller =>
      have hroom : s.table.nextRowId + 1 < 2 ^ 64 := of_decide_eq_true hwrap
      simp only [SharedCounter.fetchAdd, Nat.mod_eq_of_lt hroom] at hs
      cases hs
      obtain ⟨hcall, hact⟩ := caller_eq_some.mp hcaller
      obtain ⟨w', hrun, h'⟩ := h.insert hcall hact row
      exact ⟨_, w', _, hrun, rfl, h'.answered _⟩
  | update t x row during =>
    simp only [TableThreads.step] at hs
    split at hs
    · cases hs
    · next txn hcaller =>
      split at hs
      · cases hs
      · next res delta c hclaim =>
        obtain ⟨hcall, hact⟩ := caller_eq_some.mp hcaller
        obtain ⟨before, after, c1, hduring, hops, hbefore, hafter, hact1, hc⟩ := h.claim_moment hact hclaim
        rw [hduring] at hops
        obtain ⟨ops, w', hrun, h'⟩ := h.around
          { s.withClients c1 with
            table := { s.table with delta, txnMgr := c1.mgr }
            calls := if res = .ok then Keyed.put s.calls t { rowId := x, row } else s.calls }
          (.update t x row) (.wrote (res == .ok))
          hbefore hafter (fun o ho => (hops o (List.mem_append_left _ ho)).1)
          (fun o ho => by
            obtain ⟨hallows, hcommit, habort⟩ := hops o (List.mem_append_right _ ho)
            exact allows_put hallows hcommit habort) rfl
          (fun w1 h1 => h1.update hcall hact1 x row hc)
        cases hs
        refine ⟨ops, w', _, ?_, rfl, h'.answered _⟩
        rw [TableMove.txnOps, hduring]
        exact hrun
  | delete t x during =>
    simp only [TableThreads.step] at hs
    split at hs
    · cases hs
    · next txn hcaller =>
      split at hs
      · cases hs
      · next res delta c hclaim =>
        cases hs
        obtain ⟨hcall, hact⟩ := caller_eq_some.mp hcaller
        obtain ⟨before, after, c1, hduring, hops, hbefore, hafter, hact1, hc⟩ := h.claim_moment hact hclaim
        rw [hduring] at hops
        obtain ⟨ops, w', hrun, h'⟩ := h.around
          { s.withClients c1 with table := { s.table with delta, txnMgr := c1.mgr } } (.delete t x)
          (.wrote (res == .ok)) hbefore hafter (fun o ho => (hops o (List.mem_append_left _ ho)).1)
          (fun o ho => (hops o (List.mem_append_right _ ho)).1) rfl (fun w1 h1 => h1.delete hcall hact1 x hc)
        refine ⟨ops, w', _, ?_, rfl, h'.answered _⟩
        rw [TableMove.txnOps, hduring]
        exact hrun
  | append t =>
    simp only [TableThreads.step] at hs
    split at hs
    · cases hs
    · next call hcall =>
      cases hs
      exact ⟨[], w, [], World.SerialRun.nil w, (List.append_nil _).symm, h.append hcall⟩

end

theorem refines_start {w : World} (h : w.Start) : (start w).Refines (basePairs w.table.baseSegments) w where
  tracked := h.tracked
  clients := rfl
  segments := rfl
  next := rfl
  rows := fun x => by simp [start, pending, h.delta]
  keys := List.nodup_nil
  alone := fun x => by simp [start, pending]
  calls := fun t call hcall => by simp [start] at hcall

end TableThreads

end CoreDB
