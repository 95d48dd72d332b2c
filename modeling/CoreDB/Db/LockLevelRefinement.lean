import CoreDB.Db.FreeTurns

/-!
# The database under its locks refines the database of atomic table calls

A write takes effect at one moment: an `Insert` when it takes its row id, an `Update` or
`Delete` at the last status read of its claim.  At this moment the database of atomic table
calls makes its turn (`Stands.step`).
-/

namespace CoreDB

/-! ## Writes -/

/-- The atomic call of the table that makes the write. -/
def Write.op (t x : Nat) : Write → Op
  | .insert row => .insert t row
  | .update row => .update t x row
  | .delete => .delete t x

/-- The turn of a database of atomic table calls that makes it. -/
def Write.turn (t x : Nat) : Write → Turn
  | .insert row => .insert t row
  | .update row => .update t x row
  | .delete => .delete t x

/-- The calls of the table when the write has taken effect. -/
def Write.calls (wr : Write) (t x : Nat) (calls : List (Nat × TableCall)) : List (Nat × TableCall) :=
  match wr.value with
  | some row => Keyed.put calls t { rowId := x, row }
  | none => calls

/-- The table after the claim of a write. -/
def TableThreads.afterClaim (tt : TableThreads) (wr : Write) (t x : Nat) (res : WriteResult) (delta : DeltaLayer) :
    TableThreads :=
  { tt with
    table := { tt.table with delta }
    calls := if res = .ok then wr.calls t x tt.calls else tt.calls }

theorem TableThreads.Refines.claims {base : List (Nat × Row)} {tt : TableThreads} {w : World} (h : tt.Refines base w)
    {t : Nat} {txn : Transaction} (hcall : Keyed.find tt.calls t = none) (hact : tt.clients.active t = some txn) (x : Nat)
    {wr : Write} (hwr : ∀ row, wr ≠ .insert row) {res : WriteResult} {delta : DeltaLayer}
    (hc : tt.table.delta.claimOrInsertBaseTombstone x txn tt.table.txnMgr (tt.table.rowIdExistsInBase x) = (res, delta)) :
    ∃ w', w.step (wr.op t x) = some w' ∧ w.answer (wr.op t x) = [(wr.op t x, .wrote (res == .ok))] ∧
      (tt.afterClaim wr t x res delta).Refines base w' := by
  have hone : ∀ {op : Op} {w' : World} {a : List (Op × Answer)}, w.SerialRun [op] w' [] a →
      w.step op = some w' ∧ w.answer op = a := by
    intro op w' a hr
    obtain ⟨w1, hs, hnil⟩ := Runs.run_cons_eq_some.mp hr.run
    cases hnil
    have ha := hr.answers
    simp only [World.answers, hs, List.append_nil] at ha
    exact ⟨hs, ha⟩
  cases wr with
  | insert row => exact absurd rfl (hwr row)
  | update row =>
    obtain ⟨w', hr, href⟩ := h.update hcall hact x row hc
    exact ⟨w', (hone hr).1, (hone hr).2, href⟩
  | delete =>
    obtain ⟨w', hr, href⟩ := h.delete hcall hact x hc
    refine ⟨w', (hone hr).1, (hone hr).2, ?_⟩
    have hsame : (if res = .ok then Write.delete.calls t x tt.calls else tt.calls) = tt.calls := by
      split <;> rfl
    rw [TableThreads.afterClaim, hsame]
    exact href

namespace Threads

theorem step_claim {k : Threads} {t x : Nat} {txn : Transaction} {wr : Write} {w' : World} {ok : Bool}
    (hwr : ∀ row, wr ≠ .insert row) (hfree : k.caller t = some txn) (hstep : k.world.step (wr.op t x) = some w')
    (hans : k.world.answer (wr.op t x) = [(wr.op t x, .wrote ok)]) :
    k.step (wr.turn t x) =
      some (if ok then (k.withWorld w').enter t (.append (wr.record t x)) else k.withWorld w') := by
  have hact := (caller_eq_some.mp hfree).2
  cases wr with
  | insert row => exact absurd rfl (hwr row)
  | update row =>
    simp only [Write.op, World.answer, hact, List.cons.injEq, Prod.mk.injEq, Answer.wrote.injEq, true_and, and_true] at hans
    have hup : (k.db.table.update txn x row).1 = ok := hans
    simp only [Write.op, World.step, hact, hans] at hstep
    simp only [Write.turn, step, hfree, hup]
    cases ok with
    | true =>
      simp only [if_true, Option.some.injEq] at hstep ⊢
      rw [← hstep]
      rfl
    | false =>
      simp only [Bool.false_eq_true, if_false, Option.some.injEq] at hstep ⊢
      rw [← hstep]
      rfl
  | delete =>
    simp only [Write.op, World.answer, hact, List.cons.injEq, Prod.mk.injEq, Answer.wrote.injEq, true_and, and_true] at hans
    have hdel : (k.db.table.delete txn x).1 = ok := hans
    simp only [Write.op, World.step, hact, hans] at hstep
    simp only [Write.turn, step, hfree, hdel]
    cases ok with
    | true =>
      simp only [if_true, Option.some.injEq] at hstep ⊢
      rw [← hstep]
      rfl
    | false =>
      simp only [Bool.false_eq_true, if_false, Option.some.injEq] at hstep ⊢
      rw [← hstep]
      rfl

theorem step_insert {k : Threads} {t : Nat} {txn : Transaction} {row : Row} {w' : World} (hfree : k.caller t = some txn)
    (hstep : k.world.step (.insert t row) = some w') :
    k.step (.insert t row) =
      some ((k.withWorld w').enter t (.append ((Write.insert row).record t k.db.table.nextRowId))) := by
  simp only [World.step, (caller_eq_some.mp hfree).2, Option.some.injEq] at hstep
  simp only [step, hfree, ← hstep]
  rfl

end Threads

/-! ## Every turn -/

namespace LockedThreads

open Threads (Models SameLog)

/-- The database `k` of atomic table calls stands for `s`. -/
def Stands (base : List (Nat × Row)) (s : LockedThreads) (k : Threads) : Prop :=
  Models base s.threads (Keyed.find s.threads.calls) s.tableThreads k

theorem Stands.around {base : List (Nat × Row)} {s : LockedThreads} {k : Threads} (h : s.Stands base k) {t : Nat}
    {txn : Transaction} (hfree : s.threads.caller t = some txn) :
    s.Around t txn (Keyed.find s.threads.calls) s.tableThreads ∧ Keyed.find s.tableCalls t = none := by
  obtain ⟨hidle, hact⟩ := Threads.caller_eq_some.mp hfree
  refine ⟨⟨hidle, hact, fun _ _ => rfl, fun _ _ => rfl⟩, ?_⟩
  cases hcall : Keyed.find s.tableCalls t with
  | none => rfl
  | some call =>
    obtain ⟨record, hr⟩ := h.inCall t call hcall
    rw [hidle] at hr
    cases hr

/-- The write of `t` is done, and after it come the free turns `turns` of others. -/
theorem Around.finish {base : List (Nat × Row)} {s1 s2 s' : LockedThreads} {t : Nat} {txn : Transaction}
    {calls : Nat → Option DbCall} {tt : TableThreads} {k : Threads} {turns : List Turn} (h : s1.Around t txn calls tt)
    (hm : Models base s1.threads calls tt k) (hr : Runs.run freeStep s1 turns = some s2)
    (hturns : ∀ turn ∈ turns, turn ≠ .commit t ∧ turn ≠ .abort t) (hlog : SameLog s'.threads s2.threads)
    (hcalls : Keyed.find s2.threads.calls t = none →
      ∀ u, Keyed.find s'.threads.calls u = if u = t then calls t else Keyed.find s2.threads.calls u)
    (htt : s'.tableThreads = tt.withClients s2.threads.world.clients) :
    ∃ k', Runs.run Threads.step k turns = some k' ∧ s'.Stands base k' := by
  obtain ⟨k', calls', hk', hm', h', ht⟩ := h.frees hm hr hturns
  have hsame : ∀ u, calls' u = Keyed.find s'.threads.calls u := by
    intro u
    rw [hcalls h'.idle]
    split
    · next hut => rw [hut, ht]
    · next hut => exact h'.others u hut
  refine ⟨k', hk', ⟨?_, ?_, fun u => ?_, fun u call hu => ?_, ?_⟩⟩
  · exact ⟨hm'.log.disk.trans hlog.disk, hm'.log.walWriter.trans hlog.walWriter, hm'.log.mode.trans hlog.mode,
      hm'.log.records.trans hlog.records, hm'.log.synced.trans hlog.synced⟩
  · rfl
  · rw [hm'.inFlight, hsame]
  · rw [htt] at hu
    obtain ⟨record, hrec⟩ := hm'.inCall u call hu
    exact ⟨record, (hsame u).symm.trans hrec⟩
  · rw [htt]
    exact hm'.refines

theorem sameLog_claimed (s : LockedThreads) (t x : Nat) (wr : Write) (r : WriteResult × DeltaLayer) :
    SameLog (s.claimed t x wr r).threads s.threads := by
  unfold claimed
  split <;> exact ⟨rfl, rfl, rfl, rfl, rfl⟩

theorem find_calls_claimed {s : LockedThreads} {t : Nat} (hidle : Keyed.find s.threads.calls t = none) (x : Nat)
    (wr : Write) (r : WriteResult × DeltaLayer) (u : Nat) : Keyed.find (s.claimed t x wr r).threads.calls u =
      if u = t then (if r.1 = .ok then some (.append (wr.record t x)) else none) else Keyed.find s.threads.calls u := by
  by_cases hok : r.1 = .ok
  · simp only [claimed, hok, if_true, wrote, withDelta, withTable, Threads.enter, Keyed.find_put]
  · simp only [claimed, hok, if_false, withDelta, withTable]
    split
    · next hut => rw [hut, hidle]
    · rfl

theorem tableThreads_claimed (s : LockedThreads) (t x : Nat) (wr : Write) (r : WriteResult × DeltaLayer) :
    (s.claimed t x wr r).tableThreads = s.tableThreads.afterClaim wr t x r.1 r.2 := by
  by_cases hok : r.1 = .ok
  · simp only [claimed, hok, if_true, TableThreads.afterClaim]
    rfl
  · simp only [claimed, hok, if_false, TableThreads.afterClaim]
    rfl

/-- The claim of `t` at one moment is the atomic call of `k`. -/
theorem Around.claim {base : List (Nat × Row)} {s : LockedThreads} {t x : Nat} {txn : Transaction}
    {calls : Nat → Option DbCall} {tt : TableThreads} {k : Threads} {wr : Write} {res : WriteResult} {delta : DeltaLayer}
    (h : s.Around t txn calls tt) (hm : Models base s.threads calls tt k) (hidle : calls t = none)
    (hnone : Keyed.find tt.calls t = none) (hwr : ∀ row, wr ≠ .insert row)
    (hc : tt.table.delta.claimOrInsertBaseTombstone x txn tt.table.txnMgr (tt.table.rowIdExistsInBase x) = (res, delta)) :
    ∃ k' calls', k.step (wr.turn t x) = some k' ∧ Models base s.threads calls' (tt.afterClaim wr t x res delta) k' ∧
      s.Around t txn calls' (tt.afterClaim wr t x res delta) ∧
      calls' t = if res = .ok then some (.append (wr.record t x)) else none := by
  have hact : tt.clients.active t = some txn := by rw [hm.clients]; exact h.active
  have hfree : k.caller t = some txn := by
    refine Threads.caller_eq_some.mpr ⟨(hm.inFlight t).trans hidle, ?_⟩
    rw [hm.clients_eq]
    exact h.active
  obtain ⟨w', hstep, hans, href⟩ := hm.refines.claims hnone hact x hwr hc
  have hk := Threads.step_claim hwr hfree hstep hans
  have hfind : ∀ u, u ≠ t → Keyed.find (tt.afterClaim wr t x res delta).calls u = Keyed.find tt.calls u := by
    intro u hu
    unfold TableThreads.afterClaim
    dsimp only
    split
    · unfold Write.calls
      split
      · rw [Keyed.find_put, if_neg hu]
      · rfl
    · rfl
  have hlog := hm.log
  by_cases hok : res = .ok
  · subst hok
    simp only [BEq.rfl, if_true] at hk ⊢
    refine ⟨_, fun u => if u = t then some (.append (wr.record t x)) else calls u, hk,
      ⟨⟨hlog.disk, hlog.walWriter, hlog.mode, hlog.records, hlog.synced⟩, hm.clients, fun u => ?_, fun u call hu => ?_, href⟩,
      ⟨h.idle, h.active, fun u hu => ?_, fun u hu => ?_⟩, if_pos rfl⟩
    · rw [Threads.enter, Keyed.find_put]
      split
      · rfl
      · exact hm.inFlight u
    · by_cases hut : u = t
      · exact ⟨_, if_pos hut⟩
      · obtain ⟨record, hr⟩ := hm.inCall u call ((hfind u hut).symm.trans hu)
        exact ⟨record, (if_neg hut).trans hr⟩
    · rw [if_neg hu]
      exact h.others u hu
    · rw [← h.tableCalls u hu]
      exact hfind u hu
  · have hno : (res == .ok) = false := by simpa using hok
    have hsame : (tt.afterClaim wr t x res delta).calls = tt.calls := if_neg hok
    simp only [hno, hok, if_false, Bool.false_eq_true] at hk ⊢
    refine ⟨_, calls, hk,
      ⟨⟨hlog.disk, hlog.walWriter, hlog.mode, hlog.records, hlog.synced⟩, hm.clients, hm.inFlight, ?_, href⟩,
      ⟨h.idle, h.active, h.others, ?_⟩, hidle⟩ <;> rw [hsame]
    · exact hm.inCall
    · exact h.tableCalls

/-- **A claim**, with what goes on meanwhile. -/
theorem Stands.claim {base : List (Nat × Row)} {s s' : LockedThreads} {k : Threads} (h : s.Stands base k) {t x : Nat}
    {txn : Transaction} {wr : Write} {during : List (List Turn)} (hfree : s.threads.caller t = some txn)
    (hwr : ∀ row, wr ≠ .insert row) (hs : s.claim txn t x wr during = some s') :
    ∃ turns k', Runs.run Threads.step k turns = some k' ∧ s'.Stands base k' := by
  obtain ⟨haround, hnone⟩ := h.around hfree
  have hinv : s.threads.world.clients.Inv := h.refines.inv
  unfold LockedThreads.claim at hs
  split at hs
  · next hall =>
    obtain ⟨s2, hr, heq⟩ := Option.map_eq_some_iff.mp hs
    have hturns : ∀ turn ∈ during.flatten, turn ≠ .commit t ∧ turn ≠ .abort t := by
      intro turn hturn
      have := List.all_eq_true.mp hall turn hturn
      simpa only [Bool.and_eq_true, bne_iff_ne] using this
    have hreads := readings hinv hr
    have hsnap := (hinv.snap t txn (Clients.active_eq_some.mp haround.active).1).2
    obtain ⟨j, hj⟩ := hreads.claimUnder_eq hinv hsnap s.table.delta x (s.table.rowIdExistsInBase x)
    -- the claim takes effect at the moment `s1`
    obtain ⟨hbefore, hafter⟩ := Runs.run_momentAt hr j
    have hmgr := hreads.mgr j
    generalize Runs.momentAt freeStep s during j = s1 at hbefore hafter hmgr
    have hsplit : during.flatten = (during.take (j + 1)).flatten ++ (during.drop (j + 1)).flatten := by
      rw [← List.flatten_append, List.take_append_drop]
    obtain ⟨k1, calls1, hk1, hm1, h1, hcalls1⟩ := haround.frees h hbefore
      fun turn hturn => hturns turn (by rw [hsplit]; exact List.mem_append_left _ hturn)
    generalize hcl : s.table.delta.claimUnder x txn (s.observed during) (s.table.rowIdExistsInBase x) = r at heq hj
    have hat : (s.tableThreads.withClients s1.threads.world.clients).table.delta.claimOrInsertBaseTombstone x txn
        (s.tableThreads.withClients s1.threads.world.clients).table.txnMgr
        ((s.tableThreads.withClients s1.threads.world.clients).table.rowIdExistsInBase x) = (r.1, r.2) := by
      rw [hj, ← hmgr]
      rfl
    obtain ⟨k2, calls2, hk2, hm2, h2, hcalls2⟩ := h1.claim hm1 (hcalls1.trans haround.idle) hnone hwr hat
    have htt : (s2.claimed t x wr r).tableThreads =
        ((s.tableThreads.withClients s1.threads.world.clients).afterClaim wr t x r.1 r.2).withClients
          s2.threads.world.clients := by
      obtain ⟨hcalls, htable⟩ := run_freeStep hr
      rw [tableThreads_claimed]
      unfold TableThreads.afterClaim TableThreads.withClients tableThreads
      rw [hcalls, htable]
      rfl
    obtain ⟨k', hk', h'⟩ := h2.finish hm2 hafter
      (fun turn hturn => hturns turn (by rw [hsplit]; exact List.mem_append_right _ hturn))
      (sameLog_claimed s2 t x wr r) (fun hidle u => by rw [hcalls2, find_calls_claimed hidle]) htt
    exact ⟨_, k', Runs.run_append_eq_some.mpr ⟨k1, hk1, Runs.run_cons_eq_some.mpr ⟨k2, hk2, hk'⟩⟩, heq ▸ h'⟩
  · cases hs

/-- The row id is taken; the version and the record follow. -/
theorem Stands.insert {base : List (Nat × Row)} {s : LockedThreads} {k : Threads} (h : s.Stands base k) {t : Nat}
    {txn : Transaction} (hfree : s.threads.caller t = some txn) (row : Row) :
    ∃ k', k.step (.insert t row) = some k' ∧
      ((s.withTable { s.table with nextRowId := s.table.nextRowId + 1 }).wrote t s.table.nextRowId (.insert row)).Stands
        base k' := by
  obtain ⟨hidle, hnone⟩ := h.around hfree
  obtain ⟨-, hk⟩ := h.caller rfl hfree
  obtain ⟨w', hrun, href⟩ := h.refines.insert hnone (h.clients ▸ hidle.active) row
  obtain ⟨w1, hstep, hnil⟩ := Runs.run_cons_eq_some.mp hrun.run
  cases hnil
  have hnext : k.db.table.nextRowId = s.table.nextRowId := h.refines.next
  have hlog := h.log
  have hkstep := Threads.step_insert hk hstep
  rw [hnext] at hkstep
  refine ⟨_, hkstep, ⟨⟨hlog.disk, hlog.walWriter, hlog.mode, hlog.records, hlog.synced⟩, rfl, fun u => ?_,
    fun u call hu => ?_, href⟩⟩
  · show Keyed.find (Keyed.put k.calls t _) u = Keyed.find (Keyed.put s.threads.calls t _) u
    rw [Keyed.find_put, Keyed.find_put, h.inFlight]
  · show ∃ record, Keyed.find (Keyed.put s.threads.calls t _) u = some (.append record)
    rcases TableThreads.find_put_calls hu with hold | ⟨rfl, -⟩
    · rw [Keyed.find_put]
      split
      · exact ⟨_, rfl⟩
      · exact h.inCall u call hold
    · rw [Keyed.find_put, if_pos rfl]
      exact ⟨_, rfl⟩

/-- The version is appended; in `k` it is there already. -/
theorem Stands.version {base : List (Nat × Row)} {s : LockedThreads} {k : Threads} (h : s.Stands base k) {t : Nat}
    {call : TableCall} (hcall : Keyed.find s.tableCalls t = some call) :
    Stands base { s.withDelta (s.table.delta.insert call.rowId t call.row) with
      tableCalls := Keyed.erase s.tableCalls t } k := by
  have hlog := h.log
  refine ⟨⟨hlog.disk, hlog.walWriter, hlog.mode, hlog.records, hlog.synced⟩, rfl, h.inFlight, fun u c hu => ?_,
    h.refines.append hcall⟩
  have hu : Keyed.find (Keyed.erase s.tableCalls t) u = some c := hu
  rw [Keyed.find_erase] at hu
  split at hu
  · cases hu
  · exact h.inCall u c hu

theorem Stands.free {base : List (Nat × Row)} {s s' : LockedThreads} {k : Threads} (h : s.Stands base k) {turn : Turn}
    (hs : s.freeStep turn = some s') : ∃ k', k.step turn = some k' ∧ s'.Stands base k' := by
  obtain ⟨hready, hfree, a', hstep, rfl⟩ := freeStep_cases hs
  have hmove := Threads.freeMove hfree hstep
  obtain ⟨k', hk', hm⟩ := Threads.Models.free h hfree
    (fun t ht => by
      subst ht
      exact Option.isNone_iff_eq_none.mp hready)
    (fun t _ => rfl) hstep
  have hcalls : Threads.callsAfter s.threads a' turn (Keyed.find s.threads.calls) = Keyed.find a'.calls := by
    funext u
    unfold Threads.callsAfter
    split
    · rfl
    · next hu => exact (hmove.others u hu).symm
  have htt : s.tableThreads.withClients a'.world.clients = LockedThreads.tableThreads { s with threads := a' } := by
    unfold TableThreads.withClients tableThreads table
    rw [hmove.table]
    rfl
  rw [hcalls, htt] at hm
  exact ⟨k', hk', hm⟩

/-- **Every turn** is none, one or several turns of `k`. -/
theorem Stands.step {base : List (Nat × Row)} {s s' : LockedThreads} {k : Threads} (h : s.Stands base k)
    {turn : LockedTurn} (hs : s.step turn = some s') :
    ∃ turns k', Runs.run Threads.step k turns = some k' ∧ s'.Stands base k' := by
  cases turn with
  | free turn =>
    obtain ⟨k', hk', h'⟩ := h.free hs
    exact ⟨[turn], k', Runs.run_cons_eq_some.mpr ⟨k', hk', rfl⟩, h'⟩
  | insert t row =>
    simp only [LockedThreads.step] at hs
    split at hs
    · cases hs
    · next txn hfree =>
      cases hs
      obtain ⟨k', hk', h'⟩ := h.insert hfree row
      exact ⟨[.insert t row], k', Runs.run_cons_eq_some.mpr ⟨k', hk', rfl⟩, h'⟩
  | update t x row during =>
    simp only [LockedThreads.step] at hs
    split at hs
    · cases hs
    · next txn hfree => exact h.claim hfree (by simp) hs
  | delete t x during =>
    simp only [LockedThreads.step] at hs
    split at hs
    · cases hs
    · next txn hfree => exact h.claim hfree (by simp) hs
  | version t =>
    simp only [LockedThreads.step] at hs
    split at hs
    · cases hs
    · next call hcall =>
      cases hs
      exact ⟨[], k, rfl, h.version hcall⟩

theorem Stands.run {base : List (Nat × Row)} {turns : List LockedTurn} : ∀ {s s' : LockedThreads} {k : Threads},
    s.Stands base k → Runs.run LockedThreads.step s turns = some s' →
    ∃ turns' k', Runs.run Threads.step k turns' = some k' ∧ s'.Stands base k' := by
  induction turns with
  | nil =>
    intro s s' k h hr
    cases hr
    exact ⟨[], k, rfl, h⟩
  | cons turn turns ih =>
    intro s s' k h hr
    obtain ⟨s1, hs, hrest⟩ := Runs.run_cons_eq_some.mp hr
    obtain ⟨turns1, k1, hk1, h1⟩ := h.step hs
    obtain ⟨turns2, k', hk', h'⟩ := ih h1 hrest
    exact ⟨turns1 ++ turns2, k', Runs.run_append_eq_some.mpr ⟨k1, hk1, hk'⟩, h'⟩

theorem stands_openOn (dataDir : String) (userSchema : Schema) (mode : DurabilityMode) :
    (openOn { dataDir } userSchema mode).Stands [] (.openOn { dataDir } userSchema mode) where
  log := ⟨rfl, rfl, rfl, rfl, rfl⟩
  clients := rfl
  inFlight := fun _ => rfl
  inCall := fun t call hcall => by cases hcall
  refines := TableThreads.refines_start (World.start_create userSchema)

end LockedThreads

/-! ## Scans and all runs -/

theorem Threads.later_step {k k' : Threads} {turn : Turn} (hinv : k.world.clients.Inv) (hs : k.step turn = some k') :
    k'.world.clients.Inv ∧ k.world.clients.Later k'.world.clients := by
  have htxn : ∀ {op : TxnOp} {w : World}, k.world.txnStep op = some w →
      w.clients.Inv ∧ k.world.clients.Later w.clients := by
    intro op w hran
    obtain ⟨c, hc, rfl⟩ := Option.map_eq_some_iff.mp hran
    exact ⟨Clients.inv_step hinv hc, Clients.later_step hinv hc⟩
  have hsame : ∀ {c : Clients}, c = k.world.clients → c.Inv ∧ k.world.clients.Later c := by
    rintro c rfl
    exact ⟨hinv, Clients.Later.refl _⟩
  cases step_cases hs with
  | begin w hran => exact htxn hran
  | write op t x wr txn table record hop hfree hmgr hran hlogs =>
    refine hsame ?_
    show Clients.mk table.txnMgr k.handle = _
    rw [hmgr]
    rfl
  | refuse => exact hsame rfl
  | append t record k1 hcall hran => exact hsame (appendRecord_eq hran).2.1
  | announce t txn type call k1 hfree hhow hran => exact hsame (appendRecord_eq hran).2.1
  | resolve t op call w hcall hhow hran => exact htxn hran
  | flush => exact hsame rfl

theorem Threads.later_run {k k' : Threads} {turns : List Turn} (hinv : k.world.clients.Inv)
    (hr : Runs.run Threads.step k turns = some k') : k'.world.clients.Inv ∧ k.world.clients.Later k'.world.clients := by
  refine Runs.run_invariant (Q := fun _ _ => True)
    (I := fun d => d.world.clients.Inv ∧ k.world.clients.Later d.world.clients) ?_ ⟨hinv, Clients.Later.refl _⟩
    (Runs.along_of_forall k fun _ _ _ => trivial) hr
  rintro d turn d' ⟨hd, hl⟩ - hs
  obtain ⟨hd', hl'⟩ := later_step hd hs
  exact ⟨hd', hl.trans hl'⟩

namespace LockedThreads

/-- The manager as the `k`-th status read of a scan finds it. -/
def scanned (s : LockedThreads) (during : List (List LockedTurn)) (k : Nat) : TransactionManager :=
  match Runs.run step s (during.take (k + 1)).flatten with
  | some s' => s'.table.txnMgr
  | none => s.table.txnMgr

/-- An idle reader scans what it scans in `k`, whatever goes on while it reads. -/
theorem Stands.scan {base : List (Nat × Row)} {s s' : LockedThreads} {k : Threads} (h : s.Stands base k) {t : Nat}
    {r : Transaction} (hfree : s.threads.caller t = some r) {during : List (List LockedTurn)}
    (hr : Runs.run LockedThreads.step s during.flatten = some s') : ∃ rows rows',
      materializeUnder (s.scanned during) (s.table.snapshotForScan r) = some rows ∧
      materializeKeyed k.db.table.txnMgr (k.db.table.snapshotForScan r) = some rows' ∧ rows.Perm rows' := by
  obtain ⟨hidle, hnone⟩ := h.around hfree
  have hinv : s.threads.world.clients.Inv := h.refines.inv
  have hactk : k.world.clients.active t = some r := by rw [h.clients_eq]; exact hidle.active
  have hsnap := (hinv.snap t r (Clients.active_eq_some.mp hidle.active).1).2
  have htracked := h.refines.tracked
  obtain ⟨rows', hrows', hperm'⟩ := scan_siView htracked.inv htracked.log hactk htracked.distinct htracked.grounded
    htracked.readable
  have hsees : ∀ j u, (s.scanned during j).sees r u = s.table.txnMgr.sees r u := by
    intro j u
    have hat := (Runs.run_momentAt hr j).1
    obtain ⟨turns, k', hk', h'⟩ := h.run hat
    obtain ⟨hinv', hlater⟩ := Threads.later_run (h.clients_eq ▸ hinv) hk'
    rw [h.clients_eq, h'.clients_eq] at hlater
    unfold scanned
    rw [hat]
    exact hlater.sees_eq hinv (h'.clients_eq ▸ hinv') hsnap u
  obtain ⟨rows, hrows, hperm⟩ := h.refines.scanUnder (TableThreads.caller_eq_some.mpr ⟨hnone, hidle.active⟩) hsees
  exact ⟨rows, rows', hrows, hrows', hperm.trans hperm'.symm⟩

/-- The turns `turns'` of atomic table calls do for the turns `turns`. -/
def Serves (dataDir : String) (userSchema : Schema) (mode : DurabilityMode) (turns : List LockedTurn)
    (turns' : List Turn) : Prop :=
  ∀ s, Runs.run step (openOn { dataDir } userSchema mode) turns = some s →
    ∃ k, Runs.run Threads.step (.openOn { dataDir } userSchema mode) turns' = some k ∧ s.Stands [] k

theorem serves_step {dataDir : String} {userSchema : Schema} {mode : DurabilityMode} (turns : List LockedTurn)
    (turn : LockedTurn) (turns' : List Turn) (s1 s2 : LockedThreads) (h : Serves dataDir userSchema mode turns turns')
    (hr : Runs.run step (openOn { dataDir } userSchema mode) turns = some s1) (hs : s1.step turn = some s2) :
    ∃ more, Serves dataDir userSchema mode (turns ++ [turn]) (turns' ++ more) := by
  obtain ⟨k, hk, hstands⟩ := h s1 hr
  obtain ⟨more, k', hk', hstands'⟩ := hstands.step hs
  refine ⟨more, fun s hr2 => ⟨k', Runs.run_append_eq_some.mpr ⟨k, hk, hk'⟩, ?_⟩⟩
  have hr2' : Runs.run step (openOn { dataDir } userSchema mode) (turns ++ [turn]) = some s2 :=
    Runs.run_append_eq_some.mpr ⟨s1, hr, Runs.run_cons_eq_some.mpr ⟨s2, hs, rfl⟩⟩
  rw [hr2'] at hr2
  cases hr2
  exact hstands'

end LockedThreads

open LockedThreads in
/-- **The database under its locks refines the database of atomic table calls.**  As the run
goes on, a run of atomic table calls goes on with it, from which nothing is taken back.  It
has the same bytes on the disk, the same records, as many of them synced, the same
transactions and the same calls in flight, and whoever is in no call scans the same rows in
both, whatever goes on while it reads. -/
theorem locked_database_refines (dataDir : String) (userSchema : Schema) (mode : DurabilityMode) :
    ∃ atomic : List LockedTurn → List Turn, (∀ turns more, atomic turns <+: atomic (turns ++ more)) ∧
      ∀ turns s, Runs.run LockedThreads.step (.openOn { dataDir } userSchema mode) turns = some s → ∃ k,
        Runs.run Threads.step (.openOn { dataDir } userSchema mode) (atomic turns) = some k ∧
        k.db.disk = s.threads.db.disk ∧ k.records = s.threads.records ∧ k.synced = s.threads.synced ∧
        k.world.clients = s.threads.world.clients ∧
        (∀ t, Keyed.find k.calls t = Keyed.find s.threads.calls t) ∧
        ∀ t r, s.threads.caller t = some r → ∀ during s', Runs.run LockedThreads.step s during.flatten = some s' →
          ∃ rows rows', materializeUnder (s.scanned during) (s.table.snapshotForScan r) = some rows ∧
            materializeKeyed k.db.table.txnMgr (k.db.table.snapshotForScan r) = some rows' ∧ rows.Perm rows' := by
  have hstart : Serves dataDir userSchema mode [] [] := by
    intro s hr
    cases hr
    exact ⟨_, rfl, stands_openOn dataDir userSchema mode⟩
  obtain ⟨atomic, hprefix, hatomic⟩ := Runs.exists_answer hstart serves_step
  refine ⟨atomic, hprefix, fun turns s hr => ?_⟩
  obtain ⟨k, hk, h⟩ := hatomic turns s hr s hr
  exact ⟨k, hk, h.log.disk, h.log.records, h.log.synced, h.clients_eq, h.inFlight,
    fun t r hfree during s' hr' => h.scan hfree hr'⟩

/-- While 3 claims row 1, which 1 has inserted, 5 begins and its record is appended.  4 has
taken an id for a row of its own.  Neither 3 nor 4 has appended its version yet. -/
def racingTurns : List LockedTurn :=
  [.free .begin, .free (.append 1), .insert 1 [.int64 7#64], .version 1, .free (.append 1), .free (.commit 1),
    .free (.resolve 1), .free .begin, .free (.append 3), .free .begin, .free (.append 4), .insert 4 [.int64 9#64],
    .update 3 1 [.int64 8#64] [[.begin, .append 5]]]

/-- Meanwhile 5 scans: 3 commits before its first status read, 4 appends before its second. -/
def racingScan : List (List LockedTurn) :=
  [[.version 3, .free (.append 3), .free (.commit 3), .free (.resolve 3)], [.version 4]]

theorem locked_database_refines_racing : ∃ s s' r turns k,
    Runs.run LockedThreads.step (.openOn { dataDir := "db" } oneColumn .syncEveryCommit) racingTurns = some s ∧
    s.tableCalls.map (·.1) = [4, 3] ∧ s.threads.caller 5 = some r ∧
    Runs.run LockedThreads.step s racingScan.flatten = some s' ∧
    Runs.run Threads.step (.openOn { dataDir := "db" } oneColumn .syncEveryCommit) turns = some k ∧
    k.db.disk = s.threads.db.disk ∧
    materializeUnder (s.scanned racingScan) (s.table.snapshotForScan r) = some [(1, [.int64 7#64])] ∧
    materializeKeyed k.db.table.txnMgr (k.db.table.snapshotForScan r) = some [(1, [.int64 7#64])] := by
  obtain ⟨s, hs, hp⟩ := Runs.exists_of_any
    (o := Runs.run LockedThreads.step (.openOn { dataDir := "db" } oneColumn .syncEveryCommit) racingTurns)
    (p := fun s => s.tableCalls.map (·.1) == [4, 3] &&
      (Runs.run LockedThreads.step s racingScan.flatten).isSome &&
      (s.threads.caller 5).any fun r =>
        materializeUnder (s.scanned racingScan) (s.table.snapshotForScan r) == some [(1, [.int64 7#64])])
    (by decide +kernel)
  simp only [Bool.and_eq_true, beq_iff_eq] at hp
  obtain ⟨⟨hcalls, hduring⟩, hscan⟩ := hp
  obtain ⟨s', hs'⟩ := Option.isSome_iff_exists.mp hduring
  obtain ⟨r, hr, hrows⟩ := Runs.exists_of_any hscan
  rw [beq_iff_eq] at hrows
  obtain ⟨atomic, -, hatomic⟩ := locked_database_refines "db" oneColumn .syncEveryCommit
  obtain ⟨k, hk, hdisk, -, -, -, -, hscans⟩ := hatomic racingTurns s hs
  obtain ⟨rows, rows', hsame, hrows', hperm⟩ := hscans 5 r hr racingScan s' hs'
  rw [hrows] at hsame
  obtain rfl := Option.some.inj hsame
  rw [List.perm_singleton.mp hperm.symm] at hrows'
  exact ⟨s, s', r, _, k, hs, hcalls, hr, hs', hk, hdisk, hrows, hrows'⟩

end CoreDB
