import CoreDB.Db.LockLevel

/-!
# Turns that need no lock of the table

`Models`: a database whose table calls are atomic stands for one under its locks.  Both have
the same log, the same transactions and the same calls in flight, and the tables are related
by `TableThreads.Refines`.  A turn that needs no lock of the table is the same turn of both
(`Models.free`), also while a transaction is in a claim (`Around.frees`), and the status reads
of the claim are readings of one run (`LockedThreads.readings`).
-/

namespace CoreDB

namespace Threads

/-- Both have the same log. -/
structure SameLog (a b : Threads) : Prop where
  disk : b.db.disk = a.db.disk
  walWriter : b.db.walWriter = a.db.walWriter
  mode : b.mode = a.mode
  records : b.records = a.records
  synced : b.synced = a.synced

/-- The transaction in whose call the turn is. -/
def touches (s : Threads) : Turn → Option Nat
  | .begin => some s.db.table.txnMgr.nextId
  | .insert t _ => some t
  | .update t _ _ => some t
  | .delete t _ => some t
  | .append t => some t
  | .commit t => some t
  | .abort t => some t
  | .resolve t => some t
  | .flush => none

theorem SameLog.appendRecord {a b a' : Threads} (h : SameLog a b) {record : WalRecord}
    (ha : a.appendRecord record = some a') : ∃ b', b.appendRecord record = some b' ∧ SameLog a' b' ∧
      (a'.db.table = a.db.table ∧ a'.handle = a.handle ∧ a'.calls = a.calls) ∧
      b'.world = b.world ∧ b'.calls = b.calls := by
  unfold Threads.appendRecord at ha ⊢
  have hnum : b.numbered record = a.numbered record := by
    unfold numbered
    rw [h.walWriter]
  rw [hnum]
  split at ha
  · next hw =>
    obtain rfl := Option.some.inj ha
    rw [if_pos hw]
    refine ⟨_, rfl, ⟨?_, ?_, h.mode, ?_, ?_⟩, ⟨rfl, rfl, rfl⟩, rfl, rfl⟩
    · simp only [appended, Database.append, h.disk, h.walWriter]
    · simp only [appended, Database.append, h.disk, h.walWriter]
    · simp only [appended, h.records, hnum]
    · simp only [appended, Database.append, h.disk, h.walWriter, h.mode, h.synced]
  · cases ha

/-- The database `k` of atomic table calls stands for the log of `a`, the calls `calls` and the
table `tt` with its calls in flight. -/
structure Models (base : List (Nat × Row)) (a : Threads) (calls : Nat → Option DbCall) (tt : TableThreads)
    (k : Threads) : Prop where
  log : SameLog a k
  clients : tt.clients = a.world.clients
  inFlight : ∀ t, Keyed.find k.calls t = calls t
  inCall : ∀ t call, Keyed.find tt.calls t = some call → ∃ record, calls t = some (.append record)
  refines : tt.Refines base k.world

/-- The calls after a turn of `a` to `a'`. -/
def callsAfter (a a' : Threads) (turn : Turn) (calls : Nat → Option DbCall) (t : Nat) : Option DbCall :=
  if a.touches turn = some t then Keyed.find a'.calls t else calls t

section
variable {base : List (Nat × Row)} {a a' : Threads} {calls : Nat → Option DbCall} {tt : TableThreads} {k : Threads}
  (h : Models base a calls tt k)
include h

theorem Models.clients_eq : k.world.clients = a.world.clients := h.refines.clients.trans h.clients

theorem Models.txnStep {op : TxnOp} (hallows : tt.allows op = true) {w1 : World} (hs : a.world.txnStep op = some w1) :
    ∃ w', k.world.txnStep op = some w' ∧ (tt.withClients w1.clients).Refines base w' := by
  obtain ⟨c, hc, rfl⟩ := Option.map_eq_some_iff.mp hs
  exact h.refines.txn hallows (by rw [h.clients]; exact hc)

theorem Models.caller {t : Nat} {txn : Transaction} (hcalls : calls t = Keyed.find a.calls t)
    (ha : a.caller t = some txn) : calls t = none ∧ k.caller t = some txn := by
  obtain ⟨hnone, hact⟩ := caller_eq_some.mp ha
  refine ⟨hcalls.trans hnone, caller_eq_some.mpr ⟨?_, ?_⟩⟩
  · rw [h.inFlight, hcalls, hnone]
  · rw [h.clients_eq]
    exact hact

/-- The table stays as it is. -/
theorem Models.logged {calls' : Nat → Option DbCall} {k' : Threads} (hlog : SameLog a' k')
    (hclients : a'.world.clients = a.world.clients) (hworld : k'.world = k.world)
    (hcalls : ∀ t, Keyed.find k'.calls t = calls' t)
    (hkept : ∀ t call, Keyed.find tt.calls t = some call → calls' t = calls t) :
    Models base a' calls' (tt.withClients a'.world.clients) k' := by
  rw [hclients, ← h.clients]
  refine ⟨hlog, h.clients.trans hclients.symm, hcalls, fun t call hcall => ?_, hworld ▸ h.refines⟩
  rw [hkept t call hcall]
  exact h.inCall t call hcall

/-- The log stays as it is. -/
theorem Models.moved {calls' : Nat → Option DbCall} {w1 w' : World} (ca ck : List (Nat × DbCall))
    (href : (tt.withClients w1.clients).Refines base w') (hcalls : ∀ t, Keyed.find ck t = calls' t)
    (hin : ∀ t call, Keyed.find tt.calls t = some call → ∃ record, calls' t = some (.append record)) :
    Models base { a.withWorld w1 with calls := ca } calls' (tt.withClients w1.clients)
      { k.withWorld w' with calls := ck } :=
  ⟨⟨h.log.disk, h.log.walWriter, h.log.mode, h.log.records, h.log.synced⟩, rfl, hcalls, hin, href⟩

/-- COMMIT or ABORT is appended. -/
theorem Models.announce (call : DbCall) {t : Nat} {txn : Transaction} {record : WalRecord} {a1 : Threads}
    (hcalls : calls t = Keyed.find a.calls t) (hfree : a.caller t = some txn) (hran : a.appendRecord record = some a1) :
    ∃ k1, k.caller t = some txn ∧ k.appendRecord record = some k1 ∧
      Models base (a1.enter t call) (fun u => if some t = some u then Keyed.find (a1.enter t call).calls u else calls u)
        (tt.withClients (a1.enter t call).world.clients) (k1.enter t call) := by
  obtain ⟨hnone, hk⟩ := h.caller hcalls hfree
  obtain ⟨k1, hk1, hlog, ⟨htable, hhandle, ha1⟩, hworld, hkc⟩ := h.log.appendRecord hran
  have hclients : (a1.enter t call).world.clients = a.world.clients := by
    show Clients.mk a1.db.table.txnMgr a1.handle = _
    rw [htable, hhandle]
    rfl
  refine ⟨k1, hk, hk1, h.logged ⟨hlog.disk, hlog.walWriter, hlog.mode, hlog.records, hlog.synced⟩ hclients hworld
    (fun u => ?_) (fun u tc hu => ?_)⟩
  · simp only [enter, Keyed.find_put, hkc, h.inFlight, Option.some.injEq]
    by_cases hut : u = t
    · simp [hut]
    · simp [hut, Ne.symm hut]
  · have hne : t ≠ u := by
      rintro rfl
      obtain ⟨r, hr⟩ := h.inCall t tc hu
      rw [hnone] at hr
      cases hr
    simp [hne]

/-- The table commits or aborts. -/
theorem Models.resolve {t : Nat} {op : TxnOp} {call : DbCall} {w1 : World} (hcalls : calls t = Keyed.find a.calls t)
    (hop : op = .commit t ∨ op = .abort t) (hne : ∀ record, call ≠ .append record)
    (hcall : Keyed.find a.calls t = some call) (hw1 : a.world.txnStep op = some w1) :
    ∃ w', Keyed.find k.calls t = some call ∧ k.world.txnStep op = some w' ∧
      Models base ((a.withWorld w1).leave t) (callsAfter a ((a.withWorld w1).leave t) (.resolve t) calls)
        (tt.withClients w1.clients) ((k.withWorld w').leave t) := by
  have hidle : ∀ u tc, Keyed.find tt.calls u = some tc → t ≠ u := by
    rintro u tc hu rfl
    obtain ⟨record, hr⟩ := h.inCall t tc hu
    rw [hcalls, hcall] at hr
    exact hne record (Option.some.inj hr)
  have hallows : tt.allows op = true := by
    cases hu : Keyed.find tt.calls t with
    | some tc => exact absurd rfl (hidle t tc hu)
    | none => rcases hop with rfl | rfl <;> simp [TableThreads.allows, hu]
  obtain ⟨w', hw', href⟩ := h.txnStep hallows hw1
  refine ⟨w', by rw [h.inFlight, hcalls, hcall], hw', h.moved _ _ href (fun u => ?_) fun u tc hu => ?_⟩
  · simp only [callsAfter, touches, leave, withWorld, Keyed.find_erase, h.inFlight, Option.some.injEq]
    by_cases hut : u = t
    · simp [hut]
    · simp [hut, Ne.symm hut]
  · simp only [callsAfter, touches, Option.some.injEq, if_neg (hidle u tc hu)]
    exact h.inCall u tc hu

/-- **A turn that needs no lock of the table** is the same turn of `k`. -/
theorem Models.free {turn : Turn} (hfree : turn.isFree = true)
    (hready : ∀ t, turn = .append t → Keyed.find tt.calls t = none)
    (htouch : ∀ t, a.touches turn = some t → calls t = Keyed.find a.calls t) (hs : a.step turn = some a') :
    ∃ k', k.step turn = some k' ∧
      Models base a' (callsAfter a a' turn calls) (tt.withClients a'.world.clients) k' := by
  have hmgr : k.db.table.txnMgr = a.db.table.txnMgr := congrArg Clients.mgr h.clients_eq
  cases turn with
  | insert t row => cases hfree
  | update t x row => cases hfree
  | delete t x => cases hfree
  | begin =>
    simp only [step] at hs
    obtain ⟨w1, hw1, rfl⟩ := Option.map_eq_some_iff.mp hs
    obtain ⟨w', hw', href⟩ := h.txnStep rfl hw1
    refine ⟨_, by simp only [step, hw', Option.map_some]; rfl, h.moved _ _ href (fun u => ?_) fun u call hcall => ?_⟩
    · simp only [callsAfter, touches, enter, withWorld, Keyed.find_put, h.inFlight, hmgr, Option.some.injEq]
      by_cases hu : u = a.db.table.txnMgr.nextId
      · simp [hu]
      · simp [hu, Ne.symm hu]
    · simp only [callsAfter, touches, enter, withWorld, Keyed.find_put, Option.some.injEq]
      split
      · next hu => exact ⟨_, if_pos hu.symm⟩
      · exact h.inCall u call hcall
  | append t =>
    have hnone := hready t rfl
    simp only [step] at hs
    split at hs
    · next record hcall =>
      obtain ⟨a1, hran, rfl⟩ := Option.map_eq_some_iff.mp hs
      obtain ⟨k1, hk1, hlog, ⟨htable, hhandle, ha1⟩, hworld, hkc⟩ := h.log.appendRecord hran
      have hk : Keyed.find k.calls t = some (.append record) := by rw [h.inFlight, htouch t rfl, hcall]
      have hclients : (a1.leave t).world.clients = a.world.clients := by
        show Clients.mk a1.db.table.txnMgr a1.handle = _
        rw [htable, hhandle]
        rfl
      refine ⟨k1.leave t, by simp only [step, hk, hk1, Option.map_some],
        h.logged ⟨hlog.disk, hlog.walWriter, hlog.mode, hlog.records, hlog.synced⟩ hclients hworld
          (fun u => ?_) (fun u tc hu => ?_)⟩
      · simp only [callsAfter, touches, leave, Keyed.find_erase, hkc, h.inFlight, Option.some.injEq]
        by_cases hut : u = t
        · simp [hut]
        · simp [hut, Ne.symm hut]
      · have hne : t ≠ u := by
          rintro rfl
          rw [hnone] at hu
          cases hu
        simp [callsAfter, touches, hne]
    · cases hs
  | commit t =>
    simp only [step] at hs
    split at hs
    · cases hs
    · next txn hcaller =>
      obtain ⟨a1, hran, rfl⟩ := Option.map_eq_some_iff.mp hs
      obtain ⟨k1, hk, hk1, hm⟩ := h.announce .commit (htouch t rfl) hcaller hran
      exact ⟨_, by simp only [step, hk, hk1, Option.map_some], hm⟩
  | abort t =>
    simp only [step] at hs
    split at hs
    · cases hs
    · next txn hcaller =>
      obtain ⟨a1, hran, rfl⟩ := Option.map_eq_some_iff.mp hs
      obtain ⟨k1, hk, hk1, hm⟩ := h.announce .abort (htouch t rfl) hcaller hran
      exact ⟨_, by simp only [step, hk, hk1, Option.map_some], hm⟩
  | resolve t =>
    simp only [step] at hs
    split at hs
    · next hcall =>
      obtain ⟨w1, hw1, rfl⟩ := Option.map_eq_some_iff.mp hs
      obtain ⟨w', hk, hw', hm⟩ := h.resolve (htouch t rfl) (Or.inl rfl) (by simp) hcall hw1
      exact ⟨_, by simp only [step, hk, hw', Option.map_some], hm⟩
    · next hcall =>
      obtain ⟨w1, hw1, rfl⟩ := Option.map_eq_some_iff.mp hs
      obtain ⟨w', hk, hw', hm⟩ := h.resolve (htouch t rfl) (Or.inr rfl) (by simp) hcall hw1
      exact ⟨_, by simp only [step, hk, hw', Option.map_some], hm⟩
    · cases hs
  | flush =>
    cases hs
    refine ⟨_, rfl, h.logged ⟨h.log.disk, h.log.walWriter, h.log.mode, h.log.records, ?_⟩ rfl rfl ?_ ?_⟩
    · show k.db.disk.walBytes.length = a.db.disk.walBytes.length
      rw [h.log.disk]
    · exact fun u => h.inFlight u
    · exact fun u tc _ => rfl

end

/-! ## What such a turn does -/

/-- The turn leads from `a` to `a'`, and the table changes at most its transactions. -/
structure FreeMove (a : Threads) (turn : Turn) (a' : Threads) : Prop where
  table : a'.db.table = { a.db.table with txnMgr := a'.db.table.txnMgr }
  clients : a'.world.clients = a.world.clients ∨ ∃ op, a.world.clients.step op = some a'.world.clients ∧
    (op = .begin ∨ ∃ u, a.touches turn = some u ∧ (op = .commit u ∨ op = .abort u))
  others : ∀ u, a.touches turn ≠ some u → Keyed.find a'.calls u = Keyed.find a.calls u
  caller : ∀ u, a.touches turn = some u →
    u = a.db.table.txnMgr.nextId ∨ turn = .commit u ∨ turn = .abort u ∨ Keyed.find a.calls u ≠ none

theorem appendRecord_eq {a a' : Threads} {record : WalRecord} (h : a.appendRecord record = some a') :
    a'.db.table = a.db.table ∧ a'.world.clients = a.world.clients ∧ a'.calls = a.calls := by
  unfold appendRecord at h
  split at h
  · cases h
    exact ⟨rfl, rfl, rfl⟩
  · cases h

theorem find_enter {a : Threads} {t u : Nat} {call : DbCall} (hne : some t ≠ some u) :
    Keyed.find (a.enter t call).calls u = Keyed.find a.calls u := by
  rw [enter, Keyed.find_put, if_neg fun heq => hne (by rw [heq])]

theorem find_leave {a : Threads} {t u : Nat} (hne : some t ≠ some u) :
    Keyed.find (a.leave t).calls u = Keyed.find a.calls u := by
  rw [leave, Keyed.find_erase, if_neg fun heq => hne (by rw [heq])]

theorem freeMove_announce {a a1 : Threads} {t : Nat} {turn : Turn} {record : WalRecord} (call : DbCall)
    (hturn : turn = .commit t ∨ turn = .abort t) (hran : a.appendRecord record = some a1) :
    FreeMove a turn (a1.enter t call) := by
  obtain ⟨htable, hclients, hcalls⟩ := appendRecord_eq hran
  have htouch : a.touches turn = some t := by rcases hturn with rfl | rfl <;> rfl
  refine ⟨?_, Or.inl hclients, fun u hu => ?_, fun u hu => ?_⟩
  · show a1.db.table = { a.db.table with txnMgr := a1.db.table.txnMgr }
    rw [htable]
  · rw [htouch] at hu
    rw [find_enter hu, hcalls]
  · rw [htouch] at hu
    obtain rfl := Option.some.inj hu
    rcases hturn with rfl | rfl
    · exact Or.inr (Or.inl rfl)
    · exact Or.inr (Or.inr (Or.inl rfl))

theorem freeMove_resolve {a : Threads} {t : Nat} {op : TxnOp} {call : DbCall} {w1 : World}
    (hop : op = .commit t ∨ op = .abort t) (hcall : Keyed.find a.calls t = some call)
    (hw1 : a.world.txnStep op = some w1) : FreeMove a (.resolve t) ((a.withWorld w1).leave t) := by
  obtain ⟨c, hc, rfl⟩ := Option.map_eq_some_iff.mp hw1
  refine ⟨rfl, Or.inr ⟨op, hc, Or.inr ⟨t, rfl, hop⟩⟩, fun u hu => find_leave hu, fun u hu => ?_⟩
  obtain rfl := Option.some.inj hu
  simp [hcall]

theorem freeMove {a a' : Threads} {turn : Turn} (hfree : turn.isFree = true) (hs : a.step turn = some a') :
    FreeMove a turn a' := by
  cases turn with
  | insert t row => cases hfree
  | update t x row => cases hfree
  | delete t x => cases hfree
  | begin =>
    simp only [step] at hs
    obtain ⟨w1, hw1, rfl⟩ := Option.map_eq_some_iff.mp hs
    obtain ⟨c, hc, rfl⟩ := Option.map_eq_some_iff.mp hw1
    exact ⟨rfl, Or.inr ⟨.begin, hc, Or.inl rfl⟩, fun u hu => find_enter hu,
      fun u hu => Or.inl (Option.some.inj hu).symm⟩
  | append t =>
    simp only [step] at hs
    split at hs
    · next record hcall =>
      obtain ⟨a1, hran, rfl⟩ := Option.map_eq_some_iff.mp hs
      obtain ⟨htable, hclients, hcalls⟩ := appendRecord_eq hran
      refine ⟨?_, Or.inl hclients, fun u hu => ?_, fun u hu => ?_⟩
      · show a1.db.table = { a.db.table with txnMgr := a1.db.table.txnMgr }
        rw [htable]
      · rw [find_leave hu, hcalls]
      · obtain rfl := Option.some.inj hu
        simp [hcall]
    · cases hs
  | commit t =>
    simp only [step] at hs
    split at hs
    · cases hs
    · obtain ⟨a1, hran, rfl⟩ := Option.map_eq_some_iff.mp hs
      exact freeMove_announce .commit (Or.inl rfl) hran
  | abort t =>
    simp only [step] at hs
    split at hs
    · cases hs
    · obtain ⟨a1, hran, rfl⟩ := Option.map_eq_some_iff.mp hs
      exact freeMove_announce .abort (Or.inr rfl) hran
  | resolve t =>
    simp only [step] at hs
    split at hs
    · next hcall =>
      obtain ⟨w1, hw1, rfl⟩ := Option.map_eq_some_iff.mp hs
      exact freeMove_resolve (Or.inl rfl) hcall hw1
    · next hcall =>
      obtain ⟨w1, hw1, rfl⟩ := Option.map_eq_some_iff.mp hs
      exact freeMove_resolve (Or.inr rfl) hcall hw1
    · cases hs
  | flush =>
    cases hs
    exact ⟨rfl, Or.inl rfl, fun u _ => rfl, fun u hu => by cases hu⟩

end Threads

/-! ## The turns of others around a claim -/

namespace LockedThreads

open Threads (Models SameLog callsAfter FreeMove freeMove)

theorem freeStep_cases {s s' : LockedThreads} {turn : Turn} (hs : s.freeStep turn = some s') :
    s.ready turn = true ∧ turn.isFree = true ∧ ∃ threads, s.threads.step turn = some threads ∧
      s' = { s with threads } := by
  unfold freeStep at hs
  split at hs
  · next hready =>
    obtain ⟨threads, hstep, rfl⟩ := Option.map_eq_some_iff.mp hs
    refine ⟨hready, ?_, threads, hstep, rfl⟩
    cases turn with
    | append t => rfl
    | _ => exact hready
  · cases hs

/-- The calls `calls` of the database and those of the table `tt` are those of `s`, but for the
transaction `t`, which has no call in `s`. -/
structure Around (s : LockedThreads) (t : Nat) (txn : Transaction) (calls : Nat → Option DbCall)
    (tt : TableThreads) : Prop where
  idle : Keyed.find s.threads.calls t = none
  active : s.threads.world.clients.active t = some txn
  others : ∀ u, u ≠ t → calls u = Keyed.find s.threads.calls u
  tableCalls : ∀ u, u ≠ t → Keyed.find tt.calls u = Keyed.find s.tableCalls u

/-- A free turn that is not a turn of `t`. -/
theorem Around.free {base : List (Nat × Row)} {s s' : LockedThreads} {t : Nat} {txn : Transaction}
    {calls : Nat → Option DbCall} {tt : TableThreads} {k : Threads} {turn : Turn} (h : s.Around t txn calls tt)
    (hm : Models base s.threads calls tt k) (hs : s.freeStep turn = some s') (hc : turn ≠ .commit t)
    (ha : turn ≠ .abort t) :
    ∃ k' calls', k.step turn = some k' ∧ Models base s'.threads calls' (tt.withClients s'.threads.world.clients) k' ∧
      s'.Around t txn calls' (tt.withClients s'.threads.world.clients) ∧ calls' t = calls t := by
  obtain ⟨hready, hfree, a', hstep, rfl⟩ := freeStep_cases hs
  have hmove := freeMove hfree hstep
  have hinv : s.threads.world.clients.Inv := by
    rw [← hm.clients]
    exact hm.refines.inv
  have hother : ∀ u, s.threads.touches turn = some u → u ≠ t := by
    rintro u hu rfl
    rcases hmove.caller u hu with hnext | rfl | rfl | hcall
    · have hnone : s.threads.world.clients.handle s.threads.db.table.txnMgr.nextId = none := hinv.handle_nextId
      rw [← hnext, (Clients.active_eq_some.mp h.active).1] at hnone
      cases hnone
    · exact hc rfl
    · exact ha rfl
    · exact hcall h.idle
  have hnot : s.threads.touches turn ≠ some t := fun hu => hother t hu rfl
  obtain ⟨k', hk', hm'⟩ := hm.free hfree
    (fun u hu => by
      subst hu
      rw [h.tableCalls u (hother u rfl)]
      exact Option.isNone_iff_eq_none.mp hready)
    (fun u hu => h.others u (hother u hu)) hstep
  refine ⟨k', _, hk', hm', ⟨?_, ?_, fun u hu => ?_, h.tableCalls⟩, if_neg hnot⟩
  · rw [hmove.others t hnot]
    exact h.idle
  · rcases hmove.clients with heq | ⟨op, hop, hwhich⟩
    · rw [heq]
      exact h.active
    · refine Clients.active_step hinv hop h.active ?_ ?_ <;> rintro rfl
      · rcases hwhich with heq | ⟨u, hu, heq | heq⟩ <;> cases heq
        exact hnot hu
      · rcases hwhich with heq | ⟨u, hu, heq | heq⟩ <;> cases heq
        exact hnot hu
  · unfold callsAfter
    split
    · rfl
    · next hu' => rw [hmove.others u hu', h.others u hu]

theorem Around.frees {base : List (Nat × Row)} {t : Nat} {txn : Transaction} : ∀ {turns : List Turn}
    {s s' : LockedThreads} {calls : Nat → Option DbCall} {tt : TableThreads} {k : Threads}, s.Around t txn calls tt →
    Models base s.threads calls tt k → Runs.run freeStep s turns = some s' →
    (∀ turn ∈ turns, turn ≠ .commit t ∧ turn ≠ .abort t) →
    ∃ k' calls', Runs.run Threads.step k turns = some k' ∧
      Models base s'.threads calls' (tt.withClients s'.threads.world.clients) k' ∧
      s'.Around t txn calls' (tt.withClients s'.threads.world.clients) ∧ calls' t = calls t
  | [], s, s', calls, tt, k, h, hm, hr, _ => by
    cases hr
    have heq : tt.withClients s.threads.world.clients = tt := by rw [← hm.clients]; rfl
    rw [heq]
    exact ⟨k, calls, rfl, hm, h, rfl⟩
  | turn :: turns, s, s', calls, tt, k, h, hm, hr, hturns => by
    obtain ⟨s1, hs, hrest⟩ := Runs.run_cons_eq_some.mp hr
    obtain ⟨hc, ha⟩ := hturns turn List.mem_cons_self
    obtain ⟨k1, calls1, hk1, hm1, h1, heq1⟩ := h.free hm hs hc ha
    obtain ⟨k', calls', hk', hm', h', heq'⟩ := h1.frees hm1 hrest
      fun u hu => hturns u (List.mem_cons_of_mem _ hu)
    exact ⟨k', calls', Runs.run_cons_eq_some.mpr ⟨k1, hk1, hk'⟩, hm', h', heq'.trans heq1⟩

/-- What free turns leave alone. -/
theorem run_freeStep {s s' : LockedThreads} {turns : List Turn} (hr : Runs.run freeStep s turns = some s') :
    s'.tableCalls = s.tableCalls ∧ s'.table = { s.table with txnMgr := s'.table.txnMgr } := by
  refine Runs.run_invariant (Q := fun _ _ => True)
    (I := fun d => d.tableCalls = s.tableCalls ∧ d.table = { s.table with txnMgr := d.table.txnMgr }) ?_ ⟨rfl, rfl⟩
    (Runs.along_of_forall s fun _ _ _ => trivial) hr
  rintro d turn d' ⟨hcalls, htable⟩ - hs
  obtain ⟨-, hfree, a', hstep, rfl⟩ := freeStep_cases hs
  refine ⟨hcalls, ?_⟩
  have htable' := (freeMove hfree hstep).table
  show a'.db.table = { s.table with txnMgr := a'.db.table.txnMgr }
  have hd : d.threads.db.table = { s.table with txnMgr := d.table.txnMgr } := htable
  rw [htable', hd]

theorem later_of_frees {s s' : LockedThreads} {turns : List Turn} (hinv : s.threads.world.clients.Inv)
    (hr : Runs.run freeStep s turns = some s') :
    s'.threads.world.clients.Inv ∧ s.threads.world.clients.Later s'.threads.world.clients := by
  refine Runs.run_invariant (Q := fun _ _ => True)
    (I := fun d => d.threads.world.clients.Inv ∧ s.threads.world.clients.Later d.threads.world.clients) ?_
    ⟨hinv, Clients.Later.refl _⟩ (Runs.along_of_forall s fun _ _ _ => trivial) hr
  rintro d turn d' ⟨hd, hl⟩ - hs
  obtain ⟨-, hfree, a', hstep, rfl⟩ := freeStep_cases hs
  rcases (freeMove hfree hstep).clients with heq | ⟨op, hop, -⟩
  · rw [heq]
    exact ⟨hd, hl⟩
  · exact ⟨Clients.inv_step hd hop, hl.trans (Clients.later_step hd hop)⟩

/-- The status reads of a claim. -/
theorem readings {s s' : LockedThreads} {during : List (List Turn)} (hinv : s.threads.world.clients.Inv)
    (hr : Runs.run freeStep s during.flatten = some s') :
    Readings s.threads.world.clients (s.observed during)
      fun k => (Runs.momentAt freeStep s during k).threads.world.clients := by
  have hat := fun k => later_of_frees hinv (Runs.run_momentAt hr k).1
  refine ⟨fun k => ?_, fun k => (hat k).1, fun k => (hat k).2, fun k => ?_⟩
  · unfold observed
    rw [(Runs.run_momentAt hr k).1]
    rfl
  · obtain ⟨turns, hturns⟩ := Runs.run_momentAt_succ hr k
    exact (later_of_frees (hat k).1 hturns).2

end LockedThreads

end CoreDB
