import CoreDB.Lib.SharedCounter
import CoreDB.Lib.Keyed
import CoreDB.Table.Table

/-!
# Concurrent callers of a table (`table/table.cpp`)

`next_row_id_` and `next_segment_id_` are 64-bit atomics.  `Insert` takes its row id
before it asks for the table lock; `InsertWithRowId` appends its row under the shared
lock and then raises the allocator by retrying exchanges.  `Callers` is a table with
the calls in flight on it, and `Callers.step` one atomic step of one of them, so that
runs are all interleavings.  `Compact` needs the lock for itself and is one step, with
the transactions that begin and end meanwhile.  It never looks at `next_row_id_`, so an
`Insert` that takes its id meanwhile, and then waits for the lock, may as well take it
right after.

A call that nobody interferes with does what the function of `Table` does
(`insert_alone`, `update_alone`, `insertWithRowId_alone`); other threads never touch
a call in flight (`find_calls_run`).
-/

namespace CoreDB

open SharedCounter

namespace Table

/-- `Compact` as its caller finds the table: the segment id is taken before `Build`, which may
throw and leave everything else as it was. -/
def compactCall (t : Table) (obs : Nat → TransactionManager) : Table :=
  match t.compactUnder obs with
  | some t' => { t' with nextSegmentId := t'.nextSegmentId % 2 ^ 64 }
  | none =>
    if (t.mergedRows (compactLoop obs t.txnMgr.oldestActiveSnapshot t.delta)).isSome then
      { t with nextSegmentId := (fetchAdd 64 t.nextSegmentId).2 }
    else t

/-- `Compact` takes a segment id. -/
def takesSegmentId (t : Table) (obs : Nat → TransactionManager) : Bool :=
  let st := compactLoop obs t.txnMgr.oldestActiveSnapshot t.delta
  decide (st.liveStableRows ≠ [] ∨ st.stablyDeletedRowIds ≠ []) && (t.mergedRows st).isSome

end Table

/-! ## Calls in flight -/

/-- A call in flight, by what it does next. -/
inductive Call where
  /-- `Insert` has taken its row id; it takes the lock and appends the row. -/
  | insert (txn : Transaction) (row : Row) (rowId : Nat)
  /-- `Update` has claimed the row; it appends the new version. -/
  | update (txn : Transaction) (row : Row) (rowId : Nat)
  /-- `InsertWithRowId` has appended the row; it raises the allocator. -/
  | insertWithRowId (rowId : Nat) (loop : Raise)
deriving DecidableEq, Repr

/-- The call holds the table lock, with others. -/
def Call.holdsLock : Call → Bool
  | .insert _ _ _ => false
  | _ => true

/-- A table, the transaction handles of its users, the calls in flight by thread, and the
row ids that `Insert` has returned. -/
structure Callers where
  table : Table
  handle : Nat → Option Transaction := fun _ => none
  calls : List (Nat × Call) := []
  returned : List Nat := []

/-- One atomic step: of the manager, of thread `k` for transaction `t`, or a `Compact`
with what happens before each of its status reads. -/
inductive Move where
  | txn (op : TxnOp)
  | insert (k t : Nat) (row : Row)
  | insertWithRowId (k t rowId : Nat) (row : Row)
  | update (k t rowId : Nat) (row : Row)
  | delete (k t rowId : Nat)
  | append (k : Nat)
  | raise (k : Nat) (spurious : Bool)
  | compact (during : List (List TxnOp))
deriving DecidableEq, Repr

/-- The thread that moves. -/
def Move.thread : Move → Option Nat
  | .insert k _ _ => some k
  | .insertWithRowId k _ _ _ => some k
  | .update k _ _ _ => some k
  | .delete k _ _ => some k
  | .append k => some k
  | .raise k _ => some k
  | _ => none

/-- The row id brought along, if any, is below 2⁶⁴ - 1. -/
def Move.idFits : Move → Bool
  | .insertWithRowId _ _ rowId _ => decide (rowId < 2 ^ 64 - 1)
  | _ => true

namespace Callers

/-- A new table that has loaded segments. -/
def load (userSchema : Schema) (segs : List Segment) : Callers :=
  { table := ({ userSchema } : Table).loadBaseSegments segs }

def clients (s : Callers) : Clients := { mgr := s.table.txnMgr, handle := s.handle }

def withClients (s : Callers) (c : Clients) : Callers :=
  { s with table := { s.table with txnMgr := c.mgr }, handle := c.handle }

/-- The manager as `Compact`'s `k`-th status read finds it. -/
def observed (s : Callers) (during : List (List TxnOp)) (k : Nat) : TransactionManager :=
  match Runs.run Clients.step s.clients (during.take (k + 1)).flatten with
  | some c => c.mgr
  | none => s.table.txnMgr

/-- The handle for a call of thread `k`, if the thread is free. -/
def caller (s : Callers) (k t : Nat) : Option Transaction :=
  match Keyed.find s.calls k with
  | none => s.handle t
  | some _ => none

/-- Thread `k` has a call in flight. -/
def busy (s : Callers) (k : Nat) (call : Call) (table : Table) : Callers :=
  { s with table, calls := Keyed.put s.calls k call }

/-- The call of thread `k` has returned. -/
def finished (s : Callers) (k : Nat) (table : Table) : Callers :=
  { s with table, calls := Keyed.erase s.calls k }

/-- The claim of `Update` and `Delete`: its result, and the records after it. -/
def claim (s : Callers) (txn : Transaction) (rowId : Nat) : WriteResult × DeltaLayer :=
  s.table.delta.claimOrInsertBaseTombstone rowId txn s.table.txnMgr (s.table.rowIdExistsInBase rowId)

def step (s : Callers) : Move → Option Callers
  | .txn op => (s.clients.step op).map s.withClients
  | .insert k t row =>
    match s.caller k t with
    | some txn =>
      let p := fetchAdd 64 s.table.nextRowId
      some (s.busy k (.insert txn row p.1) { s.table with nextRowId := p.2 })
    | none => none
  | .insertWithRowId k t rowId row =>
    match s.caller k t with
    | some txn =>
      some (s.busy k (.insertWithRowId rowId .load)
        { s.table with delta := s.table.delta.insert rowId txn.txnId row })
    | none => none
  | .update k t rowId row =>
    match s.caller k t with
    | some txn =>
      let r := s.claim txn rowId
      if r.1 = .ok then some (s.busy k (.update txn row rowId) { s.table with delta := r.2 })
      else some { s with table := { s.table with delta := r.2 } }
    | none => none
  | .delete k t rowId =>
    match s.caller k t with
    | some txn => some { s with table := (s.table.delete txn rowId).2 }
    | none => none
  | .append k =>
    match Keyed.find s.calls k with
    | some (.insert txn row rowId) =>
      let s' := s.finished k { s.table with delta := s.table.delta.insert rowId txn.txnId row }
      some { s' with returned := s.returned ++ [rowId] }
    | some (.update txn row rowId) =>
      some (s.finished k { s.table with delta := s.table.delta.insert rowId txn.txnId row })
    | _ => none
  | .raise k spurious =>
    match Keyed.find s.calls k with
    | some (.insertWithRowId rowId loop) =>
      match loop.step 64 rowId spurious s.table.nextRowId with
      | (n, some loop) => some (s.busy k (.insertWithRowId rowId loop) { s.table with nextRowId := n })
      | (n, none) => some (s.finished k { s.table with nextRowId := n })
    | _ => none
  | .compact during =>
    if s.calls.all (fun p => !p.2.holdsLock) then
      (Runs.run Clients.step s.clients during.flatten).map
        ({ s with table := s.table.compactCall (s.observed during) } : Callers).withClients
    else none

/-- No `fetch_add` of the step wraps its counter around. -/
def noWrap (s : Callers) : Move → Bool
  | .insert _ _ _ => s.table.nextRowId != 2 ^ 64 - 1
  | .compact during => !s.table.takesSegmentId (s.observed during) || s.table.nextSegmentId != 2 ^ 64 - 1
  | _ => true

/-- The steps that are possible, with their guards. -/
inductive Step (s : Callers) : Move → Callers → Prop where
  | txn (op : TxnOp) (c : Clients) (ran : s.clients.step op = some c) : Step s (.txn op) (s.withClients c)
  | insert (k t : Nat) (row : Row) (txn : Transaction) (free : s.caller k t = some txn) :
      Step s (.insert k t row) (s.busy k (.insert txn row s.table.nextRowId)
        { s.table with nextRowId := (s.table.nextRowId + 1) % 2 ^ 64 })
  | insertWithRowId (k t x : Nat) (row : Row) (txn : Transaction) (free : s.caller k t = some txn) :
      Step s (.insertWithRowId k t x row) (s.busy k (.insertWithRowId x .load)
        { s.table with delta := s.table.delta.insert x txn.txnId row })
  | claim (k t x : Nat) (row : Row) (txn : Transaction) (free : s.caller k t = some txn)
      (ok : (s.claim txn x).1 = .ok) :
      Step s (.update k t x row) (s.busy k (.update txn row x) { s.table with delta := (s.claim txn x).2 })
  | refuse (k t x : Nat) (row : Row) (txn : Transaction) (free : s.caller k t = some txn)
      (no : (s.claim txn x).1 ≠ .ok) :
      Step s (.update k t x row) { s with table := { s.table with delta := (s.claim txn x).2 } }
  | delete (k t x : Nat) (txn : Transaction) (free : s.caller k t = some txn) :
      Step s (.delete k t x) { s with table := { s.table with delta := (s.claim txn x).2 } }
  | inserted (k : Nat) (txn : Transaction) (row : Row) (x : Nat)
      (call : Keyed.find s.calls k = some (.insert txn row x)) :
      Step s (.append k) { s.finished k { s.table with delta := s.table.delta.insert x txn.txnId row } with
        returned := s.returned ++ [x] }
  | updated (k : Nat) (txn : Transaction) (row : Row) (x : Nat)
      (call : Keyed.find s.calls k = some (.update txn row x)) :
      Step s (.append k) (s.finished k { s.table with delta := s.table.delta.insert x txn.txnId row })
  | retry (k : Nat) (spurious : Bool) (x : Nat) (loop : Raise) (n : Nat) (loop' : Raise)
      (call : Keyed.find s.calls k = some (.insertWithRowId x loop))
      (took : loop.step 64 x spurious s.table.nextRowId = (n, some loop')) :
      Step s (.raise k spurious) (s.busy k (.insertWithRowId x loop') { s.table with nextRowId := n })
  | leave (k : Nat) (spurious : Bool) (x : Nat) (loop : Raise) (n : Nat)
      (call : Keyed.find s.calls k = some (.insertWithRowId x loop))
      (took : loop.step 64 x spurious s.table.nextRowId = (n, none)) :
      Step s (.raise k spurious) (s.finished k { s.table with nextRowId := n })
  | compact (during : List (List TxnOp)) (c : Clients) (alone : s.calls.all (fun p => !p.2.holdsLock) = true)
      (ran : Runs.run Clients.step s.clients during.flatten = some c) :
      Step s (.compact during)
        (({ s with table := s.table.compactCall (s.observed during) } : Callers).withClients c)

theorem step_cases {s s' : Callers} {m : Move} (hs : s.step m = some s') : s.Step m s' := by
  cases m with
  | txn op =>
    obtain ⟨c, hc, rfl⟩ := Option.map_eq_some_iff.mp hs
    exact .txn op c hc
  | insert k t row =>
    simp only [step] at hs
    split at hs
    · next txn hc =>
      cases hs
      exact .insert k t row txn hc
    · cases hs
  | insertWithRowId k t x row =>
    simp only [step] at hs
    split at hs
    · next txn hc =>
      cases hs
      exact .insertWithRowId k t x row txn hc
    · cases hs
  | update k t x row =>
    simp only [step] at hs
    split at hs
    · next txn hc =>
      split at hs
      · next hok =>
        cases hs
        exact .claim k t x row txn hc hok
      · next hno =>
        cases hs
        exact .refuse k t x row txn hc hno
    · cases hs
  | delete k t x =>
    simp only [step] at hs
    split at hs
    · next txn hc =>
      cases hs
      exact .delete k t x txn hc
    · cases hs
  | append k =>
    simp only [step] at hs
    split at hs
    · next txn row x hk =>
      cases hs
      exact .inserted k txn row x hk
    · next txn row x hk =>
      cases hs
      exact .updated k txn row x hk
    · cases hs
  | raise k spurious =>
    simp only [step] at hs
    split at hs
    · next x loop hk =>
      split at hs
      · next n loop' htook =>
        cases hs
        exact .retry k spurious x loop n loop' hk htook
      · next n htook =>
        cases hs
        exact .leave k spurious x loop n hk htook
    · cases hs
  | compact during =>
    simp only [step] at hs
    split at hs
    · next halone =>
      obtain ⟨c, hc, rfl⟩ := Option.map_eq_some_iff.mp hs
      exact .compact during c halone hc
    · cases hs

theorem caller_eq_some {s : Callers} {k t : Nat} {txn : Transaction} (hc : s.caller k t = some txn) :
    Keyed.find s.calls k = none := by
  unfold caller at hc
  split at hc
  · next hk => exact hk
  · cases hc

/-- A thread that may start a call is not inside `InsertWithRowId`. -/
theorem not_raising_of_caller {s : Callers} {k t : Nat} {txn : Transaction} (hc : s.caller k t = some txn) (x : Nat)
    (loop : Raise) : Keyed.find s.calls k ≠ some (.insertWithRowId x loop) := by
  rw [caller_eq_some hc]
  simp

/-! ## Calls that nobody interferes with -/

section
variable {s s' : Callers} {k t : Nat} {txn : Transaction} (hc : s.caller k t = some txn)
include hc

/-- `Insert` alone. -/
theorem insert_alone {row : Row} (hroom : s.table.nextRowId + 1 < 2 ^ 64)
    (hrun : Runs.run step s [.insert k t row, .append k] = some s') :
    (s'.returned, s'.table) =
      (s.returned ++ [(s.table.insert txn row).1], (s.table.insert txn row).2) := by
  simp only [Runs.run, step, hc, busy, Keyed.find_put, if_true, finished] at hrun
  rw [← Option.some.inj hrun]
  simp only [fetchAdd, Nat.mod_eq_of_lt hroom, Table.insert]

/-- `Update` alone: one step when it fails, two when it does not. -/
theorem update_alone {x : Nat} {row : Row} {later : List Move} (hlater : later = [] ∨ later = [.append k])
    (hrun : Runs.run step s (.update k t x row :: later) = some s') (hdone : Keyed.find s'.calls k = none) :
    s'.table = (s.table.update txn x row).2 := by
  obtain ⟨s1, h1, h2⟩ := Runs.run_cons_eq_some.mp hrun
  simp only [step, hc] at h1
  unfold Table.update
  rw [show s.table.delta.claimOrInsertBaseTombstone x txn s.table.txnMgr (s.table.rowIdExistsInBase x) =
    s.claim txn x from rfl]
  dsimp only
  split at h1
  · next hok =>
    cases h1
    rw [if_pos hok]
    rcases hlater with rfl | rfl
    · cases h2
      simp [busy, Keyed.find_put] at hdone
    · simp only [Runs.run, step, busy, Keyed.find_put, if_true, finished] at h2
      rw [← Option.some.inj h2]
  · next hno =>
    cases h1
    rw [if_neg hno]
    rcases hlater with rfl | rfl
    · cases h2
      rfl
    · simp only [Runs.run, step, caller_eq_some hc] at h2
      cases h2

omit hc in
/-- However often the exchange of a caller alone fails, the allocator ends where `raise` has it. -/
theorem raises_alone {x : Nat} (hx : x + 1 < 2 ^ 64) (flags : List Bool) {s s' : Callers} {loop : Raise}
    (hk : Keyed.find s.calls k = some (.insertWithRowId x loop))
    (hloop : loop = .load ∨ loop = .test s.table.nextRowId)
    (hrun : Runs.run step s (flags.map (.raise k)) = some s') (hdone : Keyed.find s'.calls k = none) :
    s'.table = { s.table with nextRowId := Table.raise s.table.nextRowId x } := by
  induction flags generalizing s loop with
  | nil =>
    rw [← Option.some.inj hrun, hk] at hdone
    cases hdone
  | cons spurious flags ih =>
    obtain ⟨s1, h1, h2⟩ := Runs.run_cons_eq_some.mp hrun
    simp only [step, hk] at h1
    rcases Raise.step_undisturbed hx spurious hloop with hstep | hstep
    · rw [hstep] at h1
      cases h1
      have hcall : Keyed.find (s.busy k (.insertWithRowId x (.test s.table.nextRowId)) s.table).calls k =
          some (.insertWithRowId x (.test s.table.nextRowId)) := by
        simp only [busy, Keyed.find_put, if_true]
      have hend := ih hcall (Or.inr rfl) h2
      exact hend
    · rw [hstep] at h1
      cases h1
      cases flags with
      | nil =>
        rw [← Option.some.inj h2]
        rfl
      | cons b flags =>
        -- the call has returned
        simp [Runs.run, step, finished, Keyed.find_erase] at h2

theorem insertWithRowId_alone {x : Nat} {row : Row} (hx : x + 1 < 2 ^ 64) {flags : List Bool}
    (hrun : Runs.run step s (.insertWithRowId k t x row :: flags.map (.raise k)) = some s')
    (hdone : Keyed.find s'.calls k = none) : s'.table = s.table.insertWithRowId txn x row := by
  obtain ⟨s1, h1, h2⟩ := Runs.run_cons_eq_some.mp hrun
  simp only [step, hc] at h1
  cases h1
  exact raises_alone hx flags (by simp [busy, Keyed.find_put]) (Or.inl rfl) h2 hdone

end

/-! ## A call and the other threads -/

/-- A step of another thread leaves the call of thread `k` where it is. -/
theorem find_calls_step {s s' : Callers} {m : Move} {k : Nat} (hk : m.thread ≠ some k) (hs : s.step m = some s') :
    Keyed.find s'.calls k = Keyed.find s.calls k := by
  have hput : ∀ {j : Nat} (c : Call), some j ≠ some k →
      Keyed.find (Keyed.put s.calls j c) k = Keyed.find s.calls k := by
    intro j c hj
    rw [Keyed.find_put, if_neg (fun heq => hj (congrArg some heq.symm))]
  have herase : ∀ {j : Nat}, some j ≠ some k → Keyed.find (Keyed.erase s.calls j) k = Keyed.find s.calls k := by
    intro j hj
    rw [Keyed.find_erase, if_neg (fun heq => hj (congrArg some heq.symm))]
  cases step_cases hs with
  | txn op c ran => rfl
  | insert j t row txn free => exact hput _ hk
  | insertWithRowId j t x row txn free => exact hput _ hk
  | claim j t x row txn free ok => exact hput _ hk
  | refuse j t x row txn free no => rfl
  | delete j t x txn free => rfl
  | inserted j txn row x call => exact herase hk
  | updated j txn row x call => exact herase hk
  | retry j spurious x loop n loop' call took => exact hput _ hk
  | leave j spurious x loop n call took => exact herase hk
  | compact during c alone ran => rfl

theorem find_calls_run {k : Nat} {moves : List Move} (hk : ∀ m ∈ moves, m.thread ≠ some k) {s s' : Callers}
    (hrun : Runs.run step s moves = some s') : Keyed.find s'.calls k = Keyed.find s.calls k := by
  have hothers : Runs.Along step (fun _ m => m.thread ≠ some k) s moves :=
    Runs.along_of_forall _ fun _ m hm => hk m hm
  refine Runs.run_invariant (I := fun s' => Keyed.find s'.calls k = Keyed.find s.calls k) ?_ rfl hothers hrun
  intro s1 m s2 h hm hs
  rw [find_calls_step hm hs, h]

/-- **What `Insert` returns** is the allocator as it was when the call began, whatever other
threads do before the row is appended. -/
theorem insert_returns {s s' : Callers} {k t : Nat} {row : Row} {later : List Move}
    (hlater : ∀ m ∈ later, m.thread ≠ some k)
    (hrun : Runs.run step s (.insert k t row :: (later ++ [.append k])) = some s') :
    s'.returned.getLast? = some s.table.nextRowId := by
  obtain ⟨s1, h1, h2⟩ := Runs.run_cons_eq_some.mp hrun
  obtain ⟨s2, h3, h4⟩ := Runs.run_append_eq_some.mp h2
  have hcall := find_calls_run hlater h3
  cases step_cases h1 with
  | insert k t row txn free =>
    rw [show Keyed.find (s.busy k _ _).calls k = some (.insert txn row s.table.nextRowId) by
      simp [busy, Keyed.find_put]] at hcall
    simp only [Runs.run, step, hcall] at h4
    rw [← Option.some.inj h4]
    exact List.getLast?_concat

end Callers

end CoreDB
