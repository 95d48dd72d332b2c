import CoreDB.Mvcc.RacingReads
import CoreDB.Table.Committed

/-!
# A table under its locks (`table/table.cpp`)

The calls of a table are not atomic.  `Insert` takes its row id before it asks for any lock,
and appends the row later; `Update` claims the old version and appends the new one, each
under the lock of the delta layer, and a scan can copy the delta in between; the status reads
of a claim and of a scan race with commits.  `TableThreads` is a table with the calls that
are in flight, at most one for each transaction, and `TableThreads.step` one such part.

A call takes effect at one moment: an `Insert` when it takes its id, an `Update` or `Delete`
at the last status read of its claim.  `claim_pending`: a claim does not look at versions that
others have still to append.
-/

namespace CoreDB

open SharedCounter (fetchAdd)

/-- A call in flight: it appends the version `row` of row `rowId`. -/
structure TableCall where
  rowId : Nat
  row : Row
deriving DecidableEq, Repr

/-- What a call returns: `Insert` a row id, `Update` and `Delete` whether they have written. -/
inductive Answer where
  | rowId (x : Nat)
  | wrote (ok : Bool)
deriving DecidableEq, Repr

structure TableThreads where
  table : Table
  handle : Nat → Option Transaction := fun _ => none
  /-- The calls in flight, by transaction. -/
  calls : List (Nat × TableCall) := []
  /-- The calls that have taken effect, with what they return. -/
  answers : List (Op × Answer) := []

/-- One part of a call.  What happens before each status read of a claim is in `during`. -/
inductive TableMove where
  | txn (op : TxnOp)
  | insert (t : Nat) (row : Row)
  | update (t x : Nat) (row : Row) (during : List (List TxnOp))
  | delete (t x : Nat) (during : List (List TxnOp))
  | append (t : Nat)
deriving DecidableEq, Repr

namespace TableThreads

/-- The table of a world whose users have no call in flight. -/
def start (w : World) : TableThreads := { table := w.table, handle := w.handle }

def clients (s : TableThreads) : Clients := { mgr := s.table.txnMgr, handle := s.handle }

def withClients (s : TableThreads) (c : Clients) : TableThreads :=
  { s with table := { s.table with txnMgr := c.mgr }, handle := c.handle }

/-- The handle of `t`, if it is active and not in a call. -/
def caller (s : TableThreads) (t : Nat) : Option Transaction :=
  match Keyed.find s.calls t with
  | none => s.clients.active t
  | some _ => none

/-- Whoever is in a call does not commit or abort meanwhile. -/
def allows (s : TableThreads) : TxnOp → Bool
  | .begin => true
  | .commit t => (Keyed.find s.calls t).isNone
  | .abort t => (Keyed.find s.calls t).isNone

/-- The manager as the `k`-th status read of a claim finds it. -/
def observed (s : TableThreads) (during : List (List TxnOp)) (k : Nat) : TransactionManager :=
  match Runs.run Clients.step s.clients (during.take (k + 1)).flatten with
  | some c => c.mgr
  | none => s.table.txnMgr

/-- The claim of `Update` and `Delete`, with the clients after it. -/
def claim (s : TableThreads) (txn : Transaction) (x : Nat) (during : List (List TxnOp)) :
    Option (WriteResult × DeltaLayer × Clients) :=
  if during.flatten.all (fun op => s.allows op && op != .commit txn.txnId && op != .abort txn.txnId) then
    (Runs.run Clients.step s.clients during.flatten).map fun c =>
      let r := s.table.delta.claimUnder x txn (s.observed during) (s.table.rowIdExistsInBase x)
      (r.1, r.2, c)
  else none

/-- The table after a claim. -/
def claimed (s : TableThreads) (delta : DeltaLayer) (c : Clients) : TableThreads :=
  ({ s with table := { s.table with delta } } : TableThreads).withClients c

def step (s : TableThreads) : TableMove → Option TableThreads
  | .txn op => if s.allows op then (s.clients.step op).map s.withClients else none
  | .insert t row =>
    match s.caller t with
    | none => none
    | some _ =>
      let p := fetchAdd 64 s.table.nextRowId
      some { s with
        table := { s.table with nextRowId := p.2 }
        calls := Keyed.put s.calls t { rowId := p.1, row }
        answers := s.answers ++ [(.insert t row, .rowId p.1)] }
  | .update t x row during =>
    match s.caller t with
    | none => none
    | some txn =>
      match s.claim txn x during with
      | none => none
      | some (res, delta, c) =>
        some { s.claimed delta c with
          calls := if res = .ok then Keyed.put s.calls t { rowId := x, row } else s.calls
          answers := s.answers ++ [(.update t x row, .wrote (res == .ok))] }
  | .delete t x during =>
    match s.caller t with
    | none => none
    | some txn =>
      match s.claim txn x during with
      | none => none
      | some (res, delta, c) =>
        some { s.claimed delta c with answers := s.answers ++ [(.delete t x, .wrote (res == .ok))] }
  | .append t =>
    match Keyed.find s.calls t with
    | none => none
    | some call =>
      some { s with
        table := { s.table with delta := s.table.delta.insert call.rowId t call.row }
        calls := Keyed.erase s.calls t }

/-- No `fetch_add` wraps. -/
def noWrap (s : TableThreads) : TableMove → Bool
  | .insert _ _ => decide (s.table.nextRowId + 1 < 2 ^ 64)
  | _ => true

end TableThreads

/-! ## What the atomic calls return -/

namespace World

def answer (w : World) : Op → List (Op × Answer)
  | .txn _ => []
  | .insert t row =>
    match w.clients.active t with
    | some txn => [(.insert t row, .rowId (w.table.insert txn row).1)]
    | none => []
  | .insertWithRowId t x row => [(.insertWithRowId t x row, .rowId x)]
  | .update t x row =>
    match w.clients.active t with
    | some txn => [(.update t x row, .wrote (w.table.update txn x row).1)]
    | none => []
  | .delete t x =>
    match w.clients.active t with
    | some txn => [(.delete t x, .wrote (w.table.delete txn x).1)]
    | none => []
  | .compact _ => []

/-- What the calls `ops` return, made one after the other. -/
def answers : World → List Op → List (Op × Answer)
  | _, [] => []
  | w, op :: ops =>
    w.answer op ++
      match w.step op with
      | some w' => answers w' ops
      | none => []

theorem answers_append {w w' : World} {ops : List Op} (h : Runs.run step w ops = some w') (more : List Op) :
    w.answers (ops ++ more) = w.answers ops ++ w'.answers more := by
  induction ops generalizing w with
  | nil =>
    cases h
    rfl
  | cons op ops ih =>
    obtain ⟨u, hu, hrest⟩ := Runs.run_cons_eq_some.mp h
    rw [List.cons_append, answers, answers, hu]
    dsimp only
    rw [ih hrest, List.append_assoc]

theorem answers_txns (w : World) (ops : List TxnOp) : w.answers (ops.map .txn) = [] := by
  induction ops generalizing w with
  | nil => rfl
  | cons op ops ih =>
    rw [List.map_cons, answers, answer, List.nil_append]
    split
    · exact ih _
    · rfl

end World

/-! ## The claim of one row -/

section
variable (x : Nat) (w : Transaction) (m : TransactionManager)

theorem claimLoop_touched (l : List DeltaRecord) :
    claimLoop x w m true l = { claimLoop x w m false l with touched := true } := by
  induction l with
  | nil => rfl
  | cons a l ih =>
    by_cases hx : a.rowId = x
    · cases hs : claimStep a w m <;> simp [claimLoop, hx, hs, ih]
    · simp [claimLoop, hx, ih]

/-- The walk looks at the records of its row, and changes no other. -/
theorem claimLoop_row (l : List DeltaRecord) : ∀ touched,
    (claimLoop x w m touched l).touched = (claimLoop x w m touched (l.filter fun a => a.rowId == x)).touched ∧
    (claimLoop x w m touched l).result = (claimLoop x w m touched (l.filter fun a => a.rowId == x)).result ∧
    ((claimLoop x w m touched l).records.filter fun a => a.rowId == x) =
      (claimLoop x w m touched (l.filter fun a => a.rowId == x)).records ∧
    ∀ y, y ≠ x → ((claimLoop x w m touched l).records.filter fun a => a.rowId == y) = l.filter fun a => a.rowId == y := by
  induction l with
  | nil => intro touched; simp [claimLoop]
  | cons a l ih =>
    intro touched
    by_cases hx : a.rowId = x
    · obtain ⟨h1, h2, h3, h4⟩ := ih true
      cases hs : claimStep a w m with
      | conflict => simp [claimLoop, hx, hs]
      | claim =>
        refine ⟨by simp [claimLoop, hx, hs], by simp [claimLoop, hx, hs], ?_, fun y hy => ?_⟩
        · simp [claimLoop, hx, hs, DeltaRecord.claimedBy]
        · simp [claimLoop, hx, hs, DeltaRecord.claimedBy, Ne.symm hy]
      | skip =>
        refine ⟨by simpa [claimLoop, hx, hs] using h1, by simpa [claimLoop, hx, hs] using h2, ?_, fun y hy => ?_⟩
        · simp [claimLoop, hx, hs, h3]
        · simp [claimLoop, hx, hs, Ne.symm hy, h4 y hy]
    · obtain ⟨h1, h2, h3, h4⟩ := ih touched
      refine ⟨by simpa [claimLoop, hx] using h1, by simpa [claimLoop, hx] using h2, ?_, fun y hy => ?_⟩
      · simpa [claimLoop, hx] using h3
      · have hloop : (claimLoop x w m touched (a :: l)).records = a :: (claimLoop x w m touched l).records := by
          simp [claimLoop, hx]
        rw [hloop, List.filter_cons, List.filter_cons, h4 y hy]

/-- Records that are skipped do not matter. -/
theorem claimLoop_skip {new : List DeltaRecord} (hnew : ∀ a ∈ new, a.rowId = x ∧ claimStep a w m = .skip)
    (l : List DeltaRecord) : ∀ touched, claimLoop x w m touched (new ++ l) =
      { claimLoop x w m (touched || !new.isEmpty) l with
        records := new ++ (claimLoop x w m (touched || !new.isEmpty) l).records } := by
  induction new with
  | nil => intro touched; simp
  | cons a new ih =>
    intro touched
    obtain ⟨hx, hs⟩ := hnew a List.mem_cons_self
    have hrest := ih (fun b hb => hnew b (List.mem_cons_of_mem _ hb)) true
    simp only [Bool.true_or] at hrest
    simp [claimLoop, hx, hs, hrest]

/-- A claim is a claim on the records of its row. -/
theorem claim_row (records : DeltaLayer) (inBase : Bool) :
    (records.claimOrInsertBaseTombstone x w m inBase).1 =
      (DeltaLayer.claimOrInsertBaseTombstone (records.filter fun a => a.rowId == x) x w m inBase).1 ∧
    ((records.claimOrInsertBaseTombstone x w m inBase).2.filter fun a => a.rowId == x) =
      (DeltaLayer.claimOrInsertBaseTombstone (records.filter fun a => a.rowId == x) x w m inBase).2 ∧
    ∀ y, y ≠ x → ((records.claimOrInsertBaseTombstone x w m inBase).2.filter fun a => a.rowId == y) =
      records.filter fun a => a.rowId == y := by
  obtain ⟨htouched, hresult, hrecords, hothers⟩ := claimLoop_row x w m records.reverse false
  rw [List.filter_reverse] at htouched hresult hrecords
  unfold DeltaLayer.claimOrInsertBaseTombstone
  dsimp only
  rw [hresult, htouched]
  cases (claimLoop x w m false (records.filter fun a => a.rowId == x).reverse).result with
  | some res =>
    refine ⟨rfl, ?_, fun y hy => ?_⟩
    · dsimp only
      rw [List.filter_reverse, hrecords]
    · dsimp only
      rw [List.filter_reverse, hothers y hy, List.filter_reverse, List.reverse_reverse]
  | none =>
    dsimp only
    split
    · refine ⟨rfl, ?_, fun y hy => ?_⟩
      · simp [List.filter_append, DeltaRecord.tombstone]
      · simp [List.filter_append, DeltaRecord.tombstone, Ne.symm hy]
    · exact ⟨rfl, rfl, fun _ _ => rfl⟩

/-- A walk that runs through all records of the row has touched them. -/
theorem touched_of_none {l : List DeltaRecord} (hl : ∀ a ∈ l, a.rowId = x) (hne : l ≠ [])
    (h : (claimLoop x w m false l).result = none) : (claimLoop x w m false l).touched = true := by
  rcases claimLoop_spec x w m l false with ⟨new, it, old, -, -, -, -, hr⟩ | ⟨it, -, -, -, hr⟩ | ⟨-, hr⟩
  · rw [hr] at h
    cases h
  · rw [hr] at h
    cases h
  · obtain ⟨a, l', rfl⟩ := List.exists_cons_of_ne_nil hne
    rw [hr]
    simp [hl a List.mem_cons_self]

/-- **A claim on a row with versions still to be appended.**  They are skipped, so the
claim does what it does without them. -/
theorem claim_pending {fine coarse pend : DeltaLayer} {inBase : Bool}
    (hrow : (coarse.filter fun a => a.rowId == x) = (fine.filter fun a => a.rowId == x) ++ pend)
    (hskip : ∀ a ∈ pend, claimStep a w m = .skip)
    (hquiet : pend ≠ [] → (fine.filter fun a => a.rowId == x) ≠ [] ∨ inBase = false) :
    (coarse.claimOrInsertBaseTombstone x w m inBase).1 = (fine.claimOrInsertBaseTombstone x w m inBase).1 ∧
    ((coarse.claimOrInsertBaseTombstone x w m inBase).2.filter fun a => a.rowId == x) =
      ((fine.claimOrInsertBaseTombstone x w m inBase).2.filter fun a => a.rowId == x) ++ pend := by
  obtain ⟨hc1, hc2, -⟩ := claim_row x w m coarse inBase
  obtain ⟨hf1, hf2, -⟩ := claim_row x w m fine inBase
  rw [hc1, hf1, hc2, hf2, hrow]
  have hx : ∀ a ∈ (fine.filter fun a => a.rowId == x) ++ pend, a.rowId = x := by
    intro a ha
    rw [← hrow] at ha
    simpa using (List.mem_filter.mp ha).2
  generalize (fine.filter fun a => a.rowId == x) = R at hx hquiet
  by_cases hnil : pend = []
  · simp [hnil]
  have hpend : ∀ a ∈ pend.reverse, a.rowId = x ∧ claimStep a w m = .skip := by
    intro a ha
    have ha := List.mem_reverse.mp ha
    exact ⟨hx a (List.mem_append_right _ ha), hskip a ha⟩
  have hloop := claimLoop_skip x w m hpend R.reverse false
  rw [show (false || !pend.reverse.isEmpty) = true by simp [hnil], claimLoop_touched] at hloop
  unfold DeltaLayer.claimOrInsertBaseTombstone
  rw [List.reverse_append, hloop]
  dsimp only
  cases hres : (claimLoop x w m false R.reverse).result with
  | some res => simp
  | none =>
    have hfail : ¬ ((!(claimLoop x w m false R.reverse).touched && inBase) = true) := by
      rcases hquiet hnil with hne | hin
      · rw [touched_of_none x w m (fun a ha => hx a (List.mem_append_left _ (List.mem_reverse.mp ha)))
          (by simpa using hne) hres]
        simp
      · simp [hin]
    simp [hfail]

end

end CoreDB
