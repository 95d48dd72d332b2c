import CoreDB.Table.Compaction

/-!
# A table and its transactions

`World` is a table, the transaction handles its users hold, and the log of what
has succeeded; the log is also what a database writes to its WAL.  `World.step` is
one call by one user: runs of it are all interleavings.  A transaction writes only
while it is active.  `InsertWithRowId` is only called with an id the table has not
issued (recovery replays ids in the order they were issued).

`Compact` runs with other users' `Begin`, `Commit` and `Abort` in between: `during`
lists what happens before each of its status reads.  It is a step as long as row
ids fit their 64-bit column and row numbers the 32-bit dictionary codes.

`World.Inv` holds in every run (`inv_run`); `World.Grounded` holds in every run
whose `Compact`s find no covered tombstone (`grounded_run`).
-/

namespace CoreDB

inductive Event where
  | begin (t : Nat)
  | write (t x : Nat) (w : Write)
  | commit (t ts : Nat)
  | abort (t : Nat)
deriving DecidableEq, Repr

/-- The write to row `x`, if the event is one. -/
def Event.writeTo (x : Nat) : Event → Option (Nat × Write)
  | .write t y w => if y = x then some (t, w) else none
  | _ => none

def TxnOp.event (m : TransactionManager) : TxnOp → Event
  | .begin => .begin m.nextId
  | .commit t => .commit t m.nextId
  | .abort t => .abort t

structure World where
  table : Table
  handle : Nat → Option Transaction := fun _ => none
  log : List Event := []

/-- One 64-bit integer column: the schema of concrete runs. -/
def oneColumn : Schema := [{ name := "v", type := .int64 }]

inductive Op where
  | txn (op : TxnOp)
  | insert (t : Nat) (row : Row)
  | insertWithRowId (t x : Nat) (row : Row)
  | update (t x : Nat) (row : Row)
  | delete (t x : Nat)
  | compact (during : List (List TxnOp))
deriving DecidableEq, Repr

namespace World

/-- A new table. -/
def create (userSchema : Schema) : World := { table := { userSchema } }

def clients (w : World) : Clients := { mgr := w.table.txnMgr, handle := w.handle }

/-- All about row `x`. -/
def row (w : World) (x : Nat) : RowState :=
  rowOf w.table.delta (basePairs w.table.baseSegments) (w.log.filterMap (Event.writeTo x)) x

def withClients (w : World) (c : Clients) (e : Event) : World :=
  { table := { w.table with txnMgr := c.mgr }, handle := c.handle, log := w.log ++ [e] }

def txnStep (w : World) (op : TxnOp) : Option World :=
  (w.clients.step op).map fun c => w.withClients c (op.event w.table.txnMgr)

/-- The manager as `Compact`'s `k`-th status read finds it. -/
def observed (w : World) (during : List (List TxnOp)) (k : Nat) : TransactionManager :=
  match Runs.run txnStep w (during.take (k + 1)).flatten with
  | some w' => w'.table.txnMgr
  | none => w.table.txnMgr

/-- Row ids fit the row-id column, and row numbers the dictionary codes. -/
def fits (w : World) : Bool :=
  decide (w.table.nextRowId ≤ 2 ^ 64 ∧
    (basePairs w.table.baseSegments).length + w.table.delta.length < 2 ^ 32)

/-- The world after a successful write. -/
def wrote (w : World) (table : Table) (t x : Nat) (wr : Write) : World :=
  { w with table, log := w.log ++ [.write t x wr] }

def step (w : World) : Op → Option World
  | .txn op => w.txnStep op
  | .insert t row =>
    match w.clients.active t with
    | some txn => some (w.wrote (w.table.insert txn row).2 t (w.table.insert txn row).1 (.insert row))
    | none => none
  | .insertWithRowId t x row =>
    match w.clients.active t with
    | some txn =>
      if w.table.nextRowId ≤ x then some (w.wrote (w.table.insertWithRowId txn x row) t x (.insert row)) else none
    | none => none
  | .update t x row =>
    match w.clients.active t with
    | some txn =>
      let p := w.table.update txn x row
      if p.1 then some (w.wrote p.2 t x (.update row)) else some { w with table := p.2 }
    | none => none
  | .delete t x =>
    match w.clients.active t with
    | some txn =>
      let p := w.table.delete txn x
      if p.1 then some (w.wrote p.2 t x .delete) else some { w with table := p.2 }
    | none => none
  | .compact during =>
    if w.fits then
      match Runs.run txnStep w during.flatten with
      | some w' =>
        (w.table.compactUnder (w.observed during)).map fun t =>
          { w' with table := { t with txnMgr := w'.table.txnMgr } }
      | none => none
    else none

/-! ## What a step can be -/

/-- A write that returned true, with the delta after its claim. -/
structure Claimed (w : World) (t x : Nat) (txn : Transaction) (delta : DeltaLayer) : Prop where
  active : w.clients.active t = some txn
  ok : w.table.delta.claimOrInsertBaseTombstone x txn w.table.txnMgr (w.table.rowIdExistsInBase x) = (.ok, delta)

/-- The world after a claim and the version that `wr` leaves. -/
def claimed (w : World) (delta : DeltaLayer) (t x : Nat) (wr : Write) : World :=
  w.wrote { w.table with delta := delta ++ wr.versions x t } t x wr

inductive Step (w : World) : Op → World → Prop where
  | txn (op : TxnOp) (c : Clients) (hc : w.clients.step op = some c) :
      Step w (.txn op) (w.withClients c (op.event w.table.txnMgr))
  | insert {op : Op} (t x : Nat) (txn : Transaction) (row : Row)
      (hop : (op = .insert t row ∧ x = w.table.nextRowId) ∨ op = .insertWithRowId t x row)
      (active : w.clients.active t = some txn) (new : w.table.nextRowId ≤ x) :
      Step w op (w.wrote (w.table.insertWithRowId txn x row) t x (.insert row))
  | write {op : Op} (t x : Nat) (txn : Transaction) (delta : DeltaLayer) (wr : Write)
      (hop : (∃ row, op = .update t x row ∧ wr = .update row) ∨ (op = .delete t x ∧ wr = .delete))
      (claim : w.Claimed t x txn delta) : Step w op (w.claimed delta t x wr)
  | fail {op : Op} (t x : Nat) (txn : Transaction)
      (hop : (∃ row, op = .update t x row) ∨ op = .delete t x) (active : w.clients.active t = some txn)
      (refused : ∃ res, res ≠ .ok ∧ w.table.delta.claimOrInsertBaseTombstone x txn w.table.txnMgr
        (w.table.rowIdExistsInBase x) = (res, w.table.delta)) : Step w op w
  | compact (during : List (List TxnOp)) (w1 : World) (t : Table) (fits : w.fits = true)
      (ran : Runs.run txnStep w during.flatten = some w1)
      (compacted : w.table.compactUnder (w.observed during) = some t) :
      Step w (.compact during) { w1 with table := { t with txnMgr := w1.table.txnMgr } }

theorem insert_eq (t : Table) (txn : Transaction) (row : Row) :
    (t.insert txn row).2 = t.insertWithRowId txn t.nextRowId row := by
  simp [Table.insert, Table.insertWithRowId, Table.raise]

theorem update_cases (t : Table) (txn : Transaction) (x : Nat) (row : Row) :
    (∃ delta, t.delta.claimOrInsertBaseTombstone x txn t.txnMgr (t.rowIdExistsInBase x) = (.ok, delta) ∧
      t.update txn x row = (true, { t with delta := delta ++ [.version x txn.txnId row] })) ∨
    (∃ res, res ≠ .ok ∧ t.delta.claimOrInsertBaseTombstone x txn t.txnMgr (t.rowIdExistsInBase x) =
      (res, t.delta) ∧ t.update txn x row = (false, t)) := by
  unfold Table.update
  rcases claim_cases t.delta x txn t.txnMgr (t.rowIdExistsInBase x) with ⟨old, it, new, -, -, -, -, hr⟩ |
    ⟨-, -, hr⟩ | ⟨-, res, hres, hr⟩
  · exact Or.inl ⟨_, hr, by simp [hr, DeltaLayer.insert]⟩
  · exact Or.inl ⟨_, hr, by simp [hr, DeltaLayer.insert]⟩
  · exact Or.inr ⟨res, hres, hr, by simp [hr, hres]⟩

theorem delete_cases (t : Table) (txn : Transaction) (x : Nat) :
    (∃ delta, t.delta.claimOrInsertBaseTombstone x txn t.txnMgr (t.rowIdExistsInBase x) = (.ok, delta) ∧
      t.delete txn x = (true, { t with delta })) ∨
    (∃ res, res ≠ .ok ∧ t.delta.claimOrInsertBaseTombstone x txn t.txnMgr (t.rowIdExistsInBase x) =
      (res, t.delta) ∧ t.delete txn x = (false, t)) := by
  unfold Table.delete
  rcases claim_cases t.delta x txn t.txnMgr (t.rowIdExistsInBase x) with ⟨old, it, new, -, -, -, -, hr⟩ |
    ⟨-, -, hr⟩ | ⟨-, res, hres, hr⟩
  · exact Or.inl ⟨_, hr, by simp [hr]⟩
  · exact Or.inl ⟨_, hr, by simp [hr]⟩
  · exact Or.inr ⟨res, hres, hr, by simp [hr, hres]⟩

/-- **What a step can be.** -/
theorem step_cases {w w' : World} {op : Op} (hid : ∀ t txn, w.clients.active t = some txn → txn.txnId = t)
    (h : w.step op = some w') : Step w op w' := by
  cases op with
  | txn op =>
    simp only [step, txnStep, Option.map_eq_some_iff] at h
    obtain ⟨c, hc, rfl⟩ := h
    exact .txn op c hc
  | insert t row =>
    simp only [step] at h
    split at h
    · next txn ht =>
      obtain rfl := Option.some.inj h
      rw [insert_eq]
      exact .insert t _ txn row (Or.inl ⟨rfl, rfl⟩) ht (Nat.le_refl _)
    · cases h
  | insertWithRowId t x row =>
    simp only [step] at h
    split at h
    · next txn ht =>
      split at h
      · next hx =>
        obtain rfl := Option.some.inj h
        exact .insert t x txn row (Or.inr rfl) ht hx
      · cases h
    · cases h
  | update t x row =>
    simp only [step] at h
    split at h
    · next txn ht =>
      rcases update_cases w.table txn x row with ⟨delta, hok, heq⟩ | ⟨res, hres, hno, heq⟩
      · rw [heq] at h
        obtain rfl := Option.some.inj h
        have hstep : Step w (.update t x row) (w.claimed delta t x (.update row)) :=
          .write t x txn delta _ (Or.inl ⟨row, rfl, rfl⟩) ⟨ht, hok⟩
        rw [hid t txn ht]
        exact hstep
      · rw [heq] at h
        obtain rfl := Option.some.inj h
        exact .fail t x txn (Or.inl ⟨row, rfl⟩) ht ⟨res, hres, hno⟩
    · cases h
  | delete t x =>
    simp only [step] at h
    split at h
    · next txn ht =>
      rcases delete_cases w.table txn x with ⟨delta, hok, heq⟩ | ⟨res, hres, hno, heq⟩
      · rw [heq] at h
        obtain rfl := Option.some.inj h
        have hstep : Step w (.delete t x) (w.claimed delta t x .delete) :=
          .write t x txn delta _ (Or.inr ⟨rfl, rfl⟩) ⟨ht, hok⟩
        simpa [claimed, Write.versions, Write.value] using hstep
      · rw [heq] at h
        obtain rfl := Option.some.inj h
        exact .fail t x txn (Or.inr rfl) ht ⟨res, hres, hno⟩
    · cases h
  | compact during =>
    simp only [step] at h
    split at h
    · next hfits =>
      split at h
      · next w1 hran =>
        obtain ⟨t, ht, rfl⟩ := Option.map_eq_some_iff.mp h
        exact .compact during w1 t hfits hran ht
      · cases h
    · cases h

/-! ## The rows after a step -/

theorem row_withClients (w : World) (c : Clients) (op : TxnOp) (m : TransactionManager) (x : Nat) :
    (w.withClients c (op.event m)).row x = w.row x := by
  have hlog : (w.log ++ [op.event m]).filterMap (Event.writeTo x) = w.log.filterMap (Event.writeTo x) := by
    rw [List.filterMap_append]
    cases op <;> simp [TxnOp.event, Event.writeTo]
  unfold row withClients
  rw [hlog]

theorem hist_wrote (log : List Event) (t x y : Nat) (wr : Write) :
    (log ++ [Event.write t x wr]).filterMap (Event.writeTo y) =
      log.filterMap (Event.writeTo y) ++ if x = y then [(t, wr)] else [] := by
  rw [List.filterMap_append]
  by_cases h : x = y <;> simp [Event.writeTo, h]

theorem filter_versions (wr : Write) (x t y : Nat) :
    (wr.versions x t).filter (fun a => a.rowId == y) = if x = y then wr.versions x t else [] := by
  cases hv : wr.value with
  | none => simp [Write.versions, hv]
  | some row => by_cases h : x = y <;> simp [Write.versions, hv, DeltaRecord.version, h]

theorem row_insert_other (w : World) (txn : Transaction) (t x y : Nat) (row : Row) (h : x ≠ y) :
    (w.wrote (w.table.insertWithRowId txn x row) t x (.insert row)).row y = w.row y := by
  unfold World.row wrote rowOf Table.insertWithRowId DeltaLayer.insert
  simp only [hist_wrote, if_neg h, List.append_nil, List.filter_append]
  simp [DeltaRecord.version, h]

theorem row_insert (w : World) (txn : Transaction) (t x : Nat) (row : Row) (hnew : w.row x = {}) :
    (w.wrote (w.table.insertWithRowId txn x row) t x (.insert row)).row x =
      { records := [.version x txn.txnId row], hist := [(t, .insert row)], base := [] } := by
  have h1 : (w.table.delta.filter fun a => a.rowId == x) = [] := congrArg RowState.records hnew
  have h2 : w.log.filterMap (Event.writeTo x) = [] := congrArg RowState.hist hnew
  have h3 : ((basePairs w.table.baseSegments).filter fun p => p.1 == x).map (·.2) = [] :=
    congrArg RowState.base hnew
  unfold World.row wrote rowOf Table.insertWithRowId DeltaLayer.insert
  simp only [hist_wrote, List.filter_append, h1, h2, h3]
  simp [DeltaRecord.version]

theorem row_claimed_other (w : World) {delta : DeltaLayer} {t x y : Nat} (wr : Write) (h : x ≠ y)
    (hd : delta.filter (fun a => a.rowId == y) = w.table.delta.filter fun a => a.rowId == y) :
    (w.claimed delta t x wr).row y = w.row y := by
  unfold World.row claimed wrote rowOf
  simp only [hist_wrote, if_neg h, List.append_nil, List.filter_append, filter_versions, hd]

theorem row_claimed (w : World) {delta : DeltaLayer} {t x : Nat} (wr : Write) :
    (w.claimed delta t x wr).row x =
      (w.row x).written ((delta.filter fun a => a.rowId == x) ++ wr.versions x t) t wr := by
  unfold World.row claimed wrote rowOf RowState.written
  simp only [hist_wrote, if_true, List.filter_append, filter_versions]

/-- What a successful claim did to the records of its row; the other rows keep theirs. -/
theorem Claimed.cases {w : World} {t x : Nat} {txn : Transaction} {delta : DeltaLayer}
    (h : w.Claimed t x txn delta) (hid : txn.txnId = t) :
    (∀ y, x ≠ y → delta.filter (fun a => a.rowId == y) = w.table.delta.filter fun a => a.rowId == y) ∧
    ((∃ old it new, (w.row x).records = old ++ it :: new ∧ claimStep it txn w.clients.mgr = .claim ∧
        delta.filter (fun a => a.rowId == x) = old ++ it.claimedBy t :: new) ∨
      ((w.row x).records = [] ∧ (w.row x).base ≠ [] ∧
        delta.filter (fun a => a.rowId == x) = [.tombstone x t])) := by
  rcases claim_cases w.table.delta x txn w.table.txnMgr (w.table.rowIdExistsInBase x) with
    ⟨old, it, new, hsplit, hitx, hclaim, -, hr⟩ | ⟨hnone, hin, hr⟩ | ⟨-, res, hres, hr⟩
  · rw [h.ok] at hr
    have hd : delta = old ++ it.claimedBy txn.txnId :: new := (Prod.mk.inj hr).2
    rw [hid] at hd
    refine ⟨fun y hy => ?_, Or.inl ⟨old.filter fun a => a.rowId == x, it, new.filter fun a => a.rowId == x, ?_,
      hclaim, ?_⟩⟩
    · rw [hd, hsplit, List.filter_append, List.filter_append, List.filter_cons, List.filter_cons]
      simp [DeltaRecord.claimedBy, hitx, hy]
    · simp [World.row, rowOf, hsplit, List.filter_append, hitx]
    · simp [hd, List.filter_append, DeltaRecord.claimedBy, hitx]
  · rw [h.ok] at hr
    have hd : delta = w.table.delta ++ [.tombstone x txn.txnId] := (Prod.mk.inj hr).2
    rw [hid] at hd
    have hnil : (w.table.delta.filter fun a => a.rowId == x) = [] := by
      rw [List.filter_eq_nil_iff]
      intro a ha hax
      exact hnone a ha (by simpa using hax)
    refine ⟨fun y hy => ?_, Or.inr ⟨hnil, ?_, ?_⟩⟩
    · simp [hd, List.filter_append, DeltaRecord.tombstone, hy]
    · exact (Table.rowIdExistsInBase_iff w.table x).mp hin
    · rw [hd, List.filter_append, hnil]
      simp [DeltaRecord.tombstone]
  · rw [h.ok] at hr
    exact absurd (Prod.mk.inj hr).1.symm hres

/-- A claim succeeds unless its walk over the records of the row finds a conflict, or
runs through them with no base row to fall back on. -/
theorem exists_claim (w : World) (x : Nat) (r : Transaction)
    (h : ¬ ((∃ a ∈ (w.row x).records, claimStep a r w.clients.mgr = .conflict) ∨
      ((∀ a ∈ (w.row x).records, claimStep a r w.clients.mgr = .skip) ∧
        ((w.row x).base = [] ∨ (w.row x).records ≠ [])))) :
    ∃ delta, w.table.delta.claimOrInsertBaseTombstone x r w.table.txnMgr (w.table.rowIdExistsInBase x) =
      (.ok, delta) := by
  have hrec : ∀ {a : DeltaRecord}, a ∈ (w.row x).records ↔ a ∈ w.table.delta ∧ a.rowId = x := by
    intro a
    simp [row, rowOf, List.mem_filter]
  rcases claim_cases w.table.delta x r w.table.txnMgr (w.table.rowIdExistsInBase x) with
    ⟨old, it, new, -, -, -, -, hr⟩ | ⟨-, -, hr⟩ | ⟨hwhy, -⟩
  · exact ⟨_, hr⟩
  · exact ⟨_, hr⟩
  · refine absurd ?_ h
    rcases hwhy with ⟨a, ha, hax, hconf⟩ | ⟨hskip, hno⟩
    · exact Or.inl ⟨a, hrec.mpr ⟨ha, hax⟩, hconf⟩
    · refine Or.inr ⟨fun a ha => hskip a (hrec.mp ha).1 (hrec.mp ha).2, ?_⟩
      rcases hno with hin | ⟨a, ha, hax⟩
      · left
        apply Classical.byContradiction
        intro hne
        rw [(Table.rowIdExistsInBase_iff w.table x).mpr hne] at hin
        cases hin
      · exact Or.inr (List.ne_nil_of_mem (hrec.mpr ⟨ha, hax⟩))

/-! ## The invariant -/

structure Inv (w : World) : Prop where
  clients : w.clients.Inv
  rows : ∀ x, (w.row x).Inv w.clients
  fresh : ∀ x, w.table.nextRowId ≤ x → w.row x = {}

theorem Inv.active_id {w : World} (h : w.Inv) (t : Nat) (txn : Transaction)
    (ht : w.clients.active t = some txn) : txn.txnId = t := h.clients.active_id ht

theorem mem_row_records {w : World} {a : DeltaRecord} (ha : a ∈ w.table.delta) :
    a ∈ (w.row a.rowId).records := List.mem_filter.mpr ⟨ha, by simp⟩

theorem Inv.lt_nextRowId {w : World} (h : w.Inv) {a : DeltaRecord} (ha : a ∈ w.table.delta) :
    a.rowId < w.table.nextRowId := by
  apply Classical.byContradiction
  intro hge
  have hmem := mem_row_records ha
  rw [h.fresh a.rowId (by omega)] at hmem
  cases hmem

/-! ### Transactions -/

/-- Some `Begin`s, `Commit`s and `Abort`s: only the manager, the handles and the log
have changed, and the log by no write. -/
structure TxnRun (w w1 : World) : Prop where
  clients : w1.clients.Inv
  later : w.clients.Later w1.clients
  table : w1.table = { w.table with txnMgr := w1.table.txnMgr }
  hist : ∀ x, w1.log.filterMap (Event.writeTo x) = w.log.filterMap (Event.writeTo x)

theorem txnRun_refl {w : World} (h : w.clients.Inv) : TxnRun w w where
  clients := h
  later := Clients.Later.refl _
  table := rfl
  hist := fun _ => rfl

theorem TxnRun.trans {w w1 w2 : World} (h : TxnRun w w1) (h' : TxnRun w1 w2) : TxnRun w w2 where
  clients := h'.clients
  later := h.later.trans h'.later
  table := by rw [h'.table, h.table]
  hist := fun x => (h'.hist x).trans (h.hist x)

theorem txnRun_step {w w1 : World} {op : TxnOp} (h : w.clients.Inv) (hs : w.txnStep op = some w1) :
    TxnRun w w1 := by
  unfold txnStep at hs
  obtain ⟨c, hc, rfl⟩ := Option.map_eq_some_iff.mp hs
  refine ⟨Clients.inv_step h hc, Clients.later_step h hc, rfl, fun x => ?_⟩
  exact congrArg RowState.hist (row_withClients w c op w.table.txnMgr x)

theorem txnRun_run {w w1 : World} {ops : List TxnOp} (h : w.clients.Inv)
    (hr : Runs.run txnStep w ops = some w1) : TxnRun w w1 := by
  refine Runs.run_invariant (Q := fun _ _ => True) (I := TxnRun w) ?_ (txnRun_refl h)
    (Runs.along_of_forall w fun _ _ _ => trivial) hr
  intro u op u' hu _ hs
  exact hu.trans (txnRun_step hu.clients hs)

theorem TxnRun.row_eq {w w1 : World} (h : TxnRun w w1) (x : Nat) : w1.row x = w.row x := by
  unfold row
  rw [h.hist, h.table]

/-- The status reads of a `Compact` are reads in between. -/
theorem window_observed {w w1 : World} {during : List (List TxnOp)} (h : w.clients.Inv)
    (hr : Runs.run txnStep w during.flatten = some w1) :
    Window w.clients w1.clients (w.observed during) := by
  intro k
  have hsplit : during.flatten = (during.take (k + 1)).flatten ++ (during.drop (k + 1)).flatten := by
    rw [← List.flatten_append, List.take_append_drop]
  rw [hsplit, Runs.run_append_eq_some] at hr
  obtain ⟨wk, hk, hrest⟩ := hr
  have hbefore := txnRun_run h hk
  have hafter := txnRun_run hbefore.clients hrest
  refine ⟨wk.clients, ?_, hbefore.clients, hbefore.later, hafter.later⟩
  unfold observed
  rw [hk]
  rfl

/-! ### Compaction -/

/-- What a `Compact` step does to each row. -/
structure Compacted (w w' : World) : Prop where
  clients : w'.clients.Inv
  later : w.clients.Later w'.clients
  sound : w'.table.Sound
  userSchema : w'.table.userSchema = w.table.userSchema
  nextRowId : w'.table.nextRowId = w.table.nextRowId
  rows : ∀ x, ∃ acts, Judged w.clients w'.clients acts ∧ (w.row x).records = acts.map (·.1) ∧
    w'.row x = (w.row x).compacted acts

theorem Inv.recordOk {w : World} (h : w.Inv) {a : DeltaRecord} (ha : a ∈ w.table.delta) :
    RowState.RecordOk w.clients a := (h.rows a.rowId).ok a (mem_row_records ha)

/-- `Compact` returns, and this is what it leaves of the table. -/
theorem compactedTo {w w1 : World} (h : w.Inv) (hsound : w.table.Sound) (hfits : w.fits = true)
    {during : List (List TxnOp)} (hran : Runs.run txnStep w during.flatten = some w1) :
    (∀ x, Judged w.clients w1.clients
      (actsOf (w.observed during) w.table.txnMgr.oldestActiveSnapshot w.table.delta x)) ∧
    ∃ t, w.table.compactUnder (w.observed during) = some t ∧
      w.table.CompactedTo t (compactLoop (w.observed during) w.table.txnMgr.oldestActiveSnapshot w.table.delta) := by
  have hrun := txnRun_run h.clients hran
  have hwin := window_observed h.clients hran
  have hj : ∀ x, Judged w.clients w1.clients
      (actsOf (w.observed during) w.table.txnMgr.oldestActiveSnapshot w.table.delta x) :=
    fun x => judged_actsOf h.clients hrun.clients hwin (fun a ha => h.recordOk ha) x
  unfold fits at hfits
  obtain ⟨hids, hsmall⟩ := of_decide_eq_true hfits
  refine ⟨hj, Table.compactUnder_spec hsound (w.observed during)
    (fun a ha => Nat.lt_of_lt_of_le (h.lt_nextRowId ha) hids) hsmall fun p hp hact => ?_⟩
  -- a promoted record is the head of its row, and a version
  have hmem : p ∈ actsOf (w.observed during) w.table.txnMgr.oldestActiveSnapshot w.table.delta p.1.rowId :=
    List.mem_filter.mpr ⟨hp, by simp⟩
  obtain ⟨older, newer, hsplit⟩ := List.append_of_mem hmem
  have hv := hj p.1.rowId older p newer hsplit
  rw [hact] at hv
  exact hv.2.1

/-- The same, row by row. -/
theorem compact_spec {w w1 : World} (h : w.Inv) (hsound : w.table.Sound) (hfits : w.fits = true)
    {during : List (List TxnOp)} (hran : Runs.run txnStep w during.flatten = some w1) :
    ∃ t, w.table.compactUnder (w.observed during) = some t ∧
      Compacted w { w1 with table := { t with txnMgr := w1.table.txnMgr } } := by
  have hrun := txnRun_run h.clients hran
  obtain ⟨hj, t, ht, hto⟩ := compactedTo h hsound hfits hran
  refine ⟨t, ht, ⟨hrun.clients, hrun.later, ⟨hto.sound.base, hto.sound.delta⟩, hto.userSchema, hto.nextRowId, fun x => ?_⟩⟩
  refine ⟨_, hj x, (map_fst_actsOf ..).symm, ?_⟩
  have hrow := hto.rewritten.row (w1.log.filterMap (Event.writeTo x)) x (hj x)
  rw [hrun.hist] at hrow
  unfold row
  dsimp only
  rw [hrun.hist]
  exact hrow

theorem Step.compacted {w w1 : World} {during : List (List TxnOp)} {t : Table} (h : w.Inv)
    (hsound : w.table.Sound) (hfits : w.fits = true) (hran : Runs.run txnStep w during.flatten = some w1)
    (ht : w.table.compactUnder (w.observed during) = some t) :
    Compacted w { w1 with table := { t with txnMgr := w1.table.txnMgr } } := by
  obtain ⟨t', ht', hcomp⟩ := compact_spec h hsound hfits hran
  rw [ht] at ht'
  rw [Option.some.inj ht']
  exact hcomp

/-! ### Steps, row by row -/

/-- The rule for properties of single rows: what time, inserts, claims, tombstones
and `Compact` keep, every step keeps. -/
theorem rows_step {R : Nat → Clients → RowState → Prop} {w w' : World} {op : Op} (h : w.Inv)
    (hsound : ∀ d, op = .compact d → w.table.Sound)
    (later : ∀ x c', c'.Inv → w.clients.Later c' → R x c' (w.row x))
    (insert : ∀ x t txn row, w.clients.active t = some txn → w.row x = {} →
      R x w.clients { records := [.version x t row], hist := [(t, .insert row)], base := [] })
    (claim : ∀ x t txn old it new wr, w.clients.active t = some txn → (w.row x).records = old ++ it :: new →
      claimStep it txn w.clients.mgr = .claim → (∀ row, wr ≠ .insert row) →
      R x w.clients ((w.row x).written ((old ++ it.claimedBy t :: new) ++ wr.versions x t) t wr))
    (tombstone : ∀ x t txn wr, w.clients.active t = some txn → (w.row x).records = [] → (w.row x).base ≠ [] →
      (∀ row, wr ≠ .insert row) → R x w.clients ((w.row x).written ([.tombstone x t] ++ wr.versions x t) t wr))
    (compact : ∀ x d c' acts, op = .compact d → c'.Inv → w.clients.Later c' → Judged w.clients c' acts →
      (w.row x).records = acts.map (·.1) → R x c' ((w.row x).compacted acts))
    (hs : Step w op w') : ∀ x, R x w'.clients (w'.row x) := by
  have hsame : ∀ x, R x w.clients (w.row x) := fun x => later x _ h.clients (Clients.Later.refl _)
  intro x
  cases hs with
  | txn top c hc =>
    rw [row_withClients]
    exact later x c (Clients.inv_step h.clients hc) (Clients.later_step h.clients hc)
  | insert t y txn row hop hact hnew =>
    by_cases hxy : y = x
    · subst hxy
      have hrow := h.fresh y hnew
      rw [row_insert w txn t y row hrow, h.active_id t txn hact]
      exact insert y t txn row hact hrow
    · rw [row_insert_other w txn t y x row hxy]
      exact hsame x
  | write t y txn delta wr hop hcl =>
    have hwr : ∀ row, wr ≠ .insert row := by
      rintro row rfl
      rcases hop with ⟨_, _, hf⟩ | ⟨_, hf⟩ <;> cases hf
    obtain ⟨hother, hcase⟩ := hcl.cases (h.active_id t txn hcl.active)
    by_cases hxy : y = x
    · subst hxy
      rw [row_claimed]
      rcases hcase with ⟨old, it, new, hrec, hclaim, hd⟩ | ⟨hrec, hbase, hd⟩
      · rw [hd]
        exact claim y t txn old it new wr hcl.active hrec hclaim hwr
      · rw [hd]
        exact tombstone y t txn wr hcl.active hrec hbase hwr
    · rw [row_claimed_other w wr hxy (hother x hxy)]
      exact hsame x
  | fail t y txn hop hact href => exact hsame x
  | compact during w1 t hfits hran ht =>
    obtain ⟨hinv, hlater, -, -, -, hrows⟩ := Step.compacted h (hsound during rfl) hfits hran ht
    obtain ⟨acts, hj, hrec, hrow⟩ := hrows x
    rw [hrow]
    exact compact x during _ acts rfl hinv hlater hj hrec

theorem Step.later {w w' : World} {op : Op} (h : w.Inv) (hsound : ∀ d, op = .compact d → w.table.Sound)
    (hs : Step w op w') : w'.clients.Inv ∧ w.clients.Later w'.clients := by
  cases hs with
  | txn top c hc => exact ⟨Clients.inv_step h.clients hc, Clients.later_step h.clients hc⟩
  | insert t y txn row hop hact hnew => exact ⟨h.clients, Clients.Later.refl _⟩
  | write t y txn delta wr hop hcl => exact ⟨h.clients, Clients.Later.refl _⟩
  | fail t y txn hop hact href => exact ⟨h.clients, Clients.Later.refl _⟩
  | compact during w1 t hfits hran ht =>
    have hc := Step.compacted h (hsound during rfl) hfits hran ht
    exact ⟨hc.clients, hc.later⟩

theorem Step.nextRowId_le {w w' : World} {op : Op} (h : w.Inv) (hsound : ∀ d, op = .compact d → w.table.Sound)
    (hs : Step w op w') : w.table.nextRowId ≤ w'.table.nextRowId := by
  cases hs with
  | txn top c hc => exact Nat.le_refl _
  | insert t y txn row hop hact hnew =>
    simp only [wrote, Table.insertWithRowId, Table.raise]
    split <;> omega
  | write t y txn delta wr hop hcl => exact Nat.le_refl _
  | fail t y txn hop hact href => exact Nat.le_refl _
  | compact during w1 t hfits hran ht =>
    exact Nat.le_of_eq (Step.compacted h (hsound during rfl) hfits hran ht).nextRowId.symm

/-- An id that is new after a step has no trace. -/
theorem Step.fresh {w w' : World} {op : Op} (h : w.Inv) (hsound : ∀ d, op = .compact d → w.table.Sound)
    (hs : Step w op w') (x : Nat) (hx : w'.table.nextRowId ≤ x) : w'.row x = {} := by
  have hold := h.fresh x (Nat.le_trans (hs.nextRowId_le h hsound) hx)
  cases hs with
  | txn top c hc => rw [row_withClients]; exact hold
  | insert t y txn row hop hact hnew =>
    have hne : y ≠ x := by
      rintro rfl
      simp only [wrote, Table.insertWithRowId, Table.raise] at hx
      split at hx <;> omega
    rw [row_insert_other w txn t y x row hne]
    exact hold
  | write t y txn delta wr hop hcl =>
    obtain ⟨hother, hcase⟩ := hcl.cases (h.active_id t txn hcl.active)
    have hne : y ≠ x := by
      rintro rfl
      rw [hold] at hcase
      rcases hcase with ⟨old, it, new, hrec, -⟩ | ⟨-, hbase, -⟩
      · simp at hrec
      · exact hbase rfl
    rw [row_claimed_other w wr hne (hother x hne)]
    exact hold
  | fail t y txn hop hact href => exact hold
  | compact during w1 t hfits hran ht =>
    obtain ⟨acts, -, hrec, hrow⟩ := (Step.compacted h (hsound during rfl) hfits hran ht).rows x
    rw [hold] at hrec hrow
    rw [hrow, List.map_eq_nil_iff.mp hrec.symm]
    rfl

/-- **Every step keeps the invariant.** -/
theorem inv_step {w w' : World} {op : Op} (h : w.Inv) (hsound : ∀ d, op = .compact d → w.table.Sound)
    (hs : w.step op = some w') : w'.Inv := by
  have hst := step_cases h.active_id hs
  refine ⟨(hst.later h hsound).1, ?_, hst.fresh h hsound⟩
  refine rows_step (R := fun _ => RowState.Inv) h hsound ?_ ?_ ?_ ?_ ?_ hst
  · exact fun x c' hc' hl => (h.rows x).later h.clients hc' hl
  · exact fun x t txn row hact _ => RowState.inv_insert h.clients hact x row []
  · exact fun x t txn old it new wr hact hrec hclaim _ => (h.rows x).claim h.clients hact hrec hclaim wr x
  · exact fun x t txn wr hact hrec _ _ => (h.rows x).tombstone h.clients hact hrec wr x
  · intro x d c' acts _ hc' hl hj hrec
    exact ((h.rows x).later h.clients hc' hl).compacted h.clients hc' hl hj hrec

/-! ### Conforming rows -/

end World

/-- The row written, if any, conforms to the schema. -/
def Op.conforms (schema : Schema) : Op → Bool
  | .insert _ row => rowConforms schema row
  | .insertWithRowId _ _ row => rowConforms schema row
  | .update _ _ row => rowConforms schema row
  | _ => true

namespace World

/-- A claim changes no row value. -/
theorem Claimed.mem_delta {w : World} {t x : Nat} {txn : Transaction} {delta : DeltaLayer}
    (h : w.Claimed t x txn delta) {a : DeltaRecord} (ha : a ∈ delta) (ht : a.isBaseTombstone = false) :
    ∃ b ∈ w.table.delta, b.isBaseTombstone = false ∧ b.row = a.row := by
  rcases claim_cases w.table.delta x txn w.table.txnMgr (w.table.rowIdExistsInBase x) with
    ⟨old, it, new, hsplit, -, -, -, hr⟩ | ⟨-, -, hr⟩ | ⟨-, res, hres, hr⟩
  · rw [h.ok] at hr
    rw [(Prod.mk.inj hr).2] at ha
    rw [hsplit]
    rcases List.mem_append.mp ha with ha | ha
    · exact ⟨a, by simp [ha], ht, rfl⟩
    · rcases List.mem_cons.mp ha with rfl | ha
      · exact ⟨it, by simp, ht, rfl⟩
      · exact ⟨a, by simp [ha], ht, rfl⟩
  · rw [h.ok] at hr
    rw [(Prod.mk.inj hr).2] at ha
    rcases List.mem_append.mp ha with ha | ha
    · exact ⟨a, ha, ht, rfl⟩
    · rw [List.mem_singleton.mp ha] at ht
      simp [DeltaRecord.tombstone] at ht
  · rw [h.ok] at hr
    exact absurd (Prod.mk.inj hr).1.symm hres

/-- `Inv` together with a table of conforming rows. -/
structure Good (schema : Schema) (w : World) : Prop extends Inv w where
  sound : w.table.Sound
  schema_eq : w.table.userSchema = schema

theorem sound_step {schema : Schema} {w w' : World} {op : Op} (h : w.Good schema)
    (hconf : op.conforms schema = true) (hs : Step w op w') :
    w'.table.Sound ∧ w'.table.userSchema = schema := by
  obtain ⟨hinv, hsound, rfl⟩ := h
  cases hs with
  | txn top c hc => exact ⟨⟨hsound.base, hsound.delta⟩, rfl⟩
  | insert t y txn row hop hact hnew =>
    refine ⟨⟨hsound.base, fun a ha ht => ?_⟩, rfl⟩
    simp only [wrote, Table.insertWithRowId, DeltaLayer.insert, List.mem_append, List.mem_singleton] at ha
    rcases ha with ha | rfl
    · exact hsound.delta a ha ht
    · rcases hop with ⟨rfl, -⟩ | rfl <;> exact hconf
  | write t y txn delta wr hop hcl =>
    refine ⟨⟨hsound.base, fun a ha ht => ?_⟩, rfl⟩
    simp only [claimed, wrote, List.mem_append] at ha
    rcases ha with ha | ha
    · obtain ⟨b, hb, hbt, hrow⟩ := hcl.mem_delta ha ht
      rw [← hrow]
      exact hsound.delta b hb hbt
    · obtain ⟨row, hv, rfl⟩ := List.mem_map.mp ha
      rcases hop with ⟨row', rfl, rfl⟩ | ⟨rfl, rfl⟩
      · simp only [Write.value, Option.toList_some, List.mem_singleton] at hv
        subst hv
        exact hconf
      · simp [Write.value] at hv
  | fail t y txn hop hact href => exact ⟨hsound, rfl⟩
  | compact during w1 t hfits hran ht =>
    have hc := Step.compacted hinv hsound hfits hran ht
    exact ⟨hc.sound, hc.userSchema⟩

theorem good_step {schema : Schema} {w w' : World} {op : Op} (h : w.Good schema)
    (hconf : op.conforms schema = true) (hs : w.step op = some w') : w'.Good schema := by
  have hsd := sound_step h hconf (step_cases h.toInv.active_id hs)
  exact ⟨inv_step h.toInv (fun _ _ => h.sound) hs, hsd.1, hsd.2⟩

theorem good_create (schema : Schema) : (create schema).Good schema where
  clients := Clients.inv_empty
  rows := fun x => RowState.inv_empty _ _
  fresh := fun x _ => rfl
  sound := ⟨by simp [create], by simp [create]⟩
  schema_eq := rfl

/-- **Every run of conforming writes** keeps the invariant. -/
theorem good_run {schema : Schema} {w w' : World} {ops : List Op} (h : w.Good schema)
    (hconf : ∀ op ∈ ops, op.conforms schema = true) (hr : Runs.run step w ops = some w') :
    w'.Good schema :=
  Runs.run_invariant (Q := fun _ op => op.conforms schema = true)
    (fun _ _ _ hw hop hs => good_step hw hop hs) h (Runs.along_of_forall w fun _ op hop => hconf op hop) hr

/-! ### Grounded rows -/

/-- Every row's base copies are in step with its history, from the base values `b`. -/
def Grounded (b : Nat → Option Row) (w : World) : Prop := ∀ x, (w.row x).Grounded w.clients (b x)

/-- A `Compact` is safe if no tombstone of settled claim is covered by a newer record. -/
def Safe (w : World) : Op → Prop
  | .compact _ => ∀ x, ¬ RowState.Covered w.clients (w.row x)
  | _ => True

theorem grounded_create (schema : Schema) : Grounded (fun _ => none) (create schema) :=
  fun _ => RowState.grounded_start _ none

/-- Every step but an unsafe `Compact` keeps rows grounded. -/
theorem grounded_step {b : Nat → Option Row} {w w' : World} {op : Op} (h : w.Inv)
    (hsound : ∀ d, op = .compact d → w.table.Sound) (hg : w.Grounded b) (hsafe : w.Safe op)
    (hs : w.step op = some w') : w'.Grounded b := by
  have hst := step_cases h.active_id hs
  refine rows_step (R := fun x c s => s.Grounded c (b x)) h hsound ?_ ?_ ?_ ?_ ?_ hst
  · exact fun x c' hc' hl => (hg x).later h.clients (h.rows x) hc' hl
  · intro x t txn row hact hnew
    -- a row without a trace has no base value
    have hb : b x = none := by
      have hgx := hg x
      rw [hnew] at hgx
      obtain ⟨P, ⟨hP, -⟩, hground⟩ := hgx.ground
      have hnil : P = [] := (List.append_eq_nil_iff.mp hP.symm).1
      have hbase := hground.nil rfl
      rw [hnil] at hbase
      cases hbx : b x with
      | none => rfl
      | some v => rw [hbx] at hbase; cases hbase
    rw [hb]
    exact RowState.grounded_insert h.clients hact x row
  · intro x t txn old it new wr hact hrec hclaim hwr
    exact (hg x).claim h.clients (h.rows x) hact hrec hclaim hwr x
  · exact fun x t txn wr hact hrec hbase hwr => (hg x).tombstone h.clients hact hrec hbase hwr x
  · intro x d c' acts hop hc' hl hj hrec
    subst hop
    exact ((hg x).later h.clients (h.rows x) hc' hl).compacted h.clients hc' hl
      ((h.rows x).later h.clients hc' hl) (hsafe x) hj hrec

end World

end CoreDB
