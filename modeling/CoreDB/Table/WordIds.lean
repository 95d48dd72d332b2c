import CoreDB.Table.World

/-!
# Runs of a table with 64-bit row ids

`World.step` lets row ids grow without a bound.  `World.step64` takes the same calls with the
64-bit allocator of the source: after row id 2⁶⁴ - 1 it hands out 0 and every id again that it
has handed out before.  As long as no call wraps the allocator, the runs are the same
(`run64_eq`).
-/

namespace CoreDB

namespace World

/-- One call by one user, with 64-bit row ids. -/
def step64 (w : World) : Op → Option World
  | .insert t row =>
    match w.clients.active t with
    | some txn => some (w.wrote (w.table.insert64 txn row).2 t (w.table.insert64 txn row).1 (.insert row))
    | none => none
  | .insertWithRowId t x row =>
    match w.clients.active t with
    | some txn =>
      if w.table.nextRowId ≤ x then some (w.wrote (w.table.insertWithRowId64 txn x row) t x (.insert row)) else none
    | none => none
  | op => w.step op

/-- The call does not wrap the allocator of row ids. -/
def noWrap (w : World) : Op → Bool
  | .insert _ _ => decide (w.table.nextRowId + 1 < 2 ^ 64)
  | .insertWithRowId _ x _ => decide (x + 1 < 2 ^ 64)
  | _ => true

theorem step64_eq {w : World} {op : Op} (h : w.noWrap op = true) : w.step64 op = w.step op := by
  cases op with
  | insert t row =>
    have hroom : w.table.nextRowId + 1 < 2 ^ 64 := of_decide_eq_true h
    cases hact : w.clients.active t with
    | none => simp [step64, step, hact]
    | some txn => simp [step64, step, hact, Table.insert64_eq hroom]
  | insertWithRowId t x row =>
    have hid : x + 1 < 2 ^ 64 := of_decide_eq_true h
    cases hact : w.clients.active t with
    | none => simp [step64, step, hact]
    | some txn => simp [step64, step, hact, Table.insertWithRowId64, Table.insertWithRowId, Table.raise64_eq hid]
  | _ => rfl

/-- **While nothing wraps**, a run with 64-bit row ids is a run. -/
theorem run64_eq {w w' : World} {ops : List Op} (hwrap : Runs.Along step64 (fun w op => w.noWrap op = true) w ops)
    (hrun : Runs.run step64 w ops = some w') : Runs.run step w ops = some w' := by
  rw [← hwrap.run_eq fun _ _ h => step64_eq h]
  exact hrun

end World

end CoreDB
