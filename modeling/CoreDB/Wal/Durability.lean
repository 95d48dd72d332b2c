import CoreDB.Wal.Log

/-!
# When the log reaches the disk (`wal/wal_writer.h`, `wal/wal_writer.cpp`)

`AppendRecord` hands every record to the operating system; depending on the durability
mode it then waits for the disk.  What the disk has is a first part of the file, at
least as long as it was at the last `fsync`: a crash of the process keeps the whole
file, a loss of power any length from there on.
-/

namespace CoreDB

inductive DurabilityMode where
  | noSync
  | syncEveryCommit
  | syncEveryRecord
deriving DecidableEq, Repr

/-- `should_sync` of `AppendRecord`. -/
def DurabilityMode.shouldSync (mode : DurabilityMode) (type : WalRecordType) : Bool :=
  mode == .syncEveryRecord || (mode == .syncEveryCommit && type == .commit)

theorem logOf_append (rs rs' : List WalRecord) : logOf (rs ++ rs') = logOf rs ++ logOf rs' :=
  List.flatMap_append

/-- **What was on the disk survives**, and everything before it. -/
theorem prefix_survivors {pre rs : List WalRecord} : ∀ {n : Nat}, pre <+: rs → (logOf pre).length ≤ n →
    pre <+: survivors rs n := by
  induction rs generalizing pre with
  | nil =>
    intro n hp _
    rw [List.prefix_nil.mp hp]
    exact List.nil_prefix
  | cons r rs ih =>
    intro n hp hn
    cases pre with
    | nil => exact List.nil_prefix
    | cons q pre =>
      obtain ⟨rfl, hrest⟩ := List.cons_prefix_cons.mp hp
      have hlen : (logOf (q :: pre)).length = (frame q).length + (logOf pre).length := by simp [logOf]
      unfold survivors
      rw [if_pos (by omega)]
      exact List.cons_prefix_cons.mpr ⟨rfl, ih hrest (by omega)⟩

end CoreDB
