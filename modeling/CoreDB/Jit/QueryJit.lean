import CoreDB.Simd.Kernels

/-!
# The compiled query (`jit/query_jit.h`, `jit/query_jit.cpp`)

`BuildModule` builds one function: three stack cells, a loop header that compares
`i < n`, a body without branches and an exit that stores the two results.  A block is
a function of the cells; the header's branch is the recursion.

`queryJit_run_eq`: the loop returns what the kernels return.
-/

namespace CoreDB

/-- The cells `i.addr`, `sum.addr` and `count.addr`. -/
structure JitFrame where
  i : BitVec 64
  sum : BitVec 64
  count : BitVec 64
deriving DecidableEq, Repr

namespace QueryJit

/-- `entry`. -/
def entry : JitFrame := { i := 0#64, sum := 0#64, count := 0#64 }

/-- `loop.body`: both selects are of `matched`. -/
def loopBody (pred out : List (BitVec 64)) (threshold : BitVec 64) (fr : JitFrame) : JitFrame :=
  let matched := threshold.slt (pred.getD fr.i.toNat 0#64)
  let maskedVal := if matched then out.getD fr.i.toNat 0#64 else 0#64
  let maskedOne := if matched then 1#64 else 0#64
  { i := fr.i + 1#64, sum := fr.sum + maskedVal, count := fr.count + maskedOne }

/-- Below another value, the increment does not wrap. -/
theorem toNat_next {i n : BitVec 64} (h : i.toNat < n.toNat) : (i + 1#64).toNat = i.toNat + 1 := by
  have hn := n.isLt
  rw [BitVec.toNat_add]
  exact Nat.mod_eq_of_lt (show i.toNat + 1 < 2 ^ 64 by omega)

/-- `loop.header`: on to the body, or to the exit. -/
def loopHeader (pred out : List (BitVec 64)) (n threshold : BitVec 64) (fr : JitFrame) : JitFrame :=
  if fr.i.ult n then loopHeader pred out n threshold (loopBody pred out threshold fr) else fr
termination_by n.toNat - fr.i.toNat
decreasing_by
  have hlt : fr.i.toNat < n.toNat := by simpa [BitVec.ult] using ‹fr.i.ult n = true›
  show n.toNat - (fr.i + 1#64).toNat < _
  rw [toNat_next hlt]
  omega

/-- `exit`, and `QueryJit::Run` around it. -/
def run (pred out : List (BitVec 64)) (n : Nat) (threshold : BitVec 64) : FilterSumResult :=
  let fr := loopHeader pred out (BitVec.ofNat 64 n) threshold entry
  { matchedCount := fr.count, sum := fr.sum }

/-! ## The loop adds up the rows -/

/-- The cells as a result. -/
def total (fr : JitFrame) : FilterSumResult := { matchedCount := fr.count, sum := fr.sum }

theorem total_loopBody (pred out : List (BitVec 64)) (threshold : BitVec 64) (fr : JitFrame) :
    total (loopBody pred out threshold fr) = total fr + hitAt pred out threshold fr.i.toNat := by
  refine FilterSumResult.ext ?_ ?_
  · rw [FilterSumResult.matchedCount_add, hitAt, matchedCount_hit]
    rfl
  · rw [FilterSumResult.sum_add, hitAt, sum_hit]
    rfl

theorem total_loopHeader (pred out : List (BitVec 64)) (n threshold : BitVec 64) : ∀ (k : Nat) (fr : JitFrame),
    n.toNat - fr.i.toNat = k → total (loopHeader pred out n threshold fr) =
      total fr + ∑ j ∈ Finset.range k, hitAt pred out threshold (fr.i.toNat + j) := by
  intro k
  induction k with
  | zero =>
    intro fr hk
    rw [loopHeader, if_neg (by simp [BitVec.ult]; omega)]
    simp
  | succ k ih =>
    intro fr hk
    have hnext : (loopBody pred out threshold fr).i.toNat = fr.i.toNat + 1 :=
      toNat_next (show fr.i.toNat < n.toNat by omega)
    rw [loopHeader, if_pos (by simp [BitVec.ult]; omega), ih _ (by omega), total_loopBody, hnext,
      Finset.sum_range_succ' _ k, add_assoc, add_comm (hitAt pred out threshold fr.i.toNat)]
    simp only [Nat.add_zero, Nat.add_assoc, Nat.add_comm 1]

/-- **The compiled loop returns what the kernels return.** -/
theorem queryJit_run_eq (pred out : List (BitVec 64)) {n : Nat} (hn : n < 2 ^ 64) (threshold : BitVec 64) :
    run pred out n threshold = ∑ i ∈ Finset.range n, hitAt pred out threshold i := by
  have hloop := total_loopHeader pred out (BitVec.ofNat 64 n) threshold n entry (by
    show (BitVec.ofNat 64 n).toNat - 0 = n
    rw [BitVec.toNat_ofNat, Nat.mod_eq_of_lt hn]
    omega)
  refine hloop.trans ?_
  show (0 : FilterSumResult) + ∑ j ∈ Finset.range n, hitAt pred out threshold (0 + j) = _
  simp only [zero_add]

end QueryJit

end CoreDB
