import CoreDB.Lib.Lanes

/-!
# Kernels (`simd/kernels.h`, `simd/kernels_*.cpp`, `simd/dispatch.cpp`)

`Sum` adds up a column.  `FilterGtSum` counts the rows whose predicate value is above the
threshold and adds up their output values.  The scalar kernels take one row at a time; the
others take as many rows at a time as a register has lanes and finish with the scalar
loop.  Sums and counts are 64-bit and wrap.

`sum_eq`, `filterGtSum_eq`: every tier returns the same, the sum of what the rows give
one by one (`hit`).
-/

namespace CoreDB

open Lanes

structure FilterSumResult where
  matchedCount : BitVec 64 := 0#64
  sum : BitVec 64 := 0#64
deriving DecidableEq, Repr

namespace FilterSumResult

instance : Zero FilterSumResult := ⟨{}⟩

instance : Add FilterSumResult := ⟨fun a b => ⟨a.matchedCount + b.matchedCount, a.sum + b.sum⟩⟩

@[ext] theorem ext {a b : FilterSumResult} (hc : a.matchedCount = b.matchedCount) (hs : a.sum = b.sum) : a = b := by
  cases a
  cases b
  simp_all

@[simp] theorem matchedCount_add (a b : FilterSumResult) :
    (a + b).matchedCount = a.matchedCount + b.matchedCount := rfl

@[simp] theorem sum_add (a b : FilterSumResult) : (a + b).sum = a.sum + b.sum := rfl

@[simp] theorem matchedCount_zero : (0 : FilterSumResult).matchedCount = 0#64 := rfl

@[simp] theorem sum_zero : (0 : FilterSumResult).sum = 0#64 := rfl

instance : AddCommMonoid FilterSumResult where
  add_assoc a b c := FilterSumResult.ext (add_assoc _ _ _) (add_assoc _ _ _)
  zero_add a := FilterSumResult.ext (zero_add _) (zero_add _)
  add_zero a := FilterSumResult.ext (add_zero _) (add_zero _)
  add_comm a b := FilterSumResult.ext (add_comm _ _) (add_comm _ _)
  nsmul := nsmulRec

end FilterSumResult

/-! ## Scalar -/

/-- `for (; i < n; ++i) sum += data[i]` over the last `k` rows, from row `i` on. -/
def sumFrom (data : List (BitVec 64)) : Nat → Nat → BitVec 64 → BitVec 64
  | 0, _, sum => sum
  | k + 1, i, sum => sumFrom data k (i + 1) (sum + data.getD i 0#64)

def sumScalar (data : List (BitVec 64)) (n : Nat) : BitVec 64 := sumFrom data n 0 0#64

/-- `for (; i < n; ++i)` over the last `k` rows, from row `i` on. -/
def filterGtSumFrom (pred out : List (BitVec 64)) (threshold : BitVec 64) : Nat → Nat → FilterSumResult →
    FilterSumResult
  | 0, _, result => result
  | k + 1, i, result =>
    filterGtSumFrom pred out threshold k (i + 1)
      (if threshold.slt (pred.getD i 0#64) then
        { sum := result.sum + out.getD i 0#64, matchedCount := result.matchedCount + 1#64 }
      else result)

def filterGtSumScalar (pred out : List (BitVec 64)) (n : Nat) (threshold : BitVec 64) : FilterSumResult :=
  filterGtSumFrom pred out threshold n 0 {}

/-! ## NEON and AVX2: masks in lanes -/

/-- One block: "and" selects the values to add, subtracting the mask counts. -/
def maskedBody (w : Nat) (pred out : List (BitVec 64)) (threshold : BitVec 64)
    (acc : Reg w (BitVec 64) × Reg w (BitVec 64)) (i : Nat) : Reg w (BitVec 64) × Reg w (BitVec 64) :=
  let m := cmpGt (load w pred 0#64 i) (splat w threshold)
  (acc.1 + Lanes.and m (load w out 0#64 i), acc.2 - m)

/-- `for (; i + w <= n; i += w)` runs `n / w` times; the rest is scalar. -/
def filterGtSumMasked (w : Nat) (horizontalSum : Reg w (BitVec 64) → BitVec 64) (pred out : List (BitVec 64)) (n : Nat)
    (threshold : BitVec 64) : FilterSumResult :=
  let p := blocks w (maskedBody w pred out threshold) (n / w) 0 (0, 0)
  filterGtSumFrom pred out threshold (n - p.1) p.1
    { sum := horizontalSum p.2.1, matchedCount := horizontalSum p.2.2 }

/-- `vaddvq_s64`. -/
def horizontalSumNeon (v : Reg 2 (BitVec 64)) : BitVec 64 := v 0 + v 1

def filterGtSumNeon (pred out : List (BitVec 64)) (n : Nat) (threshold : BitVec 64) : FilterSumResult :=
  filterGtSumMasked 2 horizontalSumNeon pred out n threshold

/-- The two halves added lane by lane, then the two lanes. -/
def horizontalSumAvx2 (v : Reg 4 (BitVec 64)) : BitVec 64 := (v 0 + v 2) + (v 1 + v 3)

def filterGtSumAvx2 (pred out : List (BitVec 64)) (n : Nat) (threshold : BitVec 64) : FilterSumResult :=
  filterGtSumMasked 4 horizontalSumAvx2 pred out n threshold

/-! ## Plain sums: one accumulator, and NEON's two -/

def sumLanes (w : Nat) (horizontalSum : Reg w (BitVec 64) → BitVec 64) (data : List (BitVec 64)) (n : Nat) :
    BitVec 64 :=
  let p := blocks w (fun acc i => acc + load w data 0#64 i) (n / w) 0 (0 : Reg w (BitVec 64))
  sumFrom data (n - p.1) p.1 (horizontalSum p.2)

def sumAvx2 (data : List (BitVec 64)) (n : Nat) : BitVec 64 := sumLanes 4 horizontalSumAvx2 data n

/-- `_mm512_reduce_add_epi64`. -/
def reduceAdd (v : Reg 8 (BitVec 64)) : BitVec 64 := ∑ j, v j

def sumAvx512 (data : List (BitVec 64)) (n : Nat) : BitVec 64 := sumLanes 8 reduceAdd data n

/-- Four rows a turn, the second pair into an accumulator of its own. -/
def sumNeonBody (data : List (BitVec 64)) (acc : Reg 2 (BitVec 64) × Reg 2 (BitVec 64)) (i : Nat) :
    Reg 2 (BitVec 64) × Reg 2 (BitVec 64) :=
  (acc.1 + load 2 data 0#64 i, acc.2 + load 2 data 0#64 (i + 2))

def sumNeon (data : List (BitVec 64)) (n : Nat) : BitVec 64 :=
  let p := blocks 4 (sumNeonBody data) (n / 4) 0 (0, 0)
  sumFrom data (n - p.1) p.1 (horizontalSumNeon (p.2.1 + p.2.2))

/-! ## AVX-512: a mask register and its population count -/

/-- One block: lanes outside the mask are zeroed, and the bits of the mask are counted. -/
def avx512Body (pred out : List (BitVec 64)) (threshold : BitVec 64) (acc : Reg 8 (BitVec 64) × BitVec 64) (i : Nat) :
    Reg 8 (BitVec 64) × BitVec 64 :=
  let m : Reg 8 Bool := fun j => (splat 8 threshold j).slt (load 8 pred 0#64 i j)
  (acc.1 + (fun j => if m j then load 8 out 0#64 i j else 0#64), acc.2 + ∑ j, if m j then 1#64 else 0#64)

def filterGtSumAvx512 (pred out : List (BitVec 64)) (n : Nat) (threshold : BitVec 64) : FilterSumResult :=
  let p := blocks 8 (avx512Body pred out threshold) (n / 8) 0 (0, 0#64)
  filterGtSumFrom pred out threshold (n - p.1) p.1 { sum := ∑ j, p.2.1 j, matchedCount := p.2.2 }

/-! ## Dispatch -/

inductive SimdLevel where
  | scalar
  | neon
  | avx2
  | avx512
deriving DecidableEq, Repr

/-- What the program was compiled for. -/
inductive Architecture where
  | x86_64
  | arm64
  | other
deriving DecidableEq, Repr

def sum (arch : Architecture) (level : SimdLevel) (data : List (BitVec 64)) (n : Nat) : BitVec 64 :=
  match arch, level with
  | .x86_64, .avx512 => sumAvx512 data n
  | .x86_64, .avx2 => sumAvx2 data n
  | .arm64, .neon => sumNeon data n
  | _, _ => sumScalar data n

def filterGtSum (arch : Architecture) (level : SimdLevel) (pred out : List (BitVec 64)) (n : Nat)
    (threshold : BitVec 64) : FilterSumResult :=
  match arch, level with
  | .x86_64, .avx512 => filterGtSumAvx512 pred out n threshold
  | .x86_64, .avx2 => filterGtSumAvx2 pred out n threshold
  | .arm64, .neon => filterGtSumNeon pred out n threshold
  | _, _ => filterGtSumScalar pred out n threshold

/-! ## Every tier adds up the same column -/

theorem horizontalSumAvx2_eq (v : Reg 4 (BitVec 64)) : horizontalSumAvx2 v = ∑ j, v j := by
  rw [Fin.sum_univ_four, horizontalSumAvx2]
  ac_rfl

theorem horizontalSumNeon_eq (v : Reg 2 (BitVec 64)) : horizontalSumNeon v = ∑ j, v j :=
  (Fin.sum_univ_two v).symm

section
variable (data : List (BitVec 64))

theorem sumFrom_eq (k i : Nat) (sum : BitVec 64) :
    sumFrom data k i sum = sum + ∑ j ∈ Finset.range k, data.getD (i + j) 0#64 := by
  induction k generalizing i sum with
  | zero => simp [sumFrom]
  | succ k ih =>
    rw [sumFrom, ih, Finset.sum_range_succ' _ k, add_assoc, add_comm (data.getD i 0#64)]
    simp only [Nat.add_zero, Nat.add_assoc, Nat.add_comm 1]

theorem sumScalar_eq (n : Nat) : sumScalar data n = ∑ i ∈ Finset.range n, data.getD i 0#64 := by
  rw [sumScalar, sumFrom_eq]
  simp only [Nat.zero_add]
  exact zero_add _

theorem sumLanes_eq {w : Nat} {horizontalSum : Reg w (BitVec 64) → BitVec 64}
    (hsum : ∀ v, horizontalSum v = ∑ j, v j) (n : Nat) :
    sumLanes w horizontalSum data n = ∑ i ∈ Finset.range n, data.getD i 0#64 := by
  have hbody : ∀ (acc : Reg w (BitVec 64)) i, ∑ j, (acc + load w data 0#64 i) j =
      ∑ j, acc j + ∑ j ∈ Finset.range w, data.getD (i + j) 0#64 :=
    fun acc i => sum_lanes_add acc (fun k => data.getD k 0#64) i
  unfold sumLanes
  simp only [hsum]
  rw [sumFrom_eq]
  refine (blocks_then_rest w (fun acc i => acc + load w data 0#64 i) (fun acc : Reg w (BitVec 64) => ∑ j, acc j)
    (fun i => data.getD i 0#64) hbody n 0).trans ?_
  simp

theorem sumNeon_eq (n : Nat) : sumNeon data n = ∑ i ∈ Finset.range n, data.getD i 0#64 := by
  let total (acc : Reg 2 (BitVec 64) × Reg 2 (BitVec 64)) : BitVec 64 := horizontalSumNeon (acc.1 + acc.2)
  have hbody : ∀ acc i, total (sumNeonBody data acc i) =
      total acc + ∑ j ∈ Finset.range 4, data.getD (i + j) 0#64 := by
    intro acc i
    simp only [total, sumNeonBody, horizontalSumNeon, Pi.add_apply, load, Finset.sum_range_succ,
      Finset.sum_range_zero, Fin.val_zero, Fin.val_one, Nat.add_assoc, Nat.add_zero]
    ac_rfl
  unfold sumNeon
  rw [sumFrom_eq]
  refine (blocks_then_rest 4 (sumNeonBody data) total (fun i => data.getD i 0#64) hbody n (0, 0)).trans ?_
  simp [total, horizontalSumNeon]

theorem sum_eq (arch : Architecture) (level : SimdLevel) (n : Nat) :
    sum arch level data n = ∑ i ∈ Finset.range n, data.getD i 0#64 := by
  have hscalar := sumScalar_eq data n
  have hneon := sumNeon_eq data n
  have havx2 : sumAvx2 data n = ∑ i ∈ Finset.range n, data.getD i 0#64 :=
    sumLanes_eq data horizontalSumAvx2_eq n
  have havx512 : sumAvx512 data n = ∑ i ∈ Finset.range n, data.getD i 0#64 :=
    sumLanes_eq data (fun _ => rfl) n
  cases arch <;> cases level <;> assumption

end

/-! ## Every tier adds up the same rows -/

/-- What a row of predicate value `p` and output value `a` gives. -/
def hit (threshold p a : BitVec 64) : FilterSumResult := if threshold.slt p then ⟨1#64, a⟩ else 0

/-- What row `i` gives. -/
def hitAt (pred out : List (BitVec 64)) (threshold : BitVec 64) (i : Nat) : FilterSumResult :=
  hit threshold (pred.getD i 0#64) (out.getD i 0#64)

theorem sum_hit (threshold p a : BitVec 64) : (hit threshold p a).sum = if threshold.slt p then a else 0#64 := by
  unfold hit
  split <;> rfl

theorem matchedCount_hit (threshold p a : BitVec 64) :
    (hit threshold p a).matchedCount = if threshold.slt p then 1#64 else 0#64 := by
  unfold hit
  split <;> rfl

section
variable (pred out : List (BitVec 64)) (threshold : BitVec 64)

theorem filterGtSumFrom_eq : ∀ (k i : Nat) (result : FilterSumResult),
    filterGtSumFrom pred out threshold k i result =
      result + ∑ j ∈ Finset.range k, hitAt pred out threshold (i + j) := by
  intro k
  induction k with
  | zero => intro i result; simp [filterGtSumFrom]
  | succ k ih =>
    intro i result
    have hrow : (if threshold.slt (pred.getD i 0#64) then
        { sum := result.sum + out.getD i 0#64, matchedCount := result.matchedCount + 1#64 }
      else result : FilterSumResult) = result + hitAt pred out threshold i := by
      unfold hitAt hit
      split
      · rfl
      · exact (add_zero result).symm
    rw [filterGtSumFrom, hrow, ih, Finset.sum_range_succ' _ k, add_assoc, add_comm (hitAt pred out threshold i)]
    simp only [Nat.add_zero, Nat.add_assoc, Nat.add_comm 1]

/-- Vector blocks that add up their rows, then the scalar loop: all rows. -/
theorem blocks_then_scalar {σ : Type} (w : Nat) (body : σ → Nat → σ) (total : σ → FilterSumResult) (s : σ)
    (n : Nat) (hs : total s = 0)
    (hbody : ∀ s i, total (body s i) = total s + ∑ j ∈ Finset.range w, hitAt pred out threshold (i + j)) :
    filterGtSumFrom pred out threshold (n - (blocks w body (n / w) 0 s).1) (blocks w body (n / w) 0 s).1
      (total (blocks w body (n / w) 0 s).2) = ∑ i ∈ Finset.range n, hitAt pred out threshold i := by
  rw [filterGtSumFrom_eq, blocks_then_rest w body total (hitAt pred out threshold) hbody, hs, zero_add]

theorem sum_sum_hit (s : Finset Nat) (f : Nat → FilterSumResult) :
    (∑ j ∈ s, f j).sum = ∑ j ∈ s, (f j).sum ∧ (∑ j ∈ s, f j).matchedCount = ∑ j ∈ s, (f j).matchedCount := by
  classical
  induction s using Finset.induction_on with
  | empty => simp
  | insert a s ha ih => simp [Finset.sum_insert ha, ih]

/-- The sums of two registers as one result. -/
def laneTotal {w : Nat} (acc : Reg w (BitVec 64) × Reg w (BitVec 64)) : FilterSumResult :=
  { sum := ∑ j, acc.1 j, matchedCount := ∑ j, acc.2 j }

theorem laneTotal_maskedBody {w : Nat} (acc : Reg w (BitVec 64) × Reg w (BitVec 64)) (i : Nat) :
    laneTotal (maskedBody w pred out threshold acc i) =
      laneTotal acc + ∑ j ∈ Finset.range w, hitAt pred out threshold (i + j) := by
  have hsum : (maskedBody w pred out threshold acc i).1 =
      acc.1 + fun j : Fin w => (hitAt pred out threshold (i + j)).sum := by
    funext j
    simp only [maskedBody, Pi.add_apply, Lanes.and, cmpGt, mask_and, splat, load, hitAt, sum_hit]
  have hcount : (maskedBody w pred out threshold acc i).2 =
      acc.2 + fun j : Fin w => (hitAt pred out threshold (i + j)).matchedCount := by
    funext j
    simp only [maskedBody, Pi.add_apply, Pi.sub_apply, cmpGt, sub_mask, splat, load, hitAt, matchedCount_hit]
  obtain ⟨hs, hc⟩ := sum_sum_hit (Finset.range w) fun j => hitAt pred out threshold (i + j)
  refine FilterSumResult.ext ?_ ?_
  · rw [FilterSumResult.matchedCount_add, hc]
    unfold laneTotal
    rw [hcount]
    exact sum_lanes_add acc.2 (fun k => (hitAt pred out threshold k).matchedCount) i
  · rw [FilterSumResult.sum_add, hs]
    unfold laneTotal
    rw [hsum]
    exact sum_lanes_add acc.1 (fun k => (hitAt pred out threshold k).sum) i

theorem filterGtSumMasked_eq {w : Nat} {horizontalSum : Reg w (BitVec 64) → BitVec 64}
    (hsum : ∀ v, horizontalSum v = ∑ j, v j) (n : Nat) :
    filterGtSumMasked w horizontalSum pred out n threshold = ∑ i ∈ Finset.range n, hitAt pred out threshold i := by
  unfold filterGtSumMasked
  simp only [hsum]
  refine blocks_then_scalar pred out threshold w (maskedBody w pred out threshold) laneTotal (0, 0) n ?_
    (laneTotal_maskedBody pred out threshold)
  simp [laneTotal]
  rfl

theorem filterGtSumAvx512_eq (n : Nat) :
    filterGtSumAvx512 pred out n threshold = ∑ i ∈ Finset.range n, hitAt pred out threshold i := by
  let total (acc : Reg 8 (BitVec 64) × BitVec 64) : FilterSumResult := { sum := ∑ j, acc.1 j, matchedCount := acc.2 }
  have hbody : ∀ acc i, total (avx512Body pred out threshold acc i) =
      total acc + ∑ j ∈ Finset.range 8, hitAt pred out threshold (i + j) := by
    intro acc i
    have hsum : (avx512Body pred out threshold acc i).1 =
        acc.1 + fun j : Fin 8 => (hitAt pred out threshold (i + j)).sum := by
      funext j
      simp only [avx512Body, Pi.add_apply, splat, load, hitAt, sum_hit]
      rfl
    obtain ⟨hs, hc⟩ := sum_sum_hit (Finset.range 8) fun j => hitAt pred out threshold (i + j)
    refine FilterSumResult.ext ?_ ?_
    · rw [FilterSumResult.matchedCount_add, hc]
      show acc.2 + _ = acc.2 + _
      simp only [Finset.sum_range, hitAt, matchedCount_hit, splat, load]
      rfl
    · rw [FilterSumResult.sum_add, hs]
      show ∑ j, (avx512Body pred out threshold acc i).1 j = _
      rw [hsum]
      exact sum_lanes_add acc.1 (fun k => (hitAt pred out threshold k).sum) i
  refine blocks_then_scalar pred out threshold 8 (avx512Body pred out threshold) total (0, 0#64) n ?_ hbody
  rfl

theorem filterGtSumScalar_eq (n : Nat) :
    filterGtSumScalar pred out n threshold = ∑ i ∈ Finset.range n, hitAt pred out threshold i := by
  rw [filterGtSumScalar, filterGtSumFrom_eq]
  simp only [Nat.zero_add]
  exact zero_add _

/-- **Every tier returns the same.** -/
theorem filterGtSum_eq (arch : Architecture) (level : SimdLevel) (n : Nat) :
    filterGtSum arch level pred out n threshold = ∑ i ∈ Finset.range n, hitAt pred out threshold i := by
  have hscalar := filterGtSumScalar_eq pred out threshold n
  have hneon : filterGtSumNeon pred out n threshold = ∑ i ∈ Finset.range n, hitAt pred out threshold i :=
    filterGtSumMasked_eq pred out threshold horizontalSumNeon_eq n
  have havx2 : filterGtSumAvx2 pred out n threshold = ∑ i ∈ Finset.range n, hitAt pred out threshold i :=
    filterGtSumMasked_eq pred out threshold horizontalSumAvx2_eq n
  have havx512 := filterGtSumAvx512_eq pred out threshold n
  cases arch <;> cases level <;> assumption

end

/-- **The tiers are identical**, `Sum` and `FilterGtSum`, at every length and threshold. -/
theorem kernel_tiers_identical (data pred out : List (BitVec 64)) (n : Nat) (threshold : BitVec 64) :
    (sumAvx2 data n = sumScalar data n ∧ sumAvx512 data n = sumScalar data n ∧
        sumNeon data n = sumScalar data n) ∧
      filterGtSumAvx2 pred out n threshold = filterGtSumScalar pred out n threshold ∧
      filterGtSumAvx512 pred out n threshold = filterGtSumScalar pred out n threshold ∧
      filterGtSumNeon pred out n threshold = filterGtSumScalar pred out n threshold := by
  rw [sumScalar_eq, filterGtSumScalar_eq]
  refine ⟨⟨?_, ?_, ?_⟩, ?_, ?_, ?_⟩
  · exact sum_eq data .x86_64 .avx2 n
  · exact sum_eq data .x86_64 .avx512 n
  · exact sum_eq data .arm64 .neon n
  · exact filterGtSum_eq pred out threshold .x86_64 .avx2 n
  · exact filterGtSum_eq pred out threshold .x86_64 .avx512 n
  · exact filterGtSum_eq pred out threshold .arm64 .neon n

end CoreDB
