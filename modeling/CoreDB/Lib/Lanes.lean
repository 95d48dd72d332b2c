import Mathlib.Algebra.BigOperators.Fin
import Mathlib.Data.BitVec

/-!
# Lane-parallel loops

A vector register is a value per lane.  A loop that takes `w` elements at a time and
keeps one accumulator per lane adds the same terms as the loop over single elements,
in another order: `blocks_snd`, and with the elements that fill no block `blocks_then_rest`.  The lanes of a comparison are all ones or all zeros
(`mask`), so "and" selects and "subtract" counts.
-/

namespace Lanes

/-- A register of `w` lanes. -/
abbrev Reg (w : Nat) (α : Type) := Fin w → α

variable {α σ M : Type}

/-- The elements from position `i` on. -/
def load (w : Nat) (data : List α) (d : α) (i : Nat) : Reg w α := fun j => data.getD (i + j) d

/-- The same value in every lane. -/
def splat (w : Nat) (x : α) : Reg w α := fun _ => x

/-- All ones for true, all zeros for false. -/
def mask {b : Nat} (p : Bool) : BitVec b := if p then BitVec.allOnes b else 0#b

/-- Signed `x > y`, lane by lane, as masks. -/
def cmpGt {w b : Nat} (x y : Reg w (BitVec b)) : Reg w (BitVec b) := fun j => mask ((y j).slt (x j))

def and {w b : Nat} (x y : Reg w (BitVec b)) : Reg w (BitVec b) := fun j => x j &&& y j

theorem mask_and {b : Nat} (p : Bool) (x : BitVec b) : mask p &&& x = if p then x else 0#b := by
  cases p with
  | true => exact BitVec.allOnes_and
  | false => exact BitVec.zero_and

theorem sub_mask {b : Nat} (p : Bool) (x : BitVec b) : x - mask p = x + if p then 1#b else 0#b := by
  cases p with
  | true =>
    have hones : (BitVec.allOnes b) = -1#b := BitVec.neg_one_eq_allOnes.symm
    simp only [mask, if_true, hones, sub_neg_eq_add]
  | false => simp [mask]

/-! ## Loops over whole blocks -/

/-- `body` at `i`, `i + w`, `i + 2w`, … for `k` blocks, and where it stops. -/
def blocks (w : Nat) (body : σ → Nat → σ) : Nat → Nat → σ → Nat × σ
  | 0, i, s => (i, s)
  | k + 1, i, s => blocks w body k (i + w) (body s i)

theorem blocks_fst (w : Nat) (body : σ → Nat → σ) : ∀ (k i : Nat) (s : σ),
    (blocks w body k i s).1 = i + k * w := by
  intro k
  induction k with
  | zero => intro i s; simp [blocks]
  | succ k ih =>
    intro i s
    rw [blocks, ih, Nat.succ_mul]
    omega

section
variable [AddCommMonoid M]

/-- What one block adds to a measure of the state, the loop adds for all blocks. -/
theorem blocks_snd (w : Nat) (body : σ → Nat → σ) (total : σ → M) (f : Nat → M)
    (hbody : ∀ s i, total (body s i) = total s + ∑ j ∈ Finset.range w, f (i + j)) : ∀ (k i : Nat) (s : σ),
    total (blocks w body k i s).2 = total s + ∑ j ∈ Finset.range (k * w), f (i + j) := by
  intro k
  induction k with
  | zero => intro i s; simp [blocks]
  | succ k ih =>
    intro i s
    rw [blocks, ih, hbody, Nat.succ_mul, Nat.add_comm (k * w) w, Finset.sum_range_add, ← add_assoc]
    simp only [Nat.add_assoc]

/-- Whole blocks, then the elements behind them one by one: all of them. -/
theorem blocks_then_rest (w : Nat) (body : σ → Nat → σ) (total : σ → M) (f : Nat → M)
    (hbody : ∀ s i, total (body s i) = total s + ∑ j ∈ Finset.range w, f (i + j)) (n : Nat) (s : σ) :
    total (blocks w body (n / w) 0 s).2 +
        ∑ j ∈ Finset.range (n - (blocks w body (n / w) 0 s).1), f ((blocks w body (n / w) 0 s).1 + j) =
      total s + ∑ i ∈ Finset.range n, f i := by
  have hle : n / w * w ≤ n := Nat.div_mul_le_self n w
  have hn : n / w * w + (n - n / w * w) = n := by omega
  rw [blocks_fst, blocks_snd w body total f hbody, add_assoc]
  simp only [zero_add]
  conv => rhs; rw [← hn, Finset.sum_range_add]

/-- Adding lane by lane adds to the sum over the lanes. -/
theorem sum_lanes_add {w : Nat} (acc : Reg w M) (f : Nat → M) (i : Nat) :
    ∑ j, (acc + fun j : Fin w => f (i + j)) j = ∑ j, acc j + ∑ j ∈ Finset.range w, f (i + j) := by
  simp only [Pi.add_apply, Finset.sum_add_distrib]
  rw [Finset.sum_range fun j => f (i + j)]

end

end Lanes
