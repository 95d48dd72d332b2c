import Mathlib.Data.BitVec

/-!
# Linear feedback shift registers

A register of `w` bits that moves down one place at a time and takes the
polynomial in when a one falls out.  `absorb` feeds it a message, a bit per step.
Both are linear in exclusive or.  When the polynomial's top bit is set no step loses
information, so two messages that differ within `w` consecutive bits leave
different registers, whatever stands before and behind them: `absorb_burst`.
-/

namespace ShiftRegister

variable {w : Nat}

/-- One place down; the polynomial comes in when a one falls out. -/
def step (poly c : BitVec w) : BitVec w := if c.getLsbD 0 then (c >>> 1) ^^^ poly else c >>> 1

def steps (poly : BitVec w) : Nat → BitVec w → BitVec w
  | 0, c => c
  | n + 1, c => steps poly n (step poly c)

/-- One message bit: it is compared with the one that falls out. -/
def absorbBit (poly c : BitVec w) (b : Bool) : BitVec w :=
  if c.getLsbD 0 ^^ b then (c >>> 1) ^^^ poly else c >>> 1

def absorb (poly c : BitVec w) (bits : List Bool) : BitVec w := bits.foldl (absorbBit poly) c

/-- The message as a word, first bit lowest. -/
def wordOf : List Bool → BitVec w
  | [] => 0
  | b :: bs => (wordOf bs <<< 1) ^^^ (BitVec.ofBool b).setWidth w

/-! ## Bit by bit -/

theorem getLsbD_step (poly c : BitVec w) (i : Nat) :
    (step poly c).getLsbD i = (c.getLsbD (1 + i) ^^ (c.getLsbD 0 && poly.getLsbD i)) := by
  unfold step
  cases c.getLsbD 0 with
  | true => simp only [if_true, BitVec.getLsbD_xor, BitVec.getLsbD_ushiftRight, Bool.true_and]
  | false =>
    rw [if_neg Bool.false_ne_true, BitVec.getLsbD_ushiftRight, Bool.false_and, Bool.xor_false]

/-- A message bit counts as if it stood in the register's lowest place. -/
theorem absorbBit_eq (poly c : BitVec w) (b : Bool) (hw : 0 < w) :
    absorbBit poly c b = step poly (c ^^^ (BitVec.ofBool b).setWidth w) := by
  have hbit : (c ^^^ (BitVec.ofBool b).setWidth w).getLsbD 0 = (c.getLsbD 0 ^^ b) := by
    simp [hw]
  have hrest : (c ^^^ (BitVec.ofBool b).setWidth w) >>> 1 = c >>> 1 := by
    apply BitVec.eq_of_getLsbD_eq
    intro i hi
    simp [BitVec.getLsbD_ushiftRight]
  rw [absorbBit, step, hbit, hrest]

theorem step_xor (poly x y : BitVec w) : step poly (x ^^^ y) = step poly x ^^^ step poly y := by
  apply BitVec.eq_of_getLsbD_eq
  intro i hi
  simp only [getLsbD_step, BitVec.getLsbD_xor]
  cases x.getLsbD 0 <;> cases y.getLsbD 0 <;> cases poly.getLsbD i <;>
    cases x.getLsbD (1 + i) <;> cases y.getLsbD (1 + i) <;> rfl

theorem steps_xor (poly : BitVec w) (n : Nat) (x y : BitVec w) :
    steps poly n (x ^^^ y) = steps poly n x ^^^ steps poly n y := by
  induction n generalizing x y with
  | zero => rfl
  | succ n ih => rw [steps, step_xor, ih, steps, steps]

/-- Below a one nothing is fed back: a register whose low `n` bits are clear only moves down. -/
theorem steps_eq_ushiftRight (poly : BitVec w) (n : Nat) (x : BitVec w)
    (hx : ∀ i, i < n → x.getLsbD i = false) : steps poly n x = x >>> n := by
  induction n generalizing x with
  | zero => simp [steps]
  | succ n ih =>
    have hstep : step poly x = x >>> 1 := by
      rw [step, hx 0 (by omega), if_neg Bool.false_ne_true]
    rw [steps, hstep, ih, ← BitVec.shiftRight_add, Nat.add_comm]
    intro i hi
    rw [BitVec.getLsbD_ushiftRight]
    exact hx (1 + i) (by omega)

/-- `n` steps of `x`: those of its low `n` bits, and the rest moved down `n` places. -/
theorem steps_split (poly : BitVec w) (n : Nat) (x low : BitVec w)
    (hlow : ∀ i, low.getLsbD i = (decide (i < n) && x.getLsbD i)) :
    steps poly n x = steps poly n low ^^^ (x >>> n) := by
  have hx : x = low ^^^ (x ^^^ low) := by
    rw [BitVec.xor_comm x, ← BitVec.xor_assoc, BitVec.xor_self, BitVec.zero_xor]
  have hhigh : steps poly n (x ^^^ low) = (x ^^^ low) >>> n := by
    apply steps_eq_ushiftRight
    intro i hi
    rw [BitVec.getLsbD_xor, hlow, decide_eq_true hi, Bool.true_and, Bool.xor_self]
  have hrest : (x ^^^ low) >>> n = x >>> n := by
    apply BitVec.eq_of_getLsbD_eq
    intro i hi
    simp [BitVec.getLsbD_ushiftRight, hlow, show ¬ n + i < n by omega]
  calc steps poly n x = steps poly n (low ^^^ (x ^^^ low)) := by rw [← hx]
    _ = steps poly n low ^^^ (x >>> n) := by rw [steps_xor, hhigh, hrest]

/-! ## No step loses information -/

section
variable {poly : BitVec w} (hpoly : poly.msb = true)
include hpoly

/-- The top bit after a step is the bit that fell out. -/
theorem getLsbD_step_top (c : BitVec w) : (step poly c).getLsbD (w - 1) = c.getLsbD 0 := by
  have htop : poly.getLsbD (w - 1) = true := by rw [← BitVec.msb_eq_getLsbD_last]; exact hpoly
  rw [getLsbD_step, htop, BitVec.getLsbD_of_ge c (1 + (w - 1)) (by omega), Bool.and_true,
    Bool.false_xor]

theorem step_injective {x y : BitVec w} (h : step poly x = step poly y) : x = y := by
  have hlow : x.getLsbD 0 = y.getLsbD 0 := by
    rw [← getLsbD_step_top hpoly x, ← getLsbD_step_top hpoly y, h]
  apply BitVec.eq_of_getLsbD_eq
  intro i hi
  cases i with
  | zero => exact hlow
  | succ i =>
    have hi' := congrArg (fun c => c.getLsbD i) h
    simp only [getLsbD_step, hlow, Nat.add_comm 1 i] at hi'
    exact Bool.xor_left_inj.mp hi'

theorem steps_injective (n : Nat) {x y : BitVec w} (h : steps poly n x = steps poly n y) : x = y := by
  induction n generalizing x y with
  | zero => exact h
  | succ n ih => exact step_injective hpoly (ih h)

theorem width_pos : 0 < w := by
  cases w with
  | zero => exact absurd (BitVec.msb_eq_getLsbD_last poly ▸ hpoly) (by simp)
  | succ w => omega

theorem absorb_injective (bits : List Bool) {x y : BitVec w} (h : absorb poly x bits = absorb poly y bits) :
    x = y := by
  induction bits generalizing x y with
  | nil => exact h
  | cons b bs ih =>
    have hbit : absorbBit poly x b = absorbBit poly y b := ih h
    rw [absorbBit_eq _ _ _ (width_pos hpoly), absorbBit_eq _ _ _ (width_pos hpoly)] at hbit
    exact (BitVec.xor_left_inj _).mp (step_injective hpoly hbit)

end

/-! ## A message as a word -/

theorem getLsbD_wordOf (bits : List Bool) (i : Nat) (hi : i < w) :
    (wordOf bits : BitVec w).getLsbD i = bits.getD i false := by
  induction bits generalizing i with
  | nil => simp [wordOf]
  | cons b bs ih =>
    simp only [wordOf, BitVec.getLsbD_xor, BitVec.getLsbD_shiftLeft, BitVec.getLsbD_setWidth, hi,
      decide_true, Bool.true_and]
    cases i with
    | zero => simp
    | succ i => simp [ih i (by omega)]

theorem wordOf_injective {x y : List Bool} (hlen : x.length = y.length) (hx : x.length ≤ w)
    (h : (wordOf x : BitVec w) = wordOf y) : x = y := by
  apply List.ext_getElem hlen
  intro i hi hi'
  have hbit := congrArg (fun c => c.getLsbD i) h
  simp only [getLsbD_wordOf _ _ (Nat.lt_of_lt_of_le hi hx), List.getD_eq_getElem?_getD,
    List.getElem?_eq_getElem hi, List.getElem?_eq_getElem hi'] at hbit
  exact hbit

theorem step_shiftLeft (poly : BitVec w) (bits : List Bool) (hlen : bits.length < w) :
    step poly ((wordOf bits : BitVec w) <<< 1) = wordOf bits := by
  apply BitVec.eq_of_getLsbD_eq
  intro i hi
  rw [getLsbD_step, BitVec.getLsbD_shiftLeft, BitVec.getLsbD_shiftLeft]
  by_cases htop : 1 + i < w
  · simp [htop]
  · -- the last place is free: the message is shorter than the register
    rw [getLsbD_wordOf bits i hi, List.getD_eq_getElem?_getD, List.getElem?_eq_none (by omega)]
    simp [htop]

/-- Absorbing at most `w` bits is adding them as one word and stepping as often. -/
theorem absorb_eq_steps (poly c : BitVec w) (bits : List Bool) (hlen : bits.length ≤ w) :
    absorb poly c bits = steps poly bits.length (c ^^^ wordOf bits) := by
  induction bits generalizing c with
  | nil => simp [absorb, steps, wordOf]
  | cons b bs ih =>
    have hlt : bs.length < w := hlen
    have hstep : step poly (c ^^^ wordOf (b :: bs)) = absorbBit poly c b ^^^ wordOf bs := by
      rw [absorbBit_eq poly c b (by omega), wordOf, BitVec.xor_comm (wordOf bs <<< 1), ← BitVec.xor_assoc,
        step_xor, step_shiftLeft poly bs hlt]
    rw [List.length_cons, steps, hstep]
    exact ih (absorbBit poly c b) (by omega)

/-- **Bursts.**  Messages that differ within `w` consecutive bits leave different registers. -/
theorem absorb_burst {poly : BitVec w} (hpoly : poly.msb = true) (c : BitVec w) (pre x y post : List Bool)
    (hlen : x.length = y.length) (hx : x.length ≤ w) (hne : x ≠ y) :
    absorb poly c (pre ++ x ++ post) ≠ absorb poly c (pre ++ y ++ post) := by
  intro h
  simp only [absorb, List.foldl_append] at h
  have hmid : absorb poly (absorb poly c pre) x = absorb poly (absorb poly c pre) y :=
    absorb_injective hpoly post h
  rw [absorb_eq_steps _ _ x hx, absorb_eq_steps _ _ y (hlen ▸ hx), ← hlen] at hmid
  exact hne (wordOf_injective hlen hx ((BitVec.xor_right_inj _).mp (steps_injective hpoly _ hmid)))

end ShiftRegister
