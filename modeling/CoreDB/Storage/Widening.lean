import CoreDB.Storage.Types

/-!
# Comparing integers as doubles

`CompareValues` widens both sides to double.  The nearest double of a larger integer is
not smaller, so a strict comparison of doubles decides that of the integers
(`lt_of_widen_lt`); but integers next to each other may share their double.  Up to 2⁵³
every integer has its own (`widen_lt_of_lt`).
-/

namespace CoreDB

/-! ## Magnitudes -/

theorem nearestDouble_zero : nearestDouble 0 = 0 := rfl

/-- Exact below 2⁵³. -/
theorem nearestDouble_small {m : Nat} (hm : m ≠ 0) (he : m.log2 ≤ 52) :
    nearestDouble m = (m.log2 + 1023) * 2 ^ 52 + (m * 2 ^ (52 - m.log2) - 2 ^ 52) := by
  unfold nearestDouble
  rw [if_neg hm]
  exact if_pos he

/-- The 53 leading bits, one more if the rest is above half, or half and they are odd. -/
theorem nearestDouble_large {m : Nat} (hm : m ≠ 0) (he : 52 < m.log2) :
    nearestDouble m = (m.log2 + 1023) * 2 ^ 52 + (m / 2 ^ (m.log2 - 52) - 2 ^ 52) +
      (if decide (2 ^ (m.log2 - 52 - 1) < m % 2 ^ (m.log2 - 52)) ||
          (m % 2 ^ (m.log2 - 52) == 2 ^ (m.log2 - 52 - 1) && m / 2 ^ (m.log2 - 52) % 2 == 1) then 1 else 0) := by
  unfold nearestDouble
  rw [if_neg hm]
  exact if_neg (by omega)

theorem log2_bounds {m : Nat} (hm : m ≠ 0) : 2 ^ m.log2 ≤ m ∧ m < 2 ^ (m.log2 + 1) :=
  ⟨Nat.log2_self_le hm, Nat.lt_log2_self⟩

/-- The leading bits of a large magnitude fill 53 bits. -/
theorem leading_bits {m : Nat} (hm : m ≠ 0) (he : 52 < m.log2) :
    2 ^ 52 ≤ m / 2 ^ (m.log2 - 52) ∧ m / 2 ^ (m.log2 - 52) < 2 ^ 53 := by
  obtain ⟨hlo, hhi⟩ := log2_bounds hm
  have hpos : 0 < 2 ^ (m.log2 - 52) := Nat.two_pow_pos _
  constructor
  · rw [Nat.le_div_iff_mul_le hpos, ← Nat.pow_add, show 52 + (m.log2 - 52) = m.log2 by omega]
    exact hlo
  · rw [Nat.div_lt_iff_lt_mul hpos, ← Nat.pow_add, show 53 + (m.log2 - 52) = m.log2 + 1 by omega]
    exact hhi

theorem shifted_bits {m : Nat} (hm : m ≠ 0) (he : m.log2 ≤ 52) :
    2 ^ 52 ≤ m * 2 ^ (52 - m.log2) ∧ m * 2 ^ (52 - m.log2) < 2 ^ 53 := by
  obtain ⟨hlo, hhi⟩ := log2_bounds hm
  have hpos : 0 < 2 ^ (52 - m.log2) := Nat.two_pow_pos _
  constructor
  · calc 2 ^ 52 = 2 ^ m.log2 * 2 ^ (52 - m.log2) := by rw [← Nat.pow_add, show m.log2 + (52 - m.log2) = 52 by omega]
      _ ≤ m * 2 ^ (52 - m.log2) := Nat.mul_le_mul_right _ hlo
  · calc m * 2 ^ (52 - m.log2) < 2 ^ (m.log2 + 1) * 2 ^ (52 - m.log2) := Nat.mul_lt_mul_of_pos_right hhi hpos
      _ = 2 ^ 53 := by rw [← Nat.pow_add, show m.log2 + 1 + (52 - m.log2) = 53 by omega]

/-- The exponent of the magnitude decides most of it. -/
theorem nearestDouble_bounds {m : Nat} (hm : m ≠ 0) :
    (m.log2 + 1023) * 2 ^ 52 ≤ nearestDouble m ∧ nearestDouble m ≤ (m.log2 + 1024) * 2 ^ 52 := by
  by_cases he : m.log2 ≤ 52
  · obtain ⟨h1, h2⟩ := shifted_bits hm he
    rw [nearestDouble_small hm he]
    omega
  · obtain ⟨h1, h2⟩ := leading_bits hm (by omega)
    rw [nearestDouble_large hm (by omega)]
    split <;> omega

theorem log2_mono {a b : Nat} (h : a ≤ b) (ha : a ≠ 0) : a.log2 ≤ b.log2 :=
  (Nat.le_log2 (by omega)).mpr (Nat.le_trans (Nat.log2_self_le ha) h)

/-- **The nearest double of a larger magnitude is not smaller.** -/
theorem nearestDouble_mono {a b : Nat} (h : a ≤ b) : nearestDouble a ≤ nearestDouble b := by
  by_cases ha : a = 0
  · subst ha
    rw [nearestDouble_zero]
    exact Nat.zero_le _
  have hb : b ≠ 0 := by omega
  have hlog := log2_mono h ha
  rcases Nat.lt_or_eq_of_le hlog with hlt | heq
  · have h1 := (nearestDouble_bounds ha).2
    have h2 := (nearestDouble_bounds hb).1
    omega
  · by_cases he : a.log2 ≤ 52
    · have hmul : a * 2 ^ (52 - b.log2) ≤ b * 2 ^ (52 - b.log2) := Nat.mul_le_mul_right _ h
      rw [nearestDouble_small ha he, nearestDouble_small hb (by omega), heq]
      omega
    · rw [nearestDouble_large ha (by omega), nearestDouble_large hb (by omega), heq]
      have hq : a / 2 ^ (b.log2 - 52) ≤ b / 2 ^ (b.log2 - 52) := Nat.div_le_div_right h
      rcases Nat.lt_or_eq_of_le hq with hqlt | hqeq
      · -- another leading part: rounding up reaches it at most
        have h52 := (leading_bits ha (by omega)).1
        rw [heq] at h52
        split <;> split <;> omega
      · -- the same leading part: the larger rest rounds up if the smaller does
        have hr : a % 2 ^ (b.log2 - 52) ≤ b % 2 ^ (b.log2 - 52) := by
          have ha' := Nat.div_add_mod a (2 ^ (b.log2 - 52))
          have hb' := Nat.div_add_mod b (2 ^ (b.log2 - 52))
          rw [hqeq] at ha'
          omega
        rw [hqeq]
        by_cases hup : (decide (2 ^ (b.log2 - 52 - 1) < a % 2 ^ (b.log2 - 52)) ||
            (a % 2 ^ (b.log2 - 52) == 2 ^ (b.log2 - 52 - 1) && b / 2 ^ (b.log2 - 52) % 2 == 1)) = true
        · have hup' : (decide (2 ^ (b.log2 - 52 - 1) < b % 2 ^ (b.log2 - 52)) ||
              (b % 2 ^ (b.log2 - 52) == 2 ^ (b.log2 - 52 - 1) && b / 2 ^ (b.log2 - 52) % 2 == 1)) = true := by
            simp only [Bool.or_eq_true, decide_eq_true_iff, Bool.and_eq_true, beq_iff_eq] at hup ⊢
            omega
          exact Nat.le_of_eq (by rw [if_pos hup, if_pos hup'])
        · rw [if_neg hup]
          omega

/-- Up to 2⁵³ every magnitude has its own double. -/
theorem nearestDouble_strictMono {a b : Nat} (h : a < b) (hb : b ≤ 2 ^ 53) : nearestDouble a < nearestDouble b := by
  have hb0 : b ≠ 0 := by omega
  have hbig := (nearestDouble_bounds hb0).1
  by_cases ha : a = 0
  · subst ha
    rw [nearestDouble_zero]
    omega
  have hlog := log2_mono (Nat.le_of_lt h) ha
  have hea : a.log2 ≤ 52 := by
    have := (Nat.log2_lt ha).mpr (show a < 2 ^ 53 by omega)
    omega
  obtain ⟨-, hsmall⟩ := shifted_bits ha hea
  rcases Nat.lt_or_eq_of_le hlog with hlt | heq
  · rw [nearestDouble_small ha hea]
    omega
  · have hmul : a * 2 ^ (52 - b.log2) < b * 2 ^ (52 - b.log2) :=
      Nat.mul_lt_mul_of_pos_right h (Nat.two_pow_pos _)
    have hlow := (shifted_bits ha hea).1
    rw [nearestDouble_small ha hea, nearestDouble_small hb0 (by omega), heq]
    rw [heq] at hlow
    omega

/-! ## Signed integers -/

/-- Order key of the double nearest to `n`. -/
def widen (n : Int) : Int := if n < 0 then -(nearestDouble n.natAbs : Int) else nearestDouble n.natAbs

theorem doubleKey_intToDouble {n : Int} (h : n.natAbs ≤ 2 ^ 63) : doubleKey (intToDouble n) = some (widen n) := by
  have hfin : nearestDouble n.natAbs ≤ 0x7FF0000000000000 := by
    have hmono := nearestDouble_mono h
    have htop : nearestDouble (2 ^ 63) ≤ 0x7FF0000000000000 := by decide +kernel
    omega
  unfold doubleKey intToDouble widen
  by_cases hneg : n < 0
  · have hval : (BitVec.ofNat 64 (nearestDouble n.natAbs + 2 ^ 63)).toNat = nearestDouble n.natAbs + 2 ^ 63 := by
      rw [BitVec.toNat_ofNat]
      exact Nat.mod_eq_of_lt (by omega)
    simp only [if_pos hneg, hval]
    rw [show (nearestDouble n.natAbs + 2 ^ 63) % 2 ^ 63 = nearestDouble n.natAbs by omega,
      if_neg (by omega), if_neg (by omega)]
  · have hval : (BitVec.ofNat 64 (nearestDouble n.natAbs + 0)).toNat = nearestDouble n.natAbs := by
      rw [BitVec.toNat_ofNat]
      exact Nat.mod_eq_of_lt (by omega)
    simp only [if_neg hneg, hval]
    rw [Nat.mod_eq_of_lt (show nearestDouble n.natAbs < 2 ^ 63 by omega), if_neg (by omega), if_pos (by omega)]

theorem widen_mono {a b : Int} (h : a ≤ b) : widen a ≤ widen b := by
  unfold widen
  by_cases ha : a < 0
  · by_cases hb : b < 0
    · have hmono := nearestDouble_mono (show b.natAbs ≤ a.natAbs by omega)
      rw [if_pos ha, if_pos hb]
      omega
    · rw [if_pos ha, if_neg hb]
      omega
  · have hmono := nearestDouble_mono (show a.natAbs ≤ b.natAbs by omega)
    rw [if_neg ha, if_neg (by omega)]
    omega

/-- A strict comparison of doubles decides that of the integers. -/
theorem lt_of_widen_lt {a b : Int} (h : widen a < widen b) : a < b := by
  apply Classical.byContradiction
  intro hge
  have := widen_mono (show b ≤ a by omega)
  omega

/-- Up to 2⁵³ the doubles compare as the integers do. -/
theorem widen_lt_of_lt {a b : Int} (h : a < b) (ha : a.natAbs ≤ 2 ^ 53) (hb : b.natAbs ≤ 2 ^ 53) :
    widen a < widen b := by
  unfold widen
  by_cases hna : a < 0
  · by_cases hnb : b < 0
    · have hlt := nearestDouble_strictMono (show b.natAbs < a.natAbs by omega) ha
      rw [if_pos hna, if_pos hnb]
      omega
    · have hpos := nearestDouble_strictMono (show 0 < a.natAbs by omega) ha
      rw [if_pos hna, if_neg hnb]
      omega
  · have hlt := nearestDouble_strictMono (show a.natAbs < b.natAbs by omega) hb
    rw [if_neg hna, if_neg (by omega)]
    omega

theorem natAbs_toInt_le (v : BitVec 64) : v.toInt.natAbs ≤ 2 ^ 63 := by
  have h1 := BitVec.toInt_lt (x := v)
  have h2 := BitVec.le_toInt (x := v)
  omega

/-- `CompareValues` on int64 values. -/
theorem compareValues_int64 (a b : BitVec 64) :
    compareValues (.int64 a) (.int64 b) =
      some (if widen a.toInt < widen b.toInt then -1 else if widen b.toInt < widen a.toInt then 1 else 0) := by
  unfold compareValues
  simp only [asDouble, doubleLt, doubleKey_intToDouble (natAbs_toInt_le a), doubleKey_intToDouble (natAbs_toInt_le b),
    decide_eq_true_iff]

end CoreDB
