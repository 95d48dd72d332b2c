import Mathlib.Algebra.Group.Nat.Defs
import Mathlib.Data.Finset.Card
import Mathlib.Data.List.Basic

/-!
# Validity bitmap (`util/bitmap.h`)

One bit per row, packed eight to a byte, low bit first.  `SetValid` changes one
row and no other (`isValid_setValid`); a new bitmap reads as its initial value
(`isValid_new`).  The byte-wise `AllValid` says the same as the row-wise `CountValid`
(`allValid_iff`, `countValid_eq_numRows_iff`).
-/

namespace CoreDB

structure Bitmap where
  numRows : Nat := 0
  bytes : List UInt8 := []
deriving DecidableEq, Repr

namespace Bitmap

/-- Mask of the bits of the last byte that belong to rows. -/
def lastByteMask (numRows : Nat) : UInt8 :=
  if numRows % 8 = 0 then 0xFF else UInt8.ofNat (2 ^ (numRows % 8) - 1)

/-- `bytes_.back() &= LastByteMask()`, when there is a last byte. -/
def clearTrailingBits (b : Bitmap) : Bitmap :=
  { b with bytes := b.bytes.modify (b.bytes.length - 1) (· &&& lastByteMask b.numRows) }

def new (numRows : Nat) (initialValue : Bool) : Bitmap :=
  clearTrailingBits
    { numRows, bytes := List.replicate ((numRows + 7) / 8) (if initialValue then 0xFF else 0x00) }

def isValid (b : Bitmap) (row : Nat) : Bool :=
  (b.bytes.getD (row / 8) 0).toNat.testBit (row % 8)

/-- `mask` of row `row` inside its byte. -/
def rowMask (row : Nat) : UInt8 := UInt8.ofNat (2 ^ (row % 8))

def setByte (byte mask : UInt8) (valid : Bool) : UInt8 :=
  if valid then byte ||| mask else byte &&& ~~~mask

def setValid (b : Bitmap) (row : Nat) (valid : Bool) : Bitmap :=
  { b with bytes := b.bytes.modify (row / 8) fun byte => setByte byte (rowMask row) valid }

def countValid (b : Bitmap) : Nat := ((List.range b.numRows).filter b.isValid).length

/-- Whole bytes first, then the last one under its mask. -/
def allValid (b : Bitmap) : Bool :=
  b.bytes.dropLast.all (· == 0xFF) &&
    match b.bytes.getLast? with
    | none => true
    | some last => last &&& lastByteMask b.numRows == lastByteMask b.numRows

def fromBytes (numRows : Nat) (bytes : List UInt8) : Bitmap := { numRows, bytes }

/-! ## One byte -/

theorem toNat_two_pow (k : Nat) (hk : k < 8) : (UInt8.ofNat (2 ^ k)).toNat = 2 ^ k := by
  rw [UInt8.toNat_ofNat', Nat.mod_eq_of_lt]
  exact Nat.pow_lt_pow_right (by omega) hk

theorem testBit_setByte (b : UInt8) (k j : Nat) (hk : k < 8) (hj : j < 8) (v : Bool) :
    (setByte b (UInt8.ofNat (2 ^ k)) v).toNat.testBit j = if j = k then v else b.toNat.testBit j := by
  have hmask := toNat_two_pow k hk
  have hlt : 2 ^ k < 2 ^ 8 := Nat.pow_lt_pow_right (by omega) hk
  have hbit : (2 ^ k).testBit j = decide (k = j) := Nat.testBit_two_pow
  unfold setByte
  cases v with
  | true =>
    rw [if_pos rfl, UInt8.toNat_or, hmask, Nat.testBit_or, hbit]
    by_cases h : j = k
    · simp [h]
    · simp [h, Ne.symm h]
  | false =>
    have hnot : (~~~UInt8.ofNat (2 ^ k)).toNat = 2 ^ 8 - (2 ^ k + 1) := by
      rw [UInt8.toNat_not, hmask]
      simp only [UInt8.size]
      omega
    rw [if_neg (by simp), UInt8.toNat_and, hnot, Nat.testBit_and, Nat.testBit_two_pow_sub_succ hlt, hbit]
    by_cases h : j = k
    · simp [h]
    · simp [h, Ne.symm h, hj]

/-- The rows of the last byte: all eight, or those below the remainder. -/
theorem testBit_lastByteMask (n j : Nat) (hj : j < 8) :
    (lastByteMask n).toNat.testBit j = decide (n % 8 = 0 ∨ j < n % 8) := by
  unfold lastByteMask
  split
  next h =>
    have hfull : ∀ j, j < 8 → (0xFF : UInt8).toNat.testBit j = true := by decide +kernel
    rw [hfull j hj, decide_eq_true (Or.inl h)]
  next h =>
    have hlt : 2 ^ (n % 8) < 2 ^ 8 := Nat.pow_lt_pow_right (by omega) (Nat.mod_lt _ (by omega))
    rw [UInt8.toNat_ofNat', Nat.mod_eq_of_lt (by omega), Nat.testBit_two_pow_sub_one]
    simp [h]

theorem eq_of_testBit {a b : UInt8} (h : ∀ j, j < 8 → a.toNat.testBit j = b.toNat.testBit j) : a = b := by
  apply UInt8.toNat_inj.mp
  apply Nat.eq_of_testBit_eq
  intro j
  by_cases hj : j < 8
  · exact h j hj
  · have hpow : 2 ^ 8 ≤ 2 ^ j := Nat.pow_le_pow_right (by omega) (by omega)
    rw [Nat.testBit_lt_two_pow (Nat.lt_of_lt_of_le a.toNat_lt hpow),
      Nat.testBit_lt_two_pow (Nat.lt_of_lt_of_le b.toNat_lt hpow)]

/-- A byte covers a mask when every bit of the mask is set in it. -/
theorem and_eq_mask_iff (a m : UInt8) :
    a &&& m = m ↔ ∀ j, j < 8 → m.toNat.testBit j = true → a.toNat.testBit j = true := by
  constructor
  · intro h j hj hm
    have hbit := congrArg (fun b : UInt8 => b.toNat.testBit j) h
    simpa [hm] using hbit
  · intro h
    apply eq_of_testBit
    intro j hj
    rw [UInt8.toNat_and, Nat.testBit_and]
    cases hm : m.toNat.testBit j with
    | true => rw [h j hj hm, Bool.true_and]
    | false => rw [Bool.and_false]

theorem eq_full_iff (a : UInt8) : a = 0xFF ↔ ∀ j, j < 8 → a.toNat.testBit j = true := by
  have hfull : ∀ j, j < 8 → (0xFF : UInt8).toNat.testBit j = true := by decide +kernel
  constructor
  · rintro rfl
    exact hfull
  · intro h
    apply eq_of_testBit
    intro j hj
    rw [h j hj, hfull j hj]

/-! ## The bitmap -/

@[simp] theorem numRows_setValid (b : Bitmap) (r : Nat) (v : Bool) : (b.setValid r v).numRows = b.numRows :=
  rfl

@[simp] theorem length_setValid (b : Bitmap) (r : Nat) (v : Bool) :
    (b.setValid r v).bytes.length = b.bytes.length := by
  simp [setValid]

@[simp] theorem numRows_new (n : Nat) (v : Bool) : (new n v).numRows = n := rfl

@[simp] theorem length_new (n : Nat) (v : Bool) : (new n v).bytes.length = (n + 7) / 8 := by
  simp [new, clearTrailingBits]

theorem isValid_setValid (b : Bitmap) (r : Nat) (v : Bool) (i : Nat) (hr : r / 8 < b.bytes.length) :
    (b.setValid r v).isValid i = if i = r then v else b.isValid i := by
  unfold isValid setValid
  simp only [List.getD_eq_getElem?_getD, List.getElem?_modify]
  by_cases hbyte : r / 8 = i / 8
  · have hlt : i / 8 < b.bytes.length := by omega
    rw [List.getElem?_eq_getElem hlt]
    simp only [hbyte, if_true, Option.map_eq_map, Option.map_some, Option.getD_some, rowMask]
    rw [testBit_setByte _ _ _ (Nat.mod_lt _ (by omega)) (Nat.mod_lt _ (by omega))]
    have hiff : i % 8 = r % 8 ↔ i = r := by omega
    simp only [hiff]
  · have hne : i ≠ r := by rintro rfl; exact hbyte rfl
    rw [if_neg hne]
    simp [hbyte]

theorem isValid_new (n : Nat) (v : Bool) (i : Nat) : (new n v).isValid i = (decide (i < n) && v) := by
  have hfill : ∀ j, j < 8 → (if v then (0xFF : UInt8) else 0x00).toNat.testBit j = v := by
    cases v <;> decide +kernel
  have hj : i % 8 < 8 := Nat.mod_lt _ (by omega)
  unfold isValid new clearTrailingBits
  simp only [List.getD_eq_getElem?_getD, List.getElem?_modify, List.length_replicate]
  by_cases hlt : i / 8 < (n + 7) / 8
  · rw [List.getElem?_replicate_of_lt hlt]
    by_cases hlast : (n + 7) / 8 - 1 = i / 8
    · simp only [hlast, if_true, Option.map_eq_map, Option.map_some, Option.getD_some, UInt8.toNat_and,
        Nat.testBit_and, hfill _ hj, testBit_lastByteMask n _ hj]
      have hrow : (n % 8 = 0 ∨ i % 8 < n % 8) ↔ i < n := by omega
      simp only [hrow, Bool.and_comm]
    · simp only [hlast, if_false, Option.map_eq_map, Option.map_some, Option.getD_some, hfill _ hj]
      rw [decide_eq_true (by omega), Bool.true_and]
  · rw [List.getElem?_eq_none (by simpa using hlt), decide_eq_false (by omega)]
    simp

theorem isValid_new_true (n i : Nat) (hi : i < n) : (new n true).isValid i = true := by
  rw [isValid_new, decide_eq_true hi, Bool.true_and]

/-! ## `AllValid` and `CountValid` -/

/-- `AllValid` byte by byte. -/
theorem allValid_iff_bytes (b : Bitmap) :
    b.allValid = true ↔ ∀ k, k < b.bytes.length →
      if k + 1 < b.bytes.length then b.bytes.getD k 0 = 0xFF
      else b.bytes.getD k 0 &&& lastByteMask b.numRows = lastByteMask b.numRows := by
  unfold allValid
  rcases List.eq_nil_or_concat b.bytes with hnil | ⟨front, last, hsplit⟩
  · simp [hnil]
  · rw [List.concat_eq_append] at hsplit
    simp only [hsplit, List.dropLast_concat, List.getLast?_concat, Bool.and_eq_true, List.all_eq_true,
      beq_iff_eq, List.length_append, List.length_singleton, List.getD_eq_getElem?_getD]
    constructor
    · rintro ⟨hfront, hlast⟩ k hk
      split
      next hlt =>
        have hk' : k < front.length := by omega
        rw [List.getElem?_append_left hk', List.getElem?_eq_getElem hk']
        exact hfront _ (List.getElem_mem hk')
      next hlt =>
        obtain rfl : k = front.length := by omega
        rw [List.getElem?_concat_length]
        exact hlast
    · intro h
      refine ⟨fun byte hmem => ?_, ?_⟩
      · obtain ⟨k, hk, rfl⟩ := List.getElem_of_mem hmem
        have hbyte := h k (by omega)
        rw [if_pos (by omega), List.getElem?_append_left hk, List.getElem?_eq_getElem hk] at hbyte
        exact hbyte
      · have hbyte := h front.length (by omega)
        rw [if_neg (by omega), List.getElem?_concat_length] at hbyte
        exact hbyte

/-- Over as many bytes as the rows need, `AllValid` reads every row and nothing else. -/
theorem allValid_iff (b : Bitmap) (hlen : b.bytes.length = (b.numRows + 7) / 8) :
    b.allValid = true ↔ ∀ row, row < b.numRows → b.isValid row = true := by
  rw [allValid_iff_bytes]
  constructor
  · intro h row hrow
    have hj : row % 8 < 8 := Nat.mod_lt _ (by omega)
    have hbyte := h (row / 8) (by omega)
    split at hbyte
    · exact (eq_full_iff _).mp hbyte _ hj
    · refine (and_eq_mask_iff _ _).mp hbyte _ hj ?_
      rw [testBit_lastByteMask _ _ hj, decide_eq_true_iff]
      omega
  · intro h k hk
    -- bit `j` of byte `k` is row `8k + j`
    have hrow : ∀ j, j < 8 → 8 * k + j < b.numRows → (b.bytes.getD k 0).toNat.testBit j = true := by
      intro j hj hlt
      have := h (8 * k + j) hlt
      rwa [isValid, show (8 * k + j) / 8 = k by omega, show (8 * k + j) % 8 = j by omega] at this
    split
    · exact (eq_full_iff _).mpr fun j hj => hrow j hj (by omega)
    · refine (and_eq_mask_iff _ _).mpr fun j hj hmask => hrow j hj ?_
      rw [testBit_lastByteMask _ _ hj, decide_eq_true_iff] at hmask
      omega

theorem countValid_eq_card (b : Bitmap) :
    b.countValid = ((Finset.range b.numRows).filter fun row => b.isValid row = true).card := by
  rw [countValid, Finset.card_def, Finset.filter_val, Finset.range_val, Multiset.range, Multiset.filter_coe,
    Multiset.coe_card]
  simp

theorem countValid_eq_numRows_iff (b : Bitmap) :
    b.countValid = b.numRows ↔ ∀ row, row < b.numRows → b.isValid row = true := by
  have hlen : (List.range b.numRows).length = b.numRows := List.length_range
  conv => lhs; rhs; rw [← hlen]
  rw [countValid, List.length_filter_eq_length_iff]
  simp only [List.mem_range]

theorem lastByteMask_and_self (byte : UInt8) (n : Nat) :
    (byte &&& lastByteMask n) &&& lastByteMask n = byte &&& lastByteMask n := by
  rw [UInt8.and_assoc, UInt8.and_self]

/-- Bits behind the last row do not matter to `AllValid`, however many bytes there are. -/
theorem allValid_clearTrailingBits (b : Bitmap) : b.clearTrailingBits.allValid = b.allValid := by
  rw [Bool.eq_iff_iff, allValid_iff_bytes, allValid_iff_bytes]
  simp only [clearTrailingBits, List.length_modify]
  refine forall_congr' fun k => imp_congr_right fun hk => ?_
  simp only [List.getD_eq_getElem?_getD, List.getElem?_modify, List.getElem?_eq_getElem hk]
  split
  next hlt => simp [show b.bytes.length - 1 ≠ k by omega]
  next hlt => simp [show b.bytes.length - 1 = k by omega, lastByteMask_and_self]

/-! ## Sequences of `SetValid` -/

/-- As many bytes as the rows need, and no bit set behind the last row. -/
structure Canonical (b : Bitmap) : Prop where
  length : b.bytes.length = (b.numRows + 7) / 8
  trailing : ∀ i, b.numRows ≤ i → b.isValid i = false

def setAll (b : Bitmap) (calls : List (Nat × Bool)) : Bitmap :=
  calls.foldl (fun b call => b.setValid call.1 call.2) b

/-- The value the last call for `row` gave, or the initial one. -/
def lastSet (initialValue : Bool) (calls : List (Nat × Bool)) (row : Nat) : Bool :=
  ((calls.filter fun call => call.1 == row).getLast?.map Prod.snd).getD initialValue

theorem canonical_new (n : Nat) (v : Bool) : (new n v).Canonical := by
  refine ⟨length_new n v, fun i hi => ?_⟩
  rw [isValid_new, decide_eq_false (by simpa using hi), Bool.false_and]

theorem canonical_setValid {b : Bitmap} (h : b.Canonical) {r : Nat} (hr : r < b.numRows) (v : Bool) :
    (b.setValid r v).Canonical := by
  refine ⟨by rw [length_setValid, h.length, numRows_setValid], fun i hi => ?_⟩
  have hi' : b.numRows ≤ i := hi
  rw [isValid_setValid _ _ _ _ (by rw [h.length]; omega), if_neg (by omega), h.trailing i hi']

theorem lastSet_concat (init : Bool) (calls : List (Nat × Bool)) (call : Nat × Bool) (row : Nat) :
    lastSet init (calls ++ [call]) row = if row = call.1 then call.2 else lastSet init calls row := by
  unfold lastSet
  rw [List.filter_append]
  by_cases h : row = call.1
  · simp [h]
  · simp [h, Ne.symm h]

theorem setAll_concat (b : Bitmap) (calls : List (Nat × Bool)) (call : Nat × Bool) :
    setAll b (calls ++ [call]) = (setAll b calls).setValid call.1 call.2 := by
  simp [setAll]

/-- What a sequence of calls leaves, by the last call first. -/
theorem setAll_spec (n : Nat) (init : Bool) (calls : List (Nat × Bool)) (h : ∀ call ∈ calls, call.1 < n) :
    (setAll (new n init) calls).numRows = n ∧ (setAll (new n init) calls).Canonical ∧
      ∀ row, row < n → (setAll (new n init) calls).isValid row = lastSet init calls row := by
  induction calls using List.reverseRecOn with
  | nil =>
    refine ⟨rfl, canonical_new n init, fun row hrow => ?_⟩
    rw [setAll, List.foldl_nil, isValid_new, decide_eq_true hrow, Bool.true_and]
    rfl
  | append_singleton calls call ih =>
    obtain ⟨hrows, hcanon, hvalid⟩ := ih fun c hc => h c (List.mem_append_left _ hc)
    have hcall : call.1 < n := h call (by simp)
    rw [setAll_concat]
    refine ⟨hrows, canonical_setValid hcanon (by rwa [hrows]) call.2, fun row hrow => ?_⟩
    rw [isValid_setValid _ _ _ _ (by rw [hcanon.length, hrows]; omega), lastSet_concat, hvalid row hrow]

/-- **The bitmap is a row predicate.**  After any calls of `SetValid` on rows of the bitmap every row
reads as last set and no bit behind the rows is set; counting, `AllValid` and the raw bytes say the
same; and `AllValid` of bytes from outside looks at no trailing bit. -/
theorem bitmap_represents_rows (n : Nat) (init : Bool) (calls : List (Nat × Bool))
    (h : ∀ call ∈ calls, call.1 < n) :
    (∀ row, row < n → (setAll (new n init) calls).isValid row = lastSet init calls row) ∧
      (∀ row other v, row < n → other ≠ row →
        ((setAll (new n init) calls).setValid row v).isValid other = (setAll (new n init) calls).isValid other) ∧
      (setAll (new n init) calls).bytes.length = (n + 7) / 8 ∧
      (∀ i, n ≤ i → i < 8 * (setAll (new n init) calls).bytes.length →
        ((setAll (new n init) calls).bytes.getD (i / 8) 0).toNat.testBit (i % 8) = false) ∧
      (setAll (new n init) calls).countValid =
        ((Finset.range n).filter fun row => lastSet init calls row = true).card ∧
      ((setAll (new n init) calls).allValid = true ↔ (setAll (new n init) calls).countValid = n) ∧
      fromBytes n (setAll (new n init) calls).bytes = setAll (new n init) calls ∧
      (∀ bytes, (fromBytes n bytes).clearTrailingBits.allValid = (fromBytes n bytes).allValid) ∧
      ∀ bytes, bytes.length = (n + 7) / 8 →
        ((fromBytes n bytes).allValid = true ↔ (fromBytes n bytes).countValid = n) := by
  obtain ⟨hrows, hcanon, hvalid⟩ := setAll_spec n init calls h
  generalize setAll (new n init) calls = b at hrows hcanon hvalid
  subst hrows
  refine ⟨hvalid, fun row other v hrow hne => ?_, hcanon.length, fun i hi _ => hcanon.trailing i hi, ?_, ?_, rfl,
    fun bytes => allValid_clearTrailingBits _, fun bytes hlen => ?_⟩
  · rw [isValid_setValid _ _ _ _ (by rw [hcanon.length]; omega), if_neg hne]
  · rw [countValid_eq_card]
    congr 1
    apply Finset.filter_congr
    intro row hrow
    rw [hvalid row (Finset.mem_range.mp hrow)]
  · rw [allValid_iff b hcanon.length, countValid_eq_numRows_iff]
  · rw [allValid_iff _ hlen]
    exact (countValid_eq_numRows_iff (fromBytes b.numRows bytes)).symm

/-- Ten rows, the last one cleared and set again, the first one cleared. -/
theorem bitmap_represents_rows_ten :
    (∀ call ∈ [(9, false), (0, false), (9, true)], call.1 < 10) ∧
      ∀ row, row < 10 → (setAll (new 10 true) [(9, false), (0, false), (9, true)]).isValid row =
        lastSet true [(9, false), (0, false), (9, true)] row :=
  ⟨by decide, (bitmap_represents_rows 10 true [(9, false), (0, false), (9, true)] (by decide)).1⟩

end Bitmap

end CoreDB
