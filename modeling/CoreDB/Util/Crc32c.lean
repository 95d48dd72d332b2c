import CoreDB.Lib.Bytes
import CoreDB.Lib.ShiftRegister

/-!
# CRC-32C (`util/crc32c.cpp`)

Reflected Castagnoli polynomial, one table entry per byte value.  `Crc32cExtend`
inverts the register on the way in and on the way out, so a checksum can be
continued over a further piece (`crc32cExtend_append`).

The table lookup is eight steps of the bit-serial register (`crcByte_eq_absorb`), and
two strings that differ within four consecutive bytes have different checksums
(`crc32cExtend_burst`).
-/

namespace CoreDB

open ByteCodec

def kPoly : BitVec 32 := 0x82F63B78#32

/-- One bit of `BuildTable`'s inner loop. -/
def crcBit (crc : BitVec 32) : BitVec 32 :=
  if crc.getLsbD 0 then (crc >>> 1) ^^^ kPoly else crc >>> 1

def crcBits : Nat → BitVec 32 → BitVec 32
  | 0, crc => crc
  | n + 1, crc => crcBits n (crcBit crc)

/-- Entry `i` of the array `BuildTable` fills: eight bit steps from `i`. -/
def crcTable (i : Nat) : BitVec 32 := crcBits 8 (BitVec.ofNat 32 i)

/-- The loop body of `Crc32cExtend`. -/
def crcByte (crc : BitVec 32) (b : UInt8) : BitVec 32 :=
  crcTable ((crc ^^^ BitVec.ofNat 32 b.toNat) &&& 0xFF#32).toNat ^^^ (crc >>> 8)

def crc32cExtend (partialCrc : BitVec 32) (data : Bytes) : BitVec 32 :=
  ~~~(data.foldl crcByte (~~~partialCrc))

def crc32c (data : Bytes) : BitVec 32 := crc32cExtend 0#32 data

/-- The checksum as the four bytes the writers emit. -/
def crcBytes (crc : BitVec 32) : Bytes := leBytes 4 crc.toNat

/-- "123456789" has the published CRC-32C check value. -/
example : crc32c [49, 50, 51, 52, 53, 54, 55, 56, 57] = 0xE3069283#32 := by decide +kernel

/-! ## The bit-serial register -/

/-- The bits of a byte in the order a reflected CRC takes them, lowest first. -/
def byteBits (b : UInt8) : List Bool := (List.range 8).map b.toNat.testBit

def messageBits (data : Bytes) : List Bool := data.flatMap byteBits

/-- The reflected CRC of polynomial 0x82F63B78 with initial value and final xor 0xFFFFFFFF, one
message bit at a time. -/
def crc32cSerial (data : Bytes) : BitVec 32 :=
  ShiftRegister.absorb 0x82F63B78#32 0xFFFFFFFF#32 (messageBits data) ^^^ 0xFFFFFFFF#32

theorem kPoly_msb : kPoly.msb = true := by decide

theorem crcBits_eq_steps (n : Nat) (crc : BitVec 32) : crcBits n crc = ShiftRegister.steps kPoly n crc := by
  induction n generalizing crc with
  | zero => rfl
  | succ n ih => exact ih (crcBit crc)

theorem messageBits_cons (b : UInt8) (data : Bytes) : messageBits (b :: data) = byteBits b ++ messageBits data :=
  rfl

theorem messageBits_append (a b : Bytes) : messageBits (a ++ b) = messageBits a ++ messageBits b :=
  List.flatMap_append

theorem length_byteBits (b : UInt8) : (byteBits b).length = 8 := by simp [byteBits]

theorem getD_byteBits (b : UInt8) (i : Nat) : (byteBits b).getD i false = b.toNat.testBit i := by
  rw [byteBits, List.getD_eq_getElem?_getD, List.getElem?_map]
  by_cases hi : i < 8
  · rw [List.getElem?_range hi]
    rfl
  · have hlt : b.toNat < 2 ^ i :=
      Nat.lt_of_lt_of_le b.toNat_lt (Nat.pow_le_pow_right (by omega) (by omega))
    rw [List.getElem?_eq_none (by simpa using hi), Nat.testBit_lt_two_pow hlt]
    rfl

theorem wordOf_byteBits (b : UInt8) :
    (ShiftRegister.wordOf (byteBits b) : BitVec 32) = BitVec.ofNat 32 b.toNat := by
  apply BitVec.eq_of_getLsbD_eq
  intro i hi
  rw [ShiftRegister.getLsbD_wordOf _ _ hi, getD_byteBits, BitVec.getLsbD_ofNat, decide_eq_true hi,
    Bool.true_and]

/-- **The table step.**  One lookup is eight steps of the register over the byte's bits. -/
theorem crcByte_eq_absorb (crc : BitVec 32) (b : UInt8) :
    crcByte crc b = ShiftRegister.absorb kPoly crc (byteBits b) := by
  have hlow : ∀ i, ((crc ^^^ BitVec.ofNat 32 b.toNat) &&& 0xFF#32).getLsbD i =
      (decide (i < 8) && (crc ^^^ BitVec.ofNat 32 b.toNat).getLsbD i) := by
    intro i
    have hmask : (0xFF#32).getLsbD i = decide (i < 8) := by
      rw [BitVec.getLsbD_ofNat, show (0xFF : Nat) = 2 ^ 8 - 1 from rfl, Nat.testBit_two_pow_sub_one]
      by_cases hi : i < 8
      · simp [hi, show i < 32 by omega]
      · simp [hi]
    rw [BitVec.getLsbD_and, hmask, Bool.and_comm]
  have hbyte : BitVec.ofNat 32 b.toNat >>> 8 = 0#32 := by
    apply BitVec.eq_of_toNat_eq
    have := b.toNat_lt
    rw [BitVec.toNat_ushiftRight, BitVec.toNat_ofNat, Nat.shiftRight_eq_div_pow]
    simp only [BitVec.toNat_ofNat]
    omega
  rw [ShiftRegister.absorb_eq_steps _ _ _ (by rw [length_byteBits]; omega), length_byteBits,
    wordOf_byteBits, ShiftRegister.steps_split _ _ _ _ hlow, BitVec.ushiftRight_xor_distrib, hbyte,
    BitVec.xor_zero, crcByte, crcTable, BitVec.ofNat_toNat, BitVec.setWidth_eq, crcBits_eq_steps]

theorem foldl_crcByte (crc : BitVec 32) (data : Bytes) :
    data.foldl crcByte crc = ShiftRegister.absorb kPoly crc (messageBits data) := by
  induction data generalizing crc with
  | nil => rfl
  | cons b data ih =>
    rw [List.foldl_cons, ih, crcByte_eq_absorb, messageBits_cons]
    exact List.foldl_append.symm

theorem crc32cExtend_append (p : BitVec 32) (a b : Bytes) :
    crc32cExtend (crc32cExtend p a) b = crc32cExtend p (a ++ b) := by
  rw [crc32cExtend, crc32cExtend, crc32cExtend, BitVec.not_not, List.foldl_append]

/-- The lookup loop computes the bit-serial CRC, and may be stopped and continued anywhere. -/
theorem crc32c_serial_and_chunked :
    (∀ d : Bytes, crc32c d = crc32cSerial d) ∧
      ∀ (p : BitVec 32) (a b : Bytes), crc32cExtend (crc32cExtend p a) b = crc32cExtend p (a ++ b) := by
  refine ⟨fun d => ?_, crc32cExtend_append⟩
  rw [crc32c, crc32cExtend, foldl_crcByte, crc32cSerial, ← BitVec.xor_allOnes]
  rfl

/-! ## Bursts -/

theorem messageBits_injective {x y : Bytes} (hlen : x.length = y.length)
    (h : messageBits x = messageBits y) : x = y := by
  induction x generalizing y with
  | nil => exact (List.length_eq_zero_iff.mp hlen.symm).symm
  | cons a x ih =>
    cases y with
    | nil => simp at hlen
    | cons b y =>
      have hsplit := List.append_inj h (by rw [length_byteBits, length_byteBits])
      have hab : a.toNat = b.toNat := by
        apply Nat.eq_of_testBit_eq
        intro i
        rw [← getD_byteBits, ← getD_byteBits, hsplit.1]
      rw [UInt8.toNat_inj.mp hab, ih (Nat.succ.inj hlen) hsplit.2]

theorem length_messageBits (data : Bytes) : (messageBits data).length = 8 * data.length := by
  induction data with
  | nil => rfl
  | cons b data ih =>
    rw [messageBits_cons, List.length_append, length_byteBits, ih, List.length_cons]
    omega

/-- **Bursts.**  A change within four consecutive bytes changes the checksum. -/
theorem crc32cExtend_burst (p : BitVec 32) (pre x y post : Bytes) (hlen : x.length = y.length)
    (hx : x.length ≤ 4) (hne : x ≠ y) :
    crc32cExtend p (pre ++ x ++ post) ≠ crc32cExtend p (pre ++ y ++ post) := by
  intro h
  have hreg := BitVec.not_inj.mp h
  simp only [foldl_crcByte, messageBits_append] at hreg
  refine ShiftRegister.absorb_burst kPoly_msb _ _ _ _ _ ?_ ?_ ?_ hreg
  · rw [length_messageBits, length_messageBits, hlen]
  · rw [length_messageBits]
    omega
  · exact fun hbits => hne (messageBits_injective hlen hbits)

end CoreDB
