import Mathlib.Algebra.Group.Nat.Defs
import Mathlib.Data.List.Basic

/-!
# Little-endian byte strings

Fixed-width integers as byte strings, least significant byte first, and the
reader side: taking a fixed number of bytes off the front.  A writer that
concatenates pieces is undone by a reader that takes the same pieces
(`takeBytes_append`, `takeLE_leBytes`).
-/

namespace ByteCodec

abbrev Bytes := List UInt8

/-- The `w` low-order bytes of `v`, least significant first. -/
def leBytes : Nat → Nat → Bytes
  | 0, _ => []
  | w + 1, v => UInt8.ofNat v :: leBytes w (v / 256)

/-- The number a byte string spells, least significant byte first. -/
def leVal : Bytes → Nat
  | [] => 0
  | b :: bs => b.toNat + 256 * leVal bs

@[simp] theorem length_leBytes (w v : Nat) : (leBytes w v).length = w := by
  induction w generalizing v with
  | zero => rfl
  | succ w ih => simp [leBytes, ih]

theorem leVal_leBytes (w v : Nat) : leVal (leBytes w v) = v % 256 ^ w := by
  induction w generalizing v with
  | zero => simp [leBytes, leVal, Nat.mod_one]
  | succ w ih =>
    have hbyte : (UInt8.ofNat v).toNat = v % 256 := by rw [UInt8.toNat_ofNat']
    have hpow : (256 : Nat) ^ (w + 1) = 256 * 256 ^ w := Nat.pow_succ'
    rw [leBytes, leVal, ih, hbyte, hpow, Nat.mod_mul]

theorem leVal_leBytes_of_lt (w v : Nat) (h : v < 256 ^ w) : leVal (leBytes w v) = v := by
  rw [leVal_leBytes, Nat.mod_eq_of_lt h]

theorem leVal_lt (bs : Bytes) : leVal bs < 256 ^ bs.length := by
  induction bs with
  | nil => simp [leVal]
  | cons b bs ih =>
    simp only [leVal, List.length_cons, Nat.pow_succ]
    have := b.toNat_lt
    omega

theorem leBytes_leVal (bs : Bytes) : leBytes bs.length (leVal bs) = bs := by
  induction bs with
  | nil => rfl
  | cons b bs ih =>
    simp only [List.length_cons, leBytes, leVal]
    have hb := b.toNat_lt
    have hdiv : (b.toNat + 256 * leVal bs) / 256 = leVal bs := by omega
    have hofNat : UInt8.ofNat (b.toNat + 256 * leVal bs) = b := by
      apply UInt8.toNat_inj.mp
      rw [UInt8.toNat_ofNat']
      omega
    rw [hdiv, ih, hofNat]

/-- Only the low-order bytes are written. -/
theorem leBytes_mod (w v : Nat) : leBytes w (v % 256 ^ w) = leBytes w v := by
  have h := leBytes_leVal (leBytes w v)
  rw [length_leBytes, leVal_leBytes] at h
  exact h

/-! ## Reading off the front -/

/-- The first `n` bytes and the rest, if there are `n`. -/
def takeBytes (n : Nat) (bs : Bytes) : Option (Bytes × Bytes) :=
  if n ≤ bs.length then some (bs.take n, bs.drop n) else none

/-- A `w`-byte little-endian number off the front. -/
def takeLE (w : Nat) (bs : Bytes) : Option (Nat × Bytes) :=
  (takeBytes w bs).map fun p => (leVal p.1, p.2)

theorem takeBytes_append (a b : Bytes) : takeBytes a.length (a ++ b) = some (a, b) := by
  simp [takeBytes]

theorem takeBytes_append_of_length (n : Nat) (a b : Bytes) (h : a.length = n) :
    takeBytes n (a ++ b) = some (a, b) := by
  rw [← h, takeBytes_append]

theorem takeBytes_eq_none (n : Nat) (bs : Bytes) (h : bs.length < n) : takeBytes n bs = none := by
  unfold takeBytes
  rw [if_neg (by omega)]

theorem takeBytes_eq_some (n : Nat) (bs a b : Bytes) (h : takeBytes n bs = some (a, b)) :
    bs = a ++ b ∧ a.length = n := by
  unfold takeBytes at h
  split at h
  · next hn =>
    simp only [Option.some.injEq, Prod.mk.injEq] at h
    obtain ⟨rfl, rfl⟩ := h
    exact ⟨(List.take_append_drop n bs).symm, by simp [hn]⟩
  · cases h

theorem takeLE_leBytes (w v : Nat) (rest : Bytes) (h : v < 256 ^ w) :
    takeLE w (leBytes w v ++ rest) = some (v, rest) := by
  unfold takeLE
  rw [takeBytes_append_of_length w _ _ (length_leBytes w v)]
  simp [leVal_leBytes_of_lt w v h]

theorem takeLE_eq_none (w : Nat) (bs : Bytes) (h : bs.length < w) : takeLE w bs = none := by
  simp [takeLE, takeBytes_eq_none w bs h]

theorem takeLE_eq_some (w v : Nat) (bs rest : Bytes) (h : takeLE w bs = some (v, rest)) :
    bs = leBytes w v ++ rest ∧ v < 256 ^ w := by
  unfold takeLE at h
  cases ht : takeBytes w bs with
  | none => rw [ht] at h; cases h
  | some p =>
    obtain ⟨a, b⟩ := p
    rw [ht] at h
    simp only [Option.map_some, Option.some.injEq, Prod.mk.injEq] at h
    obtain ⟨rfl, rfl⟩ := h
    obtain ⟨hbs, hlen⟩ := takeBytes_eq_some w bs a b ht
    exact ⟨by rw [← hlen, leBytes_leVal]; exact hbs, by rw [← hlen]; exact leVal_lt a⟩

/-! ## Strings with their length in front -/

def takeString (bs : Bytes) : Option (Bytes × Bytes) := (takeLE 4 bs).bind fun p => takeBytes p.1 p.2

theorem takeString_append (s rest : Bytes) (h : s.length < 2 ^ 32) :
    takeString (leBytes 4 s.length ++ s ++ rest) = some (s, rest) := by
  unfold takeString
  rw [List.append_assoc, takeLE_leBytes 4 _ _ (by simpa using h)]
  exact takeBytes_append s rest

theorem takeString_eq_some {bs s rest : Bytes} (h : takeString bs = some (s, rest)) :
    bs = leBytes 4 s.length ++ s ++ rest ∧ s.length < 2 ^ 32 := by
  unfold takeString at h
  obtain ⟨⟨n, bs1⟩, hn, hs⟩ := Option.bind_eq_some_iff.mp h
  obtain ⟨rfl, hlt⟩ := takeLE_eq_some 4 n bs bs1 hn
  obtain ⟨rfl, rfl⟩ := takeBytes_eq_some n bs1 s rest hs
  exact ⟨by rw [List.append_assoc], by simpa using hlt⟩

/-! ## Arrays of words -/

/-- Words of `w` bits, each in `width` bytes. -/
def words (width : Nat) {w : Nat} (data : List (BitVec w)) : Bytes := data.flatMap fun v => leBytes width v.toNat

/-- The `n` words at the front. -/
def takeWords (width w : Nat) : Nat → Bytes → List (BitVec w)
  | 0, _ => []
  | n + 1, bs => BitVec.ofNat w (leVal (bs.take width)) :: takeWords width w n (bs.drop width)

@[simp] theorem length_words (width : Nat) {w : Nat} (data : List (BitVec w)) :
    (words width data).length = data.length * width := by
  induction data with
  | nil => simp [words]
  | cons v data ih =>
    simp only [words, List.flatMap_cons, List.length_append, length_leBytes, List.length_cons] at ih ⊢
    rw [ih, Nat.succ_mul, Nat.add_comm]

@[simp] theorem length_takeWords (width w n : Nat) (bs : Bytes) : (takeWords width w n bs).length = n := by
  induction n generalizing bs with
  | zero => rfl
  | succ n ih => simp [takeWords, ih]

theorem takeWords_words (width w : Nat) (h : 256 ^ width = 2 ^ w) (data : List (BitVec w)) :
    takeWords width w data.length (words width data) = data := by
  induction data with
  | nil => rfl
  | cons v data ih =>
    have hsplit : words width (v :: data) = leBytes width v.toNat ++ words width data := by simp [words]
    have hlt : v.toNat < 256 ^ width := by rw [h]; exact v.isLt
    rw [List.length_cons, takeWords, hsplit, List.take_left' (length_leBytes width _),
      List.drop_left' (length_leBytes width _), ih, leVal_leBytes_of_lt _ _ hlt, BitVec.ofNat_toNat,
      BitVec.setWidth_eq]

theorem words_takeWords (width w : Nat) (h : 256 ^ width = 2 ^ w) (n : Nat) (bs : Bytes) (hlen : bs.length = n * width) :
    words width (takeWords width w n bs) = bs := by
  induction n generalizing bs with
  | zero =>
    rw [Nat.zero_mul, List.length_eq_zero_iff] at hlen
    rw [hlen]
    rfl
  | succ n ih =>
    have htake : (bs.take width).length = width := by
      rw [List.length_take, hlen, Nat.succ_mul]
      omega
    have hlt : leVal (bs.take width) < 2 ^ w := by
      have := leVal_lt (bs.take width)
      rwa [htake, h] at this
    have hword : leBytes width (BitVec.ofNat w (leVal (bs.take width))).toNat = bs.take width := by
      have hback := leBytes_leVal (bs.take width)
      rwa [htake, ← Nat.mod_eq_of_lt hlt, ← BitVec.toNat_ofNat] at hback
    have hrest : (bs.drop width).length = n * width := by
      rw [List.length_drop, hlen, Nat.succ_mul]
      omega
    rw [takeWords, words, List.flatMap_cons, hword]
    exact (congrArg (bs.take width ++ ·) (ih (bs.drop width) hrest)).trans (List.take_append_drop width bs)

end ByteCodec
