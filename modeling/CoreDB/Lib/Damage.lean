import CoreDB.Lib.Bytes

/-!
# Damaged byte strings

A byte string with some consecutive bytes overwritten (`patch`), or with one bit flipped
(`flipBit`).  Damage inside one piece of a concatenation is damage of that piece
(`patch_append`, `flipBit_append`).  A layout is a list of labelled pieces; `labelAt`
tells which one a byte belongs to.
-/

namespace ByteCodec

/-- The bytes from position `pos` on replaced by `y`, the length kept. -/
def patch (bs : Bytes) (pos : Nat) (y : Bytes) : Bytes := bs.take pos ++ y ++ bs.drop (pos + y.length)

theorem patch_split (bs y : Bytes) (pos : Nat) (h : pos + y.length ≤ bs.length) :
    ∃ pre x post, bs = pre ++ x ++ post ∧ patch bs pos y = pre ++ y ++ post ∧ x.length = y.length := by
  refine ⟨bs.take pos, (bs.drop pos).take y.length, bs.drop (pos + y.length), ?_, rfl, ?_⟩
  · rw [List.append_assoc, ← List.drop_drop, List.take_append_drop, List.take_append_drop]
  · rw [List.length_take, List.length_drop]
    omega

theorem length_patch (bs y : Bytes) (pos : Nat) (h : pos + y.length ≤ bs.length) :
    (patch bs pos y).length = bs.length := by
  obtain ⟨pre, x, post, hbs, hpatch, hlen⟩ := patch_split bs y pos h
  rw [hpatch, hbs]
  simp only [List.length_append]
  omega

/-- A patch of the middle piece. -/
theorem patch_append (a b c y : Bytes) (pos : Nat) (h : pos + y.length ≤ b.length) :
    patch (a ++ b ++ c) (a.length + pos) y = a ++ patch b pos y ++ c := by
  unfold patch
  have htake : (a ++ b ++ c).take (a.length + pos) = a ++ b.take pos := by
    rw [List.append_assoc, List.take_length_add_append, List.take_append_of_le_length (by omega)]
  have hdrop : (a ++ b ++ c).drop (a.length + pos + y.length) = b.drop (pos + y.length) ++ c := by
    rw [List.append_assoc, Nat.add_assoc, List.drop_length_add_append, List.drop_append_of_le_length h]
  rw [htake, hdrop]
  simp only [List.append_assoc]

/-! ## One bit -/

/-- Bit `i` of the byte string flipped: bit `i % 8` of byte `i / 8`. -/
def flipBit (bs : Bytes) (i : Nat) : Bytes := bs.modify (i / 8) (· ^^^ UInt8.ofNat (2 ^ (i % 8)))

@[simp] theorem length_flipBit (bs : Bytes) (i : Nat) : (flipBit bs i).length = bs.length := List.length_modify ..

theorem flipBit_eq_patch (bs : Bytes) (i : Nat) (h : i / 8 < bs.length) :
    flipBit bs i = patch bs (i / 8) [bs[i / 8] ^^^ UInt8.ofNat (2 ^ (i % 8))] := by
  rw [flipBit, List.modify_eq_take_cons_drop h, patch, List.length_singleton, List.append_assoc]
  rfl

/-- A flip in the middle piece. -/
theorem flipBit_append (a b c : Bytes) (i : Nat) (h : i < 8 * b.length) :
    flipBit (a ++ b ++ c) (8 * a.length + i) = a ++ flipBit b i ++ c := by
  have hdiv : (8 * a.length + i) / 8 = a.length + i / 8 := by omega
  have hmod : (8 * a.length + i) % 8 = i % 8 := by omega
  have hb : i / 8 < b.length := by omega
  have hget : (a ++ b ++ c)[a.length + i / 8]? = some b[i / 8] := by
    rw [List.append_assoc, List.getElem?_append_right (by omega), Nat.add_sub_cancel_left,
      List.getElem?_append_left hb, List.getElem?_eq_getElem hb]
  obtain ⟨hlt, hbyte⟩ := List.getElem?_eq_some_iff.mp hget
  rw [flipBit_eq_patch b i hb, ← patch_append a b c _ (i / 8) (by rw [List.length_singleton]; omega), ← hbyte]
  rw [flipBit, hdiv, hmod, List.modify_eq_take_cons_drop hlt, patch, List.length_singleton]
  simp only [List.append_assoc, List.singleton_append]

theorem xor_bit_ne (b : UInt8) {k : Nat} (hk : k < 8) : b ^^^ UInt8.ofNat (2 ^ k) ≠ b := by
  intro h
  have hbit := congrArg (fun x : UInt8 => x.toNat.testBit k) h
  have hpow : 2 ^ k < 2 ^ 8 := Nat.pow_lt_pow_right (by decide) hk
  simp only [UInt8.toNat_xor, UInt8.toNat_ofNat', Nat.mod_eq_of_lt hpow, Nat.testBit_xor, Nat.testBit_two_pow_self,
    Bool.xor_true] at hbit
  cases hb : b.toNat.testBit k <;> simp [hb] at hbit

/-- A flip changes one byte. -/
theorem flipBit_split (bs : Bytes) (i : Nat) (h : i < 8 * bs.length) :
    ∃ pre b b' post, bs = pre ++ [b] ++ post ∧ flipBit bs i = pre ++ [b'] ++ post ∧ b ≠ b' := by
  have hi : i / 8 < bs.length := by omega
  refine ⟨bs.take (i / 8), bs[i / 8], bs[i / 8] ^^^ UInt8.ofNat (2 ^ (i % 8)), bs.drop (i / 8 + 1), ?_, ?_,
    (xor_bit_ne _ (Nat.mod_lt _ (by decide))).symm⟩
  · rw [List.append_assoc, List.singleton_append, ← List.drop_eq_getElem_cons hi, List.take_append_drop]
  · rw [flipBit_eq_patch bs i hi]
    rfl

theorem flipBit_ne (bs : Bytes) (i : Nat) (h : i < 8 * bs.length) : flipBit bs i ≠ bs := by
  obtain ⟨pre, b, b', post, hbs, hflip, hne⟩ := flipBit_split bs i h
  rw [hflip, hbs]
  intro heq
  have hbyte := List.append_cancel_left (List.append_cancel_right heq)
  exact hne (List.cons.inj hbyte).1.symm

/-- A flip in a number gives another number. -/
theorem flipBit_leBytes (w v : Nat) {i : Nat} (h : i < 8 * w) :
    ∃ v', v' < 256 ^ w ∧ flipBit (leBytes w v) i = leBytes w v' ∧ v' ≠ v := by
  have hlen : (flipBit (leBytes w v) i).length = w := by rw [length_flipBit, length_leBytes]
  have hback := leBytes_leVal (flipBit (leBytes w v) i)
  have hlt := leVal_lt (flipBit (leBytes w v) i)
  rw [hlen] at hback hlt
  refine ⟨_, hlt, hback.symm, fun heq => flipBit_ne (leBytes w v) i (by rw [length_leBytes]; exact h) ?_⟩
  rw [← hback, heq]

/-! ## Labelled pieces -/

section
variable {τ : Type}

/-- The pieces end to end. -/
def bytesOf (pieces : List (τ × Bytes)) : Bytes := pieces.flatMap fun p => p.2

/-- The label of the piece that byte `pos` is in. -/
def labelAt : List (τ × Bytes) → Nat → Option τ
  | [], _ => none
  | p :: pieces, pos => if pos < p.2.length then some p.1 else labelAt pieces (pos - p.2.length)

theorem bytesOf_append (a b : List (τ × Bytes)) : bytesOf (a ++ b) = bytesOf a ++ bytesOf b :=
  List.flatMap_append

theorem bytesOf_cons (p : τ × Bytes) (pieces : List (τ × Bytes)) : bytesOf (p :: pieces) = p.2 ++ bytesOf pieces := rfl

/-- An element of a concatenation is behind the first list or in it. -/
theorem append_eq_append_cons {α : Type} {a b before after : List α} {x : α} (h : a ++ b = before ++ x :: after) :
    (∃ mid, before = a ++ mid ∧ b = mid ++ x :: after) ∨ ∃ mid, a = before ++ x :: mid ∧ after = mid ++ b := by
  rcases List.append_eq_append_iff.mp h with ⟨mid, hbefore, hb⟩ | ⟨mid, ha, hafter⟩
  · exact Or.inl ⟨mid, hbefore, hb⟩
  · cases mid with
    | nil => exact Or.inl ⟨[], by simpa using ha.symm, by simpa using hafter.symm⟩
    | cons y mid =>
      obtain ⟨rfl, hrest⟩ := List.cons.inj hafter
      exact Or.inr ⟨mid, ha, hrest⟩

/-- The piece of a labelled byte. -/
theorem labelAt_split {pieces : List (τ × Bytes)} {pos : Nat} {label : τ} (h : labelAt pieces pos = some label) :
    ∃ before piece after off, pieces = before ++ (label, piece) :: after ∧
      pos = (bytesOf before).length + off ∧ off < piece.length := by
  induction pieces generalizing pos with
  | nil => cases h
  | cons p pieces ih =>
    unfold labelAt at h
    split at h
    · next hpos =>
      cases h
      exact ⟨[], p.2, pieces, pos, rfl, by simp [bytesOf], hpos⟩
    · next hpos =>
      obtain ⟨before, piece, after, off, rfl, heq, hoff⟩ := ih h
      refine ⟨p :: before, piece, after, off, rfl, ?_, hoff⟩
      rw [bytesOf_cons, List.length_append]
      omega

end

end ByteCodec
