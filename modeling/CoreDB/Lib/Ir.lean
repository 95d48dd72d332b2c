import Mathlib.Logic.Function.Iterate
import Mathlib.Algebra.Group.Nat.Defs

/-!
# A small compiler IR

Functions of basic blocks over named values, with a memory of 64-bit words: the part of
LLVM's IR that code for loops over integer arrays needs.  `ρ` are the names of values and `ℓ`
the labels of blocks.

Memory consists of objects.  An access is defined where the object has a word at that offset,
a load only once the word has been stored to; `none` is undefined behaviour.  The objects that
a function has allocated are gone when it returns.

`steps_add` and `steps_loop` are the rules for running one block after the other.
-/

namespace Ir

/-! ## Memory -/

/-- An object and an offset into it, in bytes. -/
structure Addr where
  object : Nat
  offset : BitVec 64
deriving DecidableEq, Repr

/-- `some none` is a word that has not been stored to. -/
@[ext] structure Memory where
  word : Addr → Option (Option (BitVec 64))
  /-- The next object to be allocated. -/
  next : Nat
  fresh : ∀ a : Addr, next ≤ a.object → word a = none

namespace Memory

/-- Objects that consist of words one after the other. -/
def ofObjects (objects : List (List (Option (BitVec 64)))) : Memory where
  word a := if a.offset.toNat % 8 = 0 then objects[a.object]?.bind fun o => o[a.offset.toNat / 8]? else none
  next := objects.length
  fresh a ha := by simp [List.getElem?_eq_none ha]

def Allocated (m : Memory) (a : Addr) : Prop := (m.word a).isSome = true

instance (m : Memory) (a : Addr) : Decidable (m.Allocated a) := inferInstanceAs (Decidable (_ = true))

def load (m : Memory) (a : Addr) : Option (BitVec 64) := (m.word a).join

/-- The memory in which `a` holds `v`, if there is a word at `a`. -/
def put (m : Memory) (a : Addr) (v : BitVec 64) : Memory where
  word b := if b = a ∧ m.Allocated a then some (some v) else m.word b
  next := m.next
  fresh b hb := by
    have hnone := m.fresh b hb
    rw [if_neg, hnone]
    rintro ⟨rfl, ha⟩
    simp [Allocated, hnone] at ha

def store (m : Memory) (a : Addr) (v : BitVec 64) : Option Memory := if m.Allocated a then some (m.put a v) else none

/-- A new object of one word. -/
def alloca (m : Memory) : Memory where
  word b := if b = ⟨m.next, 0#64⟩ then some none else m.word b
  next := m.next + 1
  fresh b hb := by
    have hne : b ≠ ⟨m.next, 0#64⟩ := by
      rintro rfl
      exact Nat.not_succ_le_self _ hb
    rw [if_neg hne]
    exact m.fresh b (Nat.le_of_succ_le hb)

/-- Only the objects before `bound` are left. -/
def release (m : Memory) (bound : Nat) : Memory where
  word b := if b.object < bound then m.word b else none
  next := bound
  fresh _ hb := if_neg (Nat.not_lt.mpr hb)

section
variable {m : Memory} {a b : Addr} {v : BitVec 64}

theorem Allocated.lt_next (h : m.Allocated a) : a.object < m.next := by
  apply Nat.lt_of_not_le
  intro hle
  simp [Allocated, m.fresh a hle] at h

theorem allocated_of_load (h : m.load a = some v) : m.Allocated a := by
  unfold load at h
  unfold Allocated
  cases hw : m.word a with
  | none => simp [hw] at h
  | some w => rfl

@[simp] theorem allocated_put : (m.put a v).Allocated b ↔ m.Allocated b := by
  unfold Allocated put
  dsimp only
  split
  · next h =>
    rw [h.1]
    simpa [Allocated] using h.2
  · rfl

theorem store_of_allocated (h : m.Allocated a) : m.store a v = some (m.put a v) := if_pos h

theorem load_put (h : m.Allocated a) : (m.put a v).load b = if b = a then some v else m.load b := by
  unfold load put
  by_cases hb : b = a <;> simp [hb, h]

theorem word_put_of_ne (h : b ≠ a) : (m.put a v).word b = m.word b := by
  simp [put, h]

theorem word_alloca_of_lt (h : a.object < m.next) : m.alloca.word a = m.word a := by
  have hne : a ≠ ⟨m.next, 0#64⟩ := by
    rintro rfl
    exact Nat.lt_irrefl _ h
  exact if_neg hne

theorem word_put (h : m.Allocated a) : (m.put a v).word b = if b = a then some (some v) else m.word b := by
  simp [put, h]

theorem allocated_alloca : m.alloca.Allocated ⟨m.next, 0#64⟩ := by
  simp [Allocated, alloca]

theorem Allocated.alloca (h : m.Allocated a) : m.alloca.Allocated a := by
  unfold Allocated
  rw [word_alloca_of_lt h.lt_next]
  exact h

end

end Memory

/-! ## Functions -/

inductive Value where
  | i64 (v : BitVec 64)
  | i1 (b : Bool)
  | ptr (a : Addr)
deriving DecidableEq, Repr

inductive Operand (ρ : Type) where
  | value (r : ρ)
  | int64 (v : BitVec 64)
deriving DecidableEq, Repr

inductive IntPredicate where
  | ult
  | sgt
deriving DecidableEq, Repr

/-- All accesses are to `i64`, and so are the elements that `gep` steps over. -/
inductive Instr (ρ : Type) where
  | alloca (dst : ρ)
  | load (dst : ρ) (ptr : Operand ρ)
  | store (val ptr : Operand ρ)
  | gep (dst : ρ) (ptr index : Operand ρ)
  | icmp (dst : ρ) (pred : IntPredicate) (lhs rhs : Operand ρ)
  | select (dst : ρ) (cond ifTrue ifFalse : Operand ρ)
  | add (dst : ρ) (lhs rhs : Operand ρ)
deriving DecidableEq, Repr

inductive Terminator (ρ ℓ : Type) where
  | br (dest : ℓ)
  | condBr (cond : Operand ρ) (ifTrue ifFalse : ℓ)
  | retVoid
deriving DecidableEq, Repr

structure Block (ρ ℓ : Type) where
  instrs : List (Instr ρ)
  terminator : Terminator ρ ℓ
deriving DecidableEq, Repr

structure Func (ρ ℓ : Type) where
  params : List ρ
  entry : ℓ
  block : ℓ → Block ρ ℓ

/-! ## Execution -/

section
variable {ρ ℓ : Type} [DecidableEq ρ]

structure Frame (ρ : Type) where
  value : ρ → Option Value
  mem : Memory

namespace Frame

def set (fr : Frame ρ) (r : ρ) (v : Value) : Frame ρ := { fr with value := Function.update fr.value r (some v) }

def operand (fr : Frame ρ) : Operand ρ → Option Value
  | .value r => fr.value r
  | .int64 v => some (.i64 v)

def i64 (fr : Frame ρ) (o : Operand ρ) : Option (BitVec 64) :=
  match fr.operand o with
  | some (.i64 v) => some v
  | _ => none

def i1 (fr : Frame ρ) (o : Operand ρ) : Option Bool :=
  match fr.operand o with
  | some (.i1 b) => some b
  | _ => none

def ptr (fr : Frame ρ) (o : Operand ρ) : Option Addr :=
  match fr.operand o with
  | some (.ptr a) => some a
  | _ => none

@[simp] theorem set_mem (fr : Frame ρ) (r : ρ) (v : Value) : (fr.set r v).mem = fr.mem := rfl

@[simp] theorem set_value (fr : Frame ρ) (r q : ρ) (v : Value) :
    (fr.set r v).value q = if q = r then some v else fr.value q := Function.update_apply _ _ _ _

end Frame

def IntPredicate.holds : IntPredicate → BitVec 64 → BitVec 64 → Bool
  | .ult, a, b => a.ult b
  | .sgt, a, b => b.slt a

/-- The address of element `index` of the `i64`s at `a`. -/
def Addr.element (a : Addr) (index : BitVec 64) : Addr := { a with offset := a.offset + 8#64 * index }

def Instr.exec (fr : Frame ρ) : Instr ρ → Option (Frame ρ)
  | .alloca dst => some ({ fr with mem := fr.mem.alloca }.set dst (.ptr ⟨fr.mem.next, 0#64⟩))
  | .load dst p => do
    let a ← fr.ptr p
    let v ← fr.mem.load a
    return fr.set dst (.i64 v)
  | .store val p => do
    let v ← fr.i64 val
    let a ← fr.ptr p
    let mem ← fr.mem.store a v
    return { fr with mem }
  | .gep dst p index => do
    let a ← fr.ptr p
    let i ← fr.i64 index
    return fr.set dst (.ptr (a.element i))
  | .icmp dst pred lhs rhs => do
    let a ← fr.i64 lhs
    let b ← fr.i64 rhs
    return fr.set dst (.i1 (pred.holds a b))
  | .select dst cond ifTrue ifFalse => do
    let c ← fr.i1 cond
    let a ← fr.operand ifTrue
    let b ← fr.operand ifFalse
    return fr.set dst (if c then a else b)
  | .add dst lhs rhs => do
    let a ← fr.i64 lhs
    let b ← fr.i64 rhs
    return fr.set dst (.i64 (a + b))

/-- Before a block, or after the function. -/
inductive State (ρ ℓ : Type) where
  | at (label : ℓ) (fr : Frame ρ)
  | returned (mem : Memory)

def Terminator.exec (fr : Frame ρ) : Terminator ρ ℓ → Option (State ρ ℓ)
  | .br dest => some (.at dest fr)
  | .condBr cond ifTrue ifFalse => do
    let c ← fr.i1 cond
    return .at (if c then ifTrue else ifFalse) fr
  | .retVoid => some (.returned fr.mem)

def execInstrs (fr : Frame ρ) : List (Instr ρ) → Option (Frame ρ)
  | [] => some fr
  | i :: is => do
    let fr' ← i.exec fr
    execInstrs fr' is

/-! ## Rules for instructions -/

/-- The instructions run through and lead to `Q`. -/
def Achieves (fr : Frame ρ) (is : List (Instr ρ)) (Q : Frame ρ → Prop) : Prop :=
  ∃ fr', execInstrs fr is = some fr' ∧ Q fr'

namespace Frame
variable {fr : Frame ρ} {r : ρ}

omit [DecidableEq ρ] in
theorem i64_value {v : BitVec 64} (h : fr.value r = some (.i64 v)) : fr.i64 (.value r) = some v := by
  simp [i64, operand, h]

omit [DecidableEq ρ] in
theorem operand_of_i64 {o : Operand ρ} {v : BitVec 64} (h : fr.i64 o = some v) : fr.operand o = some (.i64 v) := by
  unfold i64 at h
  split at h
  · next heq => rw [heq, Option.some.inj h]
  · cases h

omit [DecidableEq ρ] in
theorem i1_value {b : Bool} (h : fr.value r = some (.i1 b)) : fr.i1 (.value r) = some b := by
  simp [i1, operand, h]

omit [DecidableEq ρ] in
theorem ptr_value {a : Addr} (h : fr.value r = some (.ptr a)) : fr.ptr (.value r) = some a := by
  simp [ptr, operand, h]

end Frame

section
variable {fr : Frame ρ} {is : List (Instr ρ)} {Q : Frame ρ → Prop} {dst : ρ}

theorem achieves_nil (h : Q fr) : Achieves fr [] Q := ⟨fr, rfl, h⟩

theorem achieves_cons {i : Instr ρ} {fr1 : Frame ρ} (hi : i.exec fr = some fr1) (h : Achieves fr1 is Q) :
    Achieves fr (i :: is) Q := by
  obtain ⟨fr', hrun, hq⟩ := h
  refine ⟨fr', ?_, hq⟩
  rw [execInstrs, hi]
  exact hrun

theorem achieves_alloca (h : Achieves (({ fr with mem := fr.mem.alloca } : Frame ρ).set dst (.ptr ⟨fr.mem.next, 0#64⟩)) is Q) :
    Achieves fr (.alloca dst :: is) Q := achieves_cons rfl h

theorem achieves_load {p : ρ} {a : Addr} {v : BitVec 64} (hp : fr.value p = some (.ptr a)) (hv : fr.mem.load a = some v)
    (h : Achieves (fr.set dst (.i64 v)) is Q) : Achieves fr (.load dst (.value p) :: is) Q := by
  refine achieves_cons ?_ h
  simp [Instr.exec, Frame.ptr_value hp, hv]

theorem achieves_store {val : Operand ρ} {p : ρ} {a : Addr} {v : BitVec 64} (hval : fr.i64 val = some v)
    (hp : fr.value p = some (.ptr a)) (ha : fr.mem.Allocated a) (h : Achieves { fr with mem := fr.mem.put a v } is Q) :
    Achieves fr (.store val (.value p) :: is) Q := by
  refine achieves_cons ?_ h
  simp [Instr.exec, hval, Frame.ptr_value hp, Memory.store_of_allocated ha]

theorem achieves_gep {p : ρ} {index : Operand ρ} {a : Addr} {i : BitVec 64} (hp : fr.value p = some (.ptr a))
    (hi : fr.i64 index = some i) (h : Achieves (fr.set dst (.ptr (a.element i))) is Q) :
    Achieves fr (.gep dst (.value p) index :: is) Q := by
  refine achieves_cons ?_ h
  simp [Instr.exec, hi, Frame.ptr_value hp]

theorem achieves_icmp {pred : IntPredicate} {lhs rhs : Operand ρ} {a b : BitVec 64} (ha : fr.i64 lhs = some a)
    (hb : fr.i64 rhs = some b) (h : Achieves (fr.set dst (.i1 (pred.holds a b))) is Q) :
    Achieves fr (.icmp dst pred lhs rhs :: is) Q := by
  refine achieves_cons ?_ h
  simp [Instr.exec, ha, hb]

theorem achieves_select {cond ifTrue ifFalse : Operand ρ} {c : Bool} {a b : BitVec 64} (hc : fr.i1 cond = some c)
    (ha : fr.i64 ifTrue = some a) (hb : fr.i64 ifFalse = some b)
    (h : Achieves (fr.set dst (.i64 (if c then a else b))) is Q) : Achieves fr (.select dst cond ifTrue ifFalse :: is) Q := by
  refine achieves_cons ?_ h
  rw [Instr.exec, hc, Frame.operand_of_i64 ha, Frame.operand_of_i64 hb]
  cases c <;> rfl

theorem achieves_add {lhs rhs : Operand ρ} {a b : BitVec 64} (ha : fr.i64 lhs = some a) (hb : fr.i64 rhs = some b)
    (h : Achieves (fr.set dst (.i64 (a + b))) is Q) : Achieves fr (.add dst lhs rhs :: is) Q := by
  refine achieves_cons ?_ h
  simp [Instr.exec, ha, hb]

end

namespace Func
variable (f : Func ρ ℓ)

/-- One block. -/
def step : State ρ ℓ → Option (State ρ ℓ)
  | .at label fr => do
    let fr' ← execInstrs fr (f.block label).instrs
    (f.block label).terminator.exec fr'
  | .returned mem => some (.returned mem)

def steps : Nat → State ρ ℓ → Option (State ρ ℓ)
  | 0, s => some s
  | k + 1, s => do
    let s' ← f.step s
    steps k s'

/-- The values of the parameters at the call. -/
def bind (args : List Value) : ρ → Option Value :=
  (f.params.zip args).foldl (fun env p => Function.update env p.1 (some p.2)) fun _ => none

/-- The memory after a call that runs for at most `k` blocks. -/
def call (k : Nat) (args : List Value) (mem : Memory) : Option Memory :=
  match f.steps k (.at f.entry ⟨f.bind args, mem⟩) with
  | some (.returned mem') => some (mem'.release mem.next)
  | _ => none

/-! ## Running block by block -/

theorem steps_add (j k : Nat) (s : State ρ ℓ) : f.steps (j + k) s = (f.steps j s).bind (f.steps k) := by
  induction j generalizing s with
  | zero => simp [steps]
  | succ j ih =>
    rw [Nat.succ_add, steps, steps]
    cases f.step s with
    | none => rfl
    | some s' => exact ih s'

variable {f}

theorem steps_trans {j k : Nat} {s s' s'' : State ρ ℓ} (h : f.steps j s = some s') (h' : f.steps k s' = some s'') :
    f.steps (j + k) s = some s'' := by
  rw [steps_add, h]
  exact h'

/-- The rule for a block. -/
theorem step_at {label : ℓ} {fr : Frame ρ} {Q : State ρ ℓ → Prop} (h : Achieves fr (f.block label).instrs fun fr' =>
    ∃ s, (f.block label).terminator.exec fr' = some s ∧ Q s) : ∃ s, f.step (.at label fr) = some s ∧ Q s := by
  obtain ⟨fr', hrun, s, hs, hq⟩ := h
  refine ⟨s, ?_, hq⟩
  rw [step, hrun]
  exact hs

theorem steps_one {s s' : State ρ ℓ} (h : f.step s = some s') : f.steps 1 s = some s' := by
  simp [steps, h]

@[simp] theorem steps_returned (k : Nat) (mem : Memory) : f.steps k (.returned mem) = some (.returned mem) := by
  induction k with
  | zero => rfl
  | succ k ih => exact ih

/-- **Loops.**  As long as there are turns to make, `c` blocks make one. -/
theorem steps_loop {α : Type} {I : α → State ρ ℓ → Prop} {turn : α → α} {left : α → Nat} {c : Nat}
    (hturn : ∀ a s, I a s → 0 < left a → ∃ s', f.steps c s = some s' ∧ I (turn a) s')
    (hleft : ∀ a, 0 < left a → left (turn a) = left a - 1) :
    ∀ (k : Nat) {a : α} {s : State ρ ℓ}, left a = k → I a s →
      ∃ s', f.steps (k * c) s = some s' ∧ I (turn^[k] a) s' ∧ left (turn^[k] a) = 0 := by
  intro k
  induction k with
  | zero => exact fun hk h => ⟨_, by rw [Nat.zero_mul]; rfl, h, hk⟩
  | succ k ih =>
    intro a s hk h
    obtain ⟨s1, hs1, h1⟩ := hturn a s h (by omega)
    obtain ⟨s', hs', h'⟩ := ih (by rw [hleft a (by omega)]; omega) h1
    refine ⟨s', ?_, h'⟩
    rw [Nat.succ_mul, Nat.add_comm]
    exact steps_trans hs1 hs'

end Func

end

end Ir
