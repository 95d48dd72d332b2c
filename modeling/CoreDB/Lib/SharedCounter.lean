import Mathlib.Algebra.Group.Nat.Defs
import Mathlib.Data.Nat.Notation

/-!
# A shared counter that is raised by retrying exchanges

An unsigned counter of `w` bits from which callers take numbers, and which other
callers lift above a number they bring along:

    expected = counter.load();
    while (expected <= id && !counter.compare_exchange_weak(expected, id + 1)) {}

`Raise.step` is one access of such a caller: its load, or its next test with the
exchange that follows.  Between two accesses others may have changed the counter,
and a weak exchange may also fail without a reason.  `Raise.step_spec`: a caller
never lowers the counter, and leaves the loop only when the counter is above its
number.
-/

namespace SharedCounter

/-- The number taken, and the counter after it. -/
def fetchAdd (w n : Nat) : Nat × Nat := (n, (n + 1) % 2 ^ w)

/-- Where a caller is: before the load, or about to test what it read last. -/
inductive Raise where
  | load
  | test (expected : Nat)
deriving DecidableEq, Repr

namespace Raise

/-- The counter after the access, and where the caller is then; `none` when it has
left the loop. -/
def step (w id : Nat) (spurious : Bool) (n : Nat) : Raise → Nat × Option Raise
  | .load => (n, some (.test n))
  | .test expected =>
    if expected ≤ id then
      if n = expected ∧ spurious = false then ((id + 1) % 2 ^ w, none)
      else (n, some (.test n))
    else (n, none)

/-- What the caller has read is not above the counter. -/
def Behind (n : Nat) : Raise → Prop
  | .load => True
  | .test expected => expected ≤ n

theorem Behind.mono {n n' : Nat} {r : Raise} (h : r.Behind n) (hle : n ≤ n') : r.Behind n' := by
  cases r with
  | load => trivial
  | test expected => exact Nat.le_trans h hle

/-- **One access.**  The caller stays in the loop and the counter as it is, or the caller
leaves and the counter is above its number. -/
theorem step_spec {w id n : Nat} (hid : id + 1 < 2 ^ w) (spurious : Bool) {r : Raise} (h : r.Behind n) :
    (∃ r', r.step w id spurious n = (n, some r') ∧ r'.Behind n) ∨
      ∃ n', r.step w id spurious n = (n', none) ∧ n ≤ n' ∧ id < n' ∧ n' ≤ max n (id + 1) := by
  cases r with
  | load => exact Or.inl ⟨.test n, rfl, Nat.le_refl n⟩
  | test expected =>
    have hbehind : expected ≤ n := h
    simp only [step]
    by_cases htest : expected ≤ id
    · rw [if_pos htest]
      by_cases hex : n = expected ∧ spurious = false
      · rw [if_pos hex, Nat.mod_eq_of_lt hid]
        exact Or.inr ⟨id + 1, rfl, by omega, by omega, by omega⟩
      · rw [if_neg hex]
        exact Or.inl ⟨.test n, rfl, Nat.le_refl n⟩
    · rw [if_neg htest]
      exact Or.inr ⟨n, rfl, Nat.le_refl n, by omega, by omega⟩

/-- One access of a caller that has read the counter as it still is. -/
theorem step_undisturbed {w id n : Nat} (hid : id + 1 < 2 ^ w) (spurious : Bool) {r : Raise}
    (h : r = .load ∨ r = .test n) :
    r.step w id spurious n = (n, some (.test n)) ∨
      r.step w id spurious n = (if n ≤ id then id + 1 else n, none) := by
  rcases h with rfl | rfl
  · exact Or.inl rfl
  · simp only [step]
    by_cases htest : n ≤ id
    · rw [if_pos htest, if_pos htest, Nat.mod_eq_of_lt hid]
      cases spurious with
      | true => exact Or.inl (by simp)
      | false => exact Or.inr (by simp)
    · rw [if_neg htest, if_neg htest]
      exact Or.inr rfl

end Raise

end SharedCounter
