import Mathlib.Logic.Basic

/-!
# Programs that may run out of memory

A program asks an allocator for memory and goes on if the request is granted; otherwise it
ends there, with no result and no error of its own.  `Asks mem p plain R`: apart from memory
the program `p` does what `plain` does, and it makes the requests `R`.  Programs that are
composed of such programs are such programs (`Asks.bind`), and how they end is read off
`plain` and `R` (`Asks.eq_ok_iff`, `Asks.eq_error_iff`).
-/

namespace Allocation

variable {ρ ρ' ε ε' α β : Type}

/-- How a program ends that has no result. -/
inductive Failure (ε : Type) where
  | error (e : ε)
  | badAlloc
deriving DecidableEq, Repr

/-- A request for memory. -/
def request (mem : ρ → Bool) (r : ρ) : Except (Failure ε) Unit :=
  if mem r then .ok () else .error .badAlloc

/-- A program that makes no request. -/
def lift : Except ε α → Except (Failure ε) α
  | .ok a => .ok a
  | .error e => .error (.error e)

/-- What the caller makes of the result or the error, if there is one. -/
def settle (f : Except ε α → β) : Except (Failure ε) α → Except (Failure ε') β
  | .ok a => .ok (f (.ok a))
  | .error (.error e) => .ok (f (.error e))
  | .error .badAlloc => .error .badAlloc

/-- `p` is `plain` if all requests `R` are granted, and ends without memory if one is not. -/
structure Asks (mem : ρ → Bool) (p : Except (Failure ε) α) (plain : Except ε α) (R : ρ → Prop) :
    Prop where
  granted : (∀ r, R r → mem r = true) → p = lift plain
  refused : ∀ r, R r → mem r = false → p = .error .badAlloc

section
variable {mem : ρ → Bool} {p : Except (Failure ε) α} {plain : Except ε α} {R : ρ → Prop}

theorem asks_lift (plain : Except ε α) : Asks mem (lift plain) plain fun _ => False :=
  ⟨fun _ => rfl, fun _ h => h.elim⟩

theorem asks_request (r : ρ) : Asks mem (request mem r : Except (Failure ε) Unit) (.ok ()) (· = r) := by
  refine ⟨fun h => ?_, fun r' hr hno => ?_⟩
  · rw [request, if_pos (h r rfl)]
    rfl
  · subst hr
    simp [request, hno]

variable (h : Asks mem p plain R)
include h

theorem Asks.congr {R' : ρ → Prop} (heq : ∀ r, R r ↔ R' r) : Asks mem p plain R' :=
  ⟨fun hall => h.granted fun r hr => hall r ((heq r).mp hr), fun r hr => h.refused r ((heq r).mpr hr)⟩

theorem Asks.cases : ((∀ r, R r → mem r = true) ∧ p = lift plain) ∨
    ((∃ r, R r ∧ mem r = false) ∧ p = .error .badAlloc) := by
  by_cases hall : ∀ r, R r → mem r = true
  · exact Or.inl ⟨hall, h.granted hall⟩
  · simp only [not_forall, Bool.not_eq_true] at hall
    obtain ⟨r, hr, hno⟩ := hall
    exact Or.inr ⟨⟨r, hr, hno⟩, h.refused r hr hno⟩

/-- **One program after the other.** -/
theorem Asks.bind {f : α → Except (Failure ε) β} {g : α → Except ε β} {R' : α → ρ → Prop}
    (h' : ∀ a, plain = .ok a → Asks mem (f a) (g a) (R' a)) :
    Asks mem (p >>= f) (plain >>= g) fun r => R r ∨ ∃ a, plain = .ok a ∧ R' a r := by
  refine ⟨fun hall => ?_, fun r hr hno => ?_⟩
  · rw [h.granted fun r hr => hall r (Or.inl hr)]
    cases hplain : plain with
    | error e => rfl
    | ok a => exact (h' a hplain).granted fun r hr => hall r (Or.inr ⟨a, hplain, hr⟩)
  · rcases h.cases with ⟨hgranted, hp⟩ | ⟨-, hp⟩
    · rcases hr with hr | ⟨a, hplain, hr⟩
      · rw [hgranted r hr] at hno
        cases hno
      · rw [hp, hplain]
        exact (h' a hplain).refused r hr hno
    · rw [hp]
      rfl

/-- A result that is only wrapped. -/
theorem Asks.map (f : α → β) : Asks mem (p >>= fun a => .ok (f a)) (plain >>= fun a => .ok (f a)) R :=
  (h.bind fun a _ => asks_lift (.ok (f a))).congr fun r => by simp

theorem Asks.settle (f : Except ε α → β) :
    Asks mem (settle f p : Except (Failure ε') β) (.ok (f plain)) R := by
  refine ⟨fun hall => ?_, fun r hr hno => ?_⟩
  · rw [h.granted hall]
    cases plain <;> rfl
  · rw [h.refused r hr hno]
    rfl

theorem Asks.eq_ok_iff {a : α} : p = .ok a ↔ plain = .ok a ∧ ∀ r, R r → mem r = true := by
  rcases h.cases with ⟨hall, hp⟩ | ⟨⟨r, hr, hno⟩, hp⟩
  · rw [hp, and_iff_left hall]
    cases plain <;> simp [lift]
  · rw [hp]
    refine iff_of_false (by simp) fun hok => ?_
    rw [hok.2 r hr] at hno
    cases hno

theorem Asks.eq_error_iff {e : ε} : p = .error (.error e) ↔ plain = .error e ∧ ∀ r, R r → mem r = true := by
  rcases h.cases with ⟨hall, hp⟩ | ⟨⟨r, hr, hno⟩, hp⟩
  · rw [hp, and_iff_left hall]
    cases plain <;> simp [lift]
  · rw [hp]
    refine iff_of_false (by simp) fun hok => ?_
    rw [hok.2 r hr] at hno
    cases hno

end

section
variable {mem : ρ → Bool} {f : α → Except (Failure ε) β} {g : α → Except ε β} {R' : α → ρ → Prop}

/-- A step without a request, then the rest. -/
theorem asks_step {x : Except ε α} (h : ∀ a, x = .ok a → Asks mem (f a) (g a) (R' a)) :
    Asks mem (lift x >>= f) (x >>= g) fun r => ∃ a, x = .ok a ∧ R' a r :=
  ((asks_lift x).bind h).congr fun r => by simp

/-- A request, then the rest. -/
theorem asks_request_then {r : ρ} {p : Except (Failure ε) β} {plain : Except ε β} {R : ρ → Prop}
    (h : Asks mem p plain R) : Asks mem (request mem r >>= fun _ => p) plain fun r' => r' = r ∨ R r' :=
  ((asks_request r).bind fun _ _ => h).congr fun r' => by simp

/-- A check in front of the rest. -/
theorem asks_check {c : Prop} [Decidable c] {e : ε} {p : Except (Failure ε) β} {plain : Except ε β} {R : ρ → Prop}
    (h : ¬ c → Asks mem p plain R) :
    Asks mem (if c then .error (.error e) else p) (if c then .error e else plain) fun r => ¬ c ∧ R r := by
  by_cases hc : c
  · rw [if_pos hc, if_pos hc]
    exact (asks_lift (.error e)).congr fun r => by simp [hc]
  · rw [if_neg hc, if_neg hc]
    exact (h hc).congr fun r => by simp [hc]

/-- A program under another name for its requests. -/
theorem Asks.rename {name : ρ' → ρ} {p : Except (Failure ε) α} {plain : Except ε α} {R : ρ' → Prop}
    (h : Asks (fun r => mem (name r)) p plain R) : Asks mem p plain fun r => ∃ r', R r' ∧ r = name r' := by
  refine ⟨fun hall => h.granted fun r hr => hall _ ⟨r, hr, rfl⟩, ?_⟩
  rintro _ ⟨r, hr, rfl⟩ hno
  exact h.refused r hr hno

end

end Allocation
