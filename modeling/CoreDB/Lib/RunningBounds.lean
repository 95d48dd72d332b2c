import Mathlib.Data.List.Induction

/-!
# Running minimum and maximum under a partial comparison

`lt` orders the regular elements like a strict weak order and is false as soon as
another element is involved (`RegularOrder`; a NaN is such an element).  A loop starts
with the first element as both bounds and moves a bound whenever an element passes it.
If the first element is regular the bounds enclose every regular element
(`bounds_of_regular`); if not, they never move again (`bounds_of_irregular`).
-/

namespace RunningBounds

variable {α : Type}

/-- A strict weak order on the regular elements, false elsewhere. -/
structure RegularOrder (regular : α → Prop) (lt : α → α → Bool) : Prop where
  domain : ∀ {a b}, lt a b = true → regular a ∧ regular b
  asymm : ∀ {a b}, lt a b = true → lt b a = false
  cotrans : ∀ {a c} (b), lt a c = true → regular b → lt a b = true ∨ lt b c = true

/-- The bounds after one more element. -/
def widen (lt : α → α → Bool) (b : α × α) (x : α) : α × α :=
  (if lt x b.1 then x else b.1, if lt b.2 x then x else b.2)

def bounds (lt : α → α → Bool) : List α → Option (α × α)
  | [] => none
  | x :: xs => some (xs.foldl (widen lt) (x, x))

/-- The bounds of one more element at the end. -/
theorem bounds_concat (lt : α → α → Bool) (l : List α) (x : α) :
    bounds lt (l ++ [x]) = some (((bounds lt l).map fun b => widen lt b x).getD (x, x)) := by
  cases l with
  | nil => rfl
  | cons y l => simp [bounds, List.foldl_append]

/-- The bounds are elements. -/
theorem mem_bounds (lt : α → α → Bool) (l : List α) {b : α × α} (hb : bounds lt l = some b) : b.1 ∈ l ∧ b.2 ∈ l := by
  induction l using List.reverseRecOn generalizing b with
  | nil => cases hb
  | append_singleton l x ih =>
    rw [bounds_concat] at hb
    obtain rfl := Option.some.inj hb
    cases hl : bounds lt l with
    | none => simp
    | some b' =>
      obtain ⟨hlow, hhigh⟩ := ih hl
      simp only [Option.map_some, Option.getD_some, widen]
      constructor
      · split
        · simp
        · exact List.mem_append_left _ hlow
      · split
        · simp
        · exact List.mem_append_left _ hhigh

section
variable {regular : α → Prop} {lt : α → α → Bool} (h : RegularOrder regular lt)
include h

theorem RegularOrder.irrefl (a : α) : lt a a = false := by
  cases haa : lt a a with
  | false => rfl
  | true => rw [h.asymm haa] at haa; cases haa

/-- What is not below `b` is not below anything under `b`. -/
theorem RegularOrder.not_lt_of_lt {a b c : α} (hab : lt a b = true) (hc : regular c) (hcb : lt c b = false) :
    lt c a = false ∧ lt a c = true := by
  have hac : lt a c = true := (h.cotrans c hab hc).resolve_right (by rw [hcb]; exact Bool.false_ne_true)
  exact ⟨h.asymm hac, hac⟩

/-- What is not above `a` is not above anything over `a`. -/
theorem RegularOrder.not_gt_of_lt {a b c : α} (hab : lt a b = true) (hc : regular c) (hac : lt a c = false) :
    lt b c = false ∧ lt c b = true := by
  have hcb : lt c b = true := (h.cotrans c hab hc).resolve_left (by rw [hac]; exact Bool.false_ne_true)
  exact ⟨h.asymm hcb, hcb⟩

/-- Bounds that are regular elements and have every regular element between them. -/
structure Encloses (regular : α → Prop) (lt : α → α → Bool) (l : List α) (b : α × α) : Prop where
  low : regular b.1 ∧ b.1 ∈ l
  high : regular b.2 ∧ b.2 ∈ l
  between : ∀ x ∈ l, regular x → lt x b.1 = false ∧ lt b.2 x = false

theorem encloses_widen {l : List α} {b : α × α} (hb : Encloses regular lt l b) (x : α) :
    Encloses regular lt (l ++ [x]) (widen lt b x) := by
  obtain ⟨⟨hlo, hloMem⟩, ⟨hhi, hhiMem⟩, hall⟩ := hb
  refine ⟨?_, ?_, fun y hy hry => ⟨?_, ?_⟩⟩
  · unfold widen
    dsimp only
    split
    next hx => exact ⟨(h.domain hx).1, by simp⟩
    next hx => exact ⟨hlo, List.mem_append_left _ hloMem⟩
  · unfold widen
    dsimp only
    split
    next hx => exact ⟨(h.domain hx).2, by simp⟩
    next hx => exact ⟨hhi, List.mem_append_left _ hhiMem⟩
  · unfold widen
    dsimp only
    rcases List.mem_append.mp hy with hy | hy
    · have hyb := (hall y hy hry).1
      split
      next hx => exact (h.not_lt_of_lt hx hry hyb).1
      next hx => exact hyb
    · obtain rfl := List.mem_singleton.mp hy
      split
      next hx => exact h.irrefl y
      next hx => exact Bool.eq_false_iff.mpr hx
  · unfold widen
    dsimp only
    rcases List.mem_append.mp hy with hy | hy
    · have hyb := (hall y hy hry).2
      split
      next hx => exact (h.not_gt_of_lt hx hry hyb).1
      next hx => exact hyb
    · obtain rfl := List.mem_singleton.mp hy
      split
      next hx => exact h.irrefl y
      next hx => exact Bool.eq_false_iff.mpr hx

section
variable {l : List α} {b : α × α} (hb : Encloses regular lt l b) (x : α)
include hb

/-- Below the low bound: below every regular element. -/
theorem Encloses.lt_low_iff : lt x b.1 = true ↔ ∀ v ∈ l, regular v → lt x v = true := by
  refine ⟨fun hx v hv hrv => ?_, fun hall => hall _ hb.low.2 hb.low.1⟩
  exact (h.cotrans v hx hrv).resolve_right (by rw [(hb.between v hv hrv).1]; exact Bool.false_ne_true)

/-- Above the high bound: above every regular element. -/
theorem Encloses.high_lt_iff : lt b.2 x = true ↔ ∀ v ∈ l, regular v → lt v x = true := by
  refine ⟨fun hx v hv hrv => ?_, fun hall => hall _ hb.high.2 hb.high.1⟩
  exact (h.cotrans v hx hrv).resolve_left (by rw [(hb.between v hv hrv).2]; exact Bool.false_ne_true)

/-- Below the high bound: below some element. -/
theorem Encloses.lt_high_iff : lt x b.2 = true ↔ ∃ v ∈ l, lt x v = true := by
  refine ⟨fun hx => ⟨b.2, hb.high.2, hx⟩, ?_⟩
  rintro ⟨v, hv, hx⟩
  have hbv := (hb.between v hv (h.domain hx).2).2
  exact (h.cotrans b.2 hx hb.high.1).resolve_right (by rw [hbv]; exact Bool.false_ne_true)

/-- Above the low bound: above some element. -/
theorem Encloses.low_lt_iff : lt b.1 x = true ↔ ∃ v ∈ l, lt v x = true := by
  refine ⟨fun hx => ⟨b.1, hb.low.2, hx⟩, ?_⟩
  rintro ⟨v, hv, hx⟩
  have hbv := (hb.between v hv (h.domain hx).1).1
  exact (h.cotrans b.1 hx hb.low.1).resolve_left (by rw [hbv]; exact Bool.false_ne_true)

end

/-- **A regular first element** makes the bounds those of all regular elements. -/
theorem bounds_of_regular {x : α} (xs : List α) (hx : regular x) :
    ∃ b, bounds lt (x :: xs) = some b ∧ Encloses regular lt (x :: xs) b := by
  induction xs using List.reverseRecOn with
  | nil =>
    refine ⟨(x, x), rfl, ⟨hx, by simp⟩, ⟨hx, by simp⟩, fun y hy _ => ?_⟩
    obtain rfl := List.mem_singleton.mp hy
    exact ⟨h.irrefl y, h.irrefl y⟩
  | append_singleton xs y ih =>
    obtain ⟨b, hb, henc⟩ := ih
    refine ⟨widen lt b y, ?_, encloses_widen h henc y⟩
    rw [← List.cons_append, bounds_concat, hb]
    rfl

/-- **An irregular first element** stays both bounds. -/
theorem bounds_of_irregular {x : α} (xs : List α) (hx : ¬ regular x) : bounds lt (x :: xs) = some (x, x) := by
  induction xs using List.reverseRecOn with
  | nil => rfl
  | append_singleton xs y ih =>
    have hlow : lt y x = false := Bool.eq_false_iff.mpr fun hlt => hx (h.domain hlt).2
    have hhigh : lt x y = false := Bool.eq_false_iff.mpr fun hlt => hx (h.domain hlt).1
    rw [← List.cons_append, bounds_concat, ih]
    simp [widen, hlow, hhigh]

end

end RunningBounds
