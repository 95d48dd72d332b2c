import Mathlib.Data.List.Basic

/-!
# Runs of a partial step function

`run step s as` performs the actions `as` from state `s`; it is undefined as
soon as one of them is not enabled.  `Along` says that every step of a run meets
a condition on the state before it and the action, `Always` that every state on
the way meets a condition; `run_invariant` is the induction every run property
goes through.
-/

namespace Runs

variable {σ α : Type}

def run (step : σ → α → Option σ) : σ → List α → Option σ
  | s, [] => some s
  | s, a :: as =>
    match step s a with
    | none => none
    | some s' => run step s' as

/-- Every step of the run from `s` meets `Q`. -/
def Along (step : σ → α → Option σ) (Q : σ → α → Prop) : σ → List α → Prop
  | _, [] => True
  | s, a :: as => Q s a ∧ ∀ s', step s a = some s' → Along step Q s' as

/-- Every state the run from `s` visits, the first and the last included, meets `I`. -/
def Always (step : σ → α → Option σ) (I : σ → Prop) : σ → List α → Prop
  | s, [] => I s
  | s, a :: as => I s ∧ ∀ s', step s a = some s' → Always step I s' as

variable {step : σ → α → Option σ}

@[simp] theorem run_nil (s : σ) : run step s [] = some s := rfl

theorem run_cons_eq_some {s s' : σ} {a : α} {as : List α} :
    run step s (a :: as) = some s' ↔ ∃ s1, step s a = some s1 ∧ run step s1 as = some s' := by
  rw [run]
  cases step s a with
  | none => simp
  | some s1 => simp

theorem run_append_eq_some {s s' : σ} {as bs : List α} :
    run step s (as ++ bs) = some s' ↔ ∃ s1, run step s as = some s1 ∧ run step s1 bs = some s' := by
  induction as generalizing s with
  | nil => simp
  | cons a as ih =>
    rw [List.cons_append, run_cons_eq_some]
    constructor
    · rintro ⟨s1, h1, h2⟩
      obtain ⟨s2, h3, h4⟩ := ih.mp h2
      exact ⟨s2, run_cons_eq_some.mpr ⟨s1, h1, h3⟩, h4⟩
    · rintro ⟨s2, h1, h2⟩
      obtain ⟨s1, h3, h4⟩ := run_cons_eq_some.mp h1
      exact ⟨s1, h3, ih.mpr ⟨s2, h4, h2⟩⟩

/-- A run that passes a test exists. -/
theorem exists_of_any {o : Option σ} {p : σ → Bool} (h : o.any p = true) : ∃ s, o = some s ∧ p s = true := by
  cases o with
  | none => cases h
  | some s => exact ⟨s, rfl, h⟩

/-- Every prefix of a run is a run. -/
theorem run_prefix {s s' : σ} {as bs : List α} (h : run step s (as ++ bs) = some s') :
    ∃ s1, run step s as = some s1 := by
  obtain ⟨s1, h1, -⟩ := run_append_eq_some.mp h
  exact ⟨s1, h1⟩

/-- **The invariant rule.**  What holds at the start and is kept by every step that
meets `Q` holds at the end of every run whose steps all meet `Q`. -/
theorem run_invariant {Q : σ → α → Prop} {I : σ → Prop}
    (hstep : ∀ s a s', I s → Q s a → step s a = some s' → I s') {s s' : σ} {as : List α}
    (hs : I s) (hq : Along step Q s as) (h : run step s as = some s') : I s' := by
  induction as generalizing s with
  | nil => rw [run_nil] at h; rw [← Option.some.inj h]; exact hs
  | cons a as ih =>
    obtain ⟨s1, h1, h2⟩ := run_cons_eq_some.mp h
    exact ih (hstep s a s1 hs hq.1 h1) (hq.2 s1 h1) h2

theorem along_of_forall {Q : σ → α → Prop} {as : List α} (s : σ) (h : ∀ s, ∀ a ∈ as, Q s a) :
    Along step Q s as := by
  induction as generalizing s with
  | nil => trivial
  | cons a as ih =>
    exact ⟨h s a List.mem_cons_self, fun s' _ => ih s' fun s b hb => h s b (List.mem_cons_of_mem _ hb)⟩

/-- `Along`, tested. -/
def alongCheck (step : σ → α → Option σ) (q : σ → α → Bool) : σ → List α → Bool
  | _, [] => true
  | s, a :: as => q s a && (step s a).all fun s' => alongCheck step q s' as

theorem along_of_check {Q : σ → α → Prop} {q : σ → α → Bool} (hq : ∀ s a, q s a = true → Q s a) {s : σ}
    {as : List α} (h : alongCheck step q s as = true) : Along step Q s as := by
  induction as generalizing s with
  | nil => trivial
  | cons a as ih =>
    rw [alongCheck, Bool.and_eq_true] at h
    refine ⟨hq s a h.1, fun s' hs' => ih ?_⟩
    rw [hs'] at h
    exact h.2

theorem Along.and {Q Q' : σ → α → Prop} {s : σ} {as : List α} (h : Along step Q s as) (h' : Along step Q' s as) :
    Along step (fun s a => Q s a ∧ Q' s a) s as := by
  induction as generalizing s with
  | nil => trivial
  | cons a as ih => exact ⟨⟨h.1, h'.1⟩, fun s' hs' => ih (h.2 s' hs') (h'.2 s' hs')⟩

/-- Where two step functions agree, they have the same runs. -/
theorem Along.run_eq {step' : σ → α → Option σ} {Q : σ → α → Prop} (heq : ∀ s a, Q s a → step s a = step' s a) {s : σ}
    {as : List α} (h : Along step Q s as) : run step s as = run step' s as := by
  induction as generalizing s with
  | nil => rfl
  | cons a as ih =>
    rw [run, run, ← heq s a h.1]
    cases hs : step s a with
    | none => rfl
    | some s1 => exact ih (h.2 s1 hs)

theorem Along.append {Q : σ → α → Prop} {s : σ} {as bs : List α} (h : Along step Q s (as ++ bs)) :
    Along step Q s as ∧ ∀ s', run step s as = some s' → Along step Q s' bs := by
  induction as generalizing s with
  | nil =>
    refine ⟨trivial, fun s' hs' => ?_⟩
    rw [← Option.some.inj hs']
    exact h
  | cons a as ih =>
    refine ⟨⟨h.1, fun s' hs' => (ih (h.2 s' hs')).1⟩, fun s' hs' => ?_⟩
    obtain ⟨s1, h1, h2⟩ := run_cons_eq_some.mp hs'
    exact (ih (h.2 s1 h1)).2 s' h2

theorem Along.imp {Q Q' : σ → α → Prop} {s : σ} {as : List α} (h : Along step Q s as)
    (himp : ∀ s a, Q s a → Q' s a) : Along step Q' s as := by
  induction as generalizing s with
  | nil => trivial
  | cons a as ih => exact ⟨himp s a h.1, fun s' hs' => ih (h.2 s' hs')⟩

/-! ## Moments of a run

The actions of a run in groups; `momentAt` is the state after the first groups. -/

def momentAt (step : σ → α → Option σ) (s : σ) (during : List (List α)) (k : Nat) : σ :=
  (run step s (during.take (k + 1)).flatten).getD s

theorem run_momentAt {s s' : σ} {during : List (List α)} (hr : run step s during.flatten = some s') (k : Nat) :
    run step s (during.take (k + 1)).flatten = some (momentAt step s during k) ∧
      run step (momentAt step s during k) (during.drop (k + 1)).flatten = some s' := by
  have hsplit : during.flatten = (during.take (k + 1)).flatten ++ (during.drop (k + 1)).flatten := by
    rw [← List.flatten_append, List.take_append_drop]
  rw [hsplit, run_append_eq_some] at hr
  obtain ⟨d, hd, hrest⟩ := hr
  have hat : momentAt step s during k = d := by
    unfold momentAt
    rw [hd]
    rfl
  rw [hat]
  exact ⟨hd, hrest⟩

/-- The next group leads from one moment to the next. -/
theorem run_momentAt_succ {s s' : σ} {during : List (List α)} (hr : run step s during.flatten = some s') (k : Nat) :
    ∃ as, run step (momentAt step s during k) as = some (momentAt step s during (k + 1)) := by
  have hnext := (run_momentAt hr (k + 1)).1
  have hsplit : (during.take (k + 1 + 1)).flatten =
      (during.take (k + 1)).flatten ++ (during.drop (k + 1)).head?.getD [] := by
    rw [List.take_add_one, List.flatten_append, List.head?_drop]
    cases during[k + 1]? <;> simp
  rw [hsplit, run_append_eq_some] at hnext
  obtain ⟨d, hd, hstep⟩ := hnext
  rw [(run_momentAt hr k).1] at hd
  obtain rfl := Option.some.inj hd
  exact ⟨_, hstep⟩

/-! ## Answering a run as it goes on

`R as bs`: the actions `bs` answer the actions `as`.  Where every answer can be continued,
there is one way to answer that never takes an action back. -/

section
variable {β : Type} (R : List α → List β → Prop)

open Classical in
noncomputable def answerFrom : List α → List β → List α → List β
  | _, bs, [] => bs
  | as, bs, a :: rest =>
    answerFrom (as ++ [a]) (if h : ∃ more, R (as ++ [a]) (bs ++ more) then bs ++ h.choose else bs) rest

theorem prefix_answerFrom (as : List α) (bs : List β) (rest : List α) : bs <+: answerFrom R as bs rest := by
  induction rest generalizing as bs with
  | nil => exact List.prefix_refl bs
  | cons a rest ih =>
    refine List.IsPrefix.trans ?_ (ih _ _)
    split
    · exact List.prefix_append _ _
    · exact List.prefix_refl bs

theorem answerFrom_append (as : List α) (bs : List β) (rest more : List α) :
    answerFrom R as bs (rest ++ more) = answerFrom R (as ++ rest) (answerFrom R as bs rest) more := by
  induction rest generalizing as bs with
  | nil => simp [answerFrom]
  | cons a rest ih => simp [answerFrom, ih]

variable {R}

theorem answerFrom_spec {E : List α → Prop} (hE : ∀ as more, E (as ++ more) → E as)
    (hstep : ∀ as a bs, R as bs → E (as ++ [a]) → ∃ more, R (as ++ [a]) (bs ++ more)) {as : List α} {bs : List β}
    (h : R as bs) (rest : List α) (hrest : E (as ++ rest)) : R (as ++ rest) (answerFrom R as bs rest) := by
  induction rest generalizing as bs with
  | nil => simpa [answerFrom] using h
  | cons a rest ih =>
    have hsplit : as ++ a :: rest = (as ++ [a]) ++ rest := by simp
    rw [hsplit] at hrest ⊢
    have hnext := hstep as a bs h (hE _ _ hrest)
    rw [answerFrom, dif_pos hnext]
    exact ih hnext.choose_spec hrest

/-- **One way to answer every run.** -/
theorem exists_answer {s : σ} (h0 : R [] [])
    (hstep : ∀ as a bs s1 s2, R as bs → run step s as = some s1 → step s1 a = some s2 →
      ∃ more, R (as ++ [a]) (bs ++ more)) :
    ∃ f : List α → List β, (∀ as more, f as <+: f (as ++ more)) ∧ ∀ as s', run step s as = some s' → R as (f as) := by
  refine ⟨answerFrom R [] [], fun as more => ?_, fun as s' hr => ?_⟩
  · rw [answerFrom_append]
    exact prefix_answerFrom R _ _ _
  · refine answerFrom_spec (E := fun as => ∃ s', run step s as = some s') ?_ ?_ h0 as ⟨s', hr⟩
    · rintro bs more ⟨u, hu⟩
      exact run_prefix hu
    · rintro bs a cs hR ⟨u, hu⟩
      obtain ⟨u1, hu1, hu2⟩ := run_append_eq_some.mp hu
      obtain ⟨u2, hu2, -⟩ := run_cons_eq_some.mp hu2
      exact hstep bs a cs u1 u2 hR hu1 hu2

end

end Runs
