import Mathlib.Logic.Function.Basic
import Mathlib.Logic.Relation
import Mathlib.Order.WellFounded
import Mathlib.Algebra.Group.Nat.Defs

/-!
# Lock order

Programs of which only the locks matter: a lock is held for the scope of a guard, branches
and loops go any way, and a thread may wait for another one to end.  Locks are shared or
exclusive.  `Step` lets a thread into a guard whenever its holders allow it, so runs are
those under any rule of who comes first.

Two checks on the programs carry over to all that is reached from them:

* `Prog.ordered`: locks are taken in the order of their ranks, and whoever waits for a
  thread holds none and waits for a lower one.  Then nobody waits in a circle
  (`wellFounded_waits`), and a thread that waits for nobody has a step (`exists_step`).
* `Prog.nested`: the exclusive lock `inner` is only taken under `outer`.  Then whoever
  holds `outer` exclusively keeps all others away from `inner` (`alone_inside`).
-/

namespace Locks

inductive Mode where
  | shared
  | exclusive
deriving DecidableEq, Repr

/-- The threads are named by `ι` and the locks by `κ`. -/
inductive Prog (ι κ : Type) where
  | skip
  | guard (l : κ) (mode : Mode) (body : Prog ι κ)
  | seq (p q : Prog ι κ)
  | branch (p q : Prog ι κ)
  | loop (p : Prog ι κ)
  | join (t : ι)
deriving DecidableEq, Repr

/-- What a thread has still to do: a program, or the end of a guard. -/
inductive Frame (ι κ : Type) where
  | run (p : Prog ι κ)
  | release (l : κ) (mode : Mode)
deriving DecidableEq, Repr

/-- What each thread has still to do. -/
abbrev Threads (ι κ : Type) := ι → List (Frame ι κ)

variable {ι κ : Type}

def start (prog : ι → Prog ι κ) : Threads ι κ := fun t => [.run (prog t)]

def Holds (s : Threads ι κ) (t : ι) (l : κ) (mode : Mode) : Prop := .release l mode ∈ s t

/-- The next thing `t` does is to ask for `l`. -/
def Wants (s : Threads ι κ) (t : ι) (l : κ) (mode : Mode) : Prop :=
  ∃ body rest, s t = .run (.guard l mode body) :: rest

/-- The holders of `l` allow a further one. -/
def Allowed (s : Threads ι κ) (l : κ) : Mode → Prop
  | .exclusive => ∀ t mode, ¬ Holds s t l mode
  | .shared => ∀ t, ¬ Holds s t l .exclusive

/-- How a thread goes on. -/
inductive Moves (s : Threads ι κ) : List (Frame ι κ) → List (Frame ι κ) → Prop where
  | skip (rest) : Moves s (.run .skip :: rest) rest
  | release (l mode rest) : Moves s (.release l mode :: rest) rest
  | seq (p q rest) : Moves s (.run (.seq p q) :: rest) (.run p :: .run q :: rest)
  | left (p q rest) : Moves s (.run (.branch p q) :: rest) (.run p :: rest)
  | right (p q rest) : Moves s (.run (.branch p q) :: rest) (.run q :: rest)
  | again (p rest) : Moves s (.run (.loop p) :: rest) (.run p :: .run (.loop p) :: rest)
  | done (p rest) : Moves s (.run (.loop p) :: rest) rest
  | enter (l mode body rest) (allowed : Allowed s l mode) :
      Moves s (.run (.guard l mode body) :: rest) (.run body :: .release l mode :: rest)
  | join (u rest) (ended : s u = []) : Moves s (.run (.join u) :: rest) rest

/-- A step of thread `t`. -/
def Step [DecidableEq ι] (s : Threads ι κ) (t : ι) (s' : Threads ι κ) : Prop :=
  ∃ rest, Moves s (s t) rest ∧ s' = Function.update s t rest

inductive Reachable [DecidableEq ι] (prog : ι → Prog ι κ) : Threads ι κ → Prop where
  | start : Reachable prog (start prog)
  | step {s s' : Threads ι κ} (t : ι) (h : Reachable prog s) (hs : Step s t s') : Reachable prog s'

/-- The thread `t` cannot go on before `u` has moved. -/
inductive Waits (s : Threads ι κ) (t u : ι) : Prop where
  | lock (l : κ) (mode mode' : Mode) (wants : Wants s t l mode) (holds : Holds s u l mode')
  | join (rest : List (Frame ι κ)) (h : s t = .run (.join u) :: rest) (unended : s u ≠ [])

/-! ## Invariants of single threads -/

section
variable [DecidableEq ι]

/-- What the steps of a thread keep, whatever the others do, holds for all threads. -/
theorem Reachable.forall_threads {prog : ι → Prog ι κ} {P : ι → List (Frame ι κ) → Prop}
    (hstart : ∀ t, P t [.run (prog t)]) (hmoves : ∀ s t k k', P t k → Moves s k k' → P t k') {s : Threads ι κ}
    (h : Reachable prog s) (t : ι) : P t (s t) := by
  induction h with
  | start => exact hstart t
  | step u _ hs ih =>
    obtain ⟨rest, hm, rfl⟩ := hs
    by_cases htu : t = u
    · subst htu
      rw [Function.update_self]
      exact hmoves _ _ _ _ ih hm
    · rwa [Function.update_of_ne htu]

end

/-! ## The order of locks -/

section
variable (rank : κ → Nat) (below : ι → ι → Bool)

/-- Thread `t` takes locks above `bound` only, in the order of their ranks. -/
def Prog.ordered (t : ι) : Nat → Prog ι κ → Bool
  | _, .skip => true
  | bound, .guard l _ p => decide (bound < rank l) && p.ordered t (rank l)
  | bound, .seq p q => p.ordered t bound && q.ordered t bound
  | bound, .branch p q => p.ordered t bound && q.ordered t bound
  | bound, .loop p => p.ordered t bound
  | bound, .join u => bound == 0 && below u t

/-- The rank of the lock taken last. -/
def top : List (Frame ι κ) → Nat
  | [] => 0
  | .run _ :: rest => top rest
  | .release l _ :: _ => rank l

/-- What the thread has still to do is in order. -/
def Ordered (t : ι) : List (Frame ι κ) → Prop
  | [] => True
  | .run p :: rest => p.ordered rank below t (top rank rest) = true ∧ Ordered t rest
  | .release l _ :: rest => top rank rest < rank l ∧ Ordered t rest

variable {rank below}

theorem Ordered.rank_le {t : ι} {l : κ} {mode : Mode} {k : List (Frame ι κ)} (h : Ordered rank below t k)
    (hl : .release l mode ∈ k) : rank l ≤ top rank k := by
  induction k with
  | nil => cases hl
  | cons f rest ih =>
    cases f with
    | run p => exact ih h.2 (by simpa using hl)
    | release l' mode' =>
      rcases List.mem_cons.mp hl with heq | hl
      · cases heq
        exact Nat.le_refl _
      · exact Nat.le_of_lt (Nat.lt_of_le_of_lt (ih h.2 hl) h.1)

theorem Ordered.enter {t : ι} {l : κ} {mode : Mode} {body : Prog ι κ} {rest : List (Frame ι κ)}
    (h : Ordered rank below t (.run (.guard l mode body) :: rest)) :
    top rank rest < rank l ∧ Ordered rank below t (.run body :: .release l mode :: rest) := by
  obtain ⟨hg, hrest⟩ := h
  obtain ⟨hlt, hbody⟩ := Bool.and_eq_true_iff.mp hg
  have hlt := of_decide_eq_true hlt
  exact ⟨hlt, hbody, hlt, hrest⟩

theorem Ordered.moves {s : Threads ι κ} {t : ι} {k k' : List (Frame ι κ)} (h : Ordered rank below t k)
    (hs : Moves s k k') : Ordered rank below t k' := by
  cases hs with
  | skip rest => exact h.2
  | release l mode rest => exact h.2
  | done p rest => exact h.2
  | join u rest _ => exact h.2
  | again p rest => exact ⟨h.1, h⟩
  | seq p q rest =>
    have hpq := Bool.and_eq_true_iff.mp h.1
    exact ⟨hpq.1, hpq.2, h.2⟩
  | left p q rest => exact ⟨(Bool.and_eq_true_iff.mp h.1).1, h.2⟩
  | right p q rest => exact ⟨(Bool.and_eq_true_iff.mp h.1).2, h.2⟩
  | enter l mode body rest _ => exact h.enter.2

section
variable [DecidableEq ι] {prog : ι → Prog ι κ}

theorem Reachable.ordered (hprog : ∀ t, (prog t).ordered rank below t 0 = true) {s : Threads ι κ}
    (h : Reachable prog s) (t : ι) : Ordered rank below t (s t) :=
  h.forall_threads (P := Ordered rank below) (fun t => ⟨hprog t, trivial⟩) (fun _ _ _ _ hk hs => hk.moves hs) t

end

/-- How far a thread is from moving: holders of high locks come first, then those that hold
none, by their place in `order`. -/
def distance (rank : κ → Nat) (order : ι → Nat) (bound : Nat) (s : Threads ι κ) (t : ι) : Nat :=
  if 0 < top rank (s t) then bound - top rank (s t) else bound + 1 + order t

theorem distance_lt {order : ι → Nat} {bound : Nat} (hbound : ∀ l, rank l ≤ bound) {s : Threads ι κ}
    (h : ∀ t, Ordered rank (fun u t => decide (order u < order t)) t (s t)) {t u : ι} (hw : Waits s t u) :
    distance rank order bound s u < distance rank order bound s t := by
  unfold distance
  cases hw with
  | lock l mode mode' wants holds =>
    obtain ⟨body, rest, heq⟩ := wants
    have ht : top rank (s t) < rank l := by
      have := h t
      rw [heq] at this ⊢
      exact this.enter.1
    have hu := (h u).rank_le holds
    have hl := hbound l
    rw [if_pos (by omega : 0 < top rank (s u))]
    split <;> omega
  | join rest heq unended =>
    have ht := h t
    rw [heq] at ht
    obtain ⟨h0, hlt⟩ := Bool.and_eq_true_iff.mp ht.1
    have htop : top rank (s t) = 0 := by
      rw [heq]
      exact beq_iff_eq.mp h0
    have hlt := of_decide_eq_true hlt
    rw [htop, if_neg (Nat.lt_irrefl 0)]
    split <;> omega

end

/-- **Nobody waits in a circle**, nor without end. -/
theorem wellFounded_waits [DecidableEq ι] {prog : ι → Prog ι κ} (rank : κ → Nat) (order : ι → Nat) (bound : Nat)
    (hbound : ∀ l, rank l ≤ bound) (hprog : ∀ t, (prog t).ordered rank (fun u t => decide (order u < order t)) t 0 = true)
    {s : Threads ι κ} (h : Reachable prog s) : WellFounded fun u t => Waits s t u :=
  Subrelation.wf (fun hw => distance_lt hbound (h.ordered hprog) hw)
    (InvImage.wf (distance rank order bound s) Nat.lt_wfRel.wf)

/-- **Whoever waits for nobody has a step**, unless it has ended. -/
theorem exists_step [DecidableEq ι] {s : Threads ι κ} {t : ι} (hidle : ∀ u, ¬ Waits s t u) (hne : s t ≠ []) :
    ∃ s', Step s t s' := by
  have hstep : (∃ rest, Moves s (s t) rest) → ∃ s', Step s t s' := fun ⟨rest, hm⟩ => ⟨_, rest, hm, rfl⟩
  apply hstep
  cases heq : s t with
  | nil => exact absurd heq hne
  | cons f rest =>
    cases f with
    | release l mode => exact ⟨_, .release l mode rest⟩
    | run p =>
      cases p with
      | skip => exact ⟨_, .skip rest⟩
      | seq p q => exact ⟨_, .seq p q rest⟩
      | branch p q => exact ⟨_, .left p q rest⟩
      | loop p => exact ⟨_, .done p rest⟩
      | guard l mode body =>
        have hnone : ∀ u mode', ¬ Holds s u l mode' :=
          fun u mode' hu => hidle u (.lock l mode mode' ⟨body, rest, heq⟩ hu)
        refine ⟨_, .enter l mode body rest ?_⟩
        cases mode with
        | exclusive => exact hnone
        | shared => exact fun u => hnone u .exclusive
      | join u =>
        refine ⟨_, .join u rest ?_⟩
        apply Classical.byContradiction
        intro hu
        exact hidle u (.join rest heq hu)

theorem Waits.unended {s : Threads ι κ} {t u : ι} (h : Waits s t u) : s u ≠ [] := by
  cases h with
  | lock l mode mode' _ holds =>
    intro hnil
    rw [Holds, hnil] at holds
    cases holds
  | join rest _ unended => exact unended

/-- So whoever has not ended has a step, or waits in the end for a thread that has one. -/
theorem exists_mover [DecidableEq ι] {s : Threads ι κ} (hwf : WellFounded fun u t => Waits s t u) {t : ι}
    (hne : s t ≠ []) : ∃ u, Relation.ReflTransGen (Waits s) t u ∧ ∃ s', Step s u s' := by
  induction t using hwf.induction with
  | _ t ih =>
    by_cases hidle : ∀ u, ¬ Waits s t u
    · exact ⟨t, .refl, exists_step hidle hne⟩
    · obtain ⟨u, hu⟩ := Classical.not_forall.mp hidle
      have hu := Classical.not_not.mp hu
      obtain ⟨v, huv, hv⟩ := ih u hu hu.unended
      exact ⟨v, .head hu huv, hv⟩

/-! ## Exclusion -/

/-- What a thread holds after a move it held before, or has just been allowed. -/
theorem Moves.holds {s : Threads ι κ} {k k' : List (Frame ι κ)} (hm : Moves s k k') {l : κ} {mode : Mode}
    (h : .release l mode ∈ k') : .release l mode ∈ k ∨ Allowed s l mode := by
  cases hm with
  | skip rest => exact Or.inl (List.mem_cons_of_mem _ h)
  | release l' mode' rest => exact Or.inl (List.mem_cons_of_mem _ h)
  | done p rest => exact Or.inl (List.mem_cons_of_mem _ h)
  | join u rest _ => exact Or.inl (List.mem_cons_of_mem _ h)
  | again p rest => exact Or.inl (by simpa using h)
  | seq p q rest => exact Or.inl (by simpa using h)
  | left p q rest => exact Or.inl (by simpa using h)
  | right p q rest => exact Or.inl (by simpa using h)
  | enter l' mode' body rest allowed =>
    simp only [List.mem_cons, reduceCtorEq, false_or] at h ⊢
    rcases h with heq | h
    · cases heq
      exact Or.inr allowed
    · exact Or.inl h

section
variable [DecidableEq ι] {prog : ι → Prog ι κ} {s : Threads ι κ}

/-- As long as only `t` has moved, it is allowed what it does not hold. -/
theorem allowed_of_update {t : ι} {k : List (Frame ι κ)} {l : κ} (mode : Mode) (hk : ∀ mode', .release l mode' ∉ k) :
    Allowed (Function.update (start prog) t k) l mode := by
  have hnone : ∀ u mode', ¬ Holds (Function.update (start prog) t k) u l mode' := by
    intro u mode' h
    unfold Holds at h
    by_cases hut : u = t
    · subst hut
      rw [Function.update_self] at h
      exact hk mode' h
    · rw [Function.update_of_ne hut] at h
      simp [start] at h
  cases mode with
  | exclusive => exact hnone
  | shared => exact fun u => hnone u .exclusive

/-- The thread `t` moves on. -/
theorem Reachable.move {t : ι} {k k' : List (Frame ι κ)} (h : Reachable prog (Function.update s t k))
    (hm : Moves (Function.update s t k) k k') : Reachable prog (Function.update s t k') := by
  refine h.step t ⟨k', ?_, (Function.update_idem _ _ _).symm⟩
  rwa [Function.update_self]

theorem Step.holds {s' : Threads ι κ} {t u : ι} (hs : Step s t s') {l : κ} {mode : Mode} (h : Holds s' u l mode) :
    Holds s u l mode ∨ u = t ∧ Allowed s l mode := by
  obtain ⟨rest, hm, rfl⟩ := hs
  unfold Holds at h
  by_cases hut : u = t
  · subst hut
    rw [Function.update_self] at h
    exact (hm.holds h).imp_right fun hallowed => ⟨rfl, hallowed⟩
  · rw [Function.update_of_ne hut] at h
    exact Or.inl h

/-- **An exclusive lock has one holder.** -/
theorem Reachable.exclusive (h : Reachable prog s) {t u : ι} {l : κ} {mode : Mode} (ht : Holds s t l .exclusive)
    (hu : Holds s u l mode) : t = u := by
  induction h generalizing t u mode with
  | start => simp [Holds, Locks.start] at ht
  | step v _ hs ih =>
    rcases hs.holds ht with ht | ⟨rfl, hallowed⟩ <;> rcases hs.holds hu with hu | ⟨rfl, hallowed'⟩
    · exact ih ht hu
    · cases mode with
      | shared => exact absurd ht (hallowed' t)
      | exclusive => exact absurd ht (hallowed' t .exclusive)
    · exact absurd hu (hallowed u mode)
    · rfl

end

/-! ## Nested locks -/

section
variable [DecidableEq κ] (outer inner : κ)

/-- `inner` is taken exclusively under `outer` only; `under` says whether this is so here. -/
def Prog.nested : Bool → Prog ι κ → Bool
  | _, .skip => true
  | under, .guard l mode p => (under || !(l == inner && mode == .exclusive)) && p.nested (under || l == outer)
  | under, .seq p q => p.nested under && q.nested under
  | under, .branch p q => p.nested under && q.nested under
  | under, .loop p => p.nested under
  | _, .join _ => true

def isHeld (l : κ) : List (Frame ι κ) → Bool
  | [] => false
  | .run _ :: rest => isHeld l rest
  | .release l' _ :: rest => l' == l || isHeld l rest

def Nested : List (Frame ι κ) → Prop
  | [] => True
  | .run p :: rest => p.nested outer inner (isHeld outer rest) = true ∧ Nested rest
  | .release l mode :: rest => (l = inner → mode = .exclusive → isHeld outer rest = true) ∧ Nested rest

variable {outer inner}

theorem exists_of_isHeld {l : κ} {k : List (Frame ι κ)} (h : isHeld l k = true) : ∃ mode, .release l mode ∈ k := by
  induction k with
  | nil => cases h
  | cons f rest ih =>
    cases f with
    | run p =>
      obtain ⟨mode, hm⟩ := ih h
      exact ⟨mode, List.mem_cons_of_mem _ hm⟩
    | release l' mode' =>
      rcases (Bool.or_eq_true _ _).mp h with heq | h
      · rw [beq_iff_eq] at heq
        exact ⟨mode', heq ▸ List.mem_cons_self⟩
      · obtain ⟨mode, hm⟩ := ih h
        exact ⟨mode, List.mem_cons_of_mem _ hm⟩

theorem Nested.held_outer {k : List (Frame ι κ)} (h : Nested outer inner k) (hin : .release inner .exclusive ∈ k) :
    ∃ mode, .release outer mode ∈ k := by
  induction k with
  | nil => cases hin
  | cons f rest ih =>
    have hmem : ∀ {mode}, Frame.release outer mode ∈ rest → ∃ mode, Frame.release outer mode ∈ f :: rest :=
      fun hm => ⟨_, List.mem_cons_of_mem _ hm⟩
    rcases List.mem_cons.mp hin with rfl | hrest
    · obtain ⟨mode, hm⟩ := exists_of_isHeld (h.1 rfl rfl)
      exact hmem hm
    · have hnested : Nested outer inner rest := by cases f <;> exact h.2
      obtain ⟨mode, hm⟩ := ih hnested hrest
      exact hmem hm

theorem Nested.moves {s : Threads ι κ} {k k' : List (Frame ι κ)} (h : Nested outer inner k) (hs : Moves s k k') :
    Nested outer inner k' := by
  cases hs with
  | skip rest => exact h.2
  | release l mode rest => exact h.2
  | done p rest => exact h.2
  | join u rest _ => exact h.2
  | again p rest => exact ⟨h.1, h⟩
  | seq p q rest =>
    have hpq := Bool.and_eq_true_iff.mp h.1
    exact ⟨hpq.1, hpq.2, h.2⟩
  | left p q rest => exact ⟨(Bool.and_eq_true_iff.mp h.1).1, h.2⟩
  | right p q rest => exact ⟨(Bool.and_eq_true_iff.mp h.1).2, h.2⟩
  | enter l mode body rest _ =>
    obtain ⟨hin, hbody⟩ := Bool.and_eq_true_iff.mp h.1
    refine ⟨?_, fun hl hmode => ?_, h.2⟩
    · rw [isHeld, Bool.or_comm]
      exact hbody
    · subst hl hmode
      simpa using hin

/-- **Who holds `outer` exclusively is alone inside `inner`.** -/
theorem alone_inside [DecidableEq ι] {prog : ι → Prog ι κ} (hprog : ∀ t, (prog t).nested outer inner false = true)
    {s : Threads ι κ} (h : Reachable prog s) {t u : ι} (ht : Holds s t outer .exclusive)
    (hu : Holds s u inner .exclusive) : u = t := by
  have hn : Nested outer inner (s u) :=
    h.forall_threads (P := fun _ => Nested outer inner) (fun t => ⟨hprog t, trivial⟩)
      (fun _ _ _ _ hk hs => hk.moves hs) u
  obtain ⟨mode, hmode⟩ := hn.held_outer hu
  exact (h.exclusive ht hmode).symm

end

end Locks
