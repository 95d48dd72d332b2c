import Mathlib.Data.List.Basic
import Mathlib.Data.List.Induction
import Mathlib.Data.List.Nodup
import Mathlib.Data.List.Perm.Basic
import Mathlib.Data.List.Perm.Subperm

/-!
# Keyed lists

A finite map as a list of key/value pairs, the shape in which a table's contents
are read out.  Two keyed lists with distinct keys and the same lookups are
permutations of one another (`perm_of_find_eq`), so a multiset of rows can be
compared key by key.  A write sets or clears one key; after a list of writes a
key holds what its own last write left (`find_applyAll`).

`regroup`: a list of tagged items whose tags only ever move up in rank is the
concatenation of its tag classes in rank order.
-/

namespace Keyed

variable {κ β : Type} [DecidableEq κ]

def find (m : List (κ × β)) (k : κ) : Option β := (m.find? fun p => decide (p.1 = k)).map (·.2)

def keys (m : List (κ × β)) : List κ := m.map (·.1)

def erase (m : List (κ × β)) (k : κ) : List (κ × β) := m.filter fun p => decide (p.1 ≠ k)

def put (m : List (κ × β)) (k : κ) (v : β) : List (κ × β) := erase m k ++ [(k, v)]

/-- One write: set a key, or clear it. -/
def apply (m : List (κ × β)) (w : κ × Option β) : List (κ × β) :=
  match w.2 with
  | some v => put m w.1 v
  | none => erase m w.1

def applyAll (m : List (κ × β)) (ws : List (κ × Option β)) : List (κ × β) := ws.foldl apply m

/-! ## Lookups -/

@[simp] theorem find_nil (k : κ) : find ([] : List (κ × β)) k = none := rfl

theorem find_append (m m' : List (κ × β)) (k : κ) : find (m ++ m') k = (find m k).or (find m' k) := by
  unfold find
  rw [List.find?_append]
  cases m.find? (fun p => decide (p.1 = k)) <;> simp

theorem find_singleton (k k' : κ) (v : β) : find [(k, v)] k' = if k = k' then some v else none := by
  by_cases h : k = k' <;> simp [find, h]

theorem find_erase (m : List (κ × β)) (k k' : κ) :
    find (erase m k) k' = if k' = k then none else find m k' := by
  unfold find erase
  by_cases h : k' = k
  · subst h
    rw [if_pos rfl, Option.map_eq_none_iff, List.find?_eq_none]
    intro p hp
    have := (List.mem_filter.mp hp).2
    simpa using this
  · rw [if_neg h, List.find?_filter]
    congr 1
    congr 1
    funext p
    by_cases hp : p.1 = k'
    · simp [hp, h]
    · simp [hp]

/-- Only some keys are kept. -/
theorem find_filter_key (m : List (κ × β)) (q : κ → Bool) (k : κ) :
    find (m.filter fun p => q p.1) k = if q k then find m k else none := by
  unfold find
  rw [List.find?_filter]
  by_cases hk : q k = true
  · rw [if_pos hk]
    congr 2
    funext p
    by_cases hp : p.1 = k <;> simp [hp, hk]
  · rw [if_neg hk, Option.map_eq_none_iff, List.find?_eq_none]
    rintro p - hp
    obtain ⟨hq, hkey⟩ := of_decide_eq_true hp
    rw [of_decide_eq_true hkey] at hq
    exact hk hq

theorem find_put (m : List (κ × β)) (k k' : κ) (v : β) :
    find (put m k v) k' = if k' = k then some v else find m k' := by
  unfold put
  rw [find_append, find_erase, find_singleton]
  by_cases h : k' = k
  · simp [h]
  · simp [h, Ne.symm h]

theorem find_apply (m : List (κ × β)) (w : κ × Option β) (k : κ) :
    find (apply m w) k = if k = w.1 then w.2 else find m k := by
  obtain ⟨k', v⟩ := w
  cases v with
  | none => exact find_erase m k' k
  | some v => exact find_put m k' k v

/-- After a list of writes a key holds what its last write left. -/
theorem find_applyAll (m : List (κ × β)) (ws : List (κ × Option β)) (k : κ) :
    find (applyAll m ws) k =
      ((ws.filter fun w => decide (w.1 = k)).getLast?.map (·.2)).getD (find m k) := by
  unfold applyAll
  induction ws using List.reverseRecOn with
  | nil => rfl
  | append_singleton ws w ih =>
    rw [List.foldl_append, List.foldl_cons, List.foldl_nil, find_apply, List.filter_append]
    by_cases h : k = w.1
    · simp [h]
    · simp [h, Ne.symm h, ih]

theorem mem_of_find {m : List (κ × β)} {k : κ} {v : β} (h : find m k = some v) : (k, v) ∈ m := by
  unfold find at h
  obtain ⟨p, hp, rfl⟩ := Option.map_eq_some_iff.mp h
  have hk := List.find?_some hp
  have hm := List.mem_of_find?_eq_some hp
  rw [← of_decide_eq_true hk]
  exact hm

theorem find_eq_none_iff {m : List (κ × β)} {k : κ} : find m k = none ↔ k ∉ keys m := by
  unfold find keys
  rw [Option.map_eq_none_iff, List.find?_eq_none]
  simp only [decide_eq_true_eq, List.mem_map, not_exists, not_and]

theorem find_of_mem {m : List (κ × β)} (hm : (keys m).Nodup) {k : κ} {v : β} (h : (k, v) ∈ m) :
    find m k = some v := by
  induction m with
  | nil => cases h
  | cons p m ih =>
    simp only [keys, List.map_cons, List.nodup_cons] at hm
    rcases List.mem_cons.mp h with rfl | h
    · simp [find]
    · have hne : p.1 ≠ k := by
        rintro rfl
        exact hm.1 (List.mem_map.mpr ⟨_, h, rfl⟩)
      have := ih hm.2 h
      unfold find at this ⊢
      rw [List.find?_cons_of_neg (by simpa using hne)]
      exact this

/-! ## Distinct keys -/

omit [DecidableEq κ] in
theorem keys_filter_nodup {m : List (κ × β)} (p : κ × β → Bool) (h : (keys m).Nodup) :
    (keys (m.filter p)).Nodup :=
  h.sublist (List.filter_sublist.map _)

theorem keys_put_nodup {m : List (κ × β)} (k : κ) (v : β) (h : (keys m).Nodup) :
    (keys (put m k v)).Nodup := by
  unfold put keys
  rw [List.map_append, List.nodup_append]
  refine ⟨keys_filter_nodup _ h, by simp, ?_⟩
  rintro a ha b hb rfl
  simp only [List.map_cons, List.map_nil, List.mem_singleton] at hb
  obtain ⟨p, hp, rfl⟩ := List.mem_map.mp ha
  have := (List.mem_filter.mp hp).2
  simp [hb] at this

theorem keys_applyAll_nodup {m : List (κ × β)} (ws : List (κ × Option β)) (h : (keys m).Nodup) :
    (keys (applyAll m ws)).Nodup := by
  unfold applyAll
  induction ws generalizing m with
  | nil => exact h
  | cons w ws ih =>
    rw [List.foldl_cons]
    apply ih
    unfold apply
    split
    · exact keys_put_nodup _ _ h
    · exact keys_filter_nodup _ h

theorem filter_key {m : List (κ × β)} (hm : (keys m).Nodup) (k : κ) :
    m.filter (fun p => p.1 == k) = (find m k).toList.map fun v => (k, v) := by
  induction m with
  | nil => rfl
  | cons p m ih =>
    simp only [keys, List.map_cons, List.nodup_cons] at hm
    have ih' := ih hm.2
    by_cases hp : p.1 = k
    · have hnone : find m k = none := find_eq_none_iff.mpr (by rw [← hp]; exact hm.1)
      rw [hnone] at ih'
      rw [List.filter_cons_of_pos (by simpa using hp), ih']
      simp [find, ← hp]
    · rw [List.filter_cons_of_neg (by simpa using hp), ih']
      simp [find, hp]

theorem find_of_filter {m : List (κ × β)} {k : κ} {o : Option β}
    (h : (m.filter fun p => p.1 == k).map (·.2) = o.toList) : find m k = o := by
  have hhead := congrArg List.head? h
  rw [List.head?_map, List.head?_filter] at hhead
  have heq : (fun p : κ × β => p.1 == k) = fun p => decide (p.1 = k) := by
    funext p
    exact Bool.beq_eq_decide_eq ..
  rw [heq] at hhead
  unfold find
  rw [hhead]
  cases o <;> rfl

/-- **Lookups determine a keyed list up to order.** -/
theorem perm_of_find_eq {m m' : List (κ × β)} (hm : (keys m).Nodup) (hm' : (keys m').Nodup)
    (h : ∀ k, find m k = find m' k) : m.Perm m' := by
  have hmem : ∀ p, p ∈ m ↔ p ∈ m' := by
    rintro ⟨k, v⟩
    constructor
    · intro hp
      exact mem_of_find ((h k).symm.trans (find_of_mem hm hp))
    · intro hp
      exact mem_of_find ((h k).trans (find_of_mem hm' hp))
  exact (List.perm_ext_iff_of_nodup (List.Nodup.of_map _ hm) (List.Nodup.of_map _ hm')).mpr hmem

/-! ## What the entries amount to -/

section
variable {γ : Type} {m : List (κ × β)} {k : κ} {v : β} (f : κ × β → Option γ)

theorem filterMap_put (hfree : find m k = none) :
    (put m k v).filterMap f = m.filterMap f ++ (f (k, v)).toList := by
  have herase : erase m k = m := by
    rw [erase, List.filter_eq_self]
    intro p hp
    rw [decide_eq_true_iff]
    rintro rfl
    exact find_eq_none_iff.mp hfree (List.mem_map.mpr ⟨p, hp, rfl⟩)
  rw [put, herase, List.filterMap_append]
  cases hf : f (k, v) <;> simp [hf]

/-- An entry that amounts to nothing. -/
theorem filterMap_erase_of_none (hm : (keys m).Nodup) (hfind : find m k = some v) (hnone : f (k, v) = none) :
    (erase m k).filterMap f = m.filterMap f := by
  rw [erase, List.filterMap_filter]
  apply List.filterMap_congr
  rintro ⟨k', v'⟩ hp
  by_cases hk : k' = k
  · subst hk
    rw [find_of_mem hm hp] at hfind
    cases hfind
    simp [hnone]
  · simp [hk]

/-- The only entry that amounts to something. -/
theorem filterMap_erase_of_some {c : γ} (hfind : find m k = some v) (hsome : f (k, v) = some c)
    (halone : (m.filterMap f).length ≤ 1) : m.filterMap f = [c] ∧ (erase m k).filterMap f = [] := by
  obtain ⟨a, b, rfl⟩ := List.append_of_mem (mem_of_find hfind)
  simp only [List.filterMap_append, List.filterMap_cons, hsome, List.length_append, List.length_cons] at halone
  have ha : a.filterMap f = [] := List.length_eq_zero_iff.mp (by omega)
  have hb : b.filterMap f = [] := List.length_eq_zero_iff.mp (by omega)
  have hnil : ∀ l : List (κ × β), l.filterMap f = [] → (erase l k).filterMap f = [] := by
    intro l hl
    rw [List.filterMap_eq_nil_iff] at hl ⊢
    exact fun p hp => hl p (List.mem_of_mem_filter hp)
  have herase : erase (a ++ (k, v) :: b) k = erase a k ++ erase b k := by
    simp [erase, List.filter_append]
  refine ⟨by simp [List.filterMap_append, ha, hb, hsome], ?_⟩
  rw [herase, List.filterMap_append, hnil a ha, hnil b hb, List.append_nil]

end

/-! ## Comparing key by key -/

theorem map_filter_key (m : List (κ × β)) (k : κ) :
    (m.filter fun p => p.1 == k).map ((fun v => (k, v)) ∘ fun p => p.2) = m.filter fun p => p.1 == k := by
  induction m with
  | nil => rfl
  | cons p m ih =>
    by_cases hp : p.1 = k
    · rw [List.filter_cons_of_pos (by simpa using hp), List.map_cons, ih]
      simp [← hp]
    · rw [List.filter_cons_of_neg (by simpa using hp), ih]

section
variable [DecidableEq β]

theorem count_filter_key (m : List (κ × β)) (p : κ × β) :
    (m.filter fun q => q.1 == p.1).count p = m.count p := List.count_filter (by simp)

/-- A keyed list is contained in another if it is so key by key. -/
theorem subperm_of_keys {m m' : List (κ × β)}
    (h : ∀ k, (m.filter fun q => q.1 == k).Subperm (m'.filter fun q => q.1 == k)) : m.Subperm m' := by
  rw [List.subperm_ext_iff]
  intro p _
  rw [← count_filter_key m p, ← count_filter_key m' p]
  exact (h p.1).count_le p

theorem perm_of_keys {m m' : List (κ × β)}
    (h : ∀ k, (m.filter fun q => q.1 == k).Perm (m'.filter fun q => q.1 == k)) : m.Perm m' := by
  rw [List.perm_iff_count]
  intro p
  rw [← count_filter_key m p, ← count_filter_key m' p]
  exact (h p.1).count_eq p

end

end Keyed

/-! ## Filtering -/

namespace Keyed

/-- If whatever precedes a selected item is selected, the selected items are a prefix. -/
theorem filter_prefix {α : Type} (p : α → Bool) (l : List α)
    (h : l.Pairwise fun a b => p b = true → p a = true) : l.filter p <+: l := by
  induction l with
  | nil => exact List.nil_prefix
  | cons a l ih =>
    rw [List.pairwise_cons] at h
    cases ha : p a with
    | true =>
      rw [List.filter_cons_of_pos ha, List.prefix_cons_inj]
      exact ih h.2
    | false =>
      have hnil : (a :: l).filter p = [] := by
        rw [List.filter_eq_nil_iff]
        intro b hb hpb
        rcases List.mem_cons.mp hb with rfl | hb
        · rw [ha] at hpb; cases hpb
        · rw [h.1 b hb hpb] at ha; cases ha
      rw [hnil]
      exact List.nil_prefix

/-- Whoever selects more keeps more. -/
theorem filter_sublist_filter {α : Type} {p q : α → Bool} {l : List α} (h : ∀ a ∈ l, p a = true → q a = true) :
    (l.filter p).Sublist (l.filter q) := by
  have heq : l.filter p = (l.filter q).filter p := by
    rw [List.filter_filter]
    apply List.filter_congr
    intro a ha
    cases hp : p a with
    | false => rfl
    | true => simp [h a ha hp]
  rw [heq]
  exact List.filter_sublist

end Keyed

/-! ## Regrouping by tag -/

namespace Keyed

variable {τ ω : Type} [DecidableEq τ]

theorem filter_append_filter_not (L : List (τ × ω)) (c : τ) (rank : τ → Nat)
    (hL : L.Pairwise fun p q => p.1 = q.1 ∨ rank p.1 < rank q.1) (hc : ∀ p ∈ L, p.1 = c ∨ rank c < rank p.1) :
    L.filter (fun p => decide (p.1 = c)) ++ L.filter (fun p => decide (p.1 ≠ c)) = L := by
  induction L with
  | nil => rfl
  | cons p L ih =>
    rw [List.pairwise_cons] at hL
    have ih' := ih hL.2 fun q hq => hc q (List.mem_cons_of_mem _ hq)
    by_cases hp : p.1 = c
    · simp only [hp, List.filter_cons, decide_true, if_true, List.cons_append, ne_eq, not_true_eq_false,
        decide_false, Bool.false_eq_true, if_false, List.cons.injEq, true_and]
      exact ih'
    · -- `p` has passed the class of `c`: nothing after it is in that class
      have hnone : L.filter (fun q => decide (q.1 = c)) = [] := by
        rw [List.filter_eq_nil_iff]
        intro q hq hqc
        have hqc := of_decide_eq_true hqc
        have hpc := (hc p List.mem_cons_self).resolve_left hp
        rcases hL.1 q hq with h | h
        · exact hp (h.trans hqc)
        · rw [hqc] at h; omega
      rw [hnone, List.nil_append] at ih'
      simp only [List.filter_cons, hp, decide_false, Bool.false_eq_true, if_false, hnone, List.nil_append,
        ne_eq, not_false_eq_true, decide_true, if_true, List.cons.injEq, true_and]
      exact ih'

/-- **Regrouping.** -/
theorem regroup (C : List τ) (L : List (τ × ω)) (rank : τ → Nat) (hC : C.Pairwise fun a b => rank a < rank b)
    (hL : L.Pairwise fun p q => p.1 = q.1 ∨ rank p.1 < rank q.1) (hin : ∀ p ∈ L, p.1 ∈ C) :
    C.flatMap (fun t => L.filter fun p => decide (p.1 = t)) = L := by
  induction C generalizing L with
  | nil =>
    cases L with
    | nil => rfl
    | cons p L => exact absurd (hin p List.mem_cons_self) (by simp)
  | cons c C ih =>
    rw [List.pairwise_cons] at hC
    rw [List.flatMap_cons]
    have hrest := ih (L.filter fun p => decide (p.1 ≠ c)) hC.2 (hL.sublist List.filter_sublist) (by
      intro p hp
      obtain ⟨hp, hne⟩ := List.mem_filter.mp hp
      exact (List.mem_cons.mp (hin p hp)).resolve_left (of_decide_eq_true hne))
    have hsame : C.flatMap (fun t => (L.filter fun p => decide (p.1 ≠ c)).filter fun p => decide (p.1 = t)) =
        C.flatMap (fun t => L.filter fun p => decide (p.1 = t)) := by
      apply List.flatMap_congr
      intro t ht
      have hne : t ≠ c := by
        rintro rfl
        have := hC.1 t ht
        omega
      rw [List.filter_filter]
      apply List.filter_congr
      intro p _
      by_cases h : p.1 = t
      · simp [h, hne]
      · simp [h]
    rw [← hsame, hrest]
    apply filter_append_filter_not L c rank hL
    intro p hp
    rcases List.mem_cons.mp (hin p hp) with h | h
    · exact Or.inl h
    · exact Or.inr (hC.1 _ h)

end Keyed
