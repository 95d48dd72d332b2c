import Mathlib.Data.List.Chain
import Mathlib.Data.List.Basic

/-!
# Version chains

A row's history as a list of versions, oldest first.  A version is born in one
transaction and dies in another (or in the same, or not at all); consecutive
versions are linked: a version dies in the transaction its successor is born in.
A version without a birth stands for a value kept outside the chain.

A set `S` of transactions is a reader's knowledge.  If `S` knows the birth of
every version whose death it knows (`Closed`), it splits a linked chain into a
known prefix, whose members but the last are known dead, and an unknown rest
(`linked_split`).  Readers, aborts and garbage collection are all instances:
the transactions a snapshot sees, all transactions but one, the transactions no
reader can miss.

`writes` reads a chain back as the list of writes that built it.
-/

namespace VersionChain

structure Version (τ β : Type) where
  born : Option τ
  died : Option τ
  val : Option β

variable {α τ β : Type} (ver : α → Version τ β)

/-- `b` replaces `a`: it is born in the transaction `a` dies in. -/
def Link (a b : α) : Prop := (ver b).born ≠ none ∧ (ver a).died = (ver b).born

def Linked (l : List α) : Prop := l.IsChain (Link ver)

/-- `S` knows the birth of `a` (a version without a birth was always there). -/
def Born (S : τ → Prop) (a : α) : Prop := ∀ t, (ver a).born = some t → S t

def Died (S : τ → Prop) (a : α) : Prop := ∃ t, (ver a).died = some t ∧ S t

def Visible (S : τ → Prop) (a : α) : Prop := Born ver S a ∧ ¬ Died ver S a

/-- Whoever knows a death knows the birth. -/
def Closed (S : τ → Prop) (l : List α) : Prop := ∀ a ∈ l, Died ver S a → Born ver S a

variable {ver} {S : τ → Prop}

theorem Linked.tail {a : α} {l : List α} (h : Linked ver (a :: l)) : Linked ver l := List.IsChain.tail h

theorem died_iff_born_of_link {a b : α} (h : Link ver a b) : Died ver S a ↔ Born ver S b := by
  obtain ⟨hb, heq⟩ := h
  obtain ⟨t, ht⟩ := Option.ne_none_iff_exists'.mp hb
  unfold Died Born
  rw [heq, ht]
  constructor
  · rintro ⟨u, hu, hs⟩ v hv
    rw [← Option.some.inj hv, Option.some.inj hu]
    exact hs
  · intro h
    exact ⟨t, rfl, h t rfl⟩

/-- From an unknown version on, everything is unknown. -/
theorem unborn_tail {a : α} {l : List α} (hl : Linked ver (a :: l)) (hc : Closed ver S (a :: l))
    (ha : ¬ Born ver S a) : ∀ b ∈ l, ¬ Born ver S b := by
  induction l generalizing a with
  | nil => simp
  | cons c l ih =>
    have hlink : Link ver a c := (List.isChain_cons_cons.mp hl).1
    have hcun : ¬ Born ver S c := by
      intro hborn
      exact ha (hc a List.mem_cons_self ((died_iff_born_of_link hlink).mpr hborn))
    intro b hb
    rcases List.mem_cons.mp hb with rfl | hb
    · exact hcun
    · exact ih hl.tail (fun x hx => hc x (List.mem_cons_of_mem _ hx)) hcun b hb

/-- A chain split at its newest known version `a`: the versions before it are
known dead, the versions after it are unknown, and if there are any then `a` is
not known dead. -/
structure Split (ver : α → Version τ β) (S : τ → Prop) (l l1 : List α) (a : α) (l2 : List α) : Prop where
  eq : l = l1 ++ a :: l2
  dead : ∀ b ∈ l1, Born ver S b ∧ Died ver S b
  born : Born ver S a
  unborn : ∀ b ∈ l2, ¬ Born ver S b
  alive : l2 ≠ [] → ¬ Died ver S a

/-- **The known prefix.**  Either nothing of a linked chain is known, or it splits. -/
theorem linked_split (l : List α) (hl : Linked ver l) (hc : Closed ver S l) :
    (∀ b ∈ l, ¬ Born ver S b) ∨ ∃ l1 a l2, Split ver S l l1 a l2 := by
  induction l with
  | nil => left; simp
  | cons a l ih =>
    by_cases ha : Born ver S a
    · right
      have hctail : Closed ver S l := fun x hx => hc x (List.mem_cons_of_mem _ hx)
      rcases ih hl.tail hctail with hnone | ⟨l1, b, l2, rfl, hl1, hb, hl2, hdb⟩
      · refine ⟨[], a, l, rfl, by simp, ha, hnone, fun hne hd => ?_⟩
        obtain ⟨b, l', rfl⟩ := List.exists_cons_of_ne_nil hne
        have hlink : Link ver a b := (List.isChain_cons_cons.mp hl).1
        exact hnone b List.mem_cons_self ((died_iff_born_of_link hlink).mp hd)
      · refine ⟨a :: l1, b, l2, rfl, fun x hx => ?_, hb, hl2, hdb⟩
        rcases List.mem_cons.mp hx with rfl | hx
        · refine ⟨ha, ?_⟩
          cases l1 with
          | nil => exact (died_iff_born_of_link (List.isChain_cons_cons.mp hl).1).mpr hb
          | cons y l1 =>
            exact (died_iff_born_of_link (List.isChain_cons_cons.mp hl).1).mpr
              (hl1 y List.mem_cons_self).1
        · exact hl1 x hx
    · left
      intro b hb
      rcases List.mem_cons.mp hb with rfl | hb
      · exact ha
      · exact unborn_tail hl hc ha b hb

section Split

variable {l l1 l2 : List α} {a : α} (h : Split ver S l l1 a l2)
include h

theorem Split.mem : a ∈ l := by
  rw [h.eq]
  exact List.mem_append_right _ List.mem_cons_self

/-- Only the split point can be visible. -/
theorem Split.eq_of_visible {x : α} (hx : x ∈ l) (hv : Visible ver S x) : x = a := by
  rw [h.eq] at hx
  rcases List.mem_append.mp hx with hx | hx
  · exact absurd (h.dead x hx).2 hv.2
  · rcases List.mem_cons.mp hx with rfl | hx
    · rfl
    · exact absurd hv.1 (h.unborn x hx)

theorem Split.born_known : ∀ b ∈ l1 ++ [a], Born ver S b := by
  intro b hb
  rcases List.mem_append.mp hb with hb | hb
  · exact (h.dead b hb).1
  · rw [List.mem_singleton.mp hb]
    exact h.born

theorem Split.filter_born [DecidablePred (Born ver S)] :
    l.filter (fun b => decide (Born ver S b)) = l1 ++ [a] := by
  rw [h.eq, List.append_cons, List.filter_append, List.filter_eq_self.mpr, List.filter_eq_nil_iff.mpr,
    List.append_nil]
  · intro b hb hd
    exact h.unborn b hb (of_decide_eq_true hd)
  · intro b hb
    exact decide_eq_true (h.born_known b hb)

end Split

theorem filter_born_unborn [DecidablePred (Born ver S)] {l : List α} (h : ∀ b ∈ l, ¬ Born ver S b) :
    l.filter (fun b => decide (Born ver S b)) = [] := by
  rw [List.filter_eq_nil_iff]
  intro b hb hd
  exact h b hb (of_decide_eq_true hd)

/-- The known versions are a prefix of the chain. -/
theorem filter_born_prefix [DecidablePred (Born ver S)] {l : List α} (hl : Linked ver l)
    (hc : Closed ver S l) : l.filter (fun b => decide (Born ver S b)) <+: l := by
  rcases linked_split l hl hc with hnone | ⟨l1, a, l2, h⟩
  · rw [filter_born_unborn hnone]
    exact List.nil_prefix
  · rw [h.filter_born]
    exact ⟨l2, by rw [h.eq, ← List.append_cons]⟩

theorem Linked.of_prefix {l l' : List α} (h : Linked ver l) (hp : l' <+: l) : Linked ver l' := by
  obtain ⟨m, rfl⟩ := hp
  exact List.IsChain.left_of_append h

theorem Linked.of_suffix {l l' : List α} (h : Linked ver l) (hs : l' <:+ l) : Linked ver l' := by
  obtain ⟨m, rfl⟩ := hs
  exact List.IsChain.right_of_append h

/-- In a linked chain whose newest version is known, the older ones are known dead. -/
theorem dead_of_last {l : List α} {a : α} (hl : Linked ver (l ++ [a])) (hc : Closed ver S (l ++ [a]))
    (ha : Born ver S a) : ∀ b ∈ l, Born ver S b ∧ Died ver S b := by
  rcases linked_split _ hl hc with hnone | ⟨l1, c, l2, h⟩
  · exact absurd ha (hnone a (by simp))
  · rcases List.eq_nil_or_concat l2 with rfl | ⟨l2', b, rfl⟩
    · rw [(List.append_inj' h.eq rfl).1]
      exact h.dead
    · -- the newest version would be among the unknown ones
      have hlast := congrArg List.getLast? h.eq
      rw [List.concat_eq_append, ← List.cons_append, ← List.append_assoc, List.getLast?_concat,
        List.getLast?_concat] at hlast
      rw [Option.some.inj hlast] at ha
      exact absurd ha (h.unborn b (by simp))

theorem born_of_last {l : List α} {a : α} (hl : Linked ver (l ++ [a])) (hc : Closed ver S (l ++ [a]))
    (ha : Born ver S a) : ∀ b ∈ l ++ [a], Born ver S b := by
  intro b hb
  rcases List.mem_append.mp hb with hb | hb
  · exact (dead_of_last hl hc ha b hb).1
  · rw [List.mem_singleton.mp hb]
    exact ha

/-- **Dropping the known dead.**  They are the oldest versions of the chain, all of
known birth. -/
theorem drop_dead [DecidablePred (Died ver S)] {l : List α} (hl : Linked ver l) (hc : Closed ver S l) :
    ∃ dead, l = dead ++ l.filter (fun b => decide (¬ Died ver S b)) ∧
      ∀ b ∈ dead, Born ver S b ∧ Died ver S b := by
  have hkeep : ∀ m : List α, (∀ b ∈ m, ¬ Died ver S b) →
      m.filter (fun b => decide (¬ Died ver S b)) = m := by
    intro m hm
    rw [List.filter_eq_self]
    exact fun b hb => decide_eq_true (hm b hb)
  have hdrop : ∀ m : List α, (∀ b ∈ m, Born ver S b ∧ Died ver S b) →
      m.filter (fun b => decide (¬ Died ver S b)) = [] := by
    intro m hm
    rw [List.filter_eq_nil_iff]
    exact fun b hb hd => of_decide_eq_true hd (hm b hb).2
  rcases linked_split l hl hc with hnone | ⟨l1, a, l2, h⟩
  · exact ⟨[], by rw [hkeep l fun b hb hd => hnone b hb (hc b hb hd)]; rfl, by simp⟩
  · have hrest : ∀ b ∈ l2, ¬ Died ver S b := fun b hb hd =>
      h.unborn b hb (hc b (by rw [h.eq]; simp [hb]) hd)
    by_cases hd : Died ver S a
    · have hl2 : l2 = [] := Classical.byContradiction fun hne => h.alive hne hd
      subst hl2
      refine ⟨l1 ++ [a], ?_, ?_⟩
      · rw [h.eq, List.filter_append, hdrop l1 h.dead, hdrop [a] (by simpa using ⟨h.born, hd⟩)]
        simp
      · intro b hb
        rcases List.mem_append.mp hb with hb | hb
        · exact h.dead b hb
        · rw [List.mem_singleton.mp hb]
          exact ⟨h.born, hd⟩
    · refine ⟨l1, ?_, h.dead⟩
      rw [h.eq, List.filter_append, hdrop l1 h.dead, hkeep (a :: l2) ?_]
      · rfl
      · intro b hb
        rcases List.mem_cons.mp hb with rfl | hb
        · exact hd
        · exact hrest b hb

/-! ## The writes behind a chain -/

variable (ver)

/-- The write that made a version. -/
def put (a : α) : List (τ × Option β) :=
  match (ver a).born, (ver a).val with
  | some t, some v => [(t, some v)]
  | _, _ => []

/-- The deletion a version's death stands for, unless its transaction is void. -/
def del (alive : τ → Bool) (a : α) : List (τ × Option β) :=
  match (ver a).died with
  | some t => if alive t then [(t, none)] else []
  | none => []

/-- One write per version, and a last one if the newest version was deleted. -/
def writes (alive : τ → Bool) (l : List α) : List (τ × Option β) :=
  l.flatMap (put ver) ++ l.getLast?.toList.flatMap (del ver alive)

/-- A version has a value exactly if it has a birth. -/
def Proper (a : α) : Prop := (ver a).born = none ↔ (ver a).val = none

variable {ver} {alive : τ → Bool}

@[simp] theorem writes_nil : writes ver alive [] = [] := rfl

theorem writes_concat (l : List α) (a : α) :
    writes ver alive (l ++ [a]) = (l ++ [a]).flatMap (put ver) ++ del ver alive a := by
  simp [writes]

theorem writes_append (l1 l2 : List α) (h : l2 ≠ []) :
    writes ver alive (l1 ++ l2) = l1.flatMap (put ver) ++ writes ver alive l2 := by
  obtain ⟨l, a, rfl⟩ := (List.eq_nil_or_concat l2).resolve_left h
  simp [writes, List.concat_eq_append]

theorem mem_put {a : α} {w : τ × Option β} (h : w ∈ put ver a) :
    (ver a).born = some w.1 ∧ (ver a).val = w.2 ∧ w.2 ≠ none := by
  unfold put at h
  split at h
  · next t v hb hv =>
    simp only [List.mem_singleton] at h
    subst h
    exact ⟨hb, hv, by simp⟩
  · cases h

theorem mem_del {a : α} {w : τ × Option β} (h : w ∈ del ver alive a) :
    (ver a).died = some w.1 ∧ alive w.1 = true ∧ w.2 = none := by
  unfold del at h
  split at h
  · next t ht =>
    split at h
    · next hal =>
      simp only [List.mem_singleton] at h
      subst h
      exact ⟨ht, hal, rfl⟩
    · cases h
  · cases h

/-! ## Extending a chain -/

/-- The chain after its newest version has been replaced by one of the same birth. -/
theorem Linked.concat_congr {l : List α} {a b : α} (h : Linked ver (l ++ [a]))
    (hborn : (ver b).born = (ver a).born) : Linked ver (l ++ [b]) := by
  unfold Linked at h ⊢
  rw [List.isChain_append] at h ⊢
  refine ⟨h.1, List.isChain_singleton _, fun x hx y hy => ?_⟩
  have hlink := h.2.2 x hx a rfl
  simp only [List.head?_cons, Option.mem_some_iff] at hy
  subst hy
  unfold Link at hlink ⊢
  rw [hborn]
  exact hlink

theorem Linked.concat {l : List α} {a b : α} (h : Linked ver (l ++ [a])) (hlink : Link ver a b) :
    Linked ver (l ++ [a] ++ [b]) := by
  unfold Linked
  rw [List.isChain_append]
  refine ⟨h, List.isChain_singleton _, fun x hx y hy => ?_⟩
  simp only [List.getLast?_concat, List.head?_cons, Option.mem_some_iff] at hx hy
  subst hx
  subst hy
  exact hlink

section Claim

variable {l : List α} {a a' : α} {t : τ} (hborn : (ver a').born = (ver a).born)
  (hval : (ver a').val = (ver a).val) (hdel : del ver alive a = [])
include hborn hval hdel

theorem flatMap_put_claim : (l ++ [a']).flatMap (put ver) = writes ver alive (l ++ [a]) := by
  rw [writes_concat, hdel, List.append_nil, List.flatMap_append, List.flatMap_append]
  simp [put, hborn, hval]

/-- Deleting the newest version is one more write. -/
theorem writes_delete (hdied : (ver a').died = some t) (ht : alive t = true) :
    writes ver alive (l ++ [a']) = writes ver alive (l ++ [a]) ++ [(t, none)] := by
  rw [writes_concat, flatMap_put_claim hborn hval hdel]
  simp [del, hdied, ht]

/-- So is replacing it. -/
theorem writes_replace {b : α} {v : β} (hb : (ver b).born = some t) (hv : (ver b).val = some v)
    (hd : (ver b).died = none) :
    writes ver alive (l ++ [a'] ++ [b]) = writes ver alive (l ++ [a]) ++ [(t, some v)] := by
  rw [writes_concat, List.flatMap_append, flatMap_put_claim hborn hval hdel]
  simp [put, del, hb, hv, hd]

end Claim

section Filter

variable [DecidablePred S]

theorem filter_put_born (l : List α) (h : ∀ a ∈ l, Born ver S a) :
    (l.flatMap (put ver)).filter (fun w => decide (S w.1)) = l.flatMap (put ver) := by
  rw [List.filter_eq_self]
  intro w hw
  obtain ⟨a, ha, hw⟩ := List.mem_flatMap.mp hw
  exact decide_eq_true (h a ha w.1 (mem_put hw).1)

theorem filter_put_unborn (l : List α) (h : ∀ a ∈ l, ¬ Born ver S a) :
    (l.flatMap (put ver)).filter (fun w => decide (S w.1)) = [] := by
  rw [List.filter_eq_nil_iff]
  intro w hw hs
  obtain ⟨a, ha, hw⟩ := List.mem_flatMap.mp hw
  refine h a ha fun t ht => ?_
  rw [(mem_put hw).1] at ht
  rw [← Option.some.inj ht]
  exact of_decide_eq_true hs

theorem filter_del (a : α) :
    (del ver alive a).filter (fun w => decide (S w.1)) = del ver (fun t => alive t && decide (S t)) a := by
  unfold del
  cases (ver a).died with
  | none => rfl
  | some t => cases hal : alive t <;> by_cases hs : S t <;> simp [hs]

theorem filter_writes_unborn (l : List α) (hc : Closed ver S l) (h : ∀ a ∈ l, ¬ Born ver S a) :
    (writes ver alive l).filter (fun w => decide (S w.1)) = [] := by
  unfold writes
  rw [List.filter_append, filter_put_unborn l h, List.nil_append, List.filter_eq_nil_iff]
  intro w hw hs
  obtain ⟨a, ha, hw⟩ := List.mem_flatMap.mp hw
  have hal : a ∈ l := List.mem_of_getLast? (by simpa using ha)
  exact h a hal (hc a hal ⟨w.1, (mem_del hw).1, of_decide_eq_true hs⟩)

theorem del_unknown (a : α) (h : ¬ Died ver S a) : del ver (fun t => alive t && decide (S t)) a = [] := by
  unfold del
  cases hdied : (ver a).died with
  | none => rfl
  | some t => simp [show ¬ S t from fun hs => h ⟨t, hdied, hs⟩]

/-- **Known writes are the writes of the known prefix.** -/
theorem filter_writes [DecidablePred (Born ver S)] (l : List α) (hl : Linked ver l) (hc : Closed ver S l) :
    (writes ver alive l).filter (fun w => decide (S w.1)) =
      writes ver (fun t => alive t && decide (S t)) (l.filter fun a => decide (Born ver S a)) := by
  rcases linked_split l hl hc with hnone | ⟨l1, a, l2, h⟩
  · rw [filter_born_unborn hnone, filter_writes_unborn l hc hnone]
    rfl
  · rw [h.filter_born, writes_concat]
    obtain ⟨rfl, -, -, hl2, hda⟩ := id h
    by_cases hne : l2 = []
    · subst hne
      rw [writes_concat, List.filter_append, filter_put_born _ h.born_known, filter_del]
    · have hcl2 : Closed ver S l2 := fun b hb =>
        hc b (List.mem_append_right _ (List.mem_cons_of_mem _ hb))
      rw [List.append_cons, writes_append _ _ hne, List.filter_append, filter_put_born _ h.born_known,
        filter_writes_unborn l2 hcl2 hl2, del_unknown a (hda hne)]

end Filter

/-! ## Reading a chain -/

/-- The value after a list of writes. -/
def final (base : Option β) (ws : List (τ × Option β)) : Option β :=
  (ws.getLast?.map (·.2)).getD base

@[simp] theorem final_nil (base : Option β) : final (τ := τ) base [] = base := rfl

theorem final_concat (base : Option β) (ws : List (τ × Option β)) (w : τ × Option β) :
    final base (ws ++ [w]) = w.2 := by
  simp [final]

theorem final_append (base : Option β) (ws ws' : List (τ × Option β)) :
    final base (ws ++ ws') = final (final base ws) ws' := by
  rcases List.eq_nil_or_concat ws' with rfl | ⟨ws'', w, rfl⟩
  · simp
  · rw [List.concat_eq_append, ← List.append_assoc, final_concat, final_concat]

/-- A version without a birth can only be the oldest. -/
theorem linked_unborn_first {l1 l2 : List α} {a : α} (hl : Linked ver (l1 ++ a :: l2))
    (ha : (ver a).born = none) : l1 = [] := by
  rcases List.eq_nil_or_concat l1 with rfl | ⟨l, b, rfl⟩
  · rfl
  · have hlink : Link ver b a := by
      have h := hl
      unfold Linked at h
      rw [List.concat_eq_append, List.append_assoc, List.singleton_append] at h
      exact (List.isChain_append_cons_cons.mp h).2.1
    exact absurd ha hlink.1

section Read

variable [DecidablePred S] (base : Option β) (l : List α) (hl : Linked ver l) (hc : Closed ver S l)
  (hp : ∀ a ∈ l, Proper ver a) (halive : ∀ t, S t → alive t = true)

include hl hc hp halive

/-- **Reading is replaying.**  The known writes of a chain end in the value of
the visible version; in the outside value if the visible version stands for it,
or if nothing of the chain is known; and in nothing if the newest known version
is known dead. -/
theorem final_known :
    (∀ a ∈ l, Visible ver S a → ∀ v, (ver a).val = some v →
      final base ((writes ver alive l).filter fun w => decide (S w.1)) = some v) ∧
    (∀ a ∈ l, Visible ver S a → (ver a).val = none →
      final base ((writes ver alive l).filter fun w => decide (S w.1)) = base) ∧
    ((∀ a ∈ l, ¬ Born ver S a) →
      final base ((writes ver alive l).filter fun w => decide (S w.1)) = base) ∧
    ((∀ a ∈ l, ¬ Visible ver S a) → (∃ a ∈ l, Born ver S a) →
      final base ((writes ver alive l).filter fun w => decide (S w.1)) = none) := by
  classical
  rcases linked_split l hl hc with hnone | ⟨l1, c, l2, hsplit⟩
  · rw [filter_writes_unborn l hc hnone]
    exact ⟨fun a ha hv => absurd hv.1 (hnone a ha), fun a ha hv => absurd hv.1 (hnone a ha),
      fun _ => rfl, fun _ ⟨a, ha, hb⟩ => absurd hb (hnone a ha)⟩
  · rw [filter_writes _ hl hc, hsplit.filter_born, writes_concat]
    refine ⟨fun a ha hv v hval => ?_, fun a ha hv hval => ?_, fun h => absurd hsplit.born (h c hsplit.mem),
      fun hnv _ => ?_⟩
    · obtain rfl := hsplit.eq_of_visible ha hv
      have hb : (ver a).born ≠ none := fun h => by
        have := (hp a ha).mp h
        rw [hval] at this
        cases this
      obtain ⟨t, ht⟩ := Option.ne_none_iff_exists'.mp hb
      rw [del_unknown a hv.2, List.append_nil, List.flatMap_append]
      simp only [List.flatMap_singleton, put, ht, hval]
      rw [final_concat]
    · obtain rfl := hsplit.eq_of_visible ha hv
      have hb : (ver a).born = none := (hp a ha).mpr hval
      rw [hsplit.eq] at hl
      have hfirst := linked_unborn_first hl hb
      subst hfirst
      rw [del_unknown a hv.2]
      simp [put, hb]
    · have hd : Died ver S c := Classical.byContradiction fun hd => hnv c hsplit.mem ⟨hsplit.born, hd⟩
      obtain ⟨t, ht, hs⟩ := hd
      have hdel : del ver (fun t => alive t && decide (S t)) c = [(t, none)] := by
        unfold del
        rw [ht]
        simp [hs, halive t hs]
      rw [hdel, final_concat]

end Read

end VersionChain
