import CoreDB.Lib.Bytes

/-!
# Readers of byte strings

A reader takes something off the front of a byte string, or fails.  It reads `used` as
`a` if it does so whatever follows (`Reads`); it is `Local` if what it took off is all it
looked at.  Readers that are composed of local ones are local.
-/

namespace ByteCodec

variable {α β γ : Type}

/-- The reader takes `used` off the front as `a`, whatever follows. -/
def Reads (read : Bytes → Option (α × Bytes)) (used : Bytes) (a : α) : Prop := ∀ g, read (used ++ g) = some (a, g)

/-- The reader does not look further than what it takes off. -/
def Local (read : Bytes → Option (α × Bytes)) : Prop :=
  ∀ bs a rest, read bs = some (a, rest) → ∃ used, bs = used ++ rest ∧ Reads read used a

theorem local_takeLE (w : Nat) : Local (takeLE w) := by
  intro bs a rest h
  obtain ⟨rfl, hlt⟩ := takeLE_eq_some w a bs rest h
  exact ⟨leBytes w a, rfl, fun g => takeLE_leBytes w a g hlt⟩

theorem local_takeString : Local takeString := by
  intro bs a rest h
  obtain ⟨rfl, hlt⟩ := takeString_eq_some h
  exact ⟨_, rfl, fun g => takeString_append a g hlt⟩

theorem local_some (a : α) : Local fun bs => some (a, bs) := by
  intro bs b rest h
  cases h
  exact ⟨[], rfl, fun g => rfl⟩

theorem local_map {read : Bytes → Option (α × Bytes)} (f : α → β) (h : Local read) :
    Local fun bs => (read bs).map fun p => (f p.1, p.2) := by
  intro bs b rest hb
  obtain ⟨⟨a, rest1⟩, ha, heq⟩ := Option.map_eq_some_iff.mp hb
  cases heq
  obtain ⟨used, rfl, hused⟩ := h bs a rest1 ha
  refine ⟨used, rfl, fun g => ?_⟩
  dsimp only
  rw [hused]
  rfl

/-- One reader after the other. -/
theorem local_bind {read : Bytes → Option (α × Bytes)} {read' : Bytes → Option (β × Bytes)} (f : α → β → γ)
    (h : Local read) (h' : Local read') :
    Local fun bs => (read bs).bind fun p => (read' p.2).map fun q => (f p.1 q.1, q.2) := by
  intro bs c rest hc
  obtain ⟨⟨a, rest1⟩, ha, hc⟩ := Option.bind_eq_some_iff.mp hc
  obtain ⟨⟨b, rest2⟩, hb, heq⟩ := Option.map_eq_some_iff.mp hc
  cases heq
  obtain ⟨used, rfl, hused⟩ := h bs a rest1 ha
  obtain ⟨used', rfl, hused'⟩ := h' rest1 b rest2 hb
  refine ⟨used ++ used', by simp, fun g => ?_⟩
  dsimp only
  rw [List.append_assoc, hused, Option.bind_some, hused']
  rfl

end ByteCodec
