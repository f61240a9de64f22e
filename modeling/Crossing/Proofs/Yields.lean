import Crossing.Violation

/-
What a computation gives if it gives anything. Operations that refuse bad
arguments are chains of checks; `Yields` walks such a chain and keeps only
the path on which every check has passed.
-/
namespace Crossing

variable {α β : Type}

/-- Every result of `x` has the property `P`. -/
def Yields (x : Except Violation α) (P : α → Prop) : Prop := ∀ a, x = .ok a → P a

theorem yields_pure {P : α → Prop} {a : α} (h : P a) : Yields (pure a) P := by
  intro b hb
  cases hb
  exact h

theorem yields_error {P : α → Prop} (v : Violation) : Yields (.error v) P := by
  intro b hb
  cases hb

theorem yields_ite {P : α → Prop} {c : Prop} [Decidable c] {x y : Except Violation α}
    (hx : c → Yields x P) (hy : ¬c → Yields y P) : Yields (if c then x else y) P := by
  split
  · next h => exact hx h
  · next h => exact hy h

/-- A chain gives what its second part gives after any result of its first
part. -/
theorem yields_bind {P : β → Prop} {x : Except Violation α} {f : α → Except Violation β}
    (h : ∀ a, x = .ok a → Yields (f a) P) : Yields (x >>= f) P := by
  intro b hb
  cases hx : x with
  | error v => rw [hx] at hb; cases hb
  | ok a => rw [hx] at hb; exact h a hx b hb

theorem yields_pure_bind {P : β → Prop} {a : α} {f : α → Except Violation β}
    (h : Yields (f a) P) : Yields (pure a >>= f) P := h

/-- The result of a chain comes from a result of its first part. -/
theorem bind_eq_ok {x : Except Violation α} {f : α → Except Violation β} {b : β}
    (h : (x >>= f) = .ok b) : ∃ a, x = .ok a ∧ f a = .ok b := by
  cases hx : x with
  | error v => rw [hx] at h; cases h
  | ok a => rw [hx] at h; exact ⟨a, rfl, h⟩

/-- A chain goes through if its first part does, and its second part after
any result of that. -/
theorem total_bind {x : Except Violation α} {f : α → Except Violation β} (hx : ∃ a, x = .ok a)
    (hf : ∀ a, x = .ok a → ∃ b, f a = .ok b) : ∃ b, (x >>= f) = .ok b := by
  obtain ⟨a, rfl⟩ := hx
  exact hf a rfl

/-- The result of a map comes from a result of what is mapped. -/
theorem map_eq_ok {x : Except Violation α} {f : α → β} {b : β} (h : x.map f = .ok b) :
    ∃ a, x = .ok a ∧ f a = b := by
  cases x with
  | error v => cases h
  | ok a => exact ⟨a, rfl, Except.ok.inj h⟩

theorem yields_map {P : β → Prop} {x : Except Violation α} {f : α → β}
    (h : Yields x fun a => P (f a)) : Yields (x.map f) P := by
  intro b hb
  obtain ⟨a, ha, rfl⟩ := map_eq_ok hb
  exact h a ha

end Crossing
