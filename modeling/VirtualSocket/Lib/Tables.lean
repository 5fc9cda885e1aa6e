import Mathlib.Logic.Function.Basic

/- Partial maps as functions to `Option`, changed at one key at a time: what is found
   under a key afterwards, and which values are found at all (`update_exists_some`,
   `update_exists_none`). -/
namespace VirtualSocket.Tables
open Function

variable {α β : Type*} [DecidableEq α] {R : α → Option β} {k k' : α} {v : Option β} {x y : β}

theorem update_some (h : update R k v k' = some x) : k' = k ∧ v = some x ∨ R k' = some x := by
  by_cases hk : k' = k
  · rw [hk, update_self] at h
    exact Or.inl ⟨hk, h⟩
  · rw [update_of_ne hk] at h
    exact Or.inr h

theorem update_none_some (h : update R k none k' = some x) : k' ≠ k ∧ R k' = some x := by
  by_cases hk : k' = k
  · rw [hk, update_self] at h
    cases h
  · rw [update_of_ne hk] at h
    exact ⟨hk, h⟩

theorem update_none_self (h : R k = none) : update R k none = R := by
  rw [← h, update_eq_self]

/-- A table that held nothing under the key holds one value more. -/
theorem update_exists_some (hk : R k = none) :
    (∃ k', update R k (some y) k' = some x) ↔ x = y ∨ ∃ k', R k' = some x := by
  constructor
  · intro ⟨k', h⟩
    rcases update_some h with ⟨-, hy⟩ | h
    · exact Or.inl (Option.some.inj hy).symm
    · exact Or.inr ⟨k', h⟩
  · intro h
    cases h with
    | inl hx => exact ⟨k, by rw [update_self, hx]⟩
    | inr h =>
      obtain ⟨k', h⟩ := h
      have hkk : k' ≠ k := fun heq => by rw [heq, hk] at h; cases h
      exact ⟨k', by rw [update_of_ne hkk]; exact h⟩

/-- A table that held a value under the key only holds it no more. -/
theorem update_exists_none (hk : R k = some y) (hinj : ∀ k', R k' = some y → k' = k) :
    (∃ k', update R k none k' = some x) ↔ x ≠ y ∧ ∃ k', R k' = some x := by
  constructor
  · intro ⟨k', h⟩
    obtain ⟨hkk, h⟩ := update_none_some h
    refine ⟨?_, k', h⟩
    intro heq
    exact hkk (hinj k' (heq ▸ h))
  · intro ⟨hne, k', h⟩
    have hkk : k' ≠ k := by
      intro heq
      rw [heq, hk] at h
      exact hne (Option.some.inj h).symm
    exact ⟨k', by rw [update_of_ne hkk]; exact h⟩

end VirtualSocket.Tables
