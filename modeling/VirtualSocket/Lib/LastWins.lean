import Mathlib.Logic.Basic

/- Folds in which later elements win. Of a state that is written by the elements of one
   kind and left alone by the others, a fold shows what the last element of the kind
   has written (`foldl_last`), and before the first of them what was there at the
   start (`foldl_kept`). -/
namespace VirtualSocket.LastWins

variable {α β σ : Type*} {P : α → Prop} {l before : List α} {a : α}

/-- `a`, behind `before`, is the last element that meets `P`. -/
def LastWhere (P : α → Prop) (l before : List α) (a : α) : Prop :=
  ∃ after, l = before ++ a :: after ∧ P a ∧ ∀ x ∈ after, ¬ P x

theorem LastWhere.mem (h : LastWhere P l before a) : a ∈ l := by
  obtain ⟨after, rfl, -⟩ := h
  exact List.mem_append_right _ List.mem_cons_self

theorem exists_lastWhere (h : ∃ a ∈ l, P a) : ∃ before a, LastWhere P l before a := by
  induction l with
  | nil =>
    obtain ⟨a, ha, -⟩ := h
    cases ha
  | cons b l ih =>
    by_cases hl : ∃ a ∈ l, P a
    · obtain ⟨before, a, after, rfl, hrest⟩ := ih hl
      exact ⟨b :: before, a, after, rfl, hrest⟩
    · obtain ⟨a, ha, hP⟩ := h
      rcases List.mem_cons.mp ha with rfl | ha
      · exact ⟨[], a, l, rfl, hP, fun x hx hPx => hl ⟨x, hx, hPx⟩⟩
      · exact absurd ⟨a, ha, hP⟩ hl

section
variable {step : σ → α → σ} (get : σ → β) {val : α → β}

/-- Elements that write nothing leave the value. -/
theorem foldl_kept (hkeep : ∀ s a, ¬ P a → get (step s a) = get s) (h : ∀ a ∈ l, ¬ P a) (s : σ) :
    get (l.foldl step s) = get s := by
  induction l generalizing s with
  | nil => rfl
  | cons a l ih =>
    obtain ⟨ha, hl⟩ := List.forall_mem_cons.mp h
    rw [List.foldl_cons, ih hl, hkeep s a ha]

/-- Behind the last one that writes, its value is there to stay. -/
theorem foldl_last (hkeep : ∀ s a, ¬ P a → get (step s a) = get s) (hwrite : ∀ s a, P a → get (step s a) = val a)
    (h : LastWhere P l before a) (s : σ) : get (l.foldl step s) = val a := by
  obtain ⟨after, rfl, ha, hafter⟩ := h
  rw [List.foldl_append, List.foldl_cons, foldl_kept get hkeep hafter, hwrite _ a ha]

end

end VirtualSocket.LastWins
