import Mathlib.Algebra.Order.Group.Multiset
import Mathlib.Algebra.BigOperators.Group.List.Basic

/- Sums over a list one entry of which changes. A system of many parties holds
   something if one of them does, so what all hold is a sum; a step of one party
   changes one summand. `mem_eraseIdx_or` says the same of the entries themselves. -/
namespace VirtualSocket.Sums

variable {α M : Type*} [AddCommMonoid M]

omit [AddCommMonoid M] in
/-- Without the entry at one place, the list has all its other entries. -/
theorem mem_eraseIdx_or {l : List α} {k : Nat} {x y : α} (h : l[k]? = some x) (hy : y ∈ l) :
    y = x ∨ y ∈ l.eraseIdx k := by
  obtain ⟨hk, rfl⟩ := List.getElem?_eq_some_iff.mp h
  exact List.mem_cons.mp ((List.getElem_cons_eraseIdx_perm hk).mem_iff.mpr hy)

theorem sum_map_set (f : α → M) {l : List α} {k : Nat} {x : α} (h : l[k]? = some x) (y : α) :
    ((l.set k y).map f).sum + f x = (l.map f).sum + f y := by
  induction l generalizing k with
  | nil => cases h
  | cons z l ih =>
    cases k with
    | zero =>
      obtain rfl := Option.some.inj h
      simp only [List.set_cons_zero, List.map_cons, List.sum_cons]
      rw [add_right_comm, add_comm (f y), add_right_comm]
    | succ k =>
      simp only [List.set_cons_succ, List.map_cons, List.sum_cons, add_assoc]
      rw [ih h]

theorem sum_map_eraseIdx (f : α → M) {l : List α} {k : Nat} {x : α} (h : l[k]? = some x) :
    ((l.eraseIdx k).map f).sum + f x = (l.map f).sum := by
  obtain ⟨hk, rfl⟩ := List.getElem?_eq_some_iff.mp h
  have hk' : k < (l.map f).length := by rwa [List.length_map]
  have := List.add_sum_eraseIdx hk' fun _ _ => AddCommute.all _ _
  rwa [List.getElem_map, List.eraseIdx_map, add_comm] at this

theorem mem_sum_map {β : Type*} {f : α → Multiset β} {l : List α} {b : β} :
    b ∈ (l.map f).sum ↔ ∃ a ∈ l, b ∈ f a := by
  induction l with
  | nil => simp
  | cons a l ih => simp [ih]

end VirtualSocket.Sums
