import Mathlib.Algebra.BigOperators.Group.List.Basic
import Mathlib.Algebra.Ring.Nat
import VirtualSocket.Lib.Transition

/- Work that is left in a state, and runs that use it up. `exec_budget` balances a
   run: what its steps spend is paid for by what some of them bring in and by what
   was there at the start. Of steps that all bring the measure down, there are no
   more than it says (`exec_length`), and they can be taken until none of them is
   enabled (`exec_exhausted`). -/
namespace VirtualSocket.Transition

variable {σ α : Type*} {step : σ → α → Option σ} {Inv : σ → Prop} {work : σ → Nat}

/-- What is spent along a run, with what is left, is no more than what was there and what came in. -/
theorem exec_budget {spend gain : α → Nat} (hinv : ∀ s a s', Inv s → step s a = some s' → Inv s')
    (hpay : ∀ s a s', Inv s → step s a = some s' → work s' + spend a ≤ work s + gain a) {s t : σ} {as : List α}
    (hs : Inv s) (h : exec step s as = some t) :
    work t + (as.map spend).sum ≤ work s + (as.map gain).sum := by
  induction as generalizing s with
  | nil =>
    cases h
    exact Nat.le_refl _
  | cons a as ih =>
    obtain ⟨s', h1, h2⟩ := exec_cons.mp h
    have hstep := hpay s a s' hs h1
    have hrest := ih (hinv s a s' hs h1) h2
    rw [List.map_cons, List.map_cons, List.sum_cons, List.sum_cons]
    omega

/-- A run of steps that bring the measure down is no longer than the measure. -/
theorem exec_length {P : α → Prop} (hinv : ∀ s a s', Inv s → step s a = some s' → Inv s')
    (hdown : ∀ s a s', Inv s → P a → step s a = some s' → work s' < work s) {s t : σ} {as : List α}
    (hs : Inv s) (hP : ∀ a ∈ as, P a) (h : exec step s as = some t) : work t + as.length ≤ work s := by
  induction as generalizing s with
  | nil =>
    cases h
    exact Nat.le_refl _
  | cons a as ih =>
    obtain ⟨s', h1, h2⟩ := exec_cons.mp h
    obtain ⟨ha, has⟩ := List.forall_mem_cons.mp hP
    have hlt := hdown s a s' hs ha h1
    have hrest := ih (hinv s a s' hs h1) has h2
    rw [List.length_cons]
    omega

/-- Steps that bring the measure down lead to a state where none of them is enabled. -/
theorem exec_exhausted {P : α → Prop} (hinv : ∀ s a s', Inv s → step s a = some s' → Inv s')
    (hdown : ∀ s a s', Inv s → P a → step s a = some s' → work s' < work s) {s : σ} (hs : Inv s) :
    ∃ as t, (∀ a ∈ as, P a) ∧ exec step s as = some t ∧ ∀ a, P a → step t a = none := by
  -- the induction is on the measure, so the run need not be bounded beforehand
  induction hn : work s using Nat.strongRecOn generalizing s with
  | _ n ih =>
    by_cases hdone : ∀ a, P a → step s a = none
    · exact ⟨[], s, by simp, rfl, hdone⟩
    · simp only [not_forall] at hdone
      obtain ⟨a, hP, hstep⟩ := hdone
      obtain ⟨s', hs'⟩ := Option.ne_none_iff_exists'.mp hstep
      have hlt : work s' < n := hn ▸ hdown s a s' hs hP hs'
      obtain ⟨as, t, hall, hrun, hend⟩ := ih (work s') hlt (hinv s a s' hs hs') rfl
      refine ⟨a :: as, t, ?_, exec_cons.mpr ⟨s', hs', hrun⟩, hend⟩
      intro b hb
      rcases List.mem_cons.mp hb with rfl | hb
      · exact hP
      · exact hall b hb

end VirtualSocket.Transition
