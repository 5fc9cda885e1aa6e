import Mathlib.Data.List.Forall2

/- Runs of a partial step function. `exec` runs a list of actions from left to
   right and stops at the first that is not enabled. These rules carry the runs
   of this development: `exec_invariant` (a predicate each step preserves holds
   at the end), `exec_invariant_along` (the same for runs whose every step meets
   a condition, `exec_iff_along` where the condition is exact, and `along_congr` for
   two conditions that come to the same), `exec_congr` (actions that no step tells
   apart make the same runs), and `exec_purge` (an unwinding rule for two runs: the steps to keep are matched by
   the second run, the others leave the relation to it as it was, so the second
   run is the first with those steps left out). -/
namespace VirtualSocket.Transition

variable {σ α : Type*} {step : σ → α → Option σ}

/-- The state after a list of actions, when each is enabled in its turn. -/
def exec (step : σ → α → Option σ) (s : σ) : List α → Option σ
  | [] => some s
  | a :: as => (step s a).bind fun s' => exec step s' as

/-- Every step of the run from `s` meets `P`. -/
def Along (step : σ → α → Option σ) (P : σ → α → Prop) (s : σ) : List α → Prop
  | [] => True
  | a :: as => P s a ∧ ∀ s', step s a = some s' → Along step P s' as

instance Along.decidable (P : σ → α → Prop) [∀ s a, Decidable (P s a)] :
    (s : σ) → (as : List α) → Decidable (Along step P s as)
  | _, [] => inferInstanceAs (Decidable True)
  | s, a :: as =>
    match h : step s a with
    | none => decidable_of_iff (P s a) (by simp [Along, h])
    | some s' =>
      have := Along.decidable P s' as
      decidable_of_iff (P s a ∧ Along step P s' as) (by simp [Along, h])

theorem exec_cons {s t : σ} {a : α} {as : List α} :
    exec step s (a :: as) = some t ↔ ∃ s', step s a = some s' ∧ exec step s' as = some t :=
  Option.bind_eq_some_iff

theorem exec_concat {s t u : σ} {as : List α} {a : α} (h : exec step s as = some t) (ha : step t a = some u) :
    exec step s (as ++ [a]) = some u := by
  induction as generalizing s with
  | nil =>
    cases h
    exact exec_cons.mpr ⟨u, ha, rfl⟩
  | cons b as ih =>
    obtain ⟨s', h1, h2⟩ := exec_cons.mp h
    exact exec_cons.mpr ⟨s', h1, ih h2⟩

/-- A predicate that every step meeting `P` preserves holds after a run of such steps. -/
theorem exec_invariant_along {Inv : σ → Prop} {P : σ → α → Prop}
    (hstep : ∀ s a s', Inv s → P s a → step s a = some s' → Inv s') {s t : σ} {as : List α}
    (hs : Inv s) (hP : Along step P s as) (h : exec step s as = some t) : Inv t := by
  induction as generalizing s with
  | nil => cases h; exact hs
  | cons a as ih =>
    obtain ⟨s', h1, h2⟩ := exec_cons.mp h
    exact ih (hstep s a s' hs hP.1 h1) (hP.2 s' h1) h2

theorem along_of_forall {P : σ → α → Prop} (hP : ∀ s a, P s a) (s : σ) (as : List α) :
    Along step P s as := by
  induction as generalizing s with
  | nil => trivial
  | cons a as ih => exact ⟨hP s a, fun s' _ => ih s'⟩

/-- A predicate that every step preserves holds after every run. -/
theorem exec_invariant {Inv : σ → Prop} (hstep : ∀ s a s', Inv s → step s a = some s' → Inv s')
    {s t : σ} {as : List α} (hs : Inv s) (h : exec step s as = some t) : Inv t :=
  exec_invariant_along (P := fun _ _ => True) (fun s a s' hi _ => hstep s a s' hi) hs
    (along_of_forall (fun _ _ => trivial) s as) h

/-- A predicate that every step of a kind preserves holds after a run of such steps. -/
theorem exec_invariant_of {Inv : σ → Prop} {Q : α → Prop}
    (hstep : ∀ s a s', Inv s → Q a → step s a = some s' → Inv s') {s t : σ} {as : List α} (hs : Inv s)
    (hQ : ∀ a ∈ as, Q a) (h : exec step s as = some t) : Inv t := by
  induction as generalizing s with
  | nil =>
    cases h
    exact hs
  | cons a as ih =>
    obtain ⟨s', h1, h2⟩ := exec_cons.mp h
    obtain ⟨ha, has⟩ := List.forall_mem_cons.mp hQ
    exact ih (hstep s a s' hs ha h1) has h2

/-- What a step establishes exactly when it meets `P`, a run establishes exactly when all
its steps do. -/
theorem exec_iff_along {Inv Good : σ → Prop} {P : σ → α → Prop}
    (hinv : ∀ s a s', Inv s → step s a = some s' → Inv s')
    (hgood : ∀ s a s', Inv s → step s a = some s' → (Good s' ↔ Good s ∧ P s a)) {s t : σ} {as : List α}
    (hs : Inv s) (h : exec step s as = some t) : Good t ↔ Good s ∧ Along step P s as := by
  induction as generalizing s with
  | nil =>
    cases h
    exact ⟨fun hg => ⟨hg, trivial⟩, fun hg => hg.1⟩
  | cons a as ih =>
    obtain ⟨s', h1, h2⟩ := exec_cons.mp h
    rw [ih (hinv s a s' hs h1) h2, hgood s a s' hs h1]
    constructor
    · intro ⟨⟨hg, hp⟩, halong⟩
      refine ⟨hg, hp, ?_⟩
      intro s'' h''
      obtain rfl := Option.some.inj (h1.symm.trans h'')
      exact halong
    · intro ⟨hg, hp, halong⟩
      exact ⟨⟨hg, hp⟩, halong s' h1⟩

/-- Two conditions that agree wherever the invariant holds are met along the same runs. -/
theorem along_congr {Inv : σ → Prop} {P Q : σ → α → Prop} (hinv : ∀ s a s', Inv s → step s a = some s' → Inv s')
    (hPQ : ∀ s a, Inv s → (P s a ↔ Q s a)) {s : σ} (hs : Inv s) (as : List α) :
    Along step P s as ↔ Along step Q s as := by
  induction as generalizing s with
  | nil => exact Iff.rfl
  | cons a as ih =>
    apply and_congr (hPQ s a hs)
    constructor
    · intro h s' hstep
      exact (ih (hinv s a s' hs hstep)).mp (h s' hstep)
    · intro h s' hstep
      exact (ih (hinv s a s' hs hstep)).mpr (h s' hstep)

/-- Actions that no step tells apart make the same runs. -/
theorem exec_congr {R : α → α → Prop} (hstep : ∀ s a a', R a a' → step s a = step s a') (s : σ) {as as' : List α}
    (h : List.Forall₂ R as as') : exec step s as = exec step s as' := by
  induction h generalizing s with
  | nil => rfl
  | cons ha _ ih =>
    unfold exec
    rw [hstep s _ _ ha]
    exact congrArg _ (funext ih)

/-! ## Leaving steps out -/

/-- The actions of the run from `s` that are kept where they are taken. -/
def purge (step : σ → α → Option σ) (keep : σ → α → Bool) (s : σ) : List α → List α
  | [] => []
  | a :: as =>
    match step s a with
    | none => []
    | some s' => if keep s a then a :: purge step keep s' as else purge step keep s' as

/-- Unwinding: if kept steps are matched and the others are not seen, the purged
run is enabled and ends in a related state. -/
theorem exec_purge {R : σ → σ → Prop} {keep : σ → α → Bool}
    (hkeep : ∀ s t a s', R s t → keep s a = true → step s a = some s' → ∃ t', step t a = some t' ∧ R s' t')
    (hdrop : ∀ s t a s', R s t → keep s a = false → step s a = some s' → R s' t)
    {s t s' : σ} {as : List α} (hR : R s t) (h : exec step s as = some s') :
    ∃ t', exec step t (purge step keep s as) = some t' ∧ R s' t' := by
  induction as generalizing s t with
  | nil => cases h; exact ⟨t, rfl, hR⟩
  | cons a as ih =>
    obtain ⟨s1, h1, h2⟩ := exec_cons.mp h
    unfold purge
    simp only [h1]
    by_cases hk : keep s a = true
    · obtain ⟨t1, h3, hR1⟩ := hkeep s t a s1 hR hk h1
      obtain ⟨t', h4, hR'⟩ := ih hR1 h2
      exact ⟨t', by rw [if_pos hk]; exact exec_cons.mpr ⟨t1, h3, h4⟩, hR'⟩
    · rw [if_neg hk]
      exact ih (hdrop s t a s1 hR (Bool.eq_false_iff.mpr hk) h1) h2

end VirtualSocket.Transition
