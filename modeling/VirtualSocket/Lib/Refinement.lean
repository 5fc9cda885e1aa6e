import VirtualSocket.Lib.Transition

/- Refinement of a relation by a program. `Reaches` is what a labelled step relation
   can come to, with the labels so far, newest first; a step may depend on them.
   `Reaches.invariant` is its induction rule, and `exec_refines` the simulation rule:
   if each step of the program is matched by one of the relation, each run is. -/
namespace VirtualSocket.Refinement

variable {σ τ α β : Type*} {R : List β → τ → β → τ → Prop} {t t' : τ} {log : List β}

inductive Reaches (R : List β → τ → β → τ → Prop) (init : τ) : List β → τ → Prop
  | start : Reaches R init [] init
  | step {log t b t'} (h : Reaches R init log t) (hr : R log t b t') : Reaches R init (b :: log) t'

/-- What holds at the start and is kept by each step holds of all that is reached. -/
theorem Reaches.invariant {Inv : List β → τ → Prop} (hinit : Inv [] t)
    (hstep : ∀ log s b s', Inv log s → R log s b s' → Inv (b :: log) s') (h : Reaches R t log t') : Inv log t' := by
  induction h with
  | start => exact hinit
  | step _ hr ih => exact hstep _ _ _ _ ih hr

/-- Every run of the program has a run of the relation beside it. -/
theorem exec_refines {step : σ → α → Option σ} {Rel : σ → List β → τ → Prop}
    (hstep : ∀ s a s' log t, Rel s log t → step s a = some s' → ∃ b t', R log t b t' ∧ Rel s' (b :: log) t')
    {s s' : σ} {as : List α} (hinit : Rel s [] t) (h : Transition.exec step s as = some s') :
    ∃ log t', Reaches R t log t' ∧ Rel s' log t' := by
  have hinv : ∀ s a s', (∃ log t', Reaches R t log t' ∧ Rel s log t') → step s a = some s' →
      ∃ log t', Reaches R t log t' ∧ Rel s' log t' := by
    intro s a s' ⟨log, t', hreach, hrel⟩ hs
    obtain ⟨b, t'', hr, hrel'⟩ := hstep s a s' log t' hrel hs
    exact ⟨b :: log, t'', .step hreach hr, hrel'⟩
  exact Transition.exec_invariant hinv ⟨[], t, .start, hinit⟩ h

end VirtualSocket.Refinement
