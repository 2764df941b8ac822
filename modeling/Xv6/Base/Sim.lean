-- SUMMARY: Simulation of one computation by another: related results in related states, or the same stop.
import Xv6.Base.Wp

/-!
# Simulation

Two computations on different states do the same: both return, with results and states that
are related, or both stop for the same reason. Nothing is said about the states in which they
stop.
-/

namespace Prog

variable {ε σ τ α β : Type} {f : EStateM ε σ α} {g : EStateM ε τ β} {R : α → σ → β → τ → Prop}
  {s t : σ} {s' : τ}

/-- What the rules prove of `f` holds of `g`, up to `R`. -/
def Sim (f : EStateM ε σ α) (g : EStateM ε τ β) (R : α → σ → β → τ → Prop) (s : σ) (s' : τ) : Prop :=
  ∀ Q E, wp f (fun a t => ∀ b t', R a t b t' → Q b t') (fun e _ => ∀ t', E e t') s → wp g Q E s'

theorem Sim.returns {a : α} (h : Sim f g R s s') (hf : f s = .ok a t) :
    ∃ b t', g s' = .ok b t' ∧ R a t b t' :=
  (h (R a t) (fun _ _ => False) (wp_of_eq hf fun _ _ hR => hR)).returns

/-- The rule for loops over a list: `I` speaks about the elements already done. -/
theorem Sim.forM {xs : List α} {f : α → EStateM ε σ PUnit} {g : α → EStateM ε τ PUnit}
    {I : List α → σ → τ → Prop}
    (hstep : ∀ done x rest t t', xs = done ++ x :: rest → I done t t' →
      Sim (f x) (g x) (fun _ u _ u' => I (done ++ [x]) u u') t t')
    (hinit : I [] s s') : Sim (xs.forM f) (xs.forM g) (fun _ u _ u' => I xs u u') s s' := by
  suffices h : ∀ rest done t t', xs = done ++ rest → I done t t' →
      Sim (rest.forM f) (rest.forM g) (fun _ u _ u' => I xs u u') t t' from h xs [] s s' rfl hinit
  intro rest
  induction rest with
  | nil =>
    intro done t t' hxs hI Q E h
    rw [List.append_nil] at hxs
    simp only [List.forM_eq_forM, List.forM_nil, wp_pure] at h ⊢
    exact h ⟨⟩ t' (hxs ▸ hI)
  | cons x rest ih =>
    intro done t t' hxs hI Q E h
    simp only [List.forM_eq_forM, List.forM_cons, wp_bind] at h ⊢
    refine hstep done x rest t t' hxs hI _ _ (h.imp fun _ u hu _ u' hI' => ?_)
    exact ih (done ++ [x]) u u' (by simpa using hxs) hI' Q E hu

end Prog
