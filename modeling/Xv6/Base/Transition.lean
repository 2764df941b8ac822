-- SUMMARY: Labelled transition systems: runs, reachable states, and the induction rules for invariants.
import Mathlib.Data.List.Induction

/-!
# Transition systems

A system is a step relation `step s a t` with a label `a` on every step. Runs
collect the labels, so that a property of a run may mention the steps it took,
and a condition on a run is a condition on each of its steps.
-/

namespace Sys

variable {σ α : Type} {step : σ → α → σ → Prop}

/-- `Run step s as t`: the labels `as` lead from `s` to `t`. -/
inductive Run (step : σ → α → σ → Prop) (s : σ) : List α → σ → Prop
  | nil : Run step s [] s
  | snoc {as : List α} {a : α} {t u : σ} : Run step s as t → step t a u → Run step s (as ++ [a]) u

/-- A run all of whose steps meet a condition on the state they start in and
their label. -/
inductive RunWhere (step : σ → α → σ → Prop) (C : σ → α → Prop) (s : σ) : List α → σ → Prop
  | nil : RunWhere step C s [] s
  | snoc {as : List α} {a : α} {t u : σ} :
      RunWhere step C s as t → C t a → step t a u → RunWhere step C s (as ++ [a]) u

theorem RunWhere.run {C : σ → α → Prop} {s t : σ} {as : List α}
    (h : RunWhere step C s as t) : Run step s as t := by
  induction h with
  | nil => exact .nil
  | snoc _ _ hstep ih => exact ih.snoc hstep

/-- A condition that all steps meet. -/
theorem Run.runWhere {C : σ → α → Prop} (hC : ∀ s a, C s a) {s t : σ} {as : List α}
    (h : Run step s as t) : RunWhere step C s as t := by
  induction h with
  | nil => exact .nil
  | snoc _ hstep ih => exact ih.snoc (hC _ _) hstep

/-- The steps of a run may be described more weakly. -/
theorem Run.mono {step' : σ → α → σ → Prop} {s t : σ} {as : List α}
    (h : ∀ s a t, step s a t → step' s a t) (hrun : Run step s as t) : Run step' s as t := by
  induction hrun with
  | nil => exact .nil
  | snoc _ hstep ih => exact ih.snoc (h _ _ _ hstep)

theorem Run.one {s t : σ} {a : α} (h : step s a t) : Run step s [a] t := Run.nil.snoc h

theorem Run.trans {s t u : σ} {as bs : List α} (h : Run step s as t) (h' : Run step t bs u) :
    Run step s (as ++ bs) u := by
  induction h' with
  | nil => rwa [List.append_nil]
  | snoc _ hst ih =>
    rw [← List.append_assoc]
    exact ih.snoc hst

/-- The last step of a run. -/
theorem Run.snoc_iff {s u : σ} {as : List α} {a : α} :
    Run step s (as ++ [a]) u ↔ ∃ t, Run step s as t ∧ step t a u := by
  constructor
  · intro h
    generalize hbs : as ++ [a] = bs at h
    cases h with
    | nil => simp at hbs
    | snoc hrun hst =>
      obtain ⟨rfl, heq⟩ := List.append_inj' hbs rfl
      cases heq
      exact ⟨_, hrun, hst⟩
  · rintro ⟨t, hrun, hst⟩
    exact hrun.snoc hst

/-- A run may be cut at any label. -/
theorem Run.split {s u : σ} {as bs : List α} (h : Run step s (as ++ bs) u) :
    ∃ t, Run step s as t ∧ Run step t bs u := by
  induction bs using List.reverseRecOn generalizing u with
  | nil => exact ⟨u, by simpa using h, .nil⟩
  | append_singleton bs b ih =>
    rw [← List.append_assoc] at h
    obtain ⟨t, hrun, hst⟩ := Run.snoc_iff.mp h
    obtain ⟨r, hfirst, hrest⟩ := ih hrun
    exact ⟨r, hfirst, hrest.snoc hst⟩

/-- The first step of a run. -/
theorem Run.split_cons {s u : σ} {a : α} {as : List α} (h : Run step s (a :: as) u) :
    ∃ t, step s a t ∧ Run step t as u := by
  have h : Run step s ([] ++ [a] ++ as) u := h
  obtain ⟨t, hfirst, hrest⟩ := h.split
  obtain ⟨r, hnil, hst⟩ := Run.snoc_iff.mp hfirst
  generalize hbs : ([] : List α) = bs at hnil
  cases hnil with
  | nil => exact ⟨t, hst, hrest⟩
  | snoc => simp at hbs

/-- An invariant that every step preserves holds along every run. -/
theorem Run.invariant {I : σ → Prop} {s t : σ} {as : List α}
    (hstep : ∀ t a u, I t → step t a u → I u) (hs : I s) (h : Run step s as t) : I t := by
  induction h with
  | nil => exact hs
  | snoc _ hst ih => exact hstep _ _ _ ih hst

/-- The same when the steps preserve the invariant only under the condition. -/
theorem RunWhere.invariant {C : σ → α → Prop} {I : σ → Prop} {s t : σ} {as : List α}
    (hstep : ∀ t a u, I t → C t a → step t a u → I u) (hs : I s)
    (h : RunWhere step C s as t) : I t := by
  induction h with
  | nil => exact hs
  | snoc _ hc hst ih => exact hstep _ _ _ ih hc hst

/-- Simulation of an abstract machine that follows the labels by `next`. -/
theorem Run.simulates {τ : Type} {R : σ → τ → Prop} {next : τ → α → τ} {s u : σ} {t : τ}
    {as : List α} (hstep : ∀ s a u t, R s t → step s a u → R u (next t a)) (hs : R s t)
    (h : Run step s as u) : R u (as.foldl next t) := by
  induction h with
  | nil => exact hs
  | snoc _ hst ih =>
    rw [List.foldl_append]
    exact hstep _ _ _ _ ih hst

/-- Follow the labels in a system whose steps can be computed. -/
def exec (next : σ → α → Option σ) : σ → List α → Option σ
  | s, [] => some s
  | s, a :: as => (next s a).bind fun t => exec next t as

theorem exec_run {next : σ → α → Option σ} {s u : σ} {as : List α} (h : exec next s as = some u) :
    Run (fun s a t => next s a = some t) s as u := by
  induction as generalizing s with
  | nil =>
    cases h
    exact .nil
  | cons a as ih =>
    obtain ⟨t, hfirst, hrest⟩ := Option.bind_eq_some_iff.mp h
    exact (Run.one hfirst).trans (ih hrest)

/-- A check of the state that the labels lead to. -/
theorem exists_of_any {o : Option σ} {P : σ → Bool} (h : o.any P = true) :
    ∃ s, o = some s ∧ P s = true := by
  cases o with
  | none => cases h
  | some s => exact ⟨s, rfl, h⟩

/-- Runs under a condition can be computed as well. -/
theorem exec_runWhere {next : σ → α → Option σ} {C : σ → α → Prop} [∀ s a, Decidable (C s a)]
    {s u : σ} {as : List α} (h : exec (fun s a => if C s a then next s a else none) s as = some u) :
    RunWhere (fun s a t => next s a = some t) C s as u := by
  have hrun := exec_run h
  clear h
  induction hrun with
  | nil => exact .nil
  | snoc _ hst ih =>
    split at hst
    · next hc => exact ih.snoc hc hst
    · cases hst

/-- Steps that may also stop with an error can be computed by leaving the errors out. -/
theorem eq_ok_of_toOption {ε : Type} {o : Option (Except ε σ)} {s : σ}
    (h : o.bind Except.toOption = some s) : o = some (.ok s) := by
  obtain ⟨res, rfl, hok⟩ := Option.bind_eq_some_iff.mp h
  cases res with
  | error e => cases hok
  | ok t =>
    cases hok
    rfl

/-! ## Visible steps -/

variable {ε τ : Type}

/-- What the steps emit along the labels, if `out` is what one step emits. -/
def emitted (next : σ → α → Option σ) (out : σ → α → Option ε) : σ → List α → List ε
  | _, [] => []
  | s, a :: as => (out s a).toList ++ (next s a).elim [] fun t => emitted next out t as

theorem emitted_snoc {next : σ → α → Option σ} {out : σ → α → Option ε} {s t : σ} {as : List α} {a : α}
    (h : Run (fun s a t => next s a = some t) s as t) :
    emitted next out s (as ++ [a]) = emitted next out s as ++ (out t a).toList := by
  induction as generalizing s with
  | nil =>
    generalize hbs : ([] : List α) = bs at h
    cases h with
    | nil => cases hnext : next t a <;> simp [emitted, hnext]
    | snoc => simp at hbs
  | cons b bs ih =>
    obtain ⟨u, hfirst, hrest⟩ := h.split_cons
    simp [emitted, hfirst, ih hrest]

/-- Refinement of a system whose steps the emitted events name; the others change nothing that
`f` shows. -/
theorem Run.refines {next : σ → α → Option σ} {out : σ → α → Option ε} {step' : τ → ε → τ → Prop}
    {f : σ → τ} {I : σ → Prop} {s t : σ} {as : List α}
    (hinv : ∀ s a t, I s → next s a = some t → I t)
    (hsilent : ∀ s a t, I s → next s a = some t → out s a = none → f t = f s)
    (hevent : ∀ s a t e, I s → next s a = some t → out s a = some e → step' (f s) e (f t)) (hs : I s)
    (h : Run (fun s a t => next s a = some t) s as t) : Run step' (f s) (emitted next out s as) (f t) := by
  induction h with
  | nil => exact .nil
  | @snoc as a t u hrun hst ih =>
    have ht : I t := hrun.invariant hinv hs
    rw [emitted_snoc hrun]
    cases hout : out t a with
    | none => simpa [hsilent t a u ht hst hout] using ih
    | some e => exact ih.snoc (hevent t a u e ht hst hout)

end Sys
