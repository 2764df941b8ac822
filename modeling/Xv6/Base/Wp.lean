-- SUMMARY: Weakest preconditions of stateful computations that may stop early, with their derived rules.
import Mathlib.Logic.Basic

/-!
# Weakest preconditions

A computation `m : EStateM ε σ α` either returns a value in a new state or stops
with an error, and it keeps the state in which it stopped. `wp m Q E s` says
that run from `s` it returns in a state satisfying `Q`, or stops in a state
satisfying `E`. Partial correctness takes `E` to be true, and safety takes it to
be false.
-/

namespace Prog

variable {ε σ α β : Type}

/-- Every outcome of `m` from `s` satisfies `Q` if it returns and `E` if it stops. -/
def wp (m : EStateM ε σ α) (Q : α → σ → Prop) (E : ε → σ → Prop) (s : σ) : Prop :=
  match m s with
  | .ok a s' => Q a s'
  | .error e s' => E e s'

variable {Q Q' : α → σ → Prop} {E E' : ε → σ → Prop} {s : σ}

@[simp] theorem wp_pure {a : α} : wp (pure a : EStateM ε σ α) Q E s ↔ Q a s := Iff.rfl

@[simp] theorem wp_bind {m : EStateM ε σ β} {f : β → EStateM ε σ α} :
    wp (m >>= f) Q E s ↔ wp m (fun b s' => wp (f b) Q E s') E s := by
  simp only [wp, bind, EStateM.bind]
  cases m s <;> rfl

@[simp] theorem wp_map {m : EStateM ε σ β} {f : β → α} :
    wp (f <$> m) Q E s ↔ wp m (fun b s' => Q (f b) s') E s := by
  simp only [wp, Functor.map, EStateM.map]
  cases m s <;> rfl

@[simp] theorem wp_get {Q : σ → σ → Prop} : wp (get : EStateM ε σ σ) Q E s ↔ Q s s := Iff.rfl

@[simp] theorem wp_set {t : σ} {Q : PUnit → σ → Prop} :
    wp (set t : EStateM ε σ PUnit) Q E s ↔ Q ⟨⟩ t := Iff.rfl

@[simp] theorem wp_modify {f : σ → σ} {Q : PUnit → σ → Prop} :
    wp (modify f : EStateM ε σ PUnit) Q E s ↔ Q ⟨⟩ (f s) := Iff.rfl

@[simp] theorem wp_throw {e : ε} : wp (throw e : EStateM ε σ α) Q E s ↔ E e s := Iff.rfl

theorem wp_ite {c : Prop} [Decidable c] {m n : EStateM ε σ α} :
    wp (if c then m else n) Q E s ↔ (c → wp m Q E s) ∧ (¬ c → wp n Q E s) := by
  split <;> simp_all

/-- Conditions may be weakened on both outcomes. -/
theorem wp.mono {m : EStateM ε σ α} (h : wp m Q E s)
    (hQ : ∀ a t, Q a t → Q' a t) (hE : ∀ e t, E e t → E' e t) : wp m Q' E' s := by
  unfold wp at h ⊢
  cases hm : m s with
  | ok a t => rw [hm] at h; exact hQ a t h
  | error e t => rw [hm] at h; exact hE e t h

/-- Weakening of the normal outcome alone. -/
theorem wp.imp {m : EStateM ε σ α} (h : wp m Q E s) (hQ : ∀ a t, Q a t → Q' a t) :
    wp m Q' E s :=
  h.mono hQ (fun _ _ he => he)

/-- A run that does not stop meets every condition on stopping. -/
theorem wp.total {m : EStateM ε σ α} (h : wp m Q (fun _ _ => False) s)
    (hQ : ∀ a t, Q a t → Q' a t) : wp m Q' E s :=
  h.mono hQ (fun _ _ hf => hf.elim)

/-- Both facts about the same run hold together. -/
theorem wp.and {m : EStateM ε σ α} (h : wp m Q E s) (h' : wp m Q' E' s) :
    wp m (fun a t => Q a t ∧ Q' a t) (fun e t => E e t ∧ E' e t) s := by
  unfold wp at h h' ⊢
  cases hm : m s with
  | ok a t => rw [hm] at h h'; exact ⟨h, h'⟩
  | error e t => rw [hm] at h h'; exact ⟨h, h'⟩

/-- A fact about runs that return is added to a rule. -/
theorem wp.also {m : EStateM ε σ α} (h : wp m Q E s) (h' : wp m Q' (fun _ _ => True) s) :
    wp m (fun a t => Q a t ∧ Q' a t) E s :=
  (h.and h').mono (fun _ _ hpost => hpost) fun _ _ hstop => hstop.1

/-- What the rules prove of a run that returned. -/
theorem wp.of_ok {m : EStateM ε σ α} {a : α} {t : σ} (h : wp m Q E s) (hm : m s = .ok a t) :
    Q a t := by
  unfold wp at h
  rw [hm] at h
  exact h

theorem wp_of_eq {m : EStateM ε σ α} {a : α} {t : σ} (hm : m s = .ok a t) (h : Q a t) : wp m Q E s := by
  unfold wp
  rw [hm]
  exact h

theorem wp_true (m : EStateM ε σ α) : wp m (fun _ _ => True) (fun _ _ => True) s := by
  unfold wp
  split <;> trivial

/-- A run that may not stop returns. -/
theorem wp.returns {m : EStateM ε σ α} (h : wp m Q (fun _ _ => False) s) :
    ∃ a t, m s = .ok a t ∧ Q a t := by
  unfold wp at h
  cases hm : m s with
  | ok a t => rw [hm] at h; exact ⟨a, t, rfl, h⟩
  | error e t => rw [hm] at h; exact h.elim

/-- A run that may not return stops. -/
theorem wp.stops {m : EStateM ε σ α} (h : wp m (fun _ _ => False) E s) :
    ∃ e t, m s = .error e t ∧ E e t := by
  unfold wp at h
  cases hm : m s with
  | ok a t => rw [hm] at h; exact h.elim
  | error e t => rw [hm] at h; exact ⟨e, t, rfl, h⟩

/-- A sequence returns if both parts do. -/
theorem bind_eq_ok {m : EStateM ε σ β} {f : β → EStateM ε σ α} {a : α} {t : σ} :
    (m >>= f) s = .ok a t ↔ ∃ b u, m s = .ok b u ∧ f b u = .ok a t := by
  simp only [bind, EStateM.bind]
  cases m s with
  | ok b u =>
    constructor
    · exact fun h => ⟨b, u, rfl, h⟩
    · rintro ⟨_, _, heq, h⟩
      cases heq
      exact h
  | error e u => simp

/-- The state a run ends in, whether it returns or stops. -/
def final (m : EStateM ε σ α) (s : σ) : σ :=
  match m s with
  | .ok _ t => t
  | .error _ t => t

theorem wp.final {m : EStateM ε σ α} {P : σ → Prop} (h : wp m (fun _ => P) (fun _ => P) s) :
    P (final m s) := by
  unfold wp at h
  unfold Prog.final
  cases hm : m s with
  | ok a t => rw [hm] at h; exact h
  | error e t => rw [hm] at h; exact h

/-- Stop with `e` when the condition holds. -/
def stopIf (c : Prop) [Decidable c] (e : ε) : EStateM ε σ PUnit :=
  if c then throw e else pure ⟨⟩

@[simp] theorem wp_stopIf {c : Prop} [Decidable c] {e : ε} {Q : PUnit → σ → Prop} :
    wp (stopIf c e) Q E s ↔ (c → E e s) ∧ (¬ c → Q ⟨⟩ s) := by
  simp only [stopIf, wp_ite, wp_throw, wp_pure]

/-- The rule for a loop over a list: `I` speaks about the elements already done. -/
theorem wp_forM {xs : List β} {f : β → EStateM ε σ PUnit} {I : List β → σ → Prop}
    (hstep : ∀ done x rest t, xs = done ++ x :: rest → I done t →
      wp (f x) (fun _ => I (done ++ [x])) E t)
    (hinit : I [] s) : wp (xs.forM f) (fun _ => I xs) E s := by
  -- Generalise over the part already done, and induct on what remains.
  suffices h : ∀ rest done t, xs = done ++ rest → I done t →
      wp (rest.forM f) (fun _ => I xs) E t from h xs [] s rfl hinit
  intro rest
  induction rest with
  | nil =>
    intro done t hxs hI
    have : done = xs := by simpa using hxs.symm
    subst this
    exact hI
  | cons x rest ih =>
    intro done t hxs hI
    simp only [List.forM_eq_forM, List.forM_cons, wp_bind]
    refine (hstep done x rest t hxs hI).imp fun _ t' hI' => ?_
    exact ih (done ++ [x]) t' (by simpa using hxs) hI'

-- From here on the rules are the interface. Unfolding would run the computation.
attribute [irreducible] wp final

/-! ## Parts of a state -/

/-- A computation on a part of the state, within one on all of it. -/
def zoom {ε' σ' : Type} (part : σ' → σ) (put : σ' → σ → σ') (wrap : ε → ε') (m : EStateM ε σ α) :
    EStateM ε' σ' α := fun s =>
  match m (part s) with
  | .ok a t => .ok a (put s t)
  | .error e t => .error (wrap e) (put s t)

@[simp] theorem wp_zoom {ε' σ' : Type} {part : σ' → σ} {put : σ' → σ → σ'} {wrap : ε → ε'}
    {m : EStateM ε σ α} {Q : α → σ' → Prop} {E : ε' → σ' → Prop} {s : σ'} :
    wp (zoom part put wrap m) Q E s ↔
      wp m (fun a t => Q a (put s t)) (fun e t => E (wrap e) (put s t)) (part s) := by
  simp only [wp, zoom]
  cases m (part s) <;> rfl

end Prog
