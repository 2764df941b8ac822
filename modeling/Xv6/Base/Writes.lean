-- SUMMARY: Sequences of writes to a map, and when replaying one makes the earlier contents irrelevant.
import Mathlib.Logic.Function.Basic
import Mathlib.Data.List.Basic

/-!
# Write sequences

A device is a map from keys to values, and a program writes to it one key at a
time. `apply ws d` is the map after the writes `ws`, in order.
-/

namespace Writes

variable {κ β : Type} [DecidableEq κ]

def apply : List (κ × β) → (κ → β) → κ → β
  | [], d => d
  | (k, v) :: ws, d => apply ws (Function.update d k v)

@[simp] theorem apply_nil (d : κ → β) : apply [] d = d := rfl

@[simp] theorem apply_cons (k : κ) (v : β) (ws : List (κ × β)) (d : κ → β) :
    apply ((k, v) :: ws) d = apply ws (Function.update d k v) := rfl

theorem apply_append (ws ws' : List (κ × β)) (d : κ → β) :
    apply (ws ++ ws') d = apply ws' (apply ws d) := by
  induction ws generalizing d with
  | nil => rfl
  | cons w ws ih => obtain ⟨k, v⟩ := w; simp [ih]

@[simp] theorem apply_snoc (ws : List (κ × β)) (k : κ) (v : β) (d : κ → β) :
    apply (ws ++ [(k, v)]) d = Function.update (apply ws d) k v := by
  simp [apply_append]

/-- A key that is not written keeps its value. -/
theorem apply_of_not_mem {ws : List (κ × β)} {d : κ → β} {k : κ} (h : k ∉ ws.map Prod.fst) :
    apply ws d k = d k := by
  induction ws generalizing d with
  | nil => rfl
  | cons w ws ih =>
    obtain ⟨k', v⟩ := w
    simp only [List.map_cons, List.mem_cons, not_or] at h
    rw [apply_cons, ih h.2, Function.update_of_ne h.1]

/-- The value at a key depends on the old map only if the key is not written. -/
theorem apply_congr {ws : List (κ × β)} {d d' : κ → β} {k : κ}
    (h : k ∉ ws.map Prod.fst → d k = d' k) : apply ws d k = apply ws d' k := by
  induction ws generalizing d d' with
  | nil => exact h (by simp)
  | cons w ws ih =>
    obtain ⟨k', v⟩ := w
    simp only [apply_cons]
    apply ih
    intro hk
    by_cases hkk : k = k'
    · subst hkk; simp
    · rw [Function.update_of_ne hkk, Function.update_of_ne hkk]
      exact h (by simp [hkk, hk])

/-- Replaying all of `ws` erases the effect of earlier writes to the same keys. -/
theorem apply_redo {ws ws' : List (κ × β)} {d : κ → β}
    (h : ∀ k ∈ ws'.map Prod.fst, k ∈ ws.map Prod.fst) :
    apply ws (apply ws' d) = apply ws d := by
  funext k
  apply apply_congr
  intro hk
  exact apply_of_not_mem fun hk' => hk (h k hk')

/-- With distinct keys, each key ends up with the value written to it. -/
theorem apply_of_mem {ws : List (κ × β)} {d : κ → β} {k : κ} {v : β}
    (hnd : (ws.map Prod.fst).Nodup) (h : (k, v) ∈ ws) : apply ws d k = v := by
  induction ws generalizing d with
  | nil => simp at h
  | cons w ws ih =>
    obtain ⟨k', v'⟩ := w
    simp only [List.map_cons, List.nodup_cons] at hnd
    simp only [List.mem_cons, Prod.mk.injEq] at h
    rcases h with ⟨rfl, rfl⟩ | h
    · rw [apply_cons, apply_of_not_mem hnd.1, Function.update_self]
    · exact ih hnd.2 h

/-- Writing back values a map already has changes nothing. -/
theorem apply_same {ws : List (κ × β)} {d : κ → β} (h : ∀ w ∈ ws, d w.1 = w.2) :
    apply ws d = d := by
  induction ws with
  | nil => rfl
  | cons w ws ih =>
    obtain ⟨k, v⟩ := w
    have hk : d k = v := h (k, v) (by simp)
    rw [apply_cons, ← hk, Function.update_eq_self]
    exact ih fun w hw => h w (by simp [hw])

/-- A prefix of two parts ends in the first part, or contains it. -/
theorem prefix_append_cases {α : Type} {p xs ys : List α} (h : p <+: xs ++ ys) :
    p <+: xs ∨ ∃ q, p = xs ++ q ∧ q <+: ys := by
  rcases List.prefix_or_prefix_of_prefix h (List.prefix_append xs ys) with hp | ⟨q, rfl⟩
  · exact .inl hp
  · exact .inr ⟨q, rfl, (List.prefix_append_right_inj xs).mp h⟩

end Writes
