-- SUMMARY: Resources numbered from `lo` to `hi`, marked as taken, and held each in one slot of a table.
import Mathlib.Logic.Function.Basic

/-!
# Marked resources and their slots

A bitmap `mark` says which of the numbers from `lo` to `hi` are taken, and a table `S` says
where they are held; a slot with 0 is empty. The two agree if every number that is marked is
in exactly one slot. Marking a number and putting it into an empty slot keeps the agreement,
and so does emptying a slot and clearing the mark.
-/

namespace Slots

variable {κ : Type} {lo hi b : Nat} {mark mark' : Nat → Bool} {S S' : κ → Nat} {k k' : κ}

structure Exact (lo hi : Nat) (mark : Nat → Bool) (S : κ → Nat) : Prop where
  pos : 0 < lo
  range : ∀ k, S k ≠ 0 → lo ≤ S k ∧ S k < hi
  once : ∀ k k', S k ≠ 0 → S k = S k' → k = k'
  marked : ∀ b, lo ≤ b → b < hi → (mark b = true ↔ ∃ k, S k = b)

namespace Exact

theorem congr (h : Exact lo hi mark S) (hS : ∀ k, S' k = S k)
    (hmark : ∀ b, lo ≤ b → b < hi → mark' b = mark b) : Exact lo hi mark' S' := by
  obtain rfl : S' = S := funext hS
  exact { h with marked := fun b hlo hhi => by rw [hmark b hlo hhi]; exact h.marked b hlo hhi }

theorem ne_zero (h : Exact lo hi mark S) (hlo : lo ≤ b) : b ≠ 0 :=
  Nat.ne_of_gt (Nat.lt_of_lt_of_le h.pos hlo)

theorem mark_slot (h : Exact lo hi mark S) (hk : S k ≠ 0) : mark (S k) = true :=
  (h.marked _ (h.range k hk).1 (h.range k hk).2).mpr ⟨k, rfl⟩

/-- A number that is not marked is in no slot. -/
theorem slot_ne (h : Exact lo hi mark S) (hlo : lo ≤ b) (hhi : b < hi) (hfree : mark b = false) :
    S k ≠ b := by
  intro heq
  have := (h.marked b hlo hhi).mpr ⟨k, heq⟩
  rw [hfree] at this
  cases this

variable [DecidableEq κ]

/-- A number is marked, and put into an empty slot. -/
theorem assign (h : Exact lo hi mark S) (hlo : lo ≤ b) (hhi : b < hi) (hfree : mark b = false)
    (hk : S k = 0) (hmark : ∀ c, lo ≤ c → c < hi → mark' c = (mark c || decide (c = b))) :
    Exact lo hi mark' (Function.update S k b) := by
  refine ⟨h.pos, fun j hj => ?_, fun j j' hj heq => ?_, fun c hc hc' => ?_⟩
  · by_cases hjk : j = k
    · rw [hjk, Function.update_self]
      exact ⟨hlo, hhi⟩
    · rw [Function.update_of_ne hjk] at hj ⊢
      exact h.range j hj
  · by_cases hjk : j = k <;> by_cases hjk' : j' = k
    · rw [hjk, hjk']
    · rw [hjk, Function.update_self, Function.update_of_ne hjk'] at heq
      exact absurd heq.symm (h.slot_ne hlo hhi hfree)
    · rw [hjk', Function.update_self, Function.update_of_ne hjk] at heq
      exact absurd heq (h.slot_ne hlo hhi hfree)
    · rw [Function.update_of_ne hjk] at hj heq
      rw [Function.update_of_ne hjk'] at heq
      exact h.once j j' hj heq
  · rw [hmark c hc hc', Bool.or_eq_true, decide_eq_true_iff, h.marked c hc hc']
    constructor
    · rintro (⟨j, rfl⟩ | rfl)
      · have hjk : j ≠ k := fun heq => h.ne_zero hc (heq ▸ hk)
        exact ⟨j, by rw [Function.update_of_ne hjk]⟩
      · exact ⟨k, Function.update_self ..⟩
    · rintro ⟨j, rfl⟩
      by_cases hjk : j = k
      · right
        rw [hjk, Function.update_self]
      · left
        exact ⟨j, by rw [Function.update_of_ne hjk]⟩

end Exact

end Slots
