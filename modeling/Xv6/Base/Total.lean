-- SUMMARY: Sums of a weight over all processes, and how they change when one process moves.
import Mathlib.Algebra.BigOperators.Group.Finset.Piecewise
import Mathlib.Algebra.Order.BigOperators.Group.Finset
import Mathlib.Algebra.BigOperators.Ring.Finset
import Mathlib.Algebra.Order.Ring.Int
import Mathlib.Tactic.Abel

/-!
# Totals over a finite family

`total g f` adds the weights `g (f i)` of a finite family. An invariant that counts
the members of a system, or adds up what each of them has reserved, is a statement
about such a total.
-/

namespace Sys

/-- A sum changes where the family does. -/
theorem sum_update {ι α M : Type} [Fintype ι] [DecidableEq ι] [AddCommMonoid M] (f : ι → α)
    (g : α → M) (i : ι) (x : α) :
    ∑ j, g (Function.update f i x j) + g (f i) = ∑ j, g (f j) + g x := by
  rw [← Finset.add_sum_erase _ _ (Finset.mem_univ i),
    ← Finset.add_sum_erase _ (fun j => g (f j)) (Finset.mem_univ i), Function.update_self]
  have hrest : ∑ j ∈ Finset.univ.erase i, g (Function.update f i x j)
      = ∑ j ∈ Finset.univ.erase i, g (f j) := by
    refine Finset.sum_congr rfl fun j hj => ?_
    rw [Function.update_of_ne (Finset.ne_of_mem_erase hj)]
  rw [hrest]
  abel

variable {ι α : Type} [Fintype ι] {g : α → Int} {f : ι → α} {i : ι} {x : α}

def total (g : α → Int) (f : ι → α) : Int := ∑ i, g (f i)

theorem total_update [DecidableEq ι] :
    total g (Function.update f i x) = total g f - g (f i) + g x := by
  have hsum := sum_update f g i x
  simp only [total]
  omega

theorem total_nonneg (h : ∀ x, 0 ≤ g x) : 0 ≤ total g f := Finset.sum_nonneg fun i _ => h (f i)

/-- One member weighs no more than all. -/
theorem le_total (h : ∀ x, 0 ≤ g x) (i : ι) : g (f i) ≤ total g f :=
  Finset.single_le_sum (fun j _ => h (f j)) (Finset.mem_univ i)

/-- Two members weigh no more than all. -/
theorem add_le_total [DecidableEq ι] {j : ι} (h : ∀ x, 0 ≤ g x) (hij : i ≠ j) :
    g (f i) + g (f j) ≤ total g f := by
  rw [total, ← Finset.sum_pair (f := fun k => g (f k)) hij]
  exact Finset.sum_le_sum_of_subset_of_nonneg (Finset.subset_univ _) fun k _ _ => h (f k)

/-- A bound on each member is a bound on the total. -/
theorem total_le_mul {k : α → Int} {c : Int} (h : ∀ x, g x ≤ k x * c) :
    total g f ≤ total k f * c := by
  rw [total, total, Finset.sum_mul]
  exact Finset.sum_le_sum fun i _ => h (f i)

end Sys
