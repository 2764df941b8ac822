-- SUMMARY: Copying cells of a memory one after the other, when the cells that are read and written overlap.
import Mathlib.Data.List.Pairwise
import Mathlib.Logic.Function.Basic

/-!
# Copying in a sequence

A list of indices says in which order cells are copied: for an index `i`, the cell `f i` gets
what is in the cell `g i` then. This is the copy that one wants if no cell is written before it
is read, and no cell is written twice.
-/

namespace Copy

variable {ι α β : Type} [DecidableEq α] {f g : ι → α} {is : List ι} {m : α → β} {i : ι} {a : α}

/-- The memory after the cells are copied in the order of the list. -/
def run (f g : ι → α) (is : List ι) (m : α → β) : α → β :=
  is.foldl (fun m i => Function.update m (f i) (m (g i))) m

theorem run_cons : run f g (i :: is) m = run f g is (Function.update m (f i) (m (g i))) := rfl

/-- No cell is written twice, and none is read after it is written. -/
def Ordered (f g : ι → α) (is : List ι) : Prop := is.Pairwise fun i j => f i ≠ f j ∧ f i ≠ g j

theorem run_frame (ha : ∀ i ∈ is, a ≠ f i) : run f g is m a = m a := by
  induction is generalizing m with
  | nil => rfl
  | cons i is ih =>
    rw [run_cons, ih fun j hj => ha j (List.mem_cons_of_mem i hj),
      Function.update_of_ne (ha i List.mem_cons_self)]

theorem run_apply (hord : Ordered f g is) (hi : i ∈ is) : run f g is m (f i) = m (g i) := by
  induction is generalizing m with
  | nil => exact absurd hi List.not_mem_nil
  | cons j is ih =>
    obtain ⟨hfirst, hrest⟩ := List.pairwise_cons.mp hord
    rw [run_cons]
    rcases List.mem_cons.mp hi with rfl | hi
    · rw [run_frame fun k hk => (hfirst k hk).1, Function.update_self]
    · rw [ih hrest hi, Function.update_of_ne (hfirst i hi).2.symm]

end Copy
