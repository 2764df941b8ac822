-- SUMMARY: Lists that are linked by a function, circular ones, and walks along them.
import Mathlib.Logic.Function.Iterate
import Mathlib.Data.Nat.Find

/-!
# Linked lists

The nodes of a linked list are kept in a list beside the function that leads from a node to
the next one. A list that is closed, from its last node to its first, can be walked from
every node to every other.
-/

namespace Cycle

variable {α : Type} {next next' : α → α} {l l₁ l₂ : List α} {a b z : α}

/-- The function leads from every node to the one behind it, and from the last one to `z`. -/
def Linked (next : α → α) : List α → α → Prop
  | [], _ => True
  | a :: l, z => next a = l.headD z ∧ Linked next l z

theorem linked_cons : Linked next (a :: l) z ↔ next a = l.headD z ∧ Linked next l z := Iff.rfl

theorem headD_append : (l₁ ++ l₂).headD z = l₁.headD (l₂.headD z) := by
  cases l₁ <;> rfl

theorem linked_append : Linked next (l₁ ++ l₂) z ↔ Linked next l₁ (l₂.headD z) ∧ Linked next l₂ z := by
  induction l₁ with
  | nil => exact (and_iff_right trivial).symm
  | cons a l₁ ih => rw [List.cons_append, linked_cons, linked_cons, ih, headD_append, and_assoc]

/-- The function matters only for the nodes. -/
theorem Linked.congr (h : Linked next l z) (heq : ∀ a ∈ l, next' a = next a) : Linked next' l z := by
  induction l with
  | nil => trivial
  | cons a l ih =>
    rw [List.forall_mem_cons] at heq
    exact ⟨heq.1.trans h.1, ih h.2 heq.2⟩

/-! ## Walks -/

/-- A walk from the first node. -/
theorem Linked.walk (h : Linked next (l₁ ++ l₂) z) :
    next^[l₁.length] ((l₁ ++ l₂).headD z) = l₂.headD z := by
  induction l₁ with
  | nil => rfl
  | cons a l₁ ih =>
    rw [List.length_cons, Function.iterate_succ_apply, List.cons_append, List.headD_cons, h.1]
    exact ih h.2

theorem Linked.next_mem (h : Linked next (z :: l) z) (ha : a ∈ z :: l) : next a ∈ z :: l := by
  obtain ⟨l₁, l₂, hl⟩ := List.append_of_mem ha
  rw [hl, linked_append] at h
  rw [h.2.1, hl]
  cases l₂ with
  | nil =>
    have hz : (l₁ ++ [a]).headD z = z := by rw [← hl]; rfl
    cases l₁ with
    | nil => exact hz ▸ List.mem_cons_self
    | cons b l₁ => exact hz ▸ List.mem_cons_self
  | cons b l₂ => simp

/-- A closed list is walked from every node to every node. -/
theorem Linked.reach (h : Linked next (z :: l) z) (ha : a ∈ z :: l) (hb : b ∈ z :: l) :
    ∃ k ≤ l.length, next^[k] a = b := by
  obtain ⟨l₁, l₂, hl⟩ := List.append_of_mem ha
  have hlen : l.length + 1 = l₁.length + (l₂.length + 1) := by
    rw [← List.length_cons, ← List.length_cons, hl, List.length_append]
  have hsplit := h
  rw [hl] at hsplit
  rw [hl, List.mem_append] at hb
  rcases hb with hb | hb
  · -- around the end of the list
    obtain ⟨m₁, m₂, rfl⟩ := List.append_of_mem hb
    have hz : (m₁ ++ (b :: m₂ ++ a :: l₂)).headD z = z := by
      rw [← List.append_assoc, ← hl]
      rfl
    refine ⟨m₁.length + (l₂.length + 1), by simp at hlen; omega, ?_⟩
    have hback : Linked next ((a :: l₂) ++ []) z := by simpa using (linked_append.mp hsplit).2
    have hend : next^[l₂.length + 1] a = z := by simpa using hback.walk
    have hfront : Linked next (m₁ ++ (b :: m₂ ++ a :: l₂)) z := by simpa using hsplit
    have hfirst := hfront.walk
    rw [hz] at hfirst
    rw [Function.iterate_add_apply, hend, hfirst]
    rfl
  · obtain ⟨m₁, m₂, hm⟩ := List.append_of_mem hb
    have hlen' : l₂.length + 1 = m₁.length + (m₂.length + 1) := by
      rw [← List.length_cons, hm, List.length_append, List.length_cons]
    refine ⟨m₁.length, by omega, ?_⟩
    have hwalk := (linked_append.mp hsplit).2
    rw [hm] at hwalk
    have hb := hwalk.walk
    rw [← hm] at hb
    exact hb

/-- A node that is reached from the node behind `a` is reached before the walk is at `a` again, or
there. -/
theorem exists_walk_avoiding (h : ∃ k, next^[k] (next a) = b) :
    ∃ k, next^[k] (next a) = b ∧ ∀ i < k, next^[i] (next a) ≠ a := by
  classical
  refine ⟨Nat.find h, Nat.find_spec h, fun i hi heq => ?_⟩
  -- a walk that comes by `a` can be shortened
  have hsplit : Nat.find h = (Nat.find h - (i + 1)) + 1 + i := by omega
  have hspec := Nat.find_spec h
  rw [hsplit, Function.iterate_add_apply, heq, Function.iterate_succ_apply] at hspec
  exact Nat.find_min h (by omega) hspec

end Cycle
