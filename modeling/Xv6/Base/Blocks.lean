-- SUMMARY: Blocks of memory in the order of their addresses, and putting a block in its place among them.
import Mathlib.Data.List.Basic
import Mathlib.Algebra.BigOperators.Group.List.Basic
import Mathlib.Algebra.GroupWithZero.Nat

/-!
# Blocks of memory

A block is where it starts and how long it is. In a list of free blocks there is a gap between
any two of them: a block that is put in its place is joined with its neighbours if it touches
them.
-/

namespace Blocks

/-- The start and the length of a block. -/
abbrev Extent : Type := Nat × Nat

/-- The end of a block. -/
def stop (x : Extent) : Nat := x.1 + x.2

/-- The blocks do not overlap. -/
def Apart (x y : Extent) : Prop := stop x ≤ y.1 ∨ stop y ≤ x.1

/-- The second block is behind the first one, and does not touch it. -/
def Gap (x y : Extent) : Prop := stop x < y.1

/-- The length of all the blocks. -/
def total (l : List Extent) : Nat := (l.map Prod.snd).sum

/-- A block in front of others: it is joined with the first one if it touches it. -/
def join (x : Extent) : List Extent → List Extent
  | [] => [x]
  | y :: l => if stop x = y.1 then (x.1, x.2 + y.2) :: l else x :: y :: l

/-- A block is put in its place. -/
def place (x : Extent) : List Extent → List Extent
  | [] => [x]
  | y :: l => if y.1 < x.1 then join y (place x l) else join x (y :: l)

variable {x y z : Extent} {l l₁ l₂ : List Extent}

theorem Apart.symm (h : Apart x y) : Apart y x := Or.symm h

theorem Apart.start_ne (h : Apart x y) (hx : 0 < x.2) (hy : 0 < y.2) : x.1 ≠ y.1 := by
  simp only [Apart, stop] at h
  omega

theorem Apart.stop_le (h : Apart x y) (hlt : x.1 < y.1) : stop x ≤ y.1 := by
  rcases h with h | h
  · exact h
  · rw [stop] at h
    omega

@[simp] theorem total_nil : total [] = 0 := rfl

@[simp] theorem total_cons : total (x :: l) = x.2 + total l := by
  rw [total, List.map_cons, List.sum_cons, total]

theorem total_append : total (l₁ ++ l₂) = total l₁ + total l₂ := by
  rw [total, List.map_append, List.sum_append, total, total]

/-! ## Joining -/

theorem join_of_ne (h : ∀ y ∈ l, stop x ≠ y.1) : join x l = x :: l := by
  cases l with
  | nil => rfl
  | cons y l => exact if_neg (h y List.mem_cons_self)

/-- The first block starts where it did. -/
theorem headD_join {n : Nat} : ((join x l).map Prod.fst).headD n = x.1 := by
  cases l with
  | nil => rfl
  | cons y l =>
    rw [join]
    split <;> rfl

theorem start_mem_join : x.1 ∈ (join x l).map Prod.fst := by
  cases l with
  | nil => exact List.mem_cons_self
  | cons y l =>
    rw [join]
    split <;> exact List.mem_cons_self

theorem total_join : total (join x l) = x.2 + total l := by
  cases l with
  | nil => rfl
  | cons y l =>
    rw [join]
    split
    · rw [total_cons, total_cons, Nat.add_assoc]
    · rw [total_cons]

/-- What holds of blocks that touch and of the block they make up. -/
theorem join_forall {P : Extent → Prop} (hx : P x) (hl : ∀ y ∈ l, P y)
    (hjoin : ∀ y ∈ l, P y → stop x = y.1 → P (x.1, x.2 + y.2)) : ∀ z ∈ join x l, P z := by
  cases l with
  | nil => exact List.forall_mem_singleton.mpr hx
  | cons y l =>
    rw [join]
    rw [List.forall_mem_cons] at hl
    split
    · next h => exact List.forall_mem_cons.mpr ⟨hjoin y List.mem_cons_self hl.1 h, hl.2⟩
    · exact List.forall_mem_cons.mpr ⟨hx, List.forall_mem_cons.mpr hl⟩

/-- The blocks start where they started. -/
theorem start_of_mem_join (hz : z ∈ join x l) : z.1 = x.1 ∨ ∃ y ∈ l, z.1 = y.1 := by
  have h : ∀ z ∈ join x l, z.1 = x.1 ∨ ∃ y ∈ l, z.1 = y.1 :=
    join_forall (.inl rfl) (fun y hy => .inr ⟨y, hy, rfl⟩) fun _ _ _ _ => .inl rfl
  exact h z hz

theorem join_sorted (hl : l.Pairwise Gap) (hx : ∀ y ∈ l, stop x ≤ y.1) : (join x l).Pairwise Gap := by
  cases l with
  | nil => exact List.pairwise_singleton _ _
  | cons y l =>
    obtain ⟨hy, hl⟩ := List.pairwise_cons.mp hl
    have hxy := hx y List.mem_cons_self
    rw [join]
    split
    · next h =>
      refine List.pairwise_cons.mpr ⟨fun z hz => ?_, hl⟩
      have hgap := hy z hz
      simp only [Gap, stop] at hgap h ⊢
      omega
    · next h =>
      refine List.pairwise_cons.mpr ⟨List.forall_mem_cons.mpr ⟨?_, fun z hz => ?_⟩, List.pairwise_cons.mpr ⟨hy, hl⟩⟩
      · exact Nat.lt_of_le_of_ne hxy h
      · have hgap := hy z hz
        simp only [Gap, stop] at hgap hxy ⊢
        omega

/-! ## Putting in place -/

theorem total_place : total (place x l) = x.2 + total l := by
  induction l with
  | nil => rfl
  | cons y l ih =>
    rw [place]
    split
    · rw [total_join, ih, total_cons]
      omega
    · exact total_join

theorem place_forall {P : Extent → Prop} (hx : P x) (hl : ∀ y ∈ l, P y)
    (hjoin : ∀ y z, P y → P z → stop y = z.1 → P (y.1, y.2 + z.2)) : ∀ z ∈ place x l, P z := by
  induction l with
  | nil => exact List.forall_mem_singleton.mpr hx
  | cons y l ih =>
    rw [place]
    have hy := List.forall_mem_cons.mp hl
    split
    · exact join_forall hy.1 (ih hy.2) fun z _ hz h => hjoin y z hy.1 hz h
    · exact join_forall hx hl fun z _ hz h => hjoin x z hx hz h

theorem start_of_mem_place (hz : z ∈ place x l) : z.1 = x.1 ∨ ∃ y ∈ l, z.1 = y.1 := by
  induction l generalizing z with
  | nil => exact .inl (List.mem_singleton.mp hz ▸ rfl)
  | cons y l ih =>
    rw [place] at hz
    split at hz
    · rcases start_of_mem_join hz with h | ⟨w, hw, h⟩
      · exact .inr ⟨y, List.mem_cons_self, h⟩
      · rcases ih hw with h' | ⟨v, hv, h'⟩
        · exact .inl (h.trans h')
        · exact .inr ⟨v, List.mem_cons_of_mem y hv, h.trans h'⟩
    · exact start_of_mem_join hz

/-- A block that is at least as long as the one that was put in place. -/
theorem exists_long_join (hx : ∃ z ∈ x :: l, y.2 ≤ z.2) : ∃ z ∈ join x l, y.2 ≤ z.2 := by
  obtain ⟨z, hz, hle⟩ := hx
  cases l with
  | nil => exact ⟨z, hz, hle⟩
  | cons w l =>
    rw [join]
    split
    · rcases List.mem_cons.mp hz with rfl | hz
      · exact ⟨_, List.mem_cons_self, Nat.le_trans hle (Nat.le_add_right _ _)⟩
      · rcases List.mem_cons.mp hz with rfl | hz
        · exact ⟨_, List.mem_cons_self, Nat.le_trans hle (Nat.le_add_left _ _)⟩
        · exact ⟨z, List.mem_cons_of_mem _ hz, hle⟩
    · exact ⟨z, hz, hle⟩

theorem exists_long_place : ∃ z ∈ place x l, x.2 ≤ z.2 := by
  induction l with
  | nil => exact ⟨x, List.mem_cons_self, Nat.le_refl _⟩
  | cons y l ih =>
    rw [place]
    split
    · obtain ⟨z, hz, hle⟩ := ih
      exact exists_long_join ⟨z, List.mem_cons_of_mem y hz, hle⟩
    · exact exists_long_join ⟨x, List.mem_cons_self, Nat.le_refl _⟩

/-- There are gaps again. -/
theorem place_sorted (hl : l.Pairwise Gap) (hx : ∀ y ∈ l, Apart y x)
    (hpos : ∀ y ∈ l, 0 < y.2) : (place x l).Pairwise Gap := by
  induction l with
  | nil => exact List.pairwise_singleton _ _
  | cons y l ih =>
    obtain ⟨hy, hl'⟩ := List.pairwise_cons.mp hl
    have hx' := List.forall_mem_cons.mp hx
    have hpos' := List.forall_mem_cons.mp hpos
    rw [place]
    split
    · next hlt =>
      refine join_sorted (ih hl' hx'.2 hpos'.2) fun z hz => ?_
      rcases start_of_mem_place hz with h | ⟨w, hw, h⟩
      · rw [h]
        exact hx'.1.stop_le hlt
      · rw [h]
        exact Nat.le_of_lt (hy w hw)
    · next hlt =>
      have hxy : stop x ≤ y.1 := by
        rcases hx'.1 with h | h
        · have hpos := hpos'.1
          simp only [stop] at h ⊢
          omega
        · exact h
      refine join_sorted hl (List.forall_mem_cons.mpr ⟨hxy, fun z hz => ?_⟩)
      have hgap := hy z hz
      simp only [Gap, stop] at hgap hxy ⊢
      omega

/-- There is a last block that starts in front of a block. -/
theorem exists_split {p : Extent} (hl : (p :: l).Pairwise Gap) (hp : p.1 < x.1) (hx : ∀ y ∈ l, y.1 ≠ x.1) :
    ∃ l₁ q l₂, p :: l = l₁ ++ q :: l₂ ∧ q.1 < x.1 ∧ ∀ y ∈ l₂, x.1 < y.1 := by
  induction l generalizing p with
  | nil => exact ⟨[], p, [], rfl, hp, fun y hy => absurd hy List.not_mem_nil⟩
  | cons y l ih =>
    have hl' := (List.pairwise_cons.mp hl).2
    have hx' := List.forall_mem_cons.mp hx
    by_cases hy : y.1 < x.1
    · obtain ⟨l₁, q, l₂, heq, hq, hl₂⟩ := ih hl' hy hx'.2
      exact ⟨p :: l₁, q, l₂, by rw [heq, List.cons_append], hq, hl₂⟩
    · refine ⟨[], p, y :: l, rfl, hp, List.forall_mem_cons.mpr ⟨by omega, fun z hz => ?_⟩⟩
      have hgap : stop y < z.1 := (List.pairwise_cons.mp hl').1 z hz
      rw [stop] at hgap
      omega

/-- The place of a block is behind the last block that starts in front of it. -/
theorem place_split {p : Extent} (hl : (l₁ ++ p :: l₂).Pairwise Gap) (hp : p.1 < x.1)
    (hx : ∀ y ∈ l₂, x.1 < y.1) : place x (l₁ ++ p :: l₂) = l₁ ++ join p (join x l₂) := by
  induction l₁ with
  | nil =>
    rw [List.nil_append, place, if_pos hp, List.nil_append]
    cases l₂ with
    | nil => rfl
    | cons y l₂ => rw [place, if_neg (Nat.lt_asymm (hx y List.mem_cons_self))]
  | cons a l₁ ih =>
    obtain ⟨ha, hl⟩ := List.pairwise_cons.mp hl
    have hap : stop a < p.1 := ha p (List.mem_append_right l₁ List.mem_cons_self)
    have hax : a.1 < x.1 := by
      rw [stop] at hap
      omega
    rw [List.cons_append, place, if_pos hax, join_of_ne, ih hl, List.cons_append]
    intro z hz heq
    rcases start_of_mem_place hz with h | ⟨w, hw, h⟩
    · omega
    · have hgap : stop a < w.1 := ha w hw
      omega

/-- A block that does not overlap two blocks that touch does not overlap the block they make up. -/
theorem Apart.join (hz : 0 < z.2) (hx : Apart x z) (hy : Apart y z) (h : stop x = y.1) :
    Apart (x.1, x.2 + y.2) z := by
  simp only [Apart, stop] at *
  omega

end Blocks
