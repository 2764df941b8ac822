-- SUMMARY: The heap of a user program: what malloc and free keep, and what malloc hands out.
import Xv6.User.Umalloc

/-!
# The heap of a user program

The memory that `sbrk` has given is divided into free blocks and blocks that the program has.
`free` puts a block in its place among the free ones, and `malloc` cuts a block off one of
them, after `morecore` has put in place a new one if none is large enough.
-/

namespace Xv6.Umalloc

open Blocks Cycle

/-- The free blocks and the blocks that the program has do not overlap, and they are between `base`
and the end of memory. -/
structure Layout (base sz : Nat) (fl out : List Extent) : Prop where
  sorted : fl.Pairwise Gap
  apart : ∀ x ∈ fl, ∀ y ∈ out, Apart x y
  disjoint : out.Pairwise Apart
  pos : ∀ x ∈ fl ++ out, 0 < x.2
  inside : ∀ x ∈ fl ++ out, base + 16 ≤ x.1 ∧ stop x ≤ sz

/-- The blocks are in the heap, and they are what `sbrk` has given. -/
structure Good (base : Nat) (s : Proc) (fl out : List Extent) : Prop where
  rep : Rep base s.heap fl
  size : ∀ x ∈ out, 16 * s.heap.size x.1 = x.2
  layout : Layout base s.sz fl out
  obtained : (s.grown.map Prod.fst).sum = total fl + total out
  recorded : ∀ g ∈ s.grown, g.1 = 16 * g.2
  bound : total fl + total out + s.left < 2 ^ 36
  base_pos : 0 < base
  base_le : base + 16 ≤ s.sz

/-! ## Nodes of the list -/

section
variable {base n fuel : Nat} {s s' : Proc} {fl out f₁ f₂ : List Extent} {x y q : Extent} {prevp p : Nat}

theorem Layout.flPos {sz : Nat} (hl : Layout base sz fl out) : ∀ x ∈ fl, 0 < x.2 :=
  fun x hx => hl.pos x (List.mem_append_left _ hx)

theorem Layout.outPos {sz : Nat} (hl : Layout base sz fl out) : ∀ x ∈ out, 0 < x.2 :=
  fun x hx => hl.pos x (List.mem_append_right _ hx)

theorem Good.freep_ne (hg : Good base s fl out) : s.heap.freep ≠ 0 := by
  obtain ⟨x, hx, heq⟩ := List.mem_map.mp hg.rep.freep
  have hle := hg.rep.base_le hx
  have hpos := hg.base_pos
  omega

/-- A block that is not `base`, found through the one in front of it. -/
theorem Rep.split_of_ptr {h : Heap} (hr : Rep base h fl) (hprev : prevp ∈ ((base, 0) :: fl).map Prod.fst)
    (hne : h.ptr prevp ≠ base) :
    ∃ f₁ y f₂ m q, fl = f₁ ++ y :: f₂ ∧ (base, 0) :: f₁ = m ++ [q] ∧ q.1 = prevp ∧ y.1 = h.ptr prevp := by
  obtain ⟨q, hq, rfl⟩ := List.mem_map.mp hprev
  obtain ⟨m, m₂, hm⟩ := List.append_of_mem hq
  have hptr := hr.ptr_eq hm
  cases m₂ with
  | nil => exact absurd hptr hne
  | cons y f₂ =>
    cases m with
    | nil =>
      obtain ⟨rfl, rfl⟩ := List.cons.inj hm
      exact ⟨[], y, f₂, [], (base, 0), rfl, rfl, rfl, hptr.symm⟩
    | cons b m =>
      obtain ⟨rfl, rfl⟩ := List.cons.inj hm
      exact ⟨m ++ [q], y, f₂, (base, 0) :: m, q, by simp, rfl, rfl, hptr.symm⟩

/-! ## Cutting off a block -/

/-- The whole block is taken out of the list. -/
theorem Rep.unlink {h : Heap} {m : List Extent} (hr : Rep base h (f₁ ++ y :: f₂)) (hm : (base, 0) :: f₁ = m ++ [q]) :
    Rep base { h.setPtr q.1 (h.ptr y.1) with freep := q.1 } (f₁ ++ f₂) := by
  have hlist : (base, 0) :: (f₁ ++ y :: f₂) = m ++ q :: y :: f₂ := by
    rw [← List.cons_append, hm, List.append_assoc]
    rfl
  have hlist' : (base, 0) :: (f₁ ++ f₂) = m ++ q :: f₂ := by
    rw [← List.cons_append, hm, List.append_assoc]
    rfl
  have hsub : ((base, 0) :: (f₁ ++ f₂)).Sublist ((base, 0) :: (f₁ ++ y :: f₂)) :=
    List.Sublist.cons_cons _ (List.Sublist.append_left (List.sublist_cons_self y f₂) f₁)
  have hsorted := hr.sorted
  rw [hlist, List.pairwise_append, List.pairwise_cons] at hsorted
  obtain ⟨-, ⟨hafter, -⟩, hbefore⟩ := hsorted
  have hc := hr.chain
  rw [hlist, chain_append, chain_cons, chain_cons] at hc
  obtain ⟨hc₁, -, hqsize, hyptr, -, hc₂⟩ := hc
  have hsame : ∀ a ≠ q.1, (h.setPtr q.1 (h.ptr y.1)).ptr a = h.ptr a := fun a ha =>
    Function.update_of_ne ha _ _
  refine ⟨?_, hr.sorted.sublist hsub, ?_⟩
  · rw [hlist', chain_append, chain_cons]
    refine ⟨hc₁.congr fun x hx => ⟨hsame x.1 ?_, rfl⟩, ?_, hqsize, hc₂.congr fun x hx => ⟨hsame x.1 ?_, rfl⟩⟩
    · have hgap : stop x < q.1 := hbefore x hx q List.mem_cons_self
      rw [stop] at hgap
      omega
    · simpa [Heap.setPtr] using hyptr
    · have hgap : stop q < x.1 := hafter x (List.mem_cons_of_mem y hx)
      rw [stop] at hgap
      omega
  · rw [hlist']
    exact List.mem_map_of_mem (List.mem_append_right m List.mem_cons_self)

/-- The end of the block is cut off. -/
theorem Rep.shrink {h : Heap} {a k : Nat} (hr : Rep base h (f₁ ++ y :: f₂))
    (hprev : prevp ∈ ((base, 0) :: f₁).map Prod.fst) (hk : 16 * k < y.2)
    (ha : ∀ x ∈ (base, 0) :: (f₁ ++ y :: f₂), x.1 ≠ a) :
    Rep base { (h.setSize y.1 k).setSize a n with freep := prevp } (f₁ ++ (y.1, 16 * k) :: f₂) := by
  have hsorted := hr.sorted
  rw [← List.cons_append, List.pairwise_append, List.pairwise_cons (a := y)] at hsorted
  obtain ⟨hs₁, ⟨hafter, hs₂⟩, hbefore⟩ := hsorted
  have hc := hr.chain
  rw [← List.cons_append, chain_append, chain_cons (x := y)] at hc
  obtain ⟨hc₁, hyptr, -, hc₂⟩ := hc
  rw [← List.cons_append] at ha
  have hay := ha y (List.mem_append_right _ List.mem_cons_self)
  have hsame : ∀ x ∈ (base, 0) :: f₁ ++ y :: f₂, x.1 ≠ y.1 →
      ((h.setSize y.1 k).setSize a n).size x.1 = h.size x.1 := by
    intro x hx hxy
    simp [Heap.setSize, ha x hx, hxy]
  refine ⟨?_, ?_, ?_⟩
  · rw [← List.cons_append, chain_append, chain_cons (x := (y.1, 16 * k))]
    refine ⟨hc₁.congr fun x hx => ⟨rfl, hsame x (List.mem_append_left _ hx) ?_⟩, hyptr, ?_,
      hc₂.congr fun x hx => ⟨rfl, hsame x (List.mem_append_right _ (List.mem_cons_of_mem y hx)) ?_⟩⟩
    · have hgap : stop x < y.1 := hbefore x hx y List.mem_cons_self
      rw [stop] at hgap
      omega
    · simp [Heap.setSize, hay]
    · have hgap : stop y < x.1 := hafter x hx
      rw [stop] at hgap
      omega
  · rw [← List.cons_append, List.pairwise_append, List.pairwise_cons (a := (y.1, 16 * k))]
    refine ⟨hs₁, ⟨fun x hx => ?_, hs₂⟩, fun x hx z hz => ?_⟩
    · have hgap : stop y < x.1 := hafter x hx
      simp only [Gap, stop] at hgap ⊢
      omega
    · rcases List.mem_cons.mp hz with rfl | hz
      · exact hbefore x hx y List.mem_cons_self
      · exact hbefore x hx z (List.mem_cons_of_mem y hz)
  · rw [← List.cons_append, List.map_append]
    exact List.mem_append_left _ hprev

theorem Layout.takeWhole {sz : Nat} (hl : Layout base sz (f₁ ++ y :: f₂) out) :
    Layout base sz (f₁ ++ f₂) (y :: out) := by
  have hsub : ∀ x ∈ f₁ ++ f₂, x ∈ f₁ ++ y :: f₂ := by
    intro x hx
    simp only [List.mem_append, List.mem_cons] at hx ⊢
    tauto
  have hsorted := hl.sorted
  rw [List.pairwise_append, List.pairwise_cons] at hsorted
  obtain ⟨hs₁, ⟨hafter, hs₂⟩, hbefore⟩ := hsorted
  have hmem : ∀ x ∈ f₁ ++ f₂ ++ y :: out, x ∈ f₁ ++ y :: f₂ ++ out := by
    intro x hx
    simp only [List.mem_append, List.mem_cons] at hx ⊢
    tauto
  refine ⟨hl.sorted.sublist (List.Sublist.append_left (List.sublist_cons_self y f₂) f₁), ?_, ?_, ?_, ?_⟩
  · intro x hx z hz
    rcases List.mem_cons.mp hz with rfl | hz
    · rcases List.mem_append.mp hx with hx | hx
      · exact .inl (Nat.le_of_lt (hbefore x hx z List.mem_cons_self))
      · exact .inr (Nat.le_of_lt (hafter x hx))
    · exact hl.apart x (hsub x hx) z hz
  · exact List.pairwise_cons.mpr ⟨fun z hz => hl.apart y (by simp) z hz, hl.disjoint⟩
  · exact fun x hx => hl.pos x (hmem x hx)
  · exact fun x hx => hl.inside x (hmem x hx)

theorem Layout.takeEnd {sz k m : Nat} (hl : Layout base sz (f₁ ++ y :: f₂) out) (hy : y.2 = k + m)
    (hk : 0 < k) (hm : 0 < m) :
    Layout base sz (f₁ ++ (y.1, k) :: f₂) ((y.1 + k, m) :: out) := by
  have hsorted := hl.sorted
  rw [List.pairwise_append, List.pairwise_cons] at hsorted
  obtain ⟨hs₁, ⟨hafter, hs₂⟩, hbefore⟩ := hsorted
  have hyapart : ∀ z ∈ out, Apart y z := hl.apart y (by simp)
  have hstop : stop y = y.1 + (k + m) := by rw [stop, hy]
  -- a block of the new layout is an old one or a part of `y`
  have hmem : ∀ x ∈ f₁ ++ (y.1, k) :: f₂ ++ (y.1 + k, m) :: out,
      x ∈ f₁ ++ y :: f₂ ++ out ∨ (0 < x.2 ∧ y.1 ≤ x.1 ∧ stop x ≤ stop y) := by
    intro x hx
    simp only [List.mem_append, List.mem_cons] at hx ⊢
    rcases hx with (hx | rfl | hx) | rfl | hx
    · exact .inl (.inl (.inl hx))
    · exact .inr ⟨hk, Nat.le_refl _, by simp only [stop] at hstop ⊢; omega⟩
    · exact .inl (.inl (.inr (.inr hx)))
    · exact .inr ⟨hm, Nat.le_add_right _ _, by simp only [stop] at hstop ⊢; omega⟩
    · exact .inl (.inr hx)
  refine ⟨?_, ?_, ?_, ?_, ?_⟩
  · rw [List.pairwise_append, List.pairwise_cons]
    refine ⟨hs₁, ⟨fun x hx => ?_, hs₂⟩, fun x hx z hz => ?_⟩
    · have hgap := hafter x hx
      simp only [Gap, stop] at hgap ⊢
      omega
    · rcases List.mem_cons.mp hz with rfl | hz
      · exact hbefore x hx y List.mem_cons_self
      · exact hbefore x hx z (List.mem_cons_of_mem y hz)
  · intro x hx z hz
    rcases List.mem_cons.mp hz with rfl | hz
    · rcases List.mem_append.mp hx with hx | hx
      · have hgap := hbefore x hx y List.mem_cons_self
        simp only [Gap, Apart, stop] at hgap ⊢
        omega
      · rcases List.mem_cons.mp hx with rfl | hx
        · exact .inl (Nat.le_refl _)
        · have hgap := hafter x hx
          simp only [Gap, Apart, stop] at hgap ⊢
          omega
    · rcases List.mem_append.mp hx with hx | hx
      · exact hl.apart x (List.mem_append_left _ hx) z hz
      · rcases List.mem_cons.mp hx with rfl | hx
        · have hyz := hyapart z hz
          simp only [Apart, stop] at hyz ⊢
          omega
        · exact hl.apart x (List.mem_append_right _ (List.mem_cons_of_mem y hx)) z hz
  · refine List.pairwise_cons.mpr ⟨fun z hz => ?_, hl.disjoint⟩
    have hyz := hyapart z hz
    simp only [Apart, stop] at hyz ⊢
    omega
  · intro x hx
    rcases hmem x hx with hx | hx
    · exact hl.pos x hx
    · exact hx.1
  · intro x hx
    rcases hmem x hx with hx | hx
    · exact hl.inside x hx
    · have hin := hl.inside y (by simp)
      omega

theorem Layout.start_ne {sz a : Nat} (hl : Layout base sz (f₁ ++ y :: f₂) out) (ha : y.1 < a) (ha' : a < stop y) :
    (∀ x ∈ (base, 0) :: (f₁ ++ y :: f₂), x.1 ≠ a) ∧ ∀ x ∈ out, x.1 ≠ a := by
  have hsorted := hl.sorted
  rw [List.pairwise_append, List.pairwise_cons] at hsorted
  obtain ⟨-, ⟨hafter, -⟩, hbefore⟩ := hsorted
  constructor
  · intro x hx
    have hin := hl.inside y (by simp)
    simp only [List.mem_cons, List.mem_append] at hx
    rcases hx with rfl | hx | rfl | hx
    · simp only
      omega
    · have hgap := hbefore x hx y List.mem_cons_self
      simp only [Gap, stop] at hgap
      omega
    · exact Nat.ne_of_lt ha
    · have hgap := hafter x hx
      simp only [Gap, stop] at hgap ha'
      omega
  · intro x hx
    have hapart := hl.apart y (by simp) x hx
    have hpos := hl.outPos x hx
    simp only [Apart, stop] at hapart ha'
    omega

/-- A block of `n` headers is cut off the block behind `prevp`. -/
theorem Good.take (hg : Good base s fl out) (hprev : prevp ∈ ((base, 0) :: fl).map Prod.fst) (hn : 0 < n)
    (hfit : n ≤ s.heap.size (s.heap.ptr prevp)) :
    ∃ a fl' h', Umalloc.take s.heap n prevp (s.heap.ptr prevp) = (a + 16, h') ∧
      Good base { s with heap := h' } fl' ((a, 16 * n) :: out) := by
  have hne : s.heap.ptr prevp ≠ base := by
    intro heq
    have hbase := hg.rep.chain.size (base, 0) List.mem_cons_self
    rw [heq] at hfit
    simp only at hbase
    omega
  obtain ⟨f₁, y, f₂, m, q, rfl, hm, rfl, hy⟩ := hg.rep.split_of_ptr hprev hne
  have hysize := hg.rep.chain.size y (by simp)
  have hobtained := hg.obtained
  have hbound := hg.bound
  rw [total_append, total_cons] at hobtained hbound
  rw [← hy] at hfit ⊢
  rw [Umalloc.take]
  split
  · next hexact =>
    have hy' : y = (y.1, 16 * n) := by rw [← hexact, hysize]
    refine ⟨y.1, f₁ ++ f₂, _, rfl, hg.rep.unlink hm, ?_, ?_, ?_, hg.recorded, ?_, hg.base_pos, hg.base_le⟩
    · rw [← hy']
      exact List.forall_mem_cons.mpr ⟨hysize, hg.size⟩
    · rw [← hy']
      exact hg.layout.takeWhole
    · rw [← hy', total_append, total_cons]
      simp only
      omega
    · rw [← hy', total_append, total_cons]
      simp only
      omega
  · next hexact =>
    have hlt : n < s.heap.size y.1 := by omega
    obtain ⟨k, hk⟩ := Nat.exists_eq_add_of_lt hlt
    have hk' : s.heap.size y.1 - n = k + 1 := by omega
    have hy2 : y.2 = 16 * (k + 1) + 16 * n := by omega
    have hafter : y.1 < y.1 + 16 * (k + 1) := by omega
    have hbefore : y.1 + 16 * (k + 1) < stop y := by
      rw [stop]
      omega
    obtain ⟨hne₁, hne₂⟩ := hg.layout.start_ne hafter hbefore
    have hprev' : q.1 ∈ ((base, 0) :: f₁).map Prod.fst := by
      rw [hm]
      exact List.mem_map_of_mem (List.mem_append_right m List.mem_cons_self)
    have hsize : (s.heap.setSize y.1 (k + 1)).size y.1 = k + 1 := by simp [Heap.setSize]
    simp only [hk', hsize]
    refine ⟨y.1 + 16 * (k + 1), f₁ ++ (y.1, 16 * (k + 1)) :: f₂, _, rfl, hg.rep.shrink hprev' (by omega) hne₁, ?_,
      hg.layout.takeEnd hy2 (by omega) (by omega), ?_, hg.recorded, ?_, hg.base_pos, hg.base_le⟩
    · refine List.forall_mem_cons.mpr ⟨by simp [Heap.setSize], fun x hx => ?_⟩
      have hxy : x.1 ≠ y.1 := by
        have hapart := hg.layout.apart y (by simp) x hx
        have hpos := hg.layout.outPos x hx
        simp only [Apart, stop] at hapart
        omega
      simpa [Heap.setSize, hne₂ x hx, hxy] using hg.size x hx
    · rw [total_append, total_cons, total_cons]
      simp only
      omega
    · rw [total_append, total_cons, total_cons]
      simp only
      omega

/-! ## Giving a block back -/

theorem Layout.place {sz : Nat} (hl : Layout base sz fl (x :: out)) : Layout base sz (place x fl) out := by
  have hdisjoint := List.pairwise_cons.mp hl.disjoint
  have hpos := hl.flPos
  have hxpos := hl.outPos x List.mem_cons_self
  have hxin := hl.inside x (by simp)
  have hflin : ∀ y ∈ fl, base + 16 ≤ y.1 ∧ stop y ≤ sz := fun y hy => hl.inside y (List.mem_append_left _ hy)
  refine ⟨?_, ?_, hdisjoint.2, ?_, ?_⟩
  · exact place_sorted hl.sorted (fun y hy => hl.apart y hy x List.mem_cons_self) hpos
  · intro y hy z hz
    have hzpos := hl.outPos z (List.mem_cons_of_mem x hz)
    exact place_forall (P := fun y => Apart y z) (hdisjoint.1 z hz)
      (fun w hw => hl.apart w hw z (List.mem_cons_of_mem x hz)) (fun w v hw hv h => hw.join hzpos hv h) y hy
  · intro y hy
    rcases List.mem_append.mp hy with hy | hy
    · exact place_forall (P := fun y => 0 < y.2) hxpos hpos (fun w v hw _ _ => Nat.add_pos_left hw _) y hy
    · exact hl.outPos y (List.mem_cons_of_mem x hy)
  · intro y hy
    rcases List.mem_append.mp hy with hy | hy
    · refine place_forall (P := fun y => base + 16 ≤ y.1 ∧ stop y ≤ sz) hxin hflin (fun w v hw hv h => ?_) y hy
      simp only [stop] at hw hv h ⊢
      omega
    · exact hl.inside y (List.mem_append_right _ (List.mem_cons_of_mem x hy))

/-- `free` of a block that the program has. -/
theorem Good.free (hg : Good base s fl (x :: out)) :
    ∃ h', (∀ fuel > fl.length, Umalloc.free fuel (x.1 + 16) s.heap = .ok h') ∧
      Good base { s with heap := h' } (place x fl) out := by
  have hxin := hg.layout.inside x (by simp)
  have hobtained := hg.obtained
  have hbound := hg.bound
  rw [total_cons] at hobtained hbound
  obtain ⟨h', hfree, hrep, hsame⟩ := hg.rep.free (hg.size x List.mem_cons_self) (by omega)
    (fun y hy => hg.layout.apart y hy x List.mem_cons_self) hg.layout.flPos
    (hg.layout.outPos x List.mem_cons_self) (by omega)
  refine ⟨h', hfree, hrep, fun z hz => ?_, hg.layout.place, ?_, hg.recorded, ?_, hg.base_pos, hg.base_le⟩
  · have hzpos := hg.layout.outPos z (List.mem_cons_of_mem x hz)
    have hzin := hg.layout.inside z (by simp [hz])
    have hzx := (List.pairwise_cons.mp hg.layout.disjoint).1 z hz
    rw [hsame z.1 ?_ (hzx.start_ne (hg.layout.outPos x List.mem_cons_self) hzpos).symm]
    · exact hg.size z (List.mem_cons_of_mem x hz)
    · intro hmem
      obtain ⟨y, hy, heq⟩ := List.mem_map.mp hmem
      rcases List.mem_cons.mp hy with rfl | hy
      · simp only at heq
        omega
      · have hyz := hg.layout.apart y hy z (List.mem_cons_of_mem x hz)
        exact hyz.start_ne (hg.layout.flPos y hy) hzpos heq
  · rw [total_place]
    simp only
    omega
  · rw [total_place]
    simp only
    omega

/-! ## More memory -/

/-- The block of a header that is written behind the old end of memory. -/
theorem Good.grow (hg : Good base s fl out) (hn : 0 < n) (hleft : 16 * n ≤ s.left) {grants : List Bool} :
    Good base ⟨s.heap.setSize s.sz n, s.sz + 16 * n, s.left - 16 * n, grants, (16 * n, n) :: s.grown⟩ fl
      ((s.sz, 16 * n) :: out) := by
  have hsame : ∀ x, stop x ≤ s.sz → 0 < x.2 → (s.heap.setSize s.sz n).size x.1 = s.heap.size x.1 := by
    intro x hx hpos
    rw [stop] at hx
    exact Function.update_of_ne (by omega) _ _
  have hbase : (s.heap.setSize s.sz n).size base = s.heap.size base := by
    have hle := hg.base_le
    exact Function.update_of_ne (by omega) _ _
  have hobtained := hg.obtained
  have hbound := hg.bound
  refine ⟨⟨?_, hg.rep.sorted, hg.rep.freep⟩, ?_, ⟨hg.layout.sorted, ?_, ?_, ?_, ?_⟩, ?_, ?_, ?_, hg.base_pos, ?_⟩
  · refine hg.rep.chain.congr fun x hx => ⟨rfl, ?_⟩
    rcases List.mem_cons.mp hx with rfl | hx
    · exact hbase
    · exact hsame x (hg.layout.inside x (List.mem_append_left _ hx)).2 (hg.layout.flPos x hx)
  · refine List.forall_mem_cons.mpr ⟨by simp [Heap.setSize], fun x hx => ?_⟩
    rw [hsame x (hg.layout.inside x (List.mem_append_right _ hx)).2 (hg.layout.outPos x hx)]
    exact hg.size x hx
  · intro x hx y hy
    rcases List.mem_cons.mp hy with rfl | hy
    · exact .inl (hg.layout.inside x (List.mem_append_left _ hx)).2
    · exact hg.layout.apart x hx y hy
  · refine List.pairwise_cons.mpr ⟨fun x hx => ?_, hg.layout.disjoint⟩
    exact .inr (hg.layout.inside x (List.mem_append_right _ hx)).2
  · intro x hx
    simp only [List.mem_append, List.mem_cons] at hx
    rcases hx with hx | rfl | hx
    · exact hg.layout.flPos x hx
    · simp only
      omega
    · exact hg.layout.outPos x hx
  · intro x hx
    have hle := hg.base_le
    simp only [List.mem_append, List.mem_cons] at hx
    rcases hx with hx | rfl | hx
    · have hin := hg.layout.inside x (List.mem_append_left _ hx)
      exact ⟨hin.1, Nat.le_trans hin.2 (Nat.le_add_right _ _)⟩
    · exact ⟨hle, Nat.le_refl _⟩
    · have hin := hg.layout.inside x (List.mem_append_right _ hx)
      exact ⟨hin.1, Nat.le_trans hin.2 (Nat.le_add_right _ _)⟩
  · rw [List.map_cons, List.sum_cons, hobtained, total_cons]
    simp only
    omega
  · exact List.forall_mem_cons.mpr ⟨rfl, hg.recorded⟩
  · rw [total_cons]
    simp only
    omega
  · have hle := hg.base_le
    simp only
    omega

theorem toInt32_of_lt {m : Nat} (h : m < 2 ^ 31) : toInt32 m = m := by
  have hlow : -(((2 ^ 32 : Nat) : Int) / 2) ≤ (m : Int) := by omega
  have hhigh : (m : Int) < (((2 ^ 32 : Nat) : Int) + 1) / 2 := by omega
  exact Int.bmod_eq_of_le hlow hhigh

theorem sbrk_of_lt {m : Nat} (hpos : 0 < m) (hsmall : m < 2 ^ 31) : sbrk (toInt32 m) s =
    if s.grants.headD false = true ∧ m ≤ s.left then
      (some s.sz, { s with sz := s.sz + m, left := s.left - m, grants := s.grants.tail })
    else (none, { s with grants := s.grants.tail }) := by
  have hpos' : (m : Int) > 0 := Int.natCast_pos.mpr hpos
  rw [toInt32_of_lt hsmall, sbrk, growproc, if_pos hpos', Int.toNat_natCast]
  split <;> rfl

theorem rounded_pos : 0 < rounded n := by
  rw [rounded]
  split <;> omega

theorem install_eq {m : Nat} {h' : Heap} {grants : List Bool} {left : Nat} (hm : 0 < m)
    (hfree : Umalloc.free fuel (s.sz + 16) (s.heap.setSize s.sz m) = .ok h') :
    install fuel m s (some s.sz, { s with sz := s.sz + 16 * m, left := left, grants := grants }) =
      .ok (h'.freep, ⟨h', s.sz + 16 * m, left, grants, (16 * (m : Int), m) :: s.grown⟩) := by
  have hmapped : mapped { s with sz := s.sz + 16 * m, left := left, grants := grants } s.sz := by
    change s.sz + 16 ≤ (s.sz + 16 * m + 4095) / 4096 * 4096
    omega
  have hgrown : ((s.sz + 16 * m : Nat) : Int) - s.sz = 16 * (m : Int) := by
    push_cast
    ring
  rw [install, if_pos hmapped]
  simp only [hfree, Except.map, hgrown]

/-- `morecore` when the number of bytes is one for `sbrk`: the kernel refuses it, or a block has been
put in place. -/
theorem Good.morecore (hg : Good base s fl out) (hsmall : 16 * rounded n < 2 ^ 31) :
    (∀ fuel, Umalloc.morecore fuel n s = .ok (0, { s with grants := s.grants.tail })) ∨
      ∃ s', (∀ fuel > fl.length, Umalloc.morecore fuel n s = .ok (s'.heap.freep, s')) ∧
        Good base s' (place (s.sz, 16 * rounded n) fl) out ∧
        s'.grown = (16 * (rounded n : Int), rounded n) :: s.grown := by
  have hpos : 0 < rounded n := rounded_pos
  generalize hm : rounded n = m at hsmall hpos ⊢
  have hcall : ∀ fuel, Umalloc.morecore fuel n s = install fuel m s
      (if s.grants.headD false = true ∧ 16 * m ≤ s.left then
        (some s.sz, { s with sz := s.sz + 16 * m, left := s.left - 16 * m, grants := s.grants.tail })
      else (none, { s with grants := s.grants.tail })) := by
    intro fuel
    rw [Umalloc.morecore, hm, Nat.mul_comm m 16, sbrk_of_lt (Nat.mul_pos (by decide) hpos) hsmall]
  by_cases hgrant : s.grants.headD false = true ∧ 16 * m ≤ s.left
  · have hgrow : Good base ⟨s.heap.setSize s.sz m, s.sz + 16 * m, s.left - 16 * m, s.grants.tail,
        (16 * m, m) :: s.grown⟩ fl ((s.sz, 16 * m) :: out) := hg.grow hpos hgrant.2
    obtain ⟨h', hfree, hgood⟩ := hgrow.free
    refine .inr ⟨_, fun fuel hfuel => ?_, hgood, rfl⟩
    rw [hcall, if_pos hgrant]
    exact install_eq hpos (hfree fuel hfuel)
  · refine .inl fun fuel => ?_
    rw [hcall, if_neg hgrant]
    rfl

/-! ## The loop of `malloc` -/

/-- With enough turns for its loops, the call returns `r`. -/
def Ends {α : Type} (f : Nat → Except Stop α) (r : α) : Prop := ∃ N, ∀ fuel ≥ N, f fuel = .ok r

theorem Ends.unique {α : Type} {f : Nat → Except Stop α} {r r' : α} (h : Ends f r) (h' : Ends f r') : r = r' := by
  obtain ⟨N, hN⟩ := h
  obtain ⟨N', hN'⟩ := h'
  have heq := (hN (N + N') (Nat.le_add_right _ _)).symm.trans (hN' (N + N') (Nat.le_add_left _ _))
  exact Except.ok.inj heq

/-- The loop goes past blocks that are too small. -/
theorem mallocLoop_skip {k : Nat} (hno : ∀ i < k, s.heap.size (s.heap.ptr^[i] (s.heap.ptr prevp)) < n ∧
      s.heap.ptr^[i] (s.heap.ptr prevp) ≠ s.heap.freep) :
    mallocLoop n (fuel + k) prevp (s.heap.ptr prevp) s =
      mallocLoop n fuel (s.heap.ptr^[k] prevp) (s.heap.ptr^[k] (s.heap.ptr prevp)) s := by
  induction k generalizing prevp with
  | zero => rfl
  | succ k ih =>
    have hsize : s.heap.size (s.heap.ptr prevp) < n := (hno 0 (Nat.zero_lt_succ k)).1
    have hne : s.heap.ptr prevp ≠ s.heap.freep := (hno 0 (Nat.zero_lt_succ k)).2
    rw [← Nat.add_assoc, mallocLoop, if_neg (Nat.not_le.mpr hsize), if_neg hne, ih fun i hi => ?_]
    · rfl
    · exact hno (i + 1) (Nat.succ_lt_succ hi)

theorem Rep.iterate_mem {h : Heap} (hr : Rep base h fl) (hp : p ∈ ((base, 0) :: fl).map Prod.fst) (k : Nat) :
    h.ptr^[k] p ∈ ((base, 0) :: fl).map Prod.fst := by
  induction k generalizing p with
  | zero => exact hp
  | succ k ih => exact ih (hr.chain.linked.next_mem hp)

/-- The loop finds a block that is large enough, if there is one. -/
theorem Good.mallocLoop_fit (hg : Good base s fl out) (hn : 0 < n) (hx : ∃ x ∈ fl, 16 * n ≤ x.2) :
    ∃ a fl' h', Ends (fun fuel => mallocLoop n fuel s.heap.freep (s.heap.ptr s.heap.freep) s)
        (a + 16, { s with heap := h' }) ∧
      Good base { s with heap := h' } fl' ((a, 16 * n) :: out) := by
  classical
  obtain ⟨x, hx, hle⟩ := hx
  have hlinked := hg.rep.chain.linked
  have hxmem : x ∈ (base, 0) :: fl := List.mem_cons_of_mem _ hx
  obtain ⟨k, -, hwalk⟩ := hlinked.reach (hlinked.next_mem hg.rep.freep) (List.mem_map_of_mem hxmem)
  obtain ⟨k, hwalk, havoid⟩ := exists_walk_avoiding ⟨k, hwalk⟩
  -- the first block on the way that is large enough
  have hfirst : ∃ i, n ≤ s.heap.size (s.heap.ptr^[i] (s.heap.ptr s.heap.freep)) := by
    refine ⟨k, ?_⟩
    have hsize := hg.rep.chain.size x hxmem
    rw [hwalk]
    omega
  have hkle : Nat.find hfirst ≤ k := by
    refine Nat.find_min' hfirst ?_
    have hsize := hg.rep.chain.size x hxmem
    rw [hwalk]
    omega
  have hskip : ∀ i < Nat.find hfirst, s.heap.size (s.heap.ptr^[i] (s.heap.ptr s.heap.freep)) < n ∧
      s.heap.ptr^[i] (s.heap.ptr s.heap.freep) ≠ s.heap.freep := fun i hi =>
    ⟨Nat.not_le.mp (Nat.find_min hfirst hi), havoid i (Nat.lt_of_lt_of_le hi hkle)⟩
  have hfit := Nat.find_spec hfirst
  generalize Nat.find hfirst = j at hskip hfit
  have hprev := hg.rep.iterate_mem hg.rep.freep j
  rw [← Function.iterate_succ_apply, Function.iterate_succ_apply'] at hfit
  obtain ⟨a, fl', h', htake, hgood⟩ := hg.take hprev hn hfit
  refine ⟨a, fl', h', ⟨j + 1, fun fuel hfuel => ?_⟩, hgood⟩
  obtain ⟨f, rfl⟩ := Nat.exists_eq_add_of_le' hfuel
  have harith : f + (j + 1) = f + 1 + j := by omega
  simp only [harith]
  rw [mallocLoop_skip hskip, ← Function.iterate_succ_apply, Function.iterate_succ_apply', mallocLoop,
    if_pos hfit, htake]

/-- If there is none, the loop comes to `morecore`. -/
theorem Good.mallocLoop_none (hg : Good base s fl out) (hn : 0 < n) (hx : ∀ x ∈ fl, x.2 < 16 * n) :
    ∃ k, ∀ fuel, mallocLoop n (fuel + 1 + k) s.heap.freep (s.heap.ptr s.heap.freep) s =
      (Umalloc.morecore fuel n s).bind fun r =>
        if r.1 = 0 then .ok (0, r.2) else mallocLoop n fuel r.1 (r.2.heap.ptr r.1) r.2 := by
  have hlinked := hg.rep.chain.linked
  have hsmall : ∀ a ∈ ((base, 0) :: fl).map Prod.fst, s.heap.size a < n := by
    intro a ha
    obtain ⟨x, hxmem, rfl⟩ := List.mem_map.mp ha
    have hsize := hg.rep.chain.size x hxmem
    rcases List.mem_cons.mp hxmem with rfl | hx'
    · simp only at hsize ⊢
      omega
    · have hlt := hx x hx'
      omega
  have hmem := hlinked.next_mem hg.rep.freep
  obtain ⟨k, -, hwalk⟩ := hlinked.reach hmem hg.rep.freep
  obtain ⟨k, hwalk, havoid⟩ := exists_walk_avoiding ⟨k, hwalk⟩
  refine ⟨k, fun fuel => ?_⟩
  rw [mallocLoop_skip fun i hi => ⟨hsmall _ (hg.rep.iterate_mem hmem i), havoid i hi⟩, hwalk, mallocLoop,
    if_neg (Nat.not_le.mpr (hsmall _ hg.rep.freep)), if_pos rfl]

/-- The loop when the number of bytes is one for `sbrk`. -/
theorem Good.mallocLoop_grow (hg : Good base s fl out) (hn : 0 < n) (hx : ∀ x ∈ fl, x.2 < 16 * n)
    (hsmall : 16 * rounded n < 2 ^ 31) :
    Ends (fun fuel => mallocLoop n fuel s.heap.freep (s.heap.ptr s.heap.freep) s)
        (0, { s with grants := s.grants.tail }) ∨
      ∃ a fl' s', Ends (fun fuel => mallocLoop n fuel s.heap.freep (s.heap.ptr s.heap.freep) s) (a + 16, s') ∧
        Good base s' fl' ((a, 16 * n) :: out) ∧ s'.grown = (16 * (rounded n : Int), rounded n) :: s.grown := by
  obtain ⟨k, hloop⟩ := hg.mallocLoop_none hn hx
  rcases hg.morecore hsmall with hmore | ⟨s₁, hmore, hgood, hgrown⟩
  · refine .inl ⟨k + 1, fun fuel hfuel => ?_⟩
    obtain ⟨f, rfl⟩ := Nat.exists_eq_add_of_le' hfuel
    have harith : f + (k + 1) = f + 1 + k := by omega
    simp only [harith]
    rw [hloop, hmore]
    rfl
  · have hfit : ∃ x ∈ place (s.sz, 16 * rounded n) fl, 16 * n ≤ x.2 := by
      obtain ⟨z, hz, hle⟩ := exists_long_place (x := (s.sz, 16 * rounded n)) (l := fl)
      have hn' : n ≤ rounded n := by
        rw [rounded]
        split <;> omega
      exact ⟨z, hz, Nat.le_trans (Nat.mul_le_mul_left 16 hn') hle⟩
    obtain ⟨a, fl', h', ⟨N, hend⟩, hgood'⟩ := hgood.mallocLoop_fit hn hfit
    refine .inr ⟨a, fl', _, ⟨N + fl.length + 1 + (k + 1), fun fuel hfuel => ?_⟩, hgood', hgrown⟩
    obtain ⟨f, rfl⟩ := Nat.exists_eq_add_of_le' hfuel
    have harith : f + (N + fl.length + 1 + (k + 1)) = f + (N + fl.length + 1) + 1 + k := by omega
    simp only [harith]
    rw [hloop, hmore _ (by omega)]
    simp only [Except.bind, if_neg hgood.freep_ne]
    exact hend _ (by omega)

/-! ## `malloc` -/

theorem units_pos (nbytes : UInt32) : 0 < units nbytes := by
  have hlt := nbytes.toNat_lt
  rw [units, Nat.mod_eq_of_lt (by omega)]
  exact Nat.succ_pos _

/-- The block has room for the bytes behind its header. -/
theorem le_units (nbytes : UInt32) : nbytes.toNat + 16 ≤ 16 * units nbytes := by
  have hlt := nbytes.toNat_lt
  rw [units, Nat.mod_eq_of_lt (by omega)]
  omega

/-- `malloc` returns 0 and leaves the heap alone, or it hands out a block; it gets from `sbrk` what it
writes into the header. -/
structure Hands (base : Nat) (nbytes : UInt32) (out : List Extent) (s : Proc) (r : Nat) (s' : Proc) : Prop where
  result : r = 0 ∧ s'.heap = s.heap ∧ (∃ fl, Good base s' fl out) ∨
    ∃ a fl, r = a + 16 ∧ Good base s' fl ((a, 16 * units nbytes) :: out)
  grown : ∃ new, s'.grown = new ++ s.grown ∧ ∀ g ∈ new, g.1 = 16 * g.2

theorem Good.malloc {nbytes : UInt32} (hg : Good base { s with heap := start base s.heap } fl out)
    (hsmall : (∃ x ∈ fl, 16 * units nbytes ≤ x.2) ∨ 16 * units nbytes < 2 ^ 31) :
    ∃ r s', Ends (fun fuel => Umalloc.malloc base fuel nbytes s) (r, s') ∧
      Hands base nbytes out { s with heap := start base s.heap } r s' := by
  by_cases hfit : ∃ x ∈ fl, 16 * units nbytes ≤ x.2
  · obtain ⟨a, fl', h', hend, hgood⟩ := hg.mallocLoop_fit (units_pos nbytes) hfit
    exact ⟨_, _, hend, .inr ⟨a, fl', rfl, hgood⟩, [], rfl, fun g hg => absurd hg List.not_mem_nil⟩
  · have hlt := hsmall.resolve_left hfit
    have hrounded : 16 * rounded (units nbytes) < 2 ^ 31 := by
      rw [rounded]
      split <;> omega
    have hnone : ∀ x ∈ fl, x.2 < 16 * units nbytes := by
      intro x hx
      exact Nat.not_le.mp fun hle => hfit ⟨x, hx, hle⟩
    rcases hg.mallocLoop_grow (units_pos nbytes) hnone hrounded with hend | ⟨a, fl', s', hend, hgood, hgrown⟩
    · refine ⟨_, _, hend, .inl ⟨rfl, rfl, fl, ?_⟩, [], rfl, fun g hg => absurd hg List.not_mem_nil⟩
      exact ⟨hg.rep, hg.size, hg.layout, hg.obtained, hg.recorded, hg.bound, hg.base_pos, hg.base_le⟩
    · refine ⟨_, _, hend, .inr ⟨a, fl', rfl, hgood⟩, [_], hgrown, fun g hg => ?_⟩
      rw [List.mem_singleton.mp hg]

end

end Xv6.Umalloc
