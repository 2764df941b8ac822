-- SUMMARY: Memory as a bag of pages: those that a table maps for the user, and those between the kernel and `PHYSTOP`.
import Xv6.Vm.Space

/-!
# Bags of pages

A page table consists of its own pages and of those that it maps: the pages of the user, the
trapframe and the trampoline. The pages that `kinit` frees are all different, and there are fewer
of them than pages below the trapframe.
-/

namespace Xv6.Vm

open Radix

variable {t : Pagetable}

/-! ## The pages of a table -/

/-- The pages that a table maps below the trapframe. -/
def userPages (t : Pagetable) : Multiset Nat :=
  ∑ v ∈ Finset.range NPAGES, (Trie.values (t.get v)).map Pte.pa

theorem map_pa_sum (l : Finset Nat) (f : Nat → Multiset Pte) :
    (∑ v ∈ l, f v).map Pte.pa = ∑ v ∈ l, (f v).map Pte.pa :=
  map_sum (Multiset.mapAddMonoidHom Pte.pa) f l

/-- A table is made of its own pages, those of the user, the trapframe and the trampoline. -/
theorem tablePages_eq {sz tf tramp : Nat} (h : Layout t sz tf tramp) (hsz : sz ≤ TRAPFRAME) :
    tablePages t = t.nodes + userPages t + {tf} + {tramp} := by
  have hle := npages_le hsz
  obtain ⟨r, hr⟩ : ∃ r, VPNS = NPAGES + 2 + r := ⟨VPNS - (NPAGES + 2), by
    have := npages_lt_vpns
    omega⟩
  have hleaves : t.leaves = ∑ v ∈ Finset.range VPNS, Trie.values (t.get v) := Trie.leaves_eq_sum t
  rw [hr, Finset.sum_range_add, Finset.sum_range_succ, Finset.sum_range_succ, h.trapframe,
    h.trampoline] at hleaves
  have hrest : ∑ x ∈ Finset.range r, Trie.values (t.get (NPAGES + 2 + x)) = 0 := by
    refine Finset.sum_eq_zero fun x hx => ?_
    have hx := Finset.mem_range.mp hx
    have hnone : t.get (NPAGES + 2 + x) = none := by
      by_contra hmapped
      rcases h.user _ (by omega) hmapped with h' | h' | h' <;> omega
    rw [hnone, Trie.values]
  rw [hrest, add_zero] at hleaves
  rw [tablePages, hleaves, Multiset.map_add, Multiset.map_add, map_pa_sum, ← userPages, Trie.values,
    Trie.values, Multiset.map_singleton, Multiset.map_singleton]
  abel

theorem mem_userPages {v : Nat} {e : Pte} (hv : v < NPAGES) (h : t.get v = some e) :
    e.pa ∈ userPages t := by
  rw [userPages, Multiset.mem_sum]
  exact ⟨v, Finset.mem_range.mpr hv, by simp [h, Trie.values]⟩

/-- At how many addresses does a table map the page below the trapframe? -/
def mappings (t : Pagetable) (pa : Nat) : Nat :=
  ((Finset.range NPAGES).filter fun v => (t.get v).map Pte.pa = some pa).card

theorem count_values {o : Option Pte} {pa : Nat} :
    ((Trie.values o).map Pte.pa).count pa = if o.map Pte.pa = some pa then 1 else 0 := by
  cases o with
  | none => rfl
  | some e =>
    rw [Trie.values, Multiset.map_singleton, Multiset.count_singleton, Option.map_some]
    simp only [Option.some.injEq, eq_comm]

theorem count_userPages {pa : Nat} : (userPages t).count pa = mappings t pa := by
  rw [userPages, Multiset.count_sum', mappings, Finset.card_filter]
  exact Finset.sum_congr rfl fun v _ => count_values

-- Unfolding one of these writes out a sum with `NPAGES` terms.
attribute [irreducible] userPages mappings

/-! ## Memory as a bag of pages -/

theorem ramPages_nodup (image : KernelImage) : (ramPages image).Nodup := by
  refine List.Nodup.map (fun a b hab => ?_) List.nodup_range
  simp only [PGSIZE] at hab
  omega

/-- The pages of memory are those that `kfree` accepts. -/
theorem mem_ramPages {k : Kmem} {x : Nat} : x ∈ ramPages k.image ↔ k.IsPage x := by
  have hend := k.image.kend_le
  have hup : pgroundup k.image.kend % PGSIZE = 0 := Nat.mul_mod_left _ _
  have hle : k.image.kend ≤ pgroundup k.image.kend ∧
      pgroundup k.image.kend < k.image.kend + PGSIZE := by
    simp only [pgroundup, PGSIZE, UINT64, PHYSTOP, KERNBASE] at *
    omega
  simp only [ramPages, List.mem_map, List.mem_range, Kmem.IsPage]
  constructor
  · rintro ⟨i, hi, rfl⟩
    simp only [PGSIZE, PHYSTOP, KERNBASE] at *
    omega
  · rintro ⟨halign, hlo, hhi⟩
    refine ⟨(x - pgroundup k.image.kend) / PGSIZE, ?_, ?_⟩
    · simp only [PGSIZE, PHYSTOP, KERNBASE] at *
      omega
    · simp only [PGSIZE, PHYSTOP, KERNBASE] at *
      omega

/-- There are fewer pages of memory than pages below the trapframe. -/
theorem length_ramPages (image : KernelImage) : (ramPages image).length + 1 ≤ NPAGES := by
  rw [ramPages, List.length_map, List.length_range]
  have : (PHYSTOP - pgroundup image.kend) / PGSIZE ≤ PHYSTOP / PGSIZE :=
    Nat.div_le_div_right (Nat.sub_le _ _)
  simp only [PHYSTOP, KERNBASE, PGSIZE, NPAGES, TRAPFRAME, TRAMPOLINE, MAXVA] at *
  omega

theorem trampoline_notMem (image : KernelImage) : image.trampoline ∉ ramPages image := by
  have hlt := image.trampoline_lt
  have hpage : image.trampoline ∈ ramPages (kinit image).image ↔ _ := mem_ramPages
  intro hmem
  have := (hpage.mp hmem).2.1
  simp only [kinit, PGSIZE] at this hlt
  omega

end Xv6.Vm
