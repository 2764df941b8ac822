-- SUMMARY: When memory runs out in `uvmalloc`, `uvmcopy`, `vmfault` or `proc_pagetable`, everything is as before, but for pages of the table.
import Xv6.Vm.Fork

/-!
# Running out of memory

Any call of `kalloc` may fail, for a page of user memory or for a page of the table. The functions
that grow, copy or make a table then undo what they have done. The table may keep pages for its
own levels that it got on the way; they are freed with it.
-/

namespace Xv6

open Prog Radix

variable {G : Nat → Prop} {k k' : Kmem} {t t' : Pagetable} {p np : Proc} {sz tf : Nat}

/-- The table maps what it mapped before, with the same contents. All pages that are gone from the
free list are in the table itself. -/
structure Unwound (k : Kmem) (t : Pagetable) (k' : Kmem) (t' : Pagetable) : Prop where
  get : ∀ v < VPNS, t'.get v = t.get v
  page : ∀ v < VPNS, ∀ e, t.get v = some e → k'.page e.pa = k.page e.pa
  pages : (k'.freelist : Multiset Nat) + t'.nodes = k.freelist + t.nodes

/-- Freeing the table frees the pages for its levels. -/
def FreesNodes (k : Kmem) (t : Pagetable) (sz : Nat) : Prop :=
  ∃ k', procFreepagetable t sz k = .ok () k' ∧ ∀ x ∈ t.nodes, x ∈ k'.freelist

theorem leaves_congr (h : ∀ v < VPNS, t'.get v = t.get v) : t'.leaves = t.leaves := by
  rw [Trie.leaves_eq_sum, Trie.leaves_eq_sum]
  refine Finset.sum_congr rfl fun v hv => ?_
  rw [h v (Finset.mem_range.mp hv)]

theorem Unwound.of_stock (hstock : stock k' t' = stock k t) (hget : ∀ v < VPNS, t'.get v = t.get v)
    (hin : Inside k k') (hnodup : (stock k t).Nodup) : Unwound k t k' t' where
  get := hget
  page v _ e he := by
    refine hin.keeps_page fun hfree => ?_
    exact Multiset.disjoint_left.mp (Multiset.nodup_add.mp hnodup).2.2 (Multiset.mem_coe.mpr hfree)
      (mem_tablePages he)
  pages := by
    rw [stock, stock, tablePages, tablePages, leaves_congr hget, ← add_assoc, ← add_assoc] at hstock
    exact add_right_cancel hstock

theorem freesNodes (h : k.Ok G) (ht : TableOk G t) (hl : Layout t sz tf k.image.trampoline)
    (hsz : sz ≤ TRAPFRAME) (hdiff : ∀ x ∈ t.nodes, x ≠ tf ∧ x ≠ k.image.trampoline) : FreesNodes k t sz := by
  have hwp : wp (procFreepagetable t sz) (fun _ k' => k'.Ok G ∧ k'.image = k.image ∧
      (k'.freelist : Multiset Nat) + {tf} + {k.image.trampoline} = k.freelist + tablePages t ∧
      OnlyFrees k k') (fun _ _ => False) k := wp_procFreepagetable h ht hl (hsz.trans trapframe_le)
  obtain ⟨_, k', hrun, -, -, hlist, -⟩ := hwp.returns
  refine ⟨k', hrun, fun x hx => ?_⟩
  have hmem : x ∈ (k'.freelist : Multiset Nat) + {tf} + {k.image.trampoline} := by
    rw [hlist, tablePages]
    exact Multiset.mem_add.mpr (.inr (Multiset.mem_add.mpr (.inl hx)))
  simp only [Multiset.mem_add, Multiset.mem_singleton, Multiset.mem_coe] at hmem
  obtain ⟨htf, htramp⟩ := hdiff x hx
  exact (hmem.resolve_right htramp).resolve_right htf

/-- The pages of a table are not the special pages that it maps. -/
theorem nodes_ne (hnodup : (stock k t).Nodup) (hl : Layout t sz tf k.image.trampoline) :
    ∀ x ∈ t.nodes, x ≠ tf ∧ x ≠ k.image.trampoline := by
  have hdisj := (Multiset.nodup_add.mp (Multiset.nodup_add.mp hnodup).2.1).2.2
  have hleaf {v : Nat} {e : Pte} (he : t.get v = some e) {x : Nat} (hx : x ∈ t.nodes) : x ≠ e.pa := by
    rintro rfl
    exact Multiset.disjoint_left.mp hdisj hx (Multiset.mem_map_of_mem Pte.pa (Trie.mem_leaves he))
  exact fun x hx => ⟨hleaf hl.trapframe hx, hleaf hl.trampoline hx⟩

/-- A growth that failed. -/
theorem uvmalloc_unwound {newsz : Nat} {w x : Bool} (h : Owns G k p)
    (hrun : uvmalloc p.pagetable p.sz newsz w x k = .ok (t', 0) k') :
    Unwound k p.pagetable k' t' ∧ FreesNodes k' t' p.sz := by
  have htf : p.pagetable.get NPAGES ≠ none := by
    rw [h.proc.layout.trapframe]
    exact Option.some_ne_none _
  have hwp : wp (uvmalloc p.pagetable p.sz newsz w x)
      (fun r k' => GrownTo G k p.pagetable p.sz newsz ⟨true, w, x, true⟩ k' r.1 r.2) (fun _ _ => True) k :=
    wp_uvmalloc h.kmem h.proc.table h.proc.sz (.inr (.inr ⟨htf, fun _ _ => trivial⟩))
      fun v hv hlt => h.proc.layout.free hv hlt
  obtain ⟨hg, hin, -⟩ :=
    (hwp.also (wp_uvmalloc_view h.kmem h.proc.table h.nodup h.proc.sz htf)).of_ok hrun
  have hget := hg.same_of_zero rfl
  have hl : Layout t' p.sz p.trapframe k'.image.trampoline := by
    rw [hg.image]
    exact h.proc.layout.congr hget
  exact ⟨.of_stock hg.stock hget hin h.nodup,
    freesNodes hg.kmem hg.table hl h.proc.sz (nodes_ne (hg.stock.symm ▸ h.nodup) hl)⟩

/-- A page fault that failed. -/
theorem vmfault_unwound {va : Nat} {p' : Proc} (h : Owns G k p)
    (hrun : vmfault Proc.pagetable p va k = .ok (p', none) k') :
    Unwound k p.pagetable k' p'.pagetable ∧ FreesNodes k' p'.pagetable p'.sz := by
  have hwp : wp (vmfault Proc.pagetable p va)
      (fun r k' => Faulted G k p va k' r.1 r.2) (fun _ _ => True) k := wp_vmfault h.kmem h.proc
  have hf := hwp.of_ok hrun
  have hok := hf.ok
  exact ⟨.of_stock hf.stock (fun v hv => hf.same v hv fun _ => rfl) hf.took.inside h.nodup,
    freesNodes hf.kmem hok.table hok.layout hok.sz (nodes_ne (hf.stock.symm ▸ h.nodup) hok.layout)⟩

/-- Tables without user memory that map the same special pages map the same. -/
theorem Layout.unique {tramp v : Nat} (h : Layout t 0 tf tramp) (h' : Layout t' 0 tf tramp) (hv : v < VPNS) :
    t.get v = t'.get v := by
  by_cases htf : v = NPAGES
  · rw [htf, h.trapframe, h'.trapframe]
  · by_cases htramp : v = NPAGES + 1
    · rw [htramp, h.trampoline, h'.trampoline]
    · have hnone {t : Pagetable} (hl : Layout t 0 tf tramp) : t.get v = none := by
        by_contra hmapped
        obtain hlt | heq | heq := hl.user v hv hmapped
        · exact Nat.not_lt_zero v hlt
        · exact htf heq
        · exact htramp heq
      rw [hnone h, hnone h']

/-- A copy that failed: the new table maps the trapframe and the trampoline, as before. -/
theorem uvmcopy_unwound (h : Apart G k p np) (hsz : np.sz = 0)
    (hrun : uvmcopy p.pagetable np.pagetable p.sz k = .ok (t', false) k') :
    Unwound k np.pagetable k' t' ∧ FreesNodes k' t' 0 ∧ (∀ v < NPAGES, t'.get v = none) ∧
      ∀ v < VPNS, ∀ e, p.pagetable.get v = some e → k'.page e.pa = k.page e.pa := by
  have hl : Layout np.pagetable 0 np.trapframe k.image.trampoline := hsz ▸ h.right.layout
  have hwp : wp (uvmcopy p.pagetable np.pagetable p.sz)
      (fun r k' => Copied G k np.pagetable p.sz np.trapframe k.image.trampoline k' r.1 r.2)
      (fun _ _ => True) k := wp_uvmcopy h.kmem h.right.table hl h.left.layout.readable h.left.sz
  obtain ⟨hc, hin, -⟩ := (hwp.also (wp_uvmcopy_view h.kmem h.right.table h.symm.owns.nodup hl h.left.sz
    fun v _ e he => h.owns.notMem_free he)).of_ok hrun
  have hl' : Layout t' 0 np.trapframe k.image.trampoline := hc.layout
  have hget (v : Nat) (hv : v < VPNS) : t'.get v = np.pagetable.get v := hl'.unique hl hv
  have hl'' : Layout t' 0 np.trapframe k'.image.trampoline := hc.image.symm ▸ hl'
  exact ⟨.of_stock hc.stock hget hin h.symm.owns.nodup,
    freesNodes hc.kmem hc.table hl'' (Nat.zero_le _) (nodes_ne (hc.stock.symm ▸ h.symm.owns.nodup) hl''),
    fun v hv => hl'.free (Nat.zero_le v) hv,
    fun v _ e he => hin.keeps_page (h.owns.notMem_free he)⟩

/-- A new table that could not be made. -/
theorem procPagetable_unwound (h : k.Ok G) (hrun : procPagetable tf k = .ok .nil k') :
    (k'.freelist : Multiset Nat) = k.freelist ∧ ∀ x ∉ k.freelist, k'.page x = k.page x := by
  have hwp : wp (procPagetable tf) (fun t k' => Created G k tf k' t) (fun _ _ => True) k := wp_procPagetable h
  obtain ⟨hc, hin⟩ := (hwp.also (wp_procPagetable_inside h)).of_ok hrun
  refine ⟨?_, fun x hx => hin.keeps_page hx⟩
  obtain ⟨-, hlist⟩ | ⟨ht, -⟩ := hc.result
  · exact hlist
  · exact absurd rfl ht.ne

/-- Whenever `uvmalloc` returns 0 for a growth, `uvmcopy` -1, `vmfault` 0 or `proc_pagetable` 0, the
table maps what it mapped, what it maps has the same contents, and the pages that were taken are
free again or are pages of the table, which are freed with it. -/
theorem out_of_memory_unwinds (h : Pages k.IsPage k p) (hsz : p.sz ≤ TRAPFRAME) :
    (∀ newsz w x t k', p.sz ≤ newsz → uvmalloc p.pagetable p.sz newsz w x k = .ok (t, 0) k' →
      Unwound k p.pagetable k' t ∧ FreesNodes k' t p.sz) ∧
    (∀ np t k', Apart k.IsPage k p np → np.sz = 0 →
      uvmcopy p.pagetable np.pagetable p.sz k = .ok (t, false) k' →
      Unwound k np.pagetable k' t ∧ FreesNodes k' t 0 ∧ (∀ v < NPAGES, t.get v = none) ∧
        ∀ v < VPNS, ∀ e, p.pagetable.get v = some e → k'.page e.pa = k.page e.pa) ∧
    (∀ va p' k', vmfault Proc.pagetable p va k = .ok (p', none) k' →
      Unwound k p.pagetable k' p'.pagetable ∧ FreesNodes k' p'.pagetable p'.sz) ∧
    ∀ tf k', procPagetable tf k = .ok .nil k' →
      (k'.freelist : Multiset Nat) = k.freelist ∧ ∀ x ∉ k.freelist, k'.page x = k.page x :=
  ⟨fun _ _ _ _ _ _ => uvmalloc_unwound (h.owns hsz), fun _ _ _ => uvmcopy_unwound,
    fun _ _ _ => vmfault_unwound (h.owns hsz),
    fun _ _ => procPagetable_unwound h.kmem⟩

/-- A check that a growth by two pages fails. -/
def growthFails (k : Kmem) (p : Proc) : Bool :=
  match uvmalloc p.pagetable p.sz (p.sz + 2 * PGSIZE) true false k with
  | .ok (_, sz) _ => sz == 0
  | .error _ _ => false

theorem exists_of_growthFails (h : growthFails k p = true) :
    ∃ t k', uvmalloc p.pagetable p.sz (p.sz + 2 * PGSIZE) true false k = .ok (t, 0) k' := by
  unfold growthFails at h
  split at h
  · next t sz k' hrun => exact ⟨t, k', eq_of_beq h ▸ hrun⟩
  · cases h

/-- A process with a page grows by two, and there is only one. -/
theorem out_of_memory_unwinds_growth : ∃ k p t k', Pages k.IsPage k p ∧ p.sz = 4096 ∧
    uvmalloc p.pagetable p.sz (p.sz + 2 * PGSIZE) true false k = .ok (t, 0) k' ∧
    Unwound k p.pagetable k' t ∧ FreesNodes k' t p.sz := by
  obtain ⟨k, p, howns, -, hcheck⟩ := @exists_owns [false, true]
    (fun k p => decide (p.sz = 4096 ∧ growthFails k p = true)) [(.sbrk 0 4096 1, [])] (by decide +kernel)
  obtain ⟨hsz, hfails⟩ := of_decide_eq_true hcheck
  obtain ⟨t, k', hrun⟩ := exists_of_growthFails hfails
  exact ⟨k, p, t, k', howns.pages, hsz, hrun,
    (out_of_memory_unwinds howns.pages howns.proc.sz).1 _ _ _ _ _ (Nat.le_add_right ..) hrun⟩

end Xv6
