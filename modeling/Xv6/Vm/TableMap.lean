-- SUMMARY: A table that starts with `uvmcreate` refines a finite map, whatever is mapped and unmapped in it.
import Xv6.Vm.Mirror
import Xv6.Base.Transition

/-!
# Histories of a page table

A table is created, and then changed by `mappages`, `uvmunmap` and `uvmclear` in any order,
while the rest of the kernel allocates, frees and writes other pages. What `walk` finds in
it is a map from page numbers to pages and flags.
-/

namespace Xv6.Sv39

open Prog Radix

/-- What `walk` finds for an address: the physical page and the flags. -/
def entry (k : Kmem) (pagetable va : Nat) : Option (Nat × Nat) :=
  match walk pagetable va false k with
  | .ok (some (page, i)) _ =>
    let pte := k.pte page i
    if pte &&& PTE_V = 0 then none else some (pte2pa pte, pteFlags pte)
  | _ => none

/-- The entry for a page number. -/
def lookup (k : Kmem) (pagetable v : Nat) : Option (Nat × Nat) := entry k pagetable (v * PGSIZE)

/-- The pages that a table of level `l` consists of. -/
def pages (k : Kmem) : Nat → Nat → Multiset Nat
  | 0, pagetable => {pagetable}
  | l + 1, pagetable => {pagetable} + ((List.finRange 512).map fun i =>
      let pte := k.pte pagetable i
      if pte &&& PTE_V = 0 then 0 else pages k l (pte2pa pte)).sum

/-! ## Calls -/

/-- How `mappages` is called. -/
structure MapArgs (k : Kmem) (pagetable va size pa perm : Nat) : Prop where
  va_aligned : va % PGSIZE = 0
  size_aligned : size % PGSIZE = 0
  size_pos : 0 < size
  below : va + size ≤ MAXVA
  pa_lt : pa < UINT64
  perm_lt : perm < 1024
  readable : perm &&& PTE_R ≠ 0
  unmapped : ∀ v, va / PGSIZE ≤ v → v < (va + size) / PGSIZE → lookup k pagetable v = none

/-- How `uvmunmap` is called in order to free `n` pages from page number `v` on: they were
allocated, they are not part of the table, and each is mapped once. -/
structure FreeArgs (k : Kmem) (pagetable v n : Nat) : Prop where
  page : ∀ v' < MAXVPN, v ≤ v' → v' < v + n → ∀ e ∈ lookup k pagetable v',
    k.IsPage e.1 ∧ e.1 ∉ k.freelist ∧ e.1 ∉ pages k 2 pagetable
  once : ∀ v₁ v₂, v ≤ v₁ → v₁ < v₂ → v₂ < v + n → v₂ < MAXVPN →
    ∀ e₁ ∈ lookup k pagetable v₁, ∀ e₂ ∈ lookup k pagetable v₂, e₁.1 ≠ e₂.1

/-- The number of pages that `uvmunmap` looks at. -/
def unmapPages (va npages : Nat) : Nat := turns va ((va + npages * PGSIZE) % UINT64)

inductive Call
  | mappages (va size pa perm : Nat)
  | uvmunmap (va npages : Nat) (doFree : Bool)
  | uvmclear (va : Nat)
  /-- Whatever the rest of the kernel does. -/
  | other (k : Kmem)

def Call.run (pagetable : Nat) : Call → VmM Unit
  | .mappages va size pa perm => do
    let _ ← Sv39.mappages pagetable va size pa perm
  | .uvmunmap va npages doFree => Sv39.uvmunmap pagetable va npages doFree
  | .uvmclear va => Sv39.uvmclear pagetable va
  | .other k => set k

def Call.Allowed (pagetable : Nat) (k : Kmem) : Call → Prop
  | .mappages va size pa perm => MapArgs k pagetable va size pa perm
  | .uvmunmap va npages doFree => doFree = true → FreeArgs k pagetable (va / PGSIZE) (unmapPages va npages)
  | .uvmclear _ => True
  -- the pages of the table are not written, and stay allocated
  | .other k' => k'.image = k.image ∧ k'.freelist.Nodup ∧
      (∀ x ∈ k'.freelist, k'.IsPage x ∧ x ∉ pages k 2 pagetable) ∧
      ∀ x ∈ pages k 2 pagetable, k'.page x = k.page x

/-- A call returns. -/
def Step (pagetable : Nat) (k : Kmem) (c : Call) (k' : Kmem) : Prop := c.run pagetable k = .ok () k'

/-- The functions, as operations on the map from page numbers to entries. -/
structure IsMap (k : Kmem) (pagetable : Nat) : Prop where
  walk : ∀ va < MAXVA, entry k pagetable va = lookup k pagetable (va / PGSIZE)
  mappages : ∀ va size pa perm, MapArgs k pagetable va size pa perm →
    ∃ ok k' j, Sv39.mappages pagetable va size pa perm k = .ok ok k' ∧
      j ≤ size / PGSIZE ∧ (ok = true ↔ j = size / PGSIZE) ∧
      ∀ v < MAXVPN, lookup k' pagetable v = if va / PGSIZE ≤ v ∧ v < va / PGSIZE + j
        then some (pgrounddown ((pa + (v - va / PGSIZE) * PGSIZE) % UINT64), perm ||| PTE_V)
        else lookup k pagetable v
  uvmunmap : ∀ va npages doFree k',
    (doFree = true → FreeArgs k pagetable (va / PGSIZE) (unmapPages va npages)) →
    Sv39.uvmunmap pagetable va npages doFree k = .ok () k' →
    ∀ v < MAXVPN, lookup k' pagetable v =
      if va / PGSIZE ≤ v ∧ v < va / PGSIZE + unmapPages va npages then none else lookup k pagetable v
  uvmunmap_returns : ∀ va npages doFree, va % PGSIZE = 0 → va + npages * PGSIZE ≤ MAXVA →
    (doFree = true → FreeArgs k pagetable (va / PGSIZE) npages) →
    unmapPages va npages = npages ∧ ∃ k', Sv39.uvmunmap pagetable va npages doFree k = .ok () k'
  uvmclear : ∀ va k', Sv39.uvmclear pagetable va k = .ok () k' →
    ∀ v < MAXVPN, lookup k' pagetable v = if v = va / PGSIZE
      then (lookup k pagetable v).map fun e => (e.1, e.2 &&& (0x3FF - PTE_U)) else lookup k pagetable v
  freewalk : (∀ v < MAXVPN, lookup k pagetable v = none) →
    ∃ k' new, Sv39.freewalk 3 pagetable k = .ok () k' ∧ k'.freed = new ++ k.freed ∧ new.Nodup ∧
      (new : Multiset Nat) = pages k 2 pagetable

/-! ## What the tree says about them -/

variable {k k' : Kmem} {l v : Nat}

theorem entry_eq {t : Table 2} {va : Nat} (h : Ok k t) (hva : va < MAXVA) :
    entry k t.addr va = (t.get (va / PGSIZE)).map fun w => (pte2pa w, pteFlags w) := by
  have hwalk : wp (walk t.addr va false)
      (fun r k' => r = (t.home (va / PGSIZE)).map (fun b => (b, digit 512 0 (va / PGSIZE))) ∧ k' = k)
      (fun _ _ => False) k :=
    wp_walk_find h (fun hge => absurd hva (Nat.not_lt.mpr hge)) fun _ => ⟨rfl, rfl⟩
  obtain ⟨r, k', hrun, rfl, rfl⟩ := hwalk.returns
  rw [entry, hrun]
  cases hhome : t.home (va / PGSIZE) with
  | none =>
    rw [Trie.get, Trie.home_eq_none.mp hhome]
    rfl
  | some b =>
    obtain ⟨hpte, hleaf⟩ := h.holds.read hhome
    simp only [Option.map_some, hpte]
    cases hget : t.get (va / PGSIZE) with
    | none => rfl
    | some w => exact if_neg (hleaf w hget).2.1

theorem lookup_eq {t : Table 2} (h : Ok k t) (hv : v < MAXVPN) :
    lookup k t.addr v = (t.get v).map fun w => (pte2pa w, pteFlags w) := by
  have hva : v * PGSIZE < MAXVA := by
    simp only [MAXVPN, MAXVA, PGSIZE] at hv ⊢
    omega
  rw [lookup, entry_eq h hva, page_div]

theorem pages_eq {t : Table l} (h : Ok k t) : pages k l t.addr = t.nodes := by
  induction t with
  | nil => exact absurd rfl h.ne
  | leaf a slot => rw [pages, Trie.nodes_leaf, Trie.addr]
  | @node l a slot ih =>
    rw [pages, Trie.nodes_node, Trie.addr]
    congr 3
    funext i
    simp only [(h.holds i).1]
    by_cases hnil : slot i = .nil
    · have hzero : dirWord (Trie.nil : Table l) = 0 := rfl
      rw [hnil, Trie.nodes_nil, hzero, Nat.zero_and, if_pos rfl]
    · obtain ⟨hv, -, hpa⟩ := (h.child hnil).dirWord
      rw [if_neg hv, hpa, ih i (h.child hnil)]

/-- A table at `pagetable` that maps nothing above `MAXVA`. -/
structure Inv (k : Kmem) (pagetable : Nat) (t : Table 2) : Prop where
  ok : Ok k t
  addr : t.addr = pagetable
  high : ∀ v < 512 ^ (2 + 1), MAXVPN ≤ v → t.get v = none

variable {pagetable : Nat} {t t' : Table 2}

namespace Inv

theorem lookup (h : Inv k pagetable t) (hv : v < MAXVPN) :
    lookup k pagetable v = (t.get v).map fun w => (pte2pa w, pteFlags w) := by
  rw [← h.addr]
  exact lookup_eq h.ok hv

theorem get_none (h : Inv k pagetable t) (hv : v < MAXVPN) (hnone : Sv39.lookup k pagetable v = none) :
    t.get v = none := by
  rwa [h.lookup hv, Option.map_eq_none_iff] at hnone

theorem pages (h : Inv k pagetable t) : Sv39.pages k 2 pagetable = t.nodes := by
  rw [← h.addr]
  exact pages_eq h.ok

theorem kept (h : Inv k pagetable t) (hkept : Kept k t k' t')
    (hhigh : ∀ v < 512 ^ (2 + 1), MAXVPN ≤ v → t'.get v = none) : Inv k' pagetable t' :=
  ⟨hkept.ok, hkept.addr.trans h.addr, hhigh⟩

theorem freeable {n : Nat} (h : Inv k pagetable t) (hargs : FreeArgs k pagetable v n) : Freeable k t v n := by
  have hlow {v' : Nat} {w : Nat} (hlt : v' < 512 ^ (2 + 1)) (hw : w ∈ t.get v') : v' < MAXVPN := by
    by_contra hge
    rw [h.high v' hlt (Nat.not_lt.mp hge)] at hw
    cases hw
  have hmem {v' : Nat} {w : Nat} (hlt : v' < MAXVPN) (hw : w ∈ t.get v') :
      (pte2pa w, pteFlags w) ∈ Sv39.lookup k pagetable v' := by
    rw [h.lookup hlt, Option.mem_def, Option.mem_def.mp hw]
    rfl
  refine ⟨fun v' hlt hlo hhi w hw => ?_, fun v₁ v₂ hlo hlt hhi hlt₂ w₁ hw₁ w₂ hw₂ => ?_⟩
  · have hv' := hlow hlt hw
    obtain ⟨hpage, hfree, hnode⟩ := hargs.page v' hv' hlo hhi _ (hmem hv' hw)
    exact ⟨hpage, hfree, h.pages ▸ hnode⟩
  · have hv₂ := hlow hlt₂ hw₂
    exact hargs.once v₁ v₂ hlo hlt hhi hv₂ _ (hmem (hlt.trans hv₂) hw₁) _ (hmem hv₂ hw₂)

end Inv

/-- Page numbers below `MAXVA`. -/
theorem maxvpn_le : MAXVPN ≤ 512 ^ (2 + 1) := by decide

theorem inv_mappages {va size pa perm : Nat} (h : Inv k pagetable t)
    (hargs : MapArgs k pagetable va size pa perm) :
    ∃ ok k' t' j, mappages pagetable va size pa perm k = .ok ok k' ∧ Inv k' pagetable t' ∧
      j ≤ size / PGSIZE ∧ (ok = true ↔ j = size / PGSIZE) ∧
      ∀ v < MAXVPN, t'.get v = if va / PGSIZE ≤ v ∧ v < va / PGSIZE + j
        then some (mapWord pa perm (v - va / PGSIZE)) else t.get v := by
  obtain ⟨hva, hsize, hpos, hbelow, hpa, hperm, hr, hfree⟩ := hargs
  have hva' : va / PGSIZE * PGSIZE = va := Nat.div_mul_cancel (Nat.dvd_of_mod_eq_zero hva)
  have hend : (va / PGSIZE + size / PGSIZE) * PGSIZE ≤ MAXVA := by
    simp only [PGSIZE, MAXVA] at *
    omega
  have hlast : va / PGSIZE + size / PGSIZE = (va + size) / PGSIZE := by
    simp only [PGSIZE] at *
    omega
  have hvpn : va / PGSIZE + size / PGSIZE ≤ MAXVPN := by
    rw [hlast]
    exact Nat.div_le_div_right hbelow
  have hloop := wp_mapLoop (E := fun _ _ => False) h.ok hend hpa hperm hr fun v hlo hhi =>
    h.get_none (by omega) (hfree v hlo (by omega))
  have hmap : wp (mappages pagetable va size pa perm) (fun ok k' => ∃ t' j, Kept k t k' t' ∧
      j ≤ size / PGSIZE ∧ (ok = true ↔ j = size / PGSIZE) ∧ ∀ v < 512 ^ (2 + 1), t'.get v =
        if va / PGSIZE ≤ v ∧ v < va / PGSIZE + j then some (mapWord pa perm (v - va / PGSIZE))
        else t.get v) (fun _ _ => False) k := by
    simp only [mappages, wp_bind, wp_stopIf, hva, hsize, ne_eq, not_true_eq_false, false_implies,
      not_false_eq_true, forall_const, true_and, Nat.ne_of_gt hpos]
    rwa [hva', h.addr] at hloop
  obtain ⟨ok, k', hrun, t', j, hkept, hj, hok, hget⟩ := hmap.returns
  refine ⟨ok, k', t', j, hrun, h.kept hkept fun v hlt hge => ?_, hj, hok, fun v hv => ?_⟩
  · rw [hget v hlt, if_neg (by omega)]
    exact h.high v hlt hge
  · exact hget v (hv.trans_le maxvpn_le)

theorem inv_uvmunmap {va npages : Nat} {doFree : Bool} (h : Inv k pagetable t)
    (hargs : doFree = true → FreeArgs k pagetable (va / PGSIZE) (unmapPages va npages)) :
    (uvmunmap pagetable va npages doFree k = .ok () k' → ∃ t', Inv k' pagetable t' ∧
      ∀ v < MAXVPN, t'.get v = if va / PGSIZE ≤ v ∧ v < va / PGSIZE + unmapPages va npages
        then none else t.get v) ∧
    (va % PGSIZE = 0 → (va / PGSIZE + unmapPages va npages) * PGSIZE ≤ MAXVA →
      ∃ k', uvmunmap pagetable va npages doFree k = .ok () k') := by
  have hfree (hdo : doFree = true) := h.freeable (hargs hdo)
  have hloop {E : Vm.Stop → Kmem → Prop} (hva : va % PGSIZE = 0)
      (hwalk : (va / PGSIZE + unmapPages va npages) * PGSIZE ≤ MAXVA ∨ ∀ k, E .walk k) :
      wp (unmapLoop pagetable doFree (unmapPages va npages) va) (fun _ k' => ∃ t', Kept k t k' t' ∧
        ∀ v < 512 ^ (2 + 1), t'.get v = if va / PGSIZE ≤ v ∧ v < va / PGSIZE + unmapPages va npages
          then none else t.get v) E k := by
    have hunmap := wp_unmapLoop h.ok hfree hwalk
    rwa [Nat.div_mul_cancel (Nat.dvd_of_mod_eq_zero hva), h.addr] at hunmap
  refine ⟨fun hrun => ?_, fun hva hle => ?_⟩
  · have hunmap : wp (uvmunmap pagetable va npages doFree) (fun _ k' => ∃ t', Kept k t k' t' ∧
        ∀ v < 512 ^ (2 + 1), t'.get v = if va / PGSIZE ≤ v ∧ v < va / PGSIZE + unmapPages va npages
          then none else t.get v) (fun _ _ => True) k := by
      rw [uvmunmap, wp_bind, wp_stopIf]
      exact ⟨fun _ => trivial, fun hva => hloop (not_not.mp hva) (.inr fun _ => trivial)⟩
    obtain ⟨t', hkept, hget⟩ := hunmap.of_ok hrun
    refine ⟨t', h.kept hkept fun v hlt hge => ?_, fun v hv => hget v (hv.trans_le maxvpn_le)⟩
    rw [hget v hlt, h.high v hlt hge, ite_self]
  · have hunmap : wp (uvmunmap pagetable va npages doFree) (fun _ _ => True) (fun _ _ => False) k := by
      rw [uvmunmap, wp_bind, wp_stopIf]
      refine ⟨fun hne => absurd hva hne, fun _ => (hloop hva (.inl hle)).imp fun _ _ _ => trivial⟩
    obtain ⟨_, k', hrun, -⟩ := hunmap.returns
    exact ⟨k', hrun⟩

theorem inv_uvmclear {va : Nat} (h : Inv k pagetable t) (hrun : uvmclear pagetable va k = .ok () k') :
    ∃ t', Inv k' pagetable t' ∧
      ∀ v < MAXVPN, t'.get v = if v = va / PGSIZE then (t.get v).map clearU else t.get v := by
  have hclear : wp (uvmclear pagetable va) (fun _ k' => ∃ t', Kept k t k' t' ∧
      ∀ v < 512 ^ (2 + 1), t'.get v = if v = va / PGSIZE then (t.get v).map clearU else t.get v)
      (fun _ _ => True) k := by
    rw [← h.addr]
    exact wp_uvmclear h.ok fun _ => trivial
  obtain ⟨t', hkept, hget⟩ := hclear.of_ok hrun
  refine ⟨t', h.kept hkept fun v hlt hge => ?_, fun v hv => hget v (hv.trans_le maxvpn_le)⟩
  rw [hget v hlt, h.high v hlt hge]
  split <;> rfl

/-- What the rest of the kernel does not touch. -/
theorem inv_other (h : Inv k pagetable t) (hother : (Call.other k').Allowed pagetable k) :
    Inv k' pagetable t := by
  obtain ⟨himage, hnodup, hfree, hpage⟩ := hother
  rw [h.pages] at hfree hpage
  refine ⟨⟨h.ok.holds.frame hpage, h.ok.ne, ?_, fun x hx => ?_⟩, h.addr, h.high⟩
  · refine Multiset.nodup_add.mpr ⟨Multiset.coe_nodup.mpr hnodup, h.ok.nodes_nodup, ?_⟩
    exact Multiset.disjoint_left.mpr fun hx => (hfree _ (Multiset.mem_coe.mp hx)).2
  · obtain hx | hx := Multiset.mem_add.mp hx
    · exact (hfree x (Multiset.mem_coe.mp hx)).1
    · have hx := h.ok.isPage hx
      unfold Kmem.IsPage at hx ⊢
      rwa [himage]

/-- A call keeps the invariant. -/
theorem inv_step {c : Call} (h : Inv k pagetable t) (hc : c.Allowed pagetable k)
    (hstep : Step pagetable k c k') : ∃ t', Inv k' pagetable t' := by
  cases c with
  | mappages va size pa perm =>
    obtain ⟨ok, k₁, t', j, hrun, hinv, -⟩ := inv_mappages h hc
    obtain ⟨ok', k₂, hrun', hpure⟩ := bind_eq_ok.mp hstep
    cases hrun.symm.trans hrun'
    cases hpure
    exact ⟨t', hinv⟩
  | uvmunmap va npages doFree =>
    obtain ⟨t', hinv, -⟩ := (inv_uvmunmap h hc).1 hstep
    exact ⟨t', hinv⟩
  | uvmclear va =>
    obtain ⟨t', hinv, -⟩ := inv_uvmclear h hstep
    exact ⟨t', hinv⟩
  | other k₁ =>
    cases hstep
    exact ⟨t, inv_other h hc⟩

theorem inv_uvmcreate {k₀ : Kmem} (hnodup : k₀.freelist.Nodup) (hpage : ∀ x ∈ k₀.freelist, k₀.IsPage x)
    (hcreate : uvmcreate k₀ = .ok pagetable k) (hne : pagetable ≠ 0) :
    Inv k pagetable (Trie.empty 512 Nat pagetable 2) := by
  have hwp : wp uvmcreate (fun r k => r ≠ 0 → Inv k r (Trie.empty 512 Nat r 2)) (fun _ _ => False) k₀ := by
    rw [uvmcreate, wp_bind]
    refine wp_kalloc_cases (wp_pure.mpr fun hzero => absurd rfl hzero) fun pa rest hlist => ?_
    simp only [wp_bind, wp_modify, wp_pure]
    intro _
    rw [hlist, List.nodup_cons] at hnodup
    refine ⟨⟨fun i => ⟨Kmem.pte_memset_zero, trivial⟩, Trie.empty_ne_nil, ?_, fun x hx => ?_⟩, rfl, ?_⟩
    · change ((rest : Multiset Nat) + _).Nodup
      rw [Trie.nodes_empty, add_comm, Multiset.singleton_add, Multiset.nodup_cons]
      exact ⟨hnodup.1, Multiset.coe_nodup.mpr hnodup.2⟩
    · refine hpage x ?_
      rw [Trie.nodes_empty] at hx
      obtain hx | hx := Multiset.mem_add.mp hx
      · exact hlist ▸ List.mem_cons_of_mem pa (Multiset.mem_coe.mp hx)
      · rw [Multiset.mem_singleton.mp hx, hlist]
        exact List.mem_cons_self
    · exact fun v _ _ => Trie.get_empty
  exact hwp.of_ok hcreate hne

theorem leaf_of_get {t : Table l} (h : Holds k t) {w : Nat} (hw : w ∈ t.get v) : IsLeaf w := by
  cases hhome : t.home v with
  | none =>
    rw [Trie.get, Trie.home_eq_none.mp hhome] at hw
    cases hw
  | some b => exact (h.read hhome).2 w hw

theorem unmapPages_eq {va npages : Nat} (hva : va % PGSIZE = 0) (hle : va + npages * PGSIZE ≤ MAXVA) :
    unmapPages va npages = npages ∧ (va / PGSIZE + npages) * PGSIZE ≤ MAXVA := by
  have hmod : (va + npages * PGSIZE) % UINT64 = va + npages * PGSIZE :=
    Nat.mod_eq_of_lt (hle.trans_lt (by decide))
  rw [unmapPages, turns, hmod]
  simp only [PGSIZE, MAXVA] at *
  omega

theorem Inv.isMap (h : Inv k pagetable t) : IsMap k pagetable where
  walk va hva := by
    have hdown : va / PGSIZE * PGSIZE < MAXVA := (Nat.div_mul_le_self va PGSIZE).trans_lt hva
    rw [Sv39.lookup, ← h.addr, entry_eq h.ok hva, entry_eq h.ok hdown, page_div]
  mappages va size pa perm hargs := by
    obtain ⟨ok, k', t', j, hrun, hinv, hj, hok, hget⟩ := inv_mappages h hargs
    refine ⟨ok, k', j, hrun, hj, hok, fun v hv => ?_⟩
    rw [hinv.lookup hv, h.lookup hv, hget v hv]
    split
    · have hpa : (pa + (v - va / PGSIZE) * PGSIZE) % UINT64 < UINT64 := Nat.mod_lt _ (by decide)
      have hword := leafWord hpa hargs.perm_lt hargs.readable
      rw [Option.map_some, mapWord, hword.2.1, hword.2.2]
    · rfl
  uvmunmap va npages doFree k' hargs hrun v hv := by
    obtain ⟨t', hinv, hget⟩ := (inv_uvmunmap h hargs).1 hrun
    rw [hinv.lookup hv, h.lookup hv, hget v hv]
    split <;> rfl
  uvmunmap_returns va npages doFree hva hle hargs := by
    obtain ⟨hpages, hend⟩ := unmapPages_eq hva hle
    rw [← hpages] at hargs hend
    obtain ⟨-, hreturns⟩ : (_ → ∃ t', Inv k pagetable t' ∧ _) ∧ _ := inv_uvmunmap h hargs
    exact ⟨hpages, hreturns hva hend⟩
  uvmclear va k' hrun v hv := by
    obtain ⟨t', hinv, hget⟩ := inv_uvmclear h hrun
    rw [hinv.lookup hv, h.lookup hv, hget v hv]
    split
    · cases hw : t.get v with
      | none => rfl
      | some w =>
        obtain ⟨-, hpa, hflags⟩ := clearU_leaf (leaf_of_get h.ok.holds hw)
        rw [Option.map_some, Option.map_some, Option.map_some, hpa, hflags]
        rfl
    · rfl
  freewalk hempty := by
    have hnone (v : Nat) (hv : v < 512 ^ (2 + 1)) : t.get v = none := by
      by_cases hlow : v < MAXVPN
      · exact h.get_none hlow (hempty v hlow)
      · exact h.high v hv (Nat.not_lt.mp hlow)
    obtain ⟨k', ⟨-, new, hnew, -, hlist⟩, hrun⟩ := h.ok.freewalk_returns hnone
    rw [h.addr] at hrun
    refine ⟨k', new, hrun, hlist, ?_, hnew.trans h.pages.symm⟩
    rw [← Multiset.coe_nodup, hnew]
    exact h.ok.nodes_nodup

/-- A table in memory refines a finite map from page numbers to pages and flags, after any
history that starts with `uvmcreate`. -/
theorem table_refines_map {k₀ k₁ : Kmem} {calls : List Call} (hnodup : k₀.freelist.Nodup)
    (hpage : ∀ x ∈ k₀.freelist, k₀.IsPage x) (hcreate : uvmcreate k₀ = .ok pagetable k₁)
    (hne : pagetable ≠ 0)
    (hrun : Sys.RunWhere (Step pagetable) (fun k c => c.Allowed pagetable k) k₁ calls k) :
    (∀ v < MAXVPN, lookup k₁ pagetable v = none) ∧ IsMap k pagetable := by
  have hcreated := inv_uvmcreate hnodup hpage hcreate hne
  refine ⟨fun v hv => ?_, ?_⟩
  · rw [hcreated.lookup hv, Trie.get_empty, Option.map_none]
  · have hinv : ∃ t, Inv k pagetable t := by
      refine Sys.RunWhere.invariant (I := fun k => ∃ t, Inv k pagetable t)
        (fun _ _ _ hk hc hstep => ?_) ⟨_, hcreated⟩ hrun
      obtain ⟨t, ht⟩ := hk
      exact inv_step ht hc hstep
    obtain ⟨t, ht⟩ := hinv
    exact ht.isMap

theorem kernbase_aligned : KERNBASE % PGSIZE = 0 := by decide

theorem kernbase_page_le : KERNBASE + PGSIZE ≤ PHYSTOP - 4 * PGSIZE := by decide

theorem fourPages_le : PHYSTOP - 4 * PGSIZE ≤ PHYSTOP := Nat.sub_le _ _

/-- A machine with four free pages. -/
def fourPages : KernelImage where
  kend := PHYSTOP - 4 * PGSIZE
  trampoline := KERNBASE
  trampoline_aligned := kernbase_aligned
  trampoline_lt := kernbase_page_le
  kend_le := fourPages_le

/-- What a call leaves, if it returns. -/
def next (pagetable : Nat) (k : Kmem) (c : Call) : Option Kmem :=
  match c.run pagetable k with
  | .ok _ k' => some k'
  | .error _ _ => none

theorem step_of_next {c : Call} (h : next pagetable k c = some k') : Step pagetable k c k' := by
  unfold next at h
  split at h
  · next hrun =>
    cases h
    exact hrun
  · cases h

/-- Two pages are mapped for the user; the first is taken away from the user, and the second is
unmapped. -/
theorem table_refines_map_twoPages : ∃ k₁ k, uvmcreate (kinit fourPages) = .ok (PHYSTOP - PGSIZE) k₁ ∧
    Sys.RunWhere (Step (PHYSTOP - PGSIZE)) (fun k c => c.Allowed (PHYSTOP - PGSIZE) k) k₁
      [.mappages 0 (2 * PGSIZE) KERNBASE (PTE_R ||| PTE_U), .uvmclear 0, .uvmunmap PGSIZE 1 false] k ∧
    lookup k (PHYSTOP - PGSIZE) 0 = some (KERNBASE, PTE_R ||| PTE_V) ∧ lookup k (PHYSTOP - PGSIZE) 1 = none ∧
    IsMap k (PHYSTOP - PGSIZE) := by
  have hnodup : (kinit fourPages).freelist.Nodup := by decide
  have hpage : ∀ x ∈ (kinit fourPages).freelist, (kinit fourPages).IsPage x := by decide
  have hcreate : ∃ k₁, uvmcreate (kinit fourPages) = .ok (PHYSTOP - PGSIZE) k₁ ∧
      (Sys.exec (next (PHYSTOP - PGSIZE)) k₁ [.mappages 0 (2 * PGSIZE) KERNBASE (PTE_R ||| PTE_U), .uvmclear 0,
        .uvmunmap PGSIZE 1 false]).any (fun k => decide (lookup k (PHYSTOP - PGSIZE) 0 =
          some (KERNBASE, PTE_R ||| PTE_V) ∧ lookup k (PHYSTOP - PGSIZE) 1 = none)) = true :=
    ⟨_, rfl, by decide +kernel⟩
  obtain ⟨k₁, hcreate, hcheck⟩ := hcreate
  obtain ⟨k, hexec, hk⟩ := Sys.exists_of_any hcheck
  obtain ⟨hzero, hone⟩ := of_decide_eq_true hk
  -- the table is still empty, and so the pages may be mapped
  obtain ⟨hempty, -⟩ := table_refines_map hnodup hpage hcreate (by decide) .nil
  have hargs : MapArgs k₁ (PHYSTOP - PGSIZE) 0 (2 * PGSIZE) KERNBASE (PTE_R ||| PTE_U) :=
    ⟨by decide, by decide, by decide, by decide, by decide, by decide, by decide,
      fun v _ hv => hempty v (hv.trans (by decide))⟩
  obtain ⟨k₂, hmap, hexec⟩ := Option.bind_eq_some_iff.mp hexec
  obtain ⟨k₃, hclear, hexec⟩ := Option.bind_eq_some_iff.mp hexec
  obtain ⟨_, hunmap, hend⟩ := Option.bind_eq_some_iff.mp hexec
  cases hend
  have hrun := ((Sys.RunWhere.nil.snoc (C := fun k c => c.Allowed (PHYSTOP - PGSIZE) k) hargs
    (step_of_next hmap)).snoc trivial (step_of_next hclear)).snoc (fun hfree => by cases hfree) (step_of_next hunmap)
  exact ⟨k₁, k, hcreate, hrun, hzero, hone, (table_refines_map hnodup hpage hcreate (by decide) hrun).2⟩

end Xv6.Sv39
