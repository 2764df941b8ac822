-- SUMMARY: An image in the making: `exec` writes to its pages and takes the guard page from the user, and all pages are accounted for.
import Xv6.Vm.Process

/-!
# exec

While `exec` builds a new image, `loadseg` writes to pages that are mapped for the user, and
`uvmclear` takes the guard page away from the user. Neither moves a page. The image takes its
pages from the free list, and there are fewer of them than pages below the trapframe.
-/

namespace Xv6

open Prog Radix

variable {G : Nat → Prop} {k k' : Kmem} {t t' : Pagetable} {sz tf tramp : Nat} {p : Proc}
  {E : Vm.Stop → Kmem → Prop}

/-! ## Writing to mapped pages -/

/-- Between `k` and `k'` only the contents of pages differ. -/
structure Writes (k k' : Kmem) : Prop where
  image : k'.image = k.image
  freelist : k'.freelist = k.freelist
  freed : k'.freed = k.freed

theorem Writes.refl (k : Kmem) : Writes k k := ⟨rfl, rfl, rfl⟩

theorem Writes.of_write {pa : Nat} {data : Bytes.Mem} (h : Writes (k.write pa data) k') :
    Writes k k' := ⟨h.image, h.freelist, h.freed⟩

theorem Writes.ok (h : Writes k k') (hk : k.Ok G) : k'.Ok G where
  page := by
    intro x hx
    rw [Kmem.IsPage, h.image]
    exact hk.page x hx
  free := by
    rw [h.freelist]
    exact hk.free
  freed := by
    rw [h.freed]
    exact hk.freed

/-- `walkaddr` finds a page that is mapped for the user. -/
theorem wp_walkaddr {va : Nat} {e : Pte} {Q : Option Nat → Kmem → Prop} (hva : va < MAXVA)
    (hget : t.get (va / PGSIZE) = some e) (hu : e.perm.u = true) (h : Q (some e.pa) k) :
    wp (walkaddr t va) Q E k := by
  unfold walkaddr
  rw [if_neg (by omega), wp_bind]
  refine wp_walk hva ?_
  rw [find_of_get hget]
  simpa [hu] using h

/-- The segment lies in pages that are mapped for the user. -/
theorem wp_loadsegLoop {file : List UInt8} {va offset size n i : Nat}
    (hva : va + size ≤ TRAPFRAME) (hn : n = turns i size)
    (hfull : ∀ a, va ≤ a → a < va + size → ∃ e, t.get (a / PGSIZE) = some e ∧ e.perm.u = true) :
    wp (loadsegLoop t va file offset size n i) (fun _ k' => Writes k k') E k := by
  induction n generalizing k i with
  | zero => exact wp_pure.mpr (.refl k)
  | succ n ih =>
    have hi : i < size := by
      simp only [turns, PGSIZE] at hn
      omega
    have hmod : (va + i) % UINT64 = va + i := by
      simp only [TRAPFRAME, TRAMPOLINE, MAXVA, PGSIZE, UINT64] at *
      omega
    have hlt : va + i < MAXVA := by
      simp only [TRAPFRAME, TRAMPOLINE, MAXVA, PGSIZE] at *
      omega
    obtain ⟨e, hget, hu⟩ := hfull (va + i) (by omega) (by omega)
    simp only [loadsegLoop, hmod]
    rw [wp_bind]
    refine wp_walkaddr hlt hget hu ?_
    simp only [wp_bind, wp_modify]
    rw [wp_ite]
    constructor
    · intro _
      refine (ih ?_).imp fun _ k' hw => hw.of_write
      simp only [turns, PGSIZE] at hn ⊢
      omega
    · intro _
      exact wp_pure.mpr (Writes.refl _).of_write

theorem wp_loadseg {file : List UInt8} {va offset size : Nat} (hva : va + size ≤ TRAPFRAME)
    (hfull : ∀ a, va ≤ a → a < va + size → ∃ e, t.get (a / PGSIZE) = some e ∧ e.perm.u = true) :
    wp (loadseg t va file offset size) (fun _ k' => Writes k k') E k := by
  have hle : size % UINT ≤ size := Nat.mod_le _ _
  exact wp_loadsegLoop (by omega) rfl fun a h₁ h₂ => hfull a h₁ (by omega)

/-! ## Loading -/

/-- An image in the making: the stock is that of the beginning. -/
structure Building (G : Nat → Prop) (image : KernelImage) (tf : Nat) (total : Multiset Nat)
    (k : Kmem) (t : Pagetable) (sz : Nat) : Prop where
  kmem : k.Ok G
  sameImage : k.image = image
  table : TableOk G t
  below : sz ≤ TRAPFRAME
  layout : Layout t sz tf image.trampoline
  stock : stock k t = total

variable {image : KernelImage} {total : Multiset Nat}

/-- The pages of the image and those still free are fewer than the pages below the trapframe. -/
def Room (k : Kmem) (sz : Nat) : Prop := npages sz + k.freelist.length ≤ NPAGES

theorem Building.writes (h : Building G image tf total k t sz) (hw : Writes k k') :
    Building G image tf total k' t sz where
  kmem := hw.ok h.kmem
  sameImage := hw.image.trans h.sameImage
  table := h.table
  below := h.below
  layout := h.layout
  stock := by
    rw [Xv6.stock, hw.freelist]
    exact h.stock

theorem Room.writes (h : Room k sz) (hw : Writes k k') : Room k' sz := by
  rw [Room, hw.freelist]
  exact h

theorem field_lt (b : List UInt8) (off w : Nat) : field b off w < 256 ^ w := Bytes.getLE_lt _ _ _

/-- The end of a segment that passes the checks of `exec` did not wrap. -/
theorem segment_end {vaddr memsz : Nat} (hv : vaddr < UINT64) (hm : memsz < UINT64)
    (hwrap : ¬ (vaddr + memsz) % UINT64 < vaddr) : (vaddr + memsz) % UINT64 = vaddr + memsz := by
  simp only [UINT64] at *
  omega

/-! ## The stack -/

/-- Taking the guard page away from the user changes neither the layout nor the pages. -/
theorem wp_uvmclear {v : Nat} {e : Pte} (h : Building G image tf total k t sz) (hv : v < NPAGES)
    (hget : t.get v = some e) :
    wp (uvmclear t (v * PGSIZE)) (fun t' k' => k' = k ∧ Building G image tf total k t' sz ∧
      ∀ v' < VPNS, t'.get v' = if v' = v then some { e with perm := { e.perm with u := false } } else t.get v')
      E k := by
  have hlt := npages_lt_vpns
  have hfind := find_of_get hget
  unfold uvmclear
  rw [wp_bind]
  refine wp_walk (page_lt (by omega)) ?_
  rw [page_div, hfind]
  set e' : Pte := { e with perm := { e.perm with u := false } }
  have hput : ∀ v' < VPNS, (t.put v (some e')).get v' = if v' = v then some e' else t.get v' :=
    fun v' hv' => get_put_page (by rw [hfind]; exact (by simp)) (by omega) hv'
  refine wp_pure.mpr ⟨rfl, ⟨h.kmem, h.sameImage, ⟨Trie.put_ne_nil h.table.ne, ?_, ?_⟩, h.below,
    ⟨?_, ?_, ?_, ?_⟩, ?_⟩, hput⟩
  · rw [Trie.nodes_put]
    exact h.table.nodes
  · intro v' hv' x hx
    rw [hput v' (by omega)] at hx
    split at hx
    · next hvv =>
      cases hx
      exact h.table.user v hv e hget
    · exact h.table.user v' hv' x hx
  · rw [hput _ hlt, if_neg (by omega), h.layout.trampoline]
  · rw [hput _ (by omega), if_neg (by omega), h.layout.trapframe]
  · intro v' hv' hmapped
    by_cases hvv : v' = v
    · exact h.layout.user v' hv' (by rw [hvv, hget]; exact (by simp))
    · rw [hput v' hv', if_neg hvv] at hmapped
      exact h.layout.user v' hv' hmapped
  · intro v' hv' x hx
    rw [hput v' hv'] at hx
    split at hx
    · cases hx
      exact h.layout.readable v (by omega) e hget
    · exact h.layout.readable v' hv' x hx
  · have hleaves := Trie.leaves_put t (some e') (k := v) (by rw [hfind]; exact (by simp))
    rw [hget] at hleaves
    have hmap := congrArg (Multiset.map Pte.pa) hleaves
    simp only [Trie.values, Multiset.map_add, Multiset.map_singleton] at hmap
    rw [← h.stock, Xv6.stock, Xv6.stock, tablePages, tablePages, Trie.nodes_put, add_right_cancel hmap]

theorem length_ustackBytes (ustack : List Nat) :
    (ustackBytes ustack).length = (ustack.length + 1) * 8 := by
  simp only [ustackBytes, leBytes, List.length_flatMap, List.length_map, List.length_range, List.map_const',
    List.sum_replicate, List.length_append, List.length_singleton, smul_eq_mul]

end Xv6
