-- SUMMARY: Which pages the functions on page tables take and give back, and what they change in the table.
import Xv6.Vm.PageTable

/-!
# Pages of a page table

The rules for the functions of `kernel/vm.c`. A function may use some pages only: those
that satisfy `G` in what follows. It starts with a free list and tables made of such pages
and never hands another one to `kfree`. What it takes from the free list it puts into the
table, and the other way round.
-/

namespace Xv6

open Prog Radix

/-- The page number of the trapframe. User memory lies below. -/
abbrev NPAGES : Nat := TRAPFRAME / PGSIZE

/-- One beyond the highest page number that a table can tell from the others. -/
abbrev VPNS : Nat := 512 ^ (2 + 1)

/-- The free list has pages that may be used, and only such pages were freed. -/
structure Kmem.Ok (G : Nat → Prop) (k : Kmem) : Prop where
  page : ∀ x, G x → k.IsPage x
  free : ∀ x ∈ k.freelist, G x
  freed : ∀ x ∈ k.freed, G x

/-- The pages of the table itself, and those that it maps below the trapframe, may be used. -/
structure TableOk (G : Nat → Prop) {l : Nat} (t : Ptable l) : Prop where
  ne : t ≠ .nil
  nodes : ∀ x ∈ t.nodes, G x
  user : ∀ v < NPAGES, ∀ e, t.get v = some e → G e.pa

/-- All the pages a table is made of or refers to. -/
def tablePages {l : Nat} (t : Ptable l) : Multiset Nat := t.nodes + t.leaves.map Pte.pa

variable {G : Nat → Prop} {k k' : Kmem} {l : Nat}

theorem coe_cons (x : Nat) (xs : List Nat) : ((x :: xs : List Nat) : Multiset Nat) = {x} + xs := by
  rw [← Multiset.cons_coe, Multiset.singleton_add]

/-! ## The allocator -/

section
variable {pa : Nat} {c : UInt8} {data : Bytes.Mem}

@[simp] theorem memset_freelist : (k.memset pa c).freelist = k.freelist := rfl
@[simp] theorem memset_image : (k.memset pa c).image = k.image := rfl
@[simp] theorem memset_freed : (k.memset pa c).freed = k.freed := rfl
@[simp] theorem write_freelist : (k.write pa data).freelist = k.freelist := rfl
@[simp] theorem write_image : (k.write pa data).image = k.image := rfl
@[simp] theorem write_freed : (k.write pa data).freed = k.freed := rfl

theorem Kmem.Ok.memset (h : k.Ok G) : (k.memset pa c).Ok G := ⟨h.page, h.free, h.freed⟩

theorem Kmem.Ok.write (h : k.Ok G) : (k.write pa data).Ok G := ⟨h.page, h.free, h.freed⟩

theorem Kmem.Ok.push (h : k.Ok G) (hpa : G pa) : (k.push pa).Ok G where
  page := h.page
  free x hx := by
    obtain rfl | hx := List.mem_cons.mp hx
    · exact hpa
    · exact h.free x hx
  freed x hx := by
    obtain rfl | hx := List.mem_cons.mp hx
    · exact hpa
    · exact h.freed x hx

/-- From `k₀` to `k` only pages that were free, or are in `S`, were written or freed. -/
structure Within (S : Nat → Prop) (k₀ k : Kmem) : Prop where
  free : ∀ x ∈ k.freelist, x ∈ k₀.freelist ∨ S x
  page : ∀ x ∉ k₀.freelist, ¬ S x → k.page x = k₀.page x

/-- Only pages that were free were written, and no others are free now. -/
abbrev Inside (k₀ k : Kmem) : Prop := Within (fun _ => False) k₀ k

namespace Within

variable {S : Nat → Prop} {k₀ k₁ : Kmem} {x : Nat}

theorem refl : Within S k k := ⟨fun _ h => .inl h, fun _ _ _ => rfl⟩

theorem trans (h : Within S k₀ k₁) (h' : Within S k₁ k) : Within S k₀ k where
  free x hx := (h'.free x hx).elim (h.free x) .inr
  page x hx hS := by
    refine (h'.page x (fun hmem => ?_) hS).trans (h.page x hx hS)
    exact (h.free x hmem).elim hx hS

theorem write (h : Within S k₀ k) (hx : x ∈ k₀.freelist ∨ S x) : Within S k₀ (k.write x data) where
  free := h.free
  page y hy hS := by
    have hne : y ≠ x := fun heq => hx.elim (heq ▸ hy) (heq ▸ hS)
    exact (Function.update_of_ne hne ..).trans (h.page y hy hS)

theorem push (h : Within S k₀ k) (hx : x ∈ k₀.freelist ∨ S x) : Within S k₀ (k.push x) where
  free y hy := by
    obtain rfl | hy := List.mem_cons.mp hy
    · exact hx
    · exact h.free y hy
  page := h.page

end Within

/-- A page that is mapped now and was free before keeps its contents. -/
theorem Inside.keeps_page {x : Nat} (h : Inside k k') (hx : x ∉ k.freelist) : k'.page x = k.page x :=
  h.page x hx id

theorem Inside.mem_free {x : Nat} (h : Inside k k') (hx : x ∈ k'.freelist) : x ∈ k.freelist :=
  (h.free x hx).resolve_right id

/-- Pages were taken from the free list and written, and no others. If there are `n` of them and
the allocator does not refuse, `P` holds, and no more than `n` are gone. -/
structure Took (n : Nat) (k k' : Kmem) (P : Prop) : Prop where
  inside : Inside k k'
  plenty : k.fails = [] → n ≤ k.freelist.length →
    P ∧ k'.fails = [] ∧ k.freelist.length ≤ k'.freelist.length + n

namespace Took

variable {n m x : Nat} {P Q : Prop}

theorem refl (h : P) : Took 0 k k P := ⟨.refl, fun hf _ => ⟨h, hf, le_rfl⟩⟩

theorem mono (h : Took n k k' P) (hle : n ≤ m) (hP : P → Q) : Took m k k' Q where
  inside := h.inside
  plenty hf hlen := by
    obtain ⟨hok, hf', hlen'⟩ := h.plenty hf (hle.trans hlen)
    exact ⟨hP hok, hf', by omega⟩

theorem trans {k₁ : Kmem} (h : Took n k k₁ P) (h' : Took m k₁ k' Q) : Took (n + m) k k' Q where
  inside := h.inside.trans h'.inside
  plenty hf hlen := by
    obtain ⟨-, hf₁, hlen₁⟩ := h.plenty hf (by omega)
    obtain ⟨hok, hf', hlen'⟩ := h'.plenty hf₁ (by omega)
    exact ⟨hok, hf', by omega⟩

/-- A page that was taken is written. -/
theorem write (h : Took n k k' P) (hx : x ∈ k.freelist) : Took n k (k'.write x data) P :=
  ⟨h.inside.write (.inl hx), h.plenty⟩

end Took

theorem wp_kalloc {E : Vm.Stop → Kmem → Prop} (h : k.Ok G) :
    wp kalloc (fun r k' => k'.Ok G ∧ k'.image = k.image ∧ Took 1 k k' (r ≠ none) ∧
      (r = none ∧ k'.freelist = k.freelist ∨
        ∃ x, r = some x ∧ G x ∧ k.freelist = x :: k'.freelist)) E k := by
  have hok : (k.setFails k.fails.tail).Ok G := ⟨h.page, h.free, h.freed⟩
  have hnone (hshort : k.fails = [] → k.freelist = []) :
      Took 1 k (k.setFails k.fails.tail) ((none : Option Nat) ≠ none) := by
    refine ⟨⟨fun _ => .inl, fun _ _ _ => rfl⟩, fun hf hlen => ?_⟩
    rw [hshort hf] at hlen
    exact absurd hlen (by simp)
  simp only [kalloc, wp_bind, wp_get, wp_set]
  split
  · next hrefused =>
    refine wp_pure.mpr ⟨hok, rfl, hnone fun hf => ?_, .inl ⟨rfl, rfl⟩⟩
    rw [hf] at hrefused
    cases hrefused
  · split
    · next hlist => exact wp_pure.mpr ⟨hok, rfl, hnone fun _ => hlist, .inl ⟨rfl, rfl⟩⟩
    · next r rest hlist =>
      have hlist : k.freelist = r :: rest := hlist
      have hmem : r ∈ k.freelist := hlist ▸ List.mem_cons_self
      have hrest : ∀ x ∈ rest, x ∈ k.freelist := fun x hx => hlist ▸ List.mem_cons_of_mem r hx
      simp only [wp_bind, wp_modify, wp_pure]
      refine ⟨⟨h.page, fun x hx => h.free x (hrest x hx), h.freed⟩, rfl, ?_, .inr ⟨r, rfl, h.free r hmem, hlist⟩⟩
      refine Took.write ⟨⟨fun x hx => .inl (hrest x hx), fun _ _ _ => rfl⟩, fun hf _ => ?_⟩ hmem
      refine ⟨Option.some_ne_none r, ?_, ?_⟩
      · change k.fails.tail = []
        rw [hf]
        rfl
      · rw [hlist]
        exact le_rfl

/-- From `k` to `k'` pages were freed, and none was allocated. -/
def OnlyFrees (k k' : Kmem) : Prop :=
  ∃ new, k'.freelist = new ++ k.freelist ∧ k'.freed = new ++ k.freed

theorem OnlyFrees.refl (k : Kmem) : OnlyFrees k k := ⟨[], rfl, rfl⟩

theorem OnlyFrees.trans {k₁ k₂ k₃ : Kmem} (h : OnlyFrees k₁ k₂) (h' : OnlyFrees k₂ k₃) :
    OnlyFrees k₁ k₃ := by
  obtain ⟨new, hlist, hfreed⟩ := h
  obtain ⟨new', hlist', hfreed'⟩ := h'
  exact ⟨new' ++ new, by rw [hlist', hlist, List.append_assoc],
    by rw [hfreed', hfreed, List.append_assoc]⟩

/-- `kfree` of a page. -/
theorem wp_kfree_page {E : Vm.Stop → Kmem → Prop} {Q : Unit → Kmem → Prop} (h : k.IsPage pa)
    (hQ : Q () ((k.memset pa 1).push pa)) : wp (kfree pa) Q E k := by
  simp only [kfree, wp_bind, wp_get, wp_stopIf, wp_modify, h, not_true_eq_false, false_implies,
    not_false_eq_true, true_and, forall_const]
  exact hQ

theorem wp_kfree {E : Vm.Stop → Kmem → Prop} (h : k.Ok G) (hpa : G pa) :
    wp (kfree pa) (fun _ k' => k'.Ok G ∧ k'.image = k.image ∧ k'.freelist = pa :: k.freelist ∧
      OnlyFrees k k') E k :=
  wp_kfree_page (h.page pa hpa) ⟨h.memset.push hpa, rfl, rfl, [pa], rfl, rfl⟩

end

/-! ## Walking -/

/-- What the allocating walk does: the table keeps its entries and gets new pages from the
free list, and if it succeeds the entry for `v` is there. -/
structure Filled (G : Nat → Prop) (k : Kmem) (t : Ptable l) (v : Nat) (k' : Kmem) (t' : Ptable l)
    (ok : Bool) : Prop where
  kmem : k'.Ok G
  image : k'.image = k.image
  ne : t' ≠ .nil
  nodes : ∀ x ∈ t'.nodes, G x
  get : ∀ v', t'.get v' = t.get v'
  leaves : t'.leaves = t.leaves
  found : ok = true → t'.find v ≠ none
  pages : (k'.freelist : Multiset Nat) + t'.nodes = k.freelist + t.nodes
  length : k'.freelist.length ≤ k.freelist.length
  took : Took l k k' (ok = true)

/-- A missing table is made from a free page. -/
theorem wp_ensure {E : Vm.Stop → Kmem → Prop} (h : k.Ok G) (t : Ptable l)
    (hnodes : ∀ x ∈ t.nodes, G x) :
    wp (ensure t) (fun r k' => k'.Ok G ∧ k'.image = k.image ∧
      k'.freelist.length ≤ k.freelist.length ∧ Took 1 k k' (r ≠ none) ∧
      (r = none ∧ k'.freelist = k.freelist ∨
        ∃ c : Ptable l, r = some c ∧ c ≠ .nil ∧ (∀ x ∈ c.nodes, G x) ∧ (∀ v, c.get v = t.get v) ∧
          c.leaves = t.leaves ∧
          (k'.freelist : Multiset Nat) + c.nodes = k.freelist + t.nodes)) E k := by
  have hsame {l : Nat} {t : Ptable l} : Took 1 k k (some t ≠ none) :=
    (Took.refl (Option.some_ne_none t)).mono (Nat.zero_le 1) id
  cases t with
  | nil =>
    simp only [ensure, wp_bind]
    refine (wp_kalloc h).imp fun r k' hpost => ?_
    obtain ⟨hk', himage, htook, hr⟩ := hpost
    rcases hr with ⟨rfl, hlist⟩ | ⟨x, rfl, hx, hlist⟩
    · exact wp_pure.mpr ⟨hk', himage, by rw [hlist], htook.mono le_rfl (absurd rfl), .inl ⟨rfl, hlist⟩⟩
    · simp only [wp_bind, wp_modify, wp_pure]
      have htook : Took 1 k (k'.memset x 0) (some (Trie.empty 512 Pte x l) ≠ none) :=
        (htook.mono le_rfl fun _ => Option.some_ne_none _).write (hlist ▸ List.mem_cons_self)
      refine ⟨hk'.memset, himage, by simp [hlist], htook, .inr ⟨_, rfl, Trie.empty_ne_nil, ?_, ?_, ?_, ?_⟩⟩
      · intro y hy
        rw [Trie.nodes_empty, Multiset.mem_singleton] at hy
        exact hy ▸ hx
      · intro v
        simp
      · rw [Trie.leaves_empty, Trie.leaves_nil]
      · rw [hlist, coe_cons, Trie.nodes_empty, Trie.nodes_nil, add_zero, add_comm, memset_freelist]
  | leaf a slot =>
    exact wp_pure.mpr ⟨h, rfl, le_rfl, hsame, .inr ⟨_, rfl, (by simp), hnodes, fun _ => rfl, rfl, rfl⟩⟩
  | node a slot =>
    exact wp_pure.mpr ⟨h, rfl, le_rfl, hsame, .inr ⟨_, rfl, (by simp), hnodes, fun _ => rfl, rfl, rfl⟩⟩

theorem wp_fill {E : Vm.Stop → Kmem → Prop} {v : Nat} (t : Ptable l) (h : k.Ok G) (hne : t ≠ .nil)
    (hnodes : ∀ x ∈ t.nodes, G x) :
    wp (fill t v) (fun r k' => Filled G k t v k' r.1 r.2) E k := by
  -- by the height of the table: a table that had to be made is not a part of the old one
  induction l generalizing k with
  | zero =>
    cases t with
    | nil => exact absurd rfl hne
    | leaf a slot =>
      rw [fill]
      exact wp_pure.mpr
        ⟨h, rfl, hne, hnodes, fun _ => rfl, rfl, fun _ => Trie.find_leaf, rfl, le_rfl, .refl rfl⟩
  | succ l ih =>
    cases t with
    | nil => exact absurd rfl hne
    | node a slot =>
      rw [fill, wp_bind]
      have hslot : ∀ x ∈ (slot (digit 512 (l + 1) v)).nodes, G x := by
        intro x hx
        exact hnodes x (Trie.mem_nodes_of_slot (i := digit 512 (l + 1) v) hx)
      refine (wp_ensure h _ hslot).imp fun r k₁ hpost => ?_
      obtain ⟨hk₁, himage₁, hlen₁, htook, hr⟩ := hpost
      rcases hr with ⟨rfl, hlist⟩ | ⟨c, rfl, hc, hcnodes, hcget, hcleaves, hcpages⟩
      · exact wp_pure.mpr ⟨hk₁, himage₁, hne, hnodes, fun _ => rfl, rfl, (by simp), by rw [hlist], hlen₁,
          htook.mono (by omega) (absurd rfl)⟩
      · simp only [wp_bind]
        refine (ih c hk₁ hc hcnodes).imp fun res k₂ hf => ?_
        obtain ⟨c', ok⟩ := res
        refine wp_pure.mpr ?_
        have hget := Trie.get_node_update (a := a) fun v' => (hf.get v').trans (hcget v')
        refine ⟨hf.kmem, hf.image.trans himage₁, (by simp), ?_, hget, ?_, ?_, ?_, hf.length.trans hlen₁,
          (htook.trans hf.took).mono (Nat.add_comm 1 l).le id⟩
        · intro x hx
          rcases Trie.mem_nodes_update hx with hx | hx
          · exact hnodes x hx
          · exact hf.nodes x hx
        · exact Trie.leaves_node_update (hf.leaves.trans hcleaves)
        · intro hok
          simpa only [Trie.find_node, Function.update_self] using hf.found hok
        · -- what the subtree gained, the free list lost
          refine add_right_cancel (b := (slot (digit 512 (l + 1) v)).nodes) ?_
          rw [add_assoc, Trie.nodes_node_update]
          calc (k₂.freelist : Multiset Nat) + ((Trie.node a slot).nodes + c'.nodes)
              = (k₂.freelist + c'.nodes) + (Trie.node a slot).nodes := by abel
            _ = (k₁.freelist + c.nodes) + (Trie.node a slot).nodes := by rw [hf.pages]
            _ = _ := by rw [hcpages]; abel

theorem wp_walkAlloc {E : Vm.Stop → Kmem → Prop} {va : Nat} {t : Pagetable} (h : k.Ok G)
    (hne : t ≠ .nil) (hnodes : ∀ x ∈ t.nodes, G x) (hva : va < MAXVA) :
    wp (walkAlloc t va) (fun r k' => Filled G k t (va / PGSIZE) k' r.1 r.2) E k := by
  simp only [walkAlloc, wp_bind, wp_stopIf, ge_iff_le, Nat.not_le.mpr hva, false_implies,
    not_false_eq_true, forall_const, true_and]
  exact wp_fill t h hne hnodes

theorem wp_walk {E : Vm.Stop → Kmem → Prop} {Q : Option (Option Pte) → Kmem → Prop} {va : Nat}
    {t : Pagetable} (hva : va < MAXVA) (h : Q (t.find (va / PGSIZE)) k) : wp (walk t va) Q E k := by
  simp only [walk, wp_bind, wp_stopIf, ge_iff_le, Nat.not_le.mpr hva, false_implies,
    not_false_eq_true, forall_const, true_and, wp_pure]
  exact h

/-! ## Mapping one page -/

theorem npages_lt_vpns : NPAGES + 1 < VPNS := by
  simp only [NPAGES, TRAPFRAME, TRAMPOLINE, MAXVA, PGSIZE, VPNS]
  omega

theorem page_div {v : Nat} : v * PGSIZE / PGSIZE = v := Nat.mul_div_cancel v (by decide)

theorem page_succ {v : Nat} : v * PGSIZE + PGSIZE = (v + 1) * PGSIZE := (Nat.add_one_mul ..).symm

/-- A page of user memory lies below `MAXVA`. -/
theorem page_lt {v : Nat} (h : v ≤ NPAGES + 1) : v * PGSIZE < MAXVA := by
  simp only [NPAGES, TRAPFRAME, TRAMPOLINE, MAXVA, PGSIZE] at *
  omega

/-- What an attempt to map page `v` to `e` does. -/
structure Mapped (G : Nat → Prop) (k : Kmem) (t : Pagetable) (v : Nat) (e : Pte) (k' : Kmem)
    (t' : Pagetable) (ok : Bool) : Prop where
  kmem : k'.Ok G
  image : k'.image = k.image
  ne : t' ≠ .nil
  nodes : ∀ x ∈ t'.nodes, G x
  fresh : ok = true → t.get v = none
  get : ∀ v' < VPNS, t'.get v' = if ok = true ∧ v' = v then some e else t.get v'
  leaves : t'.leaves = t.leaves + if ok then {e} else 0
  pages : (k'.freelist : Multiset Nat) + t'.nodes = k.freelist + t.nodes
  length : k'.freelist.length ≤ k.freelist.length
  took : Took 2 k k' (ok = true)

/-- The new entry in a table that has room for it. -/
theorem get_put_page {t : Pagetable} {v v' : Nat} {x : Option Pte} (hfind : t.find v ≠ none)
    (hv : v < VPNS) (hv' : v' < VPNS) : (t.put v x).get v' = if v' = v then x else t.get v' :=
  Trie.get_put_of_lt hfind hv hv'

theorem leaves_put_page {t : Pagetable} {v : Nat} {e : Pte} (hfind : t.find v ≠ none)
    (hnone : t.get v = none) : (t.put v (some e)).leaves = t.leaves + {e} := by
  have hput := Trie.leaves_put t (some e) hfind
  rwa [hnone, Trie.values_some, Trie.values_none, add_zero] at hput

/-- A page that is mapped already makes `mappages` panic. -/
theorem wp_mappages {E : Vm.Stop → Kmem → Prop} {v pa : Nat} {t : Pagetable} {perm : Perm}
    (h : k.Ok G) (hne : t ≠ .nil) (hnodes : ∀ x ∈ t.nodes, G x) (hv : v ≤ NPAGES + 1)
    (hnone : t.get v = none ∨ ∀ e k, E e k) :
    wp (mappages t (v * PGSIZE) PGSIZE pa perm)
      (fun r k' => Mapped G k t v ⟨pa, perm⟩ k' r.1 r.2) E k := by
  have hone : PGSIZE / PGSIZE = 1 := rfl
  have hva := page_lt hv
  simp only [mappages, wp_bind, wp_stopIf, Nat.mul_mod_left, Nat.mod_self, ne_eq, not_true_eq_false,
    false_implies, true_and, hone, mapLoop, reduceCtorEq, not_false_eq_true, forall_const, page_div]
  refine (wp_walkAlloc h hne hnodes hva).imp fun res k₁ hf => ?_
  obtain ⟨t₁, ok⟩ := res
  rw [page_div] at hf
  cases ok with
  | false =>
    refine wp_pure.mpr
      ⟨hf.kmem, hf.image, hf.ne, hf.nodes, (by simp), fun v' _ => ?_, ?_, hf.pages, hf.length, hf.took⟩
    · simp [hf.get v']
    · simp [hf.leaves]
  | true =>
    have hfind := hf.found rfl
    simp only [if_true, wp_bind, wp_stopIf, page_div]
    constructor
    · intro hmapped
      rcases hnone with hnone | hE
      · exact absurd ((hf.get _).trans hnone) hmapped
      · exact hE _ _
    · intro hfree
      have hnone₁ : t₁.get v = none := not_not.mp hfree
      refine wp_pure.mpr ⟨hf.kmem, hf.image, Trie.put_ne_nil hf.ne, ?_, fun _ => ?_, ?_, ?_, ?_,
        hf.length, hf.took⟩
      · intro x hx
        rw [Trie.nodes_put] at hx
        exact hf.nodes x hx
      · rw [← hf.get v, hnone₁]
      · intro v' hv'
        rw [get_put_page hfind (by have := npages_lt_vpns; omega) hv', hf.get v']
        simp
      · simp [leaves_put_page hfind hnone₁, hf.leaves]
      · rw [Trie.nodes_put]
        exact hf.pages

/-! ## Unmapping pages -/

/-- What freeing the pages from `v` on does, `n` of them. -/
structure Unmapped (G : Nat → Prop) (k : Kmem) (t : Pagetable) (v n : Nat) (k' : Kmem)
    (t' : Pagetable) : Prop where
  kmem : k'.Ok G
  image : k'.image = k.image
  table : TableOk G t'
  get : ∀ v' < VPNS, t'.get v' = if v ≤ v' ∧ v' < v + n then none else t.get v'
  nodes : t'.nodes = t.nodes
  pages : (k'.freelist : Multiset Nat) + t'.leaves.map Pte.pa = k.freelist + t.leaves.map Pte.pa
  frees : OnlyFrees k k'

theorem find_of_get {t : Ptable l} {v : Nat} {e : Pte} (h : t.get v = some e) :
    t.find v = some (some e) := by
  unfold Trie.get at h
  cases hf : t.find v with
  | none => rw [hf] at h; cases h
  | some x => rw [hf] at h; exact congrArg some h

theorem TableOk.put_none {t : Pagetable} {v : Nat} {e : Pte} (h : TableOk G t)
    (hv : v < NPAGES) (hget : t.get v = some e) : TableOk G (t.put v none) where
  ne := Trie.put_ne_nil h.ne
  nodes := by
    rw [Trie.nodes_put]
    exact h.nodes
  user := by
    have hlt := npages_lt_vpns
    intro v' hv' e' he'
    rw [get_put_page (by rw [find_of_get hget]; exact (by simp)) (by omega) (by omega)] at he'
    split at he'
    · cases he'
    · exact h.user v' hv' e' he'

/-- Nothing is mapped beyond user memory. -/
theorem wp_unmapLoop {E : Vm.Stop → Kmem → Prop} {n v : Nat} {t : Pagetable} (h : k.Ok G)
    (ht : TableOk G t) (hlim : v + n ≤ NPAGES + 2)
    (huser : ∀ v', v ≤ v' → v' < v + n → t.get v' ≠ none → v' < NPAGES) :
    wp (unmapLoop true n t (v * PGSIZE)) (fun t' k' => Unmapped G k t v n k' t') E k := by
  have hlt := npages_lt_vpns
  induction n generalizing k t v with
  | zero =>
    refine wp_pure.mpr ⟨h, rfl, ht, fun v' _ => ?_, rfl, rfl, .refl k⟩
    rw [if_neg (by omega)]
  | succ n ih =>
    simp only [unmapLoop, wp_bind]
    refine wp_walk (page_lt (by omega)) ?_
    rw [page_div]
    cases hget : t.get v with
    | none =>
      have hskip : wp (unmapLoop true n t (v * PGSIZE + PGSIZE))
          (fun t' k' => Unmapped G k t v (n + 1) k' t') E k := by
        rw [page_succ]
        refine (ih h ht (by omega) fun v' hlo hhi => huser v' (by omega) (by omega)).imp fun t' k' hu => ?_
        refine ⟨hu.kmem, hu.image, hu.table, fun v' hv' => ?_, hu.nodes, hu.pages, hu.frees⟩
        rw [hu.get v' hv']
        by_cases hvv : v' = v
        · subst hvv
          simp [hget]
        · congr 1
          simp only [eq_iff_iff]
          omega
      unfold Trie.get at hget
      cases hf : t.find v with
      | none => exact hskip
      | some x =>
        rw [hf] at hget
        cases x with
        | none => exact hskip
        | some e => cases hget
    | some e =>
      have hv : v < NPAGES := huser v le_rfl (by omega) (by rw [hget]; simp)
      rw [find_of_get hget]
      simp only [if_true, wp_bind]
      refine (wp_kfree h (ht.user v hv e hget)).imp fun _ k₁ hpost => ?_
      obtain ⟨hk₁, himage₁, hlist₁, hfrees₁⟩ := hpost
      rw [page_succ]
      have huser' : ∀ v', v + 1 ≤ v' → v' < v + 1 + n → (t.put v none).get v' ≠ none → v' < NPAGES := by
        intro v' hlo hhi
        rw [get_put_page (by rw [find_of_get hget]; exact (by simp)) (by omega) (by omega), if_neg (by omega)]
        exact huser v' (by omega) (by omega)
      refine (ih hk₁ (ht.put_none hv hget) (by omega) huser').imp fun t' k' hu => ?_
      have hleaves := Trie.leaves_of_get hget
      refine ⟨hu.kmem, hu.image.trans himage₁, hu.table, fun v' hv' => ?_,
        hu.nodes.trans (Trie.nodes_put t none), ?_, hfrees₁.trans hu.frees⟩
      · rw [hu.get v' hv', get_put_page (by rw [find_of_get hget]; exact (by simp)) (by omega) hv']
        by_cases hvv : v' = v
        · simp [hvv]
        · simp only [hvv, if_false]
          congr 1
          simp only [eq_iff_iff]
          omega
      · rw [hu.pages, ← hleaves, Multiset.map_add, Multiset.map_singleton, hlist₁, coe_cons]
        abel

/-- The pages that `sz` bytes take. -/
def npages (sz : Nat) : Nat := (sz + (PGSIZE - 1)) / PGSIZE

theorem pgroundup_eq_of_lt {sz : Nat} (h : sz + (PGSIZE - 1) < UINT64) : pgroundup sz = npages sz * PGSIZE := by
  rw [pgroundup, npages, Nat.mod_eq_of_lt h]

theorem pgroundup_eq {sz : Nat} (h : sz ≤ MAXVA) : pgroundup sz = npages sz * PGSIZE := by
  refine pgroundup_eq_of_lt ?_
  simp only [MAXVA, PGSIZE, UINT64] at *
  omega

theorem trapframe_le : TRAPFRAME ≤ MAXVA := by decide

theorem npages_le {sz : Nat} (h : sz ≤ TRAPFRAME) : npages sz ≤ NPAGES := by
  simp only [npages, NPAGES, TRAPFRAME, TRAMPOLINE, MAXVA, PGSIZE] at *
  omega

theorem npages_le_maxva {sz : Nat} (h : sz ≤ MAXVA) : npages sz ≤ NPAGES + 2 := by
  simp only [npages, NPAGES, TRAPFRAME, TRAMPOLINE, MAXVA, PGSIZE] at *
  omega

theorem npages_mono {a b : Nat} (h : a ≤ b) : npages a ≤ npages b :=
  Nat.div_le_div_right (by omega)

theorem npages_page (v : Nat) : npages (v * PGSIZE) = v := by
  simp only [npages, PGSIZE]
  omega

theorem page_le_trapframe {v : Nat} (h : v ≤ NPAGES) : v * PGSIZE ≤ TRAPFRAME := by
  simp only [NPAGES, TRAPFRAME, TRAMPOLINE, MAXVA, PGSIZE] at *
  omega

/-- The loop from one page to another. -/
theorem turns_pages {v n : Nat} (h : v + n ≤ VPNS) :
    turns (v * PGSIZE) ((v * PGSIZE + n * PGSIZE) % UINT64) = n := by
  have hlt : v * PGSIZE + n * PGSIZE < UINT64 := by
    simp only [VPNS, PGSIZE, UINT64] at *
    omega
  rw [Nat.mod_eq_of_lt hlt]
  simp only [turns, PGSIZE]
  omega

theorem wp_uvmunmap_user {E : Vm.Stop → Kmem → Prop} {n v : Nat} {t : Pagetable} (h : k.Ok G)
    (ht : TableOk G t) (hlim : v + n ≤ NPAGES + 2)
    (huser : ∀ v', v ≤ v' → v' < v + n → t.get v' ≠ none → v' < NPAGES) :
    wp (uvmunmap t (v * PGSIZE) n true) (fun t' k' => Unmapped G k t v n k' t') E k := by
  have hlt := npages_lt_vpns
  simp only [uvmunmap, wp_bind, wp_stopIf, Nat.mul_mod_left, ne_eq, not_true_eq_false,
    false_implies, true_and, not_false_eq_true, forall_const, turns_pages (show v + n ≤ VPNS by omega)]
  exact wp_unmapLoop h ht hlim huser

theorem wp_uvmunmap {E : Vm.Stop → Kmem → Prop} {n v : Nat} {t : Pagetable} (h : k.Ok G)
    (ht : TableOk G t) (hlim : v + n ≤ NPAGES) :
    wp (uvmunmap t (v * PGSIZE) n true) (fun t' k' => Unmapped G k t v n k' t') E k :=
  wp_uvmunmap_user h ht (by omega) fun _ _ hhi _ => by omega

/-- A small page count survives the conversion to `int` and to `uint64`. -/
theorem addInt_int {n : Nat} (h : n < 2 ^ 31) : addInt 0 (Int.bmod n (2 ^ 32)) = n := by
  simp only [addInt, UINT64]
  rw [Int.bmod_eq_of_le (by omega) (by omega), Nat.cast_zero, Int.zero_add,
    Int.emod_eq_of_lt (by omega) (by omega), Int.toNat_natCast]

theorem wp_uvmdealloc {E : Vm.Stop → Kmem → Prop} {oldsz newsz : Nat} {t : Pagetable} (h : k.Ok G)
    (ht : TableOk G t) (hold : oldsz ≤ TRAPFRAME) :
    wp (uvmdealloc t oldsz newsz) (fun r k' => r.2 = min oldsz newsz ∧
      Unmapped G k t (npages r.2) (npages oldsz - npages r.2) k' r.1) E k := by
  have hsame : Unmapped G k t (npages oldsz) 0 k t :=
    ⟨h, rfl, ht, fun v' _ => by rw [if_neg (by omega)], rfl, rfl, .refl k⟩
  unfold uvmdealloc
  split
  · next hge => exact wp_pure.mpr ⟨by omega, by simpa using hsame⟩
  · next hlt =>
    have hnew : newsz ≤ TRAPFRAME := by omega
    have hle := npages_le hold
    have hmono := npages_mono (show newsz ≤ oldsz by omega)
    rw [pgroundup_eq (hold.trans trapframe_le), pgroundup_eq (hnew.trans trapframe_le)]
    split
    · have hsmall : npages oldsz - npages newsz < 2 ^ 31 := by
        simp only [NPAGES, TRAPFRAME, TRAMPOLINE, MAXVA, PGSIZE] at hle
        omega
      rw [← Nat.sub_mul, page_div]
      simp only [addInt_int hsmall, wp_bind]
      refine (wp_uvmunmap h ht (by omega)).imp fun t' k' hu => wp_pure.mpr ⟨by omega, hu⟩
    · next hno =>
      have heq : npages newsz = npages oldsz := by
        have : ¬ npages newsz < npages oldsz :=
          fun hc => hno (Nat.mul_lt_mul_of_pos_right hc (by decide))
        omega
      exact wp_pure.mpr ⟨by omega, by simpa [heq] using hsame⟩

/-! ## Growing -/

/-- The free pages and those of a table. -/
def stock (k : Kmem) (t : Pagetable) : Multiset Nat := k.freelist + tablePages t

theorem Unmapped.stock {t t' : Pagetable} {v n : Nat} (h : Unmapped G k t v n k' t') :
    stock k' t' = stock k t := by
  simp only [Xv6.stock, tablePages, h.nodes]
  rw [add_left_comm, h.pages, add_left_comm]

theorem Mapped.stock {t t' : Pagetable} {v : Nat} {e : Pte} {ok : Bool}
    (h : Mapped G k t v e k' t' ok) : stock k' t' = stock k t + if ok then {e.pa} else 0 := by
  have hmap : (t'.leaves.map Pte.pa : Multiset Nat)
      = t.leaves.map Pte.pa + if ok then {e.pa} else 0 := by
    rw [h.leaves, Multiset.map_add]
    cases ok <;> simp
  simp only [Xv6.stock, tablePages, hmap]
  rw [← add_assoc, ← add_assoc, h.pages]
  abel

/-- A table with a new user page. -/
theorem Mapped.table {t t' : Pagetable} {v : Nat} {e : Pte} {ok : Bool}
    (h : Mapped G k t v e k' t' ok) (ht : TableOk G t) (he : v < NPAGES → G e.pa) :
    TableOk G t' where
  ne := h.ne
  nodes := h.nodes
  user := by
    have hlt := npages_lt_vpns
    intro v' hv' e' he'
    rw [h.get v' (by omega)] at he'
    split at he'
    · next hnew =>
      cases he'
      exact he (hnew.2 ▸ hv')
    · exact ht.user v' hv' e' he'

/-- What mapping a new page at `v` does; `new` is the page, if there is one. -/
structure Added (G : Nat → Prop) (k : Kmem) (t : Pagetable) (v : Nat) (perm : Perm) (k' : Kmem)
    (t' : Pagetable) (new : Option Nat) : Prop where
  kmem : k'.Ok G
  image : k'.image = k.image
  table : TableOk G t'
  stock : stock k' t' = stock k t
  fresh : new ≠ none → t.get v = none
  same : ∀ v' < VPNS, (v' = v → new = none) → t'.get v' = t.get v'
  page : ∀ mem, new = some mem → t'.get v = some ⟨mem, perm⟩
  length : k'.freelist.length + new.toList.length ≤ k.freelist.length
  took : Took 3 k k' (new ≠ none)

/-- The page `mem` was free, and `init` is in it now. -/
def Supplied (k : Kmem) (init : Kmem → Bytes.Mem) (k' : Kmem) (mem : Nat) : Prop :=
  mem ∈ k.freelist ∧ mem ∉ k'.freelist ∧ ∃ k₁, Inside k k₁ ∧ k'.page mem = init k₁

/-- The body of the loops that take a page, fill it, and map it: it is given back if there is
no room for the entry. -/
theorem wp_mapNew {β : Type} {E : Vm.Stop → Kmem → Prop} {Q : β → Kmem → Prop} {v : Nat}
    {t : Pagetable} {perm : Perm} {init : Kmem → Bytes.Mem} {full : VmM β}
    {yes no : Pagetable × Bool → Nat → VmM β}
    (h : k.Ok G) (ht : TableOk G t)
    (hroom : k.freelist ≠ [] → v ≤ NPAGES ∧ (t.get v = none ∨ ∀ e k, E e k))
    (hfull : ∀ k', Added G k t v perm k' t none → wp full Q E k')
    (hno : ∀ k' t' mem, Added G k t v perm k' t' none → wp (no (t', false) mem) Q E k')
    (hyes : ∀ k' t' mem, Added G k t v perm k' t' (some mem) →
      (k.freelist.Nodup → Supplied k init k' mem) → wp (yes (t', true) mem) Q E k') :
    wp (do
      match ← kalloc with
      | none => full
      | some mem => do
        modify fun m => m.write mem (init m)
        let r ← mappages t (v * PGSIZE) PGSIZE mem perm
        if r.2 then
          yes r mem
        else do
          kfree mem
          no r mem) Q E k := by
  rw [wp_bind]
  refine (wp_kalloc h).imp fun r k₁ hpost => ?_
  obtain ⟨hk₁, himage₁, htook, hr⟩ := hpost
  rcases hr with ⟨rfl, hlist⟩ | ⟨mem, rfl, hmem, hlist⟩
  · refine hfull k₁ ⟨hk₁, himage₁, ht, ?_, absurd rfl, fun _ _ _ => rfl, (by simp), by simp [hlist],
      htook.mono (by omega) (absurd rfl)⟩
    rw [Xv6.stock, Xv6.stock, hlist]
  · obtain ⟨hv, hnone⟩ := hroom (by rw [hlist]; exact List.cons_ne_nil _ _)
    simp only [wp_bind, wp_modify]
    refine (wp_mappages hk₁.write ht.ne ht.nodes (by omega) hnone).imp fun res k₂ hm => ?_
    obtain ⟨t₂, ok⟩ := res
    have ht₂ := hm.table ht fun _ => hmem
    have himage₂ := hm.image.trans himage₁
    have hst := hm.stock
    have hlen := hm.length
    have hfree : mem ∈ k.freelist := hlist ▸ List.mem_cons_self
    have hboth : Took 3 k k₂ (ok = true) := (htook.write hfree).trans hm.took
    have hstock₁ : Xv6.stock (k₁.write mem (init k₁)) t + {mem} = Xv6.stock k t := by
      simp only [Xv6.stock, hlist, coe_cons, write_freelist]
      abel
    simp only [write_freelist] at hlen
    cases ok with
    | false =>
      simp only [Bool.false_eq_true, if_false, wp_bind, add_zero] at hst ⊢
      refine wp_kfree_page (hm.kmem.page mem hmem) (hno _ t₂ mem ⟨hm.kmem.memset.push hmem, himage₂, ht₂, ?_,
        absurd rfl, fun v' hv' _ => ?_, (by simp), ?_, (hboth.inside.write (.inl hfree)).push (.inl hfree),
        fun hf hl => absurd (hboth.plenty hf hl).1 (by simp)⟩)
      · rw [← hstock₁, ← hst]
        change ((mem :: k₂.freelist : List Nat) : Multiset Nat) + tablePages t₂ = _
        rw [coe_cons, Xv6.stock]
        abel
      · rw [hm.get v' hv', if_neg (fun hc => Bool.noConfusion hc.1)]
      · rw [hlist]
        exact Nat.succ_le_succ hlen
    | true =>
      simp only [if_true] at hst ⊢
      refine hyes k₂ t₂ mem ⟨hm.kmem, himage₂, ht₂, hst.trans hstock₁, fun _ => hm.fresh rfl,
        fun v' hv' hne => ?_, ?_, ?_, hboth.mono le_rfl fun _ => Option.some_ne_none mem⟩ fun hnodup => ?_
      · rw [hm.get v' hv', if_neg fun hc => by cases hne hc.2]
      · rintro _ ⟨rfl⟩
        have := npages_lt_vpns
        rw [hm.get v (by omega), if_pos ⟨rfl, rfl⟩]
      · simp [hlist, hlen]
      · rw [hlist] at hnodup
        have hfresh : mem ∉ k₁.freelist := (List.nodup_cons.mp hnodup).1
        refine ⟨hfree, fun hmem' => hfresh (hm.took.inside.mem_free hmem'), k₁, htook.inside, ?_⟩
        rw [hm.took.inside.keeps_page hfresh]
        simp only [Kmem.write, Function.update_self]

/-- What growing from page `v` on does: it fails and takes back what was done from page
`base` on, or it maps `n` pages. -/
structure Grown (G : Nat → Prop) (k : Kmem) (t : Pagetable) (base v n newsz : Nat) (perm : Perm)
    (k' : Kmem) (t' : Pagetable) (sz : Nat) : Prop where
  kmem : k'.Ok G
  image : k'.image = k.image
  table : TableOk G t'
  stock : stock k' t' = stock k t
  result : (sz = 0 ∧ ∀ v' < VPNS, t'.get v' = if base ≤ v' ∧ v' < v then none else t.get v') ∨
    (sz = newsz ∧ v + n ≤ NPAGES ∧
      (∀ v' < VPNS, v' < v ∨ v + n ≤ v' → t'.get v' = t.get v') ∧
      (∀ v', v ≤ v' → v' < v + n → ∃ e, t'.get v' = some e ∧ e.perm = perm) ∧
      k'.freelist.length + n ≤ k.freelist.length)

/-- The way out of `uvmalloc` when a page is missing. -/
theorem wp_undo {E : Vm.Stop → Kmem → Prop} {k₀ : Kmem} {t₀ t : Pagetable} {base v n newsz : Nat}
    {perm : Perm} (h : k.Ok G) (himage : k.image = k₀.image) (ht : TableOk G t) (hbase : base ≤ v)
    (hv : v ≤ NPAGES) (hget : ∀ v' < VPNS, t.get v' = t₀.get v')
    (hstock : Xv6.stock k t = Xv6.stock k₀ t₀) :
    wp (do
      let r ← uvmdealloc t (v * PGSIZE) (base * PGSIZE)
      pure (r.1, 0)) (fun r k' => Grown G k₀ t₀ base v n newsz perm k' r.1 r.2) E k := by
  simp only [wp_bind]
  refine (wp_uvmdealloc h ht (page_le_trapframe hv)).imp fun res k' hpost => ?_
  obtain ⟨t', sz⟩ := res
  obtain ⟨hsz, hu⟩ := hpost
  have hmin : sz = base * PGSIZE := by
    rw [show sz = _ from hsz]
    exact Nat.min_eq_right (Nat.mul_le_mul_right _ hbase)
  rw [hmin, npages_page, npages_page] at hu
  refine wp_pure.mpr ⟨hu.kmem, hu.image.trans himage, hu.table, hu.stock.trans hstock, .inl ⟨rfl, ?_⟩⟩
  intro v' hv'
  rw [hu.get v' hv', hget v' hv', Nat.add_sub_cancel' hbase]

theorem wp_allocLoop {E : Vm.Stop → Kmem → Prop} {base n v newsz : Nat} {t : Pagetable}
    {perm : Perm} (h : k.Ok G) (ht : TableOk G t) (hbase : base ≤ v) (hv : v ≤ NPAGES)
    (hroom : v + n ≤ NPAGES ∨ v + k.freelist.length ≤ NPAGES ∨
      (t.get NPAGES ≠ none ∧ ∀ e k, E e k))
    (hfree : ∀ v', v ≤ v' → v' < NPAGES → t.get v' = none) :
    wp (allocLoop (base * PGSIZE) newsz perm n t (v * PGSIZE))
      (fun r k' => Grown G k t base v n newsz perm k' r.1 r.2) E k := by
  have hlt := npages_lt_vpns
  induction n generalizing k t v with
  | zero =>
    refine wp_pure.mpr ⟨h, rfl, ht, rfl, .inr ⟨rfl, hv, fun _ _ _ => rfl, ?_, le_rfl⟩⟩
    intro v' h₁ h₂
    omega
  | succ n ih =>
    have hroom' : k.freelist ≠ [] → v ≤ NPAGES ∧ (t.get v = none ∨ ∀ e k, E e k) := by
      intro hne
      have hpos := List.length_pos_of_ne_nil hne
      refine ⟨hv, ?_⟩
      rcases hroom with hfits | hfits | ⟨-, hE⟩
      · exact .inl (hfree v le_rfl (by omega))
      · exact .inl (hfree v le_rfl (by omega))
      · exact .inr hE
    have hundo : ∀ k₁ t₁, Added G k t v perm k₁ t₁ none → wp (do
        let r ← uvmdealloc t₁ (v * PGSIZE) (base * PGSIZE)
        pure (r.1, 0)) (fun r k' => Grown G k t base v (n + 1) newsz perm k' r.1 r.2) E k₁ :=
      fun k₁ t₁ ha => wp_undo ha.kmem ha.image ha.table hbase hv
        (fun v' hv' => ha.same v' hv' fun _ => rfl) ha.stock
    simp only [allocLoop, Kmem.memset]
    refine wp_mapNew h ht hroom' (fun k₁ ha => hundo k₁ t ha) (fun k₁ t₁ _ ha => hundo k₁ t₁ ha) ?_
    intro k₁ t₁ mem ha _
    have hlen₁ := ha.length
    simp only [Option.toList_some, List.length_singleton] at hlen₁
    have hvlt : v < NPAGES := by
      rcases hroom with hfits | hfits | ⟨htf, -⟩
      · omega
      · omega
      · refine lt_of_le_of_ne hv fun hc => htf ?_
        rw [← hc]
        exact ha.fresh (by simp)
    have hmore : v + 1 + n ≤ NPAGES ∨ v + 1 + k₁.freelist.length ≤ NPAGES ∨
        (t₁.get NPAGES ≠ none ∧ ∀ e k, E e k) := by
      rw [ha.same NPAGES (by omega) (by omega)]
      rcases hroom with hfits | hfits | hstop
      · exact .inl (by omega)
      · exact .inr (.inl (by omega))
      · exact .inr (.inr hstop)
    rw [page_succ]
    refine (ih ha.kmem ha.table (by omega) (by omega) hmore fun v' h₁ h₂ => ?_).imp
      fun r k' hg => ?_
    · rw [ha.same v' (by omega) (by omega)]
      exact hfree v' (by omega) h₂
    · refine ⟨hg.kmem, hg.image.trans ha.image, hg.table, hg.stock.trans ha.stock, ?_⟩
      rcases hg.result with ⟨hzero, hback⟩ | ⟨hsz, hle, hkeep, hnew, hlen'⟩
      · refine .inl ⟨hzero, fun v' hv' => ?_⟩
        rw [hback v' hv']
        by_cases hvv : v' = v
        · subst hvv
          simp [hbase, hfree v' le_rfl hvlt]
        · rw [ha.same v' hv' fun hc => absurd hc hvv]
          congr 1
          simp only [eq_iff_iff]
          omega
      · refine .inr ⟨hsz, by omega, fun v' hv' hout => ?_, fun v' h₁ h₂ => ?_, by omega⟩
        · rw [hkeep v' hv' (by omega), ha.same v' hv' (by omega)]
        · by_cases hvv : v' = v
          · subst hvv
            refine ⟨⟨mem, perm⟩, ?_, rfl⟩
            rw [hkeep v' (by omega) (by omega), ha.page mem rfl]
          · exact hnew v' (by omega) (by omega)

/-! ## Freeing a table -/

/-- The pages `ns` are freed. -/
structure Freed (k : Kmem) (ns : Multiset Nat) (k' : Kmem) : Prop where
  image : k'.image = k.image
  list : ∃ new : List Nat, (new : Multiset Nat) = ns ∧ k'.freelist = new ++ k.freelist ∧
    k'.freed = new ++ k.freed

theorem Freed.refl (k : Kmem) : Freed k 0 k := ⟨rfl, [], rfl, rfl, rfl⟩

theorem Freed.trans {k₁ k₂ : Kmem} {ns ms : Multiset Nat} (h : Freed k ns k₁) (h' : Freed k₁ ms k₂) :
    Freed k (ns + ms) k₂ := by
  obtain ⟨himage, new, rfl, hlist, hfreed⟩ := h
  obtain ⟨himage', new', rfl, hlist', hfreed'⟩ := h'
  refine ⟨himage'.trans himage, new' ++ new, ?_, ?_, ?_⟩
  · rw [← Multiset.coe_add, add_comm]
  · rw [hlist', hlist, List.append_assoc]
  · rw [hfreed', hfreed, List.append_assoc]

theorem Freed.isPage {ns : Multiset Nat} {x : Nat} (h : Freed k ns k') (hx : k.IsPage x) : k'.IsPage x := by
  unfold Kmem.IsPage at hx ⊢
  rwa [h.image]

/-- Every page of a table without entries is freed once. -/
theorem wp_freewalk_freed {E : Vm.Stop → Kmem → Prop} (t : Ptable l) (hne : t ≠ .nil)
    (hpage : ∀ x ∈ t.nodes, k.IsPage x) (hleaves : t.leaves = 0) :
    wp (freewalk t) (fun _ k' => Freed k t.nodes k') E k := by
  have hkfree {k₁ : Kmem} (a : Nat) : Freed k₁ {a} ((k₁.memset a 1).push a) := ⟨rfl, [a], rfl, rfl, rfl⟩
  induction t generalizing k with
  | nil => exact absurd rfl hne
  | leaf a slot =>
    rw [freewalk, wp_bind]
    have hloop : wp ((List.finRange 512).forM fun i => stopIf (slot i ≠ none) .freewalkLeaf)
        (fun _ k' => k' = k) E k := by
      refine wp_forM (I := fun _ k' => k' = k) (fun done i rest k' _ hk' => ?_) rfl
      simp [Trie.leaf_eq_none hleaves i, hk']
    refine hloop.imp fun _ k₁ hk₁ => ?_
    subst hk₁
    rw [Trie.nodes_leaf]
    exact wp_kfree_page (hpage a (Trie.addr_mem (by rintro ⟨⟩))) (hkfree a)
  | node a slot ih =>
    rw [freewalk, wp_bind]
    have hloop : wp ((List.finRange 512).forM fun i => if (slot i).isNil then pure () else freewalk (slot i))
        (fun _ k' => Freed k ((List.finRange 512).map fun i => (slot i).nodes).sum k') E k := by
      refine wp_forM (I := fun done k' => Freed k (done.map fun i => (slot i).nodes).sum k') ?_ (.refl k)
      intro done i rest k₁ _ hk₁
      rw [List.map_append, List.sum_append, List.map_singleton, List.sum_singleton]
      split
      · next hnil =>
        rw [Trie.isNil_iff.mp hnil, Trie.nodes_nil, add_zero]
        exact wp_pure.mpr hk₁
      · next hnil =>
        refine (ih i (fun hc => hnil (Trie.isNil_iff.mpr hc)) ?_ (Trie.leaves_slot_eq_zero hleaves i)).imp
          fun _ k₂ hk₂ => hk₁.trans hk₂
        exact fun x hx => hk₁.isPage (hpage x (Trie.mem_nodes_of_slot hx))
    refine hloop.imp fun _ k₁ hk₁ => wp_kfree_page (hk₁.isPage (hpage a (Trie.addr_mem (by rintro ⟨⟩)))) ?_
    rw [Trie.nodes_node, add_comm]
    exact hk₁.trans (hkfree a)

end Xv6
