-- SUMMARY: Page tables in memory are finite maps: what `walk`, `mappages`, `uvmunmap`, `uvmclear` and `freewalk` do to them.
import Xv6.Vm.Sv39
import Xv6.Vm.Pages

/-!
# Page tables as maps

The pages of a table in memory hold a radix tree of words. Different nodes of the tree are
different pages, and none of them is on the free list. The functions of `kernel/vm.c` are
described by what they do to that tree, and so to the map from page numbers to words.
-/

namespace Xv6

open Prog Radix

/-! ## Words in pages -/

namespace Kmem

variable {k k' : Kmem} {a x w : Nat} {i j : Fin 512}

theorem pte_congr (h : k'.page a = k.page a) : k'.pte a i = k.pte a i := by rw [pte, pte, h]

theorem page_setPte_ne (h : x ≠ a) : (k.setPte a i w).page x = k.page x := Function.update_of_ne h _ _

theorem page_memset_ne {c : UInt8} (h : x ≠ a) : (k.memset a c).page x = k.page x :=
  Function.update_of_ne h _ _

theorem pte_setPte_self (h : w < UINT64) : (k.setPte a i w).pte a i = w := by
  simp only [pte, setPte, write, Function.update_self]
  exact Bytes.getLE_putLE_of_lt h

theorem pte_setPte_ne (h : j ≠ i) : (k.setPte a i w).pte a j = k.pte a j := by
  simp only [pte, setPte, write, Function.update_self]
  have hij : j.val ≠ i.val := fun heq => h (Fin.ext heq)
  exact Bytes.getLE_putLE_disjoint (by omega)

theorem pte_memset_zero : (k.memset a 0).pte a i = 0 := by
  simp only [pte, memset, write, Function.update_self]
  have hzero (n : Nat) : ∀ off, Bytes.getLE (fun _ => 0) off n = 0 := by
    induction n with
    | zero => exact fun _ => rfl
    | succ n ih =>
      intro off
      rw [Bytes.getLE, ih]
      rfl
  exact hzero 8 _

end Kmem

namespace Sv39

/-- A table as a tree of words. -/
abbrev Table (l : Nat) : Type := Trie 512 Nat l

variable {k k' k'' : Kmem} {l v v' a b x w : Nat} {t t' t'' : Table l} {i j : Fin 512}

/-- The word that points to a table. -/
def dirWord (t : Table l) : Nat := if t.isNil then 0 else pa2pte t.addr ||| PTE_V

/-- The pages of the tree have its words. -/
def Holds (k : Kmem) : {l : Nat} → Table l → Prop
  | _, .nil => True
  | _, .leaf a slot => ∀ i, k.pte a i = (slot i).getD 0 ∧ ∀ w ∈ slot i, IsLeaf w
  | _, .node a slot => ∀ i, k.pte a i = dirWord (slot i) ∧ Holds k (slot i)

theorem Holds.frame (h : Holds k t) (hpage : ∀ x ∈ t.nodes, k'.page x = k.page x) : Holds k' t := by
  induction t with
  | nil => trivial
  | leaf a slot =>
    intro i
    have ha : a ∈ (Trie.leaf (w := 512) a slot).nodes := Trie.addr_mem (by simp)
    rw [Kmem.pte_congr (hpage a ha)]
    exact h i
  | node a slot ih =>
    intro i
    have ha : a ∈ (Trie.node a slot).nodes := Trie.addr_mem (by simp)
    rw [Kmem.pte_congr (hpage a ha)]
    exact ⟨(h i).1, ih i (h i).2 fun x hx => hpage x (Trie.mem_nodes_of_slot hx)⟩

/-- The entry for `v`. -/
theorem Holds.read (h : Holds k t) (hhome : t.home v = some b) :
    k.pte b (digit 512 0 v) = (t.get v).getD 0 ∧ ∀ w ∈ t.get v, IsLeaf w := by
  induction t with
  | nil => cases hhome
  | leaf a slot =>
    cases hhome
    exact h _
  | @node l a slot ih => exact ih _ (h _).2 hhome

theorem dirWord_put {w : Option Nat} : dirWord (t.put v w) = dirWord t := by
  cases t <;> rfl

/-- Writing the entry for `v`. -/
theorem Holds.put {w : Option Nat} (h : Holds k t) (hhome : t.home v = some b) (hnd : t.nodes.Nodup)
    (hw : ∀ x ∈ w, IsLeaf x) : Holds (k.setPte b (digit 512 0 v) (w.getD 0)) (t.put v w) := by
  have hlt : w.getD 0 < UINT64 := by
    cases w with
    | none => simp [UINT64]
    | some x => exact (hw x rfl).1
  induction t with
  | nil => cases hhome
  | leaf a slot =>
    cases hhome
    intro j
    by_cases hj : j = digit 512 0 v
    · subst hj
      rw [Function.update_self, Kmem.pte_setPte_self hlt]
      exact ⟨rfl, hw⟩
    · rw [Function.update_of_ne hj, Kmem.pte_setPte_ne hj]
      exact h j
  | @node l a slot ih =>
    intro j
    have hmem : b ∈ (slot (digit 512 (l + 1) v)).nodes := Trie.home_mem hhome
    have ha : k.pte a j = (k.setPte b (digit 512 0 v) (w.getD 0)).pte a j :=
      (Kmem.pte_congr (Kmem.page_setPte_ne (Trie.ne_of_mem_slot hnd hmem).symm)).symm
    rw [← ha]
    by_cases hj : j = digit 512 (l + 1) v
    · subst hj
      rw [Function.update_self, dirWord_put]
      exact ⟨(h _).1, ih _ (h _).2 hhome (Trie.slot_nodup hnd _)⟩
    · rw [Function.update_of_ne hj]
      refine ⟨(h j).1, (h j).2.frame fun x hx => Kmem.page_setPte_ne ?_⟩
      rintro rfl
      exact Trie.notMem_slot hnd hj hmem hx

/-- A table whose nodes are different pages that are in use. -/
structure Ok (k : Kmem) (t : Table l) : Prop where
  holds : Holds k t
  ne : t ≠ .nil
  nodup : ((k.freelist : Multiset Nat) + t.nodes).Nodup
  page : ∀ x ∈ (k.freelist : Multiset Nat) + t.nodes, k.IsPage x

namespace Ok

theorem nodes_nodup (h : Ok k t) : t.nodes.Nodup := (Multiset.nodup_add.mp h.nodup).2.1

theorem notMem_freelist (h : Ok k t) (hx : x ∈ t.nodes) : x ∉ k.freelist := fun hfree =>
  Multiset.disjoint_left.mp (Multiset.nodup_add.mp h.nodup).2.2 (Multiset.mem_coe.mpr hfree) hx

theorem isPage (h : Ok k t) (hx : x ∈ t.nodes) : k.IsPage x := h.page x (Multiset.mem_add.mpr (.inr hx))

/-- The entry in an upper level. -/
theorem dirWord (h : Ok k t) : Sv39.dirWord t &&& PTE_V ≠ 0 ∧
    Sv39.dirWord t &&& (PTE_R ||| PTE_W ||| PTE_X) = 0 ∧ pte2pa (Sv39.dirWord t) = t.addr := by
  obtain ⟨haligned, -, hlt⟩ := h.isPage (Trie.addr_mem h.ne)
  have hnil : t.isNil = false := Bool.eq_false_iff.mpr fun hc => h.ne (Trie.isNil_iff.mp hc)
  rw [Sv39.dirWord, hnil]
  have hlt : t.addr < UINT64 := hlt.trans (by decide)
  exact (dirWord_eq haligned hlt).2

theorem child {slot : Fin 512 → Table l} (h : Ok k (Trie.node a slot)) (hne : slot i ≠ .nil) :
    Ok k (slot i) where
  holds := (h.holds i).2
  ne := hne
  nodup := by
    refine Multiset.nodup_of_le ?_ h.nodup
    exact add_le_add_right ((Multiset.le_add_left _ _).trans (Trie.cons_slot_le (a := a) i)) _
  page x hx := by
    refine h.page x (Multiset.mem_add.mpr ((Multiset.mem_add.mp hx).imp_right fun hx => ?_))
    exact Trie.mem_nodes_of_slot hx

end Ok

/-! ## Walking -/

theorem wp_walkLoop {E : Vm.Stop → Kmem → Prop} {Q : Option (Nat × Fin 512) → Kmem → Prop} {va : Nat}
    (h : Ok k t) (hQ : Q ((t.home (va / PGSIZE)).map fun b => (b, digit 512 0 (va / PGSIZE))) k) :
    wp (walkLoop false va l t.addr) Q E k := by
  induction t with
  | nil => exact absurd rfl h.ne
  | leaf a slot =>
    rw [walkLoop, px_eq]
    exact wp_pure.mpr hQ
  | @node l a slot ih =>
    have hword := (h.holds (digit 512 (l + 1) (va / PGSIZE))).1
    simp only [Trie.addr, walkLoop, wp_bind, wp_get, px_eq, hword]
    by_cases hnil : slot (digit 512 (l + 1) (va / PGSIZE)) = .nil
    · rw [Trie.home_node, hnil, Trie.home_nil] at hQ
      rw [hnil]
      simpa [dirWord, Trie.isNil] using hQ
    · obtain ⟨hv, -, hpa⟩ := (h.child hnil).dirWord
      rw [if_pos hv, hpa]
      exact ih _ (h.child hnil) hQ

theorem wp_walk_find {E : Vm.Stop → Kmem → Prop} {Q : Option (Nat × Fin 512) → Kmem → Prop} {va : Nat}
    {t : Table 2} (h : Ok k t) (hwalk : MAXVA ≤ va → E .walk k)
    (hQ : va < MAXVA → Q ((t.home (va / PGSIZE)).map fun b => (b, digit 512 0 (va / PGSIZE))) k) :
    wp (walk t.addr va false) Q E k := by
  rw [walk, wp_bind, wp_stopIf]
  exact ⟨hwalk, fun hva => wp_walkLoop h (hQ (Nat.not_le.mp hva))⟩

/-- The tables on the way to an entry are made from free pages. -/
structure Grown (k : Kmem) (t : Table l) (k' : Kmem) (t' : Table l) : Prop where
  holds : Holds k' t'
  ne : t' ≠ .nil
  image : k'.image = k.image
  freed : k'.freed = k.freed
  addr : t'.addr = t.addr
  get : ∀ v, t'.get v = t.get v
  pages : (k'.freelist : Multiset Nat) + t'.nodes = k.freelist + t.nodes
  frame : ∀ x, x ∉ t.nodes → x ∉ k.freelist → k'.page x = k.page x

namespace Grown

theorem ok (h : Grown k t k' t') (hok : Ok k t) : Ok k' t' where
  holds := h.holds
  ne := h.ne
  nodup := h.pages ▸ hok.nodup
  page x hx := by
    obtain hpage := hok.page x (h.pages ▸ hx)
    unfold Kmem.IsPage at hpage ⊢
    rwa [h.image]

theorem trans (h : Grown k t k' t') (h' : Grown k' t' k'' t'') : Grown k t k'' t'' where
  holds := h'.holds
  ne := h'.ne
  image := h'.image.trans h.image
  freed := h'.freed.trans h.freed
  addr := h'.addr.trans h.addr
  get v := (h'.get v).trans (h.get v)
  pages := h'.pages.trans h.pages
  frame x hx hfree := by
    have hmem : x ∉ (k'.freelist : Multiset Nat) + t'.nodes := by
      rw [h.pages]
      simp [hx, hfree]
    rw [Multiset.mem_add, Multiset.mem_coe, not_or] at hmem
    rw [h'.frame x hmem.2 hmem.1, h.frame x hx hfree]

/-- Below one of the slots. -/
theorem child {slot : Fin 512 → Table l} {c : Table l} (h : Grown k (slot i) k' c)
    (hok : Ok k (Trie.node a slot)) (hne : slot i ≠ .nil) :
    Grown k (Trie.node a slot) k' (Trie.node a (Function.update slot i c)) where
  holds := by
    intro j
    have ha : a ∈ (Trie.node a slot).nodes := Trie.addr_mem (by simp)
    have hpage : k'.page a = k.page a := by
      refine h.frame a (fun hmem => ?_) (hok.notMem_freelist ha)
      exact Trie.ne_of_mem_slot hok.nodes_nodup hmem rfl
    rw [Kmem.pte_congr hpage, (hok.holds j).1]
    by_cases hj : j = i
    · subst hj
      have hnil : c.isNil = (slot j).isNil := by
        rw [Bool.eq_iff_iff, Trie.isNil_iff, Trie.isNil_iff]
        exact iff_of_false h.ne hne
      rw [Function.update_self, dirWord, dirWord, hnil, h.addr]
      exact ⟨rfl, h.holds⟩
    · rw [Function.update_of_ne hj]
      refine ⟨rfl, (hok.holds j).2.frame fun x hx => h.frame x (Trie.notMem_slot hok.nodes_nodup (Ne.symm hj) hx) ?_⟩
      exact hok.notMem_freelist (Trie.mem_nodes_of_slot hx)
  ne := by simp
  image := h.image
  freed := h.freed
  addr := rfl
  get := Trie.get_node_update h.get
  pages := by
    -- what the subtree gained, the free list lost
    refine add_right_cancel (b := (slot i).nodes) ?_
    rw [add_assoc, Trie.nodes_node_update]
    calc (k'.freelist : Multiset Nat) + ((Trie.node a slot).nodes + c.nodes)
        = (k'.freelist + c.nodes) + (Trie.node a slot).nodes := by abel
      _ = (k.freelist + (slot i).nodes) + (Trie.node a slot).nodes := by rw [h.pages]
      _ = _ := by abel
  frame x hx := h.frame x fun hmem => hx (Trie.mem_nodes_of_slot hmem)

end Grown

/-- A call of `kalloc` fails, or takes the first page. -/
theorem wp_kalloc_cases {E : Vm.Stop → Kmem → Prop} {Q : Option Nat → Kmem → Prop}
    (hnone : Q none (k.setFails k.fails.tail))
    (hsome : ∀ pa rest, k.freelist = pa :: rest →
      Q (some pa) (((k.setFails k.fails.tail).setFreelist rest).memset pa 5)) :
    wp kalloc Q E k := by
  simp only [kalloc, wp_bind, wp_get, wp_set]
  split
  · exact wp_pure.mpr hnone
  · split
    · exact wp_pure.mpr hnone
    · next pa rest hlist =>
      simp only [wp_bind, wp_modify, wp_pure]
      exact hsome pa rest hlist

theorem Holds.setFails {fails : List Bool} (h : Holds k t) : Holds (k.setFails fails) t :=
  h.frame fun _ _ => rfl

/-- The page `pa` becomes the table for slot `i`. -/
theorem Grown.dir {slot : Fin 512 → Table l} {pa : Nat} {rest : List Nat} {k₁ : Kmem}
    (hok : Ok k (Trie.node a slot)) (hnil : slot i = .nil) (hlist : k.freelist = pa :: rest)
    (hrest : k₁.freelist = rest) (himage : k₁.image = k.image) (hfreed : k₁.freed = k.freed)
    (hpage : ∀ x ≠ pa, k₁.page x = k.page x) :
    Grown k (Trie.node a slot) ((k₁.memset pa 0).setPte a i (pa2pte pa ||| PTE_V))
      (Trie.node a (Function.update slot i (Trie.empty 512 Nat pa l))) := by
  have hpa : pa ∈ k.freelist := by simp [hlist]
  have ha : a ∈ (Trie.node a slot).nodes := Trie.addr_mem (by simp)
  have hne : a ≠ pa := fun heq => hok.notMem_freelist ha (heq ▸ hpa)
  obtain ⟨haligned, -, hlt⟩ := hok.page pa (Multiset.mem_add.mpr (.inl (Multiset.mem_coe.mpr hpa)))
  have hword := dirWord_eq haligned (hlt.trans (by decide))
  have hother {x : Nat} (hxa : x ≠ a) (hxp : x ≠ pa) :
      ((k₁.memset pa 0).setPte a i (pa2pte pa ||| PTE_V)).page x = k.page x := by
    rw [Kmem.page_setPte_ne hxa, Kmem.page_memset_ne hxp, hpage x hxp]
  refine ⟨fun j => ?_, by simp, himage, hfreed, rfl, ?_, ?_, fun x hx hfree => ?_⟩
  · by_cases hj : j = i
    · subst hj
      rw [Function.update_self, Kmem.pte_setPte_self hword.1]
      refine ⟨?_, ?_⟩
      · cases l <;> rfl
      · have hzero (i : Fin 512) : ((k₁.memset pa 0).setPte a j (pa2pte pa ||| PTE_V)).pte pa i = 0 := by
          rw [Kmem.pte_congr (Kmem.page_setPte_ne hne.symm), Kmem.pte_memset_zero]
        cases l with
        | zero => exact fun i => ⟨hzero i, fun w hw => by cases hw⟩
        | succ l => exact fun i => ⟨hzero i, trivial⟩
    · rw [Function.update_of_ne hj, Kmem.pte_setPte_ne hj, Kmem.pte_congr (Kmem.page_memset_ne hne),
        Kmem.pte_congr (hpage a hne)]
      refine ⟨(hok.holds j).1, (hok.holds j).2.frame fun x hx => hother ?_ ?_⟩
      · exact Trie.ne_of_mem_slot hok.nodes_nodup hx
      · rintro rfl
        exact hok.notMem_freelist (Trie.mem_nodes_of_slot hx) hpa
  · intro v
    refine Trie.get_node_update (fun v => ?_) v
    rw [hnil, Trie.get_empty, Trie.get_nil]
  · change (k₁.freelist : Multiset Nat) + _ = _
    refine add_right_cancel (b := (slot i).nodes) ?_
    rw [add_assoc, Trie.nodes_node_update, hnil, Trie.nodes_empty, Trie.nodes_nil, hlist, coe_cons, hrest]
    abel
  · refine hother (fun heq => hx (heq ▸ ha)) fun heq => hfree (heq ▸ hpa)

theorem wp_walkLoop_alloc {E : Vm.Stop → Kmem → Prop} {va : Nat} (h : Ok k t) :
    wp (walkLoop true va l t.addr) (fun r k' => ∃ t', Grown k t k' t' ∧
      (r = none ∨ ∃ b, r = some (b, digit 512 0 (va / PGSIZE)) ∧ t'.home (va / PGSIZE) = some b)) E k := by
  induction l generalizing k with
  | zero =>
    cases t with
    | nil => exact absurd rfl h.ne
    | leaf a slot =>
      rw [walkLoop, px_eq]
      refine wp_pure.mpr ⟨_, ⟨h.holds, h.ne, rfl, rfl, rfl, fun _ => rfl, rfl, fun _ _ _ => rfl⟩, .inr ?_⟩
      exact ⟨a, rfl, rfl⟩
  | succ l ih =>
    cases t with
    | nil => exact absurd rfl h.ne
    | node a slot =>
      have hword := (h.holds (digit 512 (l + 1) (va / PGSIZE))).1
      simp only [Trie.addr, walkLoop, wp_bind, wp_get, px_eq, hword]
      by_cases hnil : slot (digit 512 (l + 1) (va / PGSIZE)) = .nil
      · rw [hnil, if_neg (by simp [dirWord, Trie.isNil]), if_pos trivial, wp_bind]
        refine wp_kalloc_cases ?_ fun pa rest hlist => ?_
        · refine wp_pure.mpr ⟨_, ⟨h.holds.setFails, h.ne, rfl, rfl, rfl, fun _ => rfl, rfl, fun _ _ _ => rfl⟩, ?_⟩
          exact .inl rfl
        · simp only [wp_bind, wp_modify]
          have hrest : (((k.setFails k.fails.tail).setFreelist rest).memset pa 5).freelist = rest := rfl
          have hdir := Grown.dir h hnil hlist hrest rfl rfl fun x hx => Kmem.page_memset_ne hx
          have hok := hdir.ok h
          set slot' := Function.update slot (digit 512 (l + 1) (va / PGSIZE)) (Trie.empty 512 Nat pa l)
          have hslot : slot' (digit 512 (l + 1) (va / PGSIZE)) = Trie.empty 512 Nat pa l :=
            Function.update_self ..
          have hne : slot' (digit 512 (l + 1) (va / PGSIZE)) ≠ .nil := hslot ▸ Trie.empty_ne_nil
          have hloop := ih (hok.child hne)
          rw [hslot, Trie.addr_empty] at hloop
          refine hloop.imp fun r k' hpost => ?_
          obtain ⟨c, hc, hr⟩ := hpost
          refine ⟨_, hdir.trans ((hslot ▸ hc).child hok hne), hr.imp_right ?_⟩
          rintro ⟨b, rfl, hb⟩
          refine ⟨b, rfl, ?_⟩
          rw [Trie.home_node, Function.update_self, hb]
      · obtain ⟨hv, -, hpa⟩ := (h.child hnil).dirWord
        rw [if_pos hv, hpa]
        refine (ih (h.child hnil)).imp fun r k' hpost => ?_
        obtain ⟨c, hc, hr⟩ := hpost
        refine ⟨_, hc.child h hnil, hr.imp_right ?_⟩
        rintro ⟨b, rfl, hb⟩
        refine ⟨b, rfl, ?_⟩
        rw [Trie.home_node, Function.update_self, hb]

theorem wp_walk_alloc {E : Vm.Stop → Kmem → Prop} {va : Nat} {t : Table 2} (h : Ok k t) (hva : va < MAXVA) :
    wp (walk t.addr va true) (fun r k' => ∃ t', Grown k t k' t' ∧
      (r = none ∨ ∃ b, r = some (b, digit 512 0 (va / PGSIZE)) ∧ t'.home (va / PGSIZE) = some b)) E k := by
  rw [walk, wp_bind, wp_stopIf]
  exact ⟨fun hge => absurd hva (Nat.not_lt.mpr hge), fun _ => wp_walkLoop_alloc h⟩

/-! ## Changing entries -/

/-- The word for page `v` changes. -/
theorem Ok.put {w : Option Nat} (h : Ok k t) (hhome : t.home v = some b) (hw : ∀ x ∈ w, IsLeaf x) :
    Ok (k.setPte b (digit 512 0 v) (w.getD 0)) (t.put v w) where
  holds := h.holds.put hhome h.nodes_nodup hw
  ne := Trie.put_ne_nil h.ne
  nodup := by
    rw [Trie.nodes_put]
    exact h.nodup
  page x hx := by
    rw [Trie.nodes_put] at hx
    exact h.page x hx

/-- A page that the table does not consist of is freed. -/
theorem Ok.kfree {pa : Nat} (h : Ok k t) (hpage : k.IsPage pa) (hfree : pa ∉ k.freelist)
    (hnode : pa ∉ t.nodes) : Ok ((k.memset pa 1).push pa) t where
  holds := h.holds.frame fun x hx => Kmem.page_memset_ne fun heq => hnode (heq ▸ hx)
  ne := h.ne
  nodup := by
    change ((pa :: k.freelist : List Nat) : Multiset Nat) + t.nodes |>.Nodup
    rw [← Multiset.cons_coe, Multiset.cons_add, Multiset.nodup_cons, Multiset.mem_add, not_or]
    exact ⟨⟨hfree, hnode⟩, h.nodup⟩
  page x hx := by
    change x ∈ ((pa :: k.freelist : List Nat) : Multiset Nat) + t.nodes at hx
    rw [← Multiset.cons_coe, Multiset.cons_add, Multiset.mem_cons] at hx
    obtain rfl | hx := hx
    · exact hpage
    · exact h.page x hx

/-- What happens to a table between two calls: `t'` is at the same address. -/
structure Kept (k : Kmem) (t : Table l) (k' : Kmem) (t' : Table l) : Prop where
  ok : Ok k' t'
  addr : t'.addr = t.addr
  image : k'.image = k.image

theorem Kept.trans (h : Kept k t k' t') (h' : Kept k' t' k'' t'') : Kept k t k'' t'' :=
  ⟨h'.ok, h'.addr.trans h.addr, h'.image.trans h.image⟩

theorem Grown.kept (h : Grown k t k' t') (hok : Ok k t) : Kept k t k' t' := ⟨h.ok hok, h.addr, h.image⟩

section
variable {t t' : Table 2} {E : Vm.Stop → Kmem → Prop} {n pa perm : Nat}

/-- One beyond the highest page number. -/
abbrev MAXVPN : Nat := MAXVA / PGSIZE

theorem vpn_lt (h : v * PGSIZE < MAXVA) : v < 512 ^ (2 + 1) := by
  simp only [MAXVA, PGSIZE] at h
  omega

theorem vpn_step (h : (v + (n + 1)) * PGSIZE ≤ MAXVA) : v * PGSIZE < MAXVA ∧
    (v + 1 + n) * PGSIZE ≤ MAXVA ∧ ∀ v' < v + 1 + n, v' < 512 ^ (2 + 1) := by
  have hsum : v + 1 + n = v + (n + 1) := by omega
  rw [hsum]
  refine ⟨?_, h, fun v' hv' => ?_⟩
  · exact (Nat.mul_lt_mul_of_pos_right (by omega) (by decide)).trans_le h
  · refine vpn_lt ((Nat.mul_lt_mul_of_pos_right hv' (by decide)).trans_le h)

/-- The entry for the page number `i` places after the first one. -/
def mapWord (pa perm i : Nat) : Nat := pa2pte ((pa + i * PGSIZE) % UINT64) ||| perm ||| PTE_V

theorem mapWord_succ {i : Nat} : mapWord ((pa + PGSIZE) % UINT64) perm i = mapWord pa perm (i + 1) := by
  have hsum : pa + PGSIZE + i * PGSIZE = pa + (i + 1) * PGSIZE := by ring
  rw [mapWord, mapWord, Nat.mod_add_mod, hsum]

/-- `mappages` adds the pages, or the first ones of them. -/
theorem wp_mapLoop (h : Ok k t) (hv : (v + n) * PGSIZE ≤ MAXVA) (hpa : pa < UINT64) (hperm : perm < 1024)
    (hr : perm &&& PTE_R ≠ 0) (hfree : ∀ v', v ≤ v' → v' < v + n → t.get v' = none) :
    wp (mapLoop t.addr perm n (v * PGSIZE) pa) (fun ok k' => ∃ t' j, Kept k t k' t' ∧ j ≤ n ∧
      (ok = true ↔ j = n) ∧ ∀ v' < 512 ^ (2 + 1), t'.get v' =
        if v ≤ v' ∧ v' < v + j then some (mapWord pa perm (v' - v)) else t.get v') E k := by
  induction n generalizing k t v pa with
  | zero =>
    rw [mapLoop]
    refine wp_pure.mpr ⟨t, 0, ⟨h, rfl, rfl⟩, le_rfl, by simp, fun v' _ => ?_⟩
    rw [if_neg (by omega)]
  | succ n ih =>
    obtain ⟨hva, hv₁, hlt⟩ := vpn_step hv
    rw [mapLoop, wp_bind]
    refine (wp_walk_alloc h hva).imp fun r k₁ hpost => ?_
    obtain ⟨t₁, hgrown, hr₁⟩ := hpost
    have hok₁ := hgrown.ok h
    rw [page_div] at hr₁
    obtain rfl | ⟨b, rfl, hhome⟩ := hr₁
    · refine wp_pure.mpr ⟨t₁, 0, hgrown.kept h, Nat.zero_le _, by simp, fun v' _ => ?_⟩
      rw [if_neg (by omega), hgrown.get]
    · have hnone : t₁.get v = none := (hgrown.get v).trans (hfree v le_rfl (by omega))
      have hpte : k₁.pte b (digit 512 0 v) = 0 := by
        rw [(hok₁.holds.read hhome).1, hnone]
        rfl
      simp only [wp_bind, wp_get, wp_stopIf, wp_modify, hpte, Nat.zero_and, ne_eq, not_true_eq_false,
        false_implies, not_false_eq_true, forall_const, true_and]
      have hleaf := (leafWord hpa hperm hr).1
      have hok₂ := hok₁.put (w := some (pa2pte pa ||| perm ||| PTE_V)) hhome fun x hx => by
        cases hx
        exact hleaf
      have hput (v' : Nat) (hv' : v' < 512 ^ (2 + 1)) :
          (t₁.put v (some (pa2pte pa ||| perm ||| PTE_V))).get v' =
            if v' = v then some (mapWord pa perm 0) else t.get v' := by
        rw [Trie.get_put_of_lt (Trie.find_ne_none hhome) (vpn_lt hva) hv', hgrown.get, mapWord, Nat.zero_mul,
          Nat.add_zero, Nat.mod_eq_of_lt hpa]
      have haddr : t.addr = (t₁.put v (some (pa2pte pa ||| perm ||| PTE_V))).addr := by
        rw [Trie.addr_put, hgrown.addr]
      rw [page_succ, haddr]
      have hpa₁ : (pa + PGSIZE) % UINT64 < UINT64 := Nat.mod_lt _ (by decide)
      have hloop := ih (v := v + 1) hok₂ hv₁ hpa₁ fun v' hlo hhi => ?_
      · refine hloop.imp fun ok k' hpost => ?_
        obtain ⟨t', j, hkept, hj, hok, hget⟩ := hpost
        have hkept₂ : Kept k t k₁ t₁ := hgrown.kept h
        refine ⟨t', j + 1, ⟨hkept.ok, hkept.addr.trans haddr.symm, hkept.image.trans hkept₂.image⟩, by omega,
          by rw [hok]; omega, fun v' hv' => ?_⟩
        rw [hget v' hv', hput v' hv']
        by_cases hin : v + 1 ≤ v' ∧ v' < v + 1 + j
        · have hdist : v' - (v + 1) + 1 = v' - v := by omega
          rw [if_pos hin, if_pos (by omega), mapWord_succ, hdist]
        · rw [if_neg hin]
          by_cases hself : v' = v
          · rw [if_pos hself, if_pos (by omega), hself, Nat.sub_self]
          · rw [if_neg hself, if_neg (by omega)]
      · rw [hput v' (hlt v' hhi), if_neg (by omega)]
        exact hfree v' (by omega) (by omega)

/-- The pages that `uvmunmap` frees are not part of the table, and each is mapped once. -/
structure Freeable (k : Kmem) (t : Table 2) (v n : Nat) : Prop where
  page : ∀ v' < 512 ^ (2 + 1), v ≤ v' → v' < v + n → ∀ w ∈ t.get v',
    k.IsPage (pte2pa w) ∧ pte2pa w ∉ k.freelist ∧ pte2pa w ∉ t.nodes
  once : ∀ v₁ v₂, v ≤ v₁ → v₁ < v₂ → v₂ < v + n → v₂ < 512 ^ (2 + 1) →
    ∀ w₁ ∈ t.get v₁, ∀ w₂ ∈ t.get v₂, pte2pa w₁ ≠ pte2pa w₂

/-- The rest of the pages. -/
theorem Freeable.tail (h : Freeable k t v (n + 1)) : Freeable k t (v + 1) n where
  page v' hlt hlo hhi := h.page v' hlt (by omega) (by omega)
  once v₁ v₂ hlo hlt hhi := h.once v₁ v₂ (by omega) hlt (by omega)

/-- The rest of the pages, after the first one was freed. -/
theorem Freeable.freed (h : Freeable k t v (n + 1)) (hv : v < 512 ^ (2 + 1)) (hhome : t.home v = some b)
    (hw : w ∈ t.get v) :
    Freeable (((k.memset (pte2pa w) 1).push (pte2pa w)).setPte b (digit 512 0 v) 0) (t.put v none)
      (v + 1) n := by
  have hget {v' : Nat} (hlt : v' < 512 ^ (2 + 1)) (hlo : v + 1 ≤ v') : (t.put v none).get v' = t.get v' := by
    rw [Trie.get_put_of_lt (Trie.find_ne_none hhome) hv hlt, if_neg (by omega)]
  refine ⟨fun v' hlt hlo hhi w' hw' => ?_, fun v₁ v₂ hlo hlt hhi hlt₂ w₁ hw₁ w₂ hw₂ => ?_⟩
  · rw [hget hlt hlo] at hw'
    obtain ⟨hpage, hfree, hnode⟩ := h.page v' hlt (by omega) (by omega) w' hw'
    refine ⟨hpage, ?_, by rwa [Trie.nodes_put]⟩
    change pte2pa w' ∉ pte2pa w :: k.freelist
    rw [List.mem_cons, not_or]
    exact ⟨fun heq => h.once v v' le_rfl hlo (by omega) hlt w hw w' hw' heq.symm, hfree⟩
  · rw [hget (hlt.trans hlt₂) hlo] at hw₁
    rw [hget hlt₂ (by omega)] at hw₂
    exact h.once v₁ v₂ (by omega) hlt (by omega) hlt₂ w₁ hw₁ w₂ hw₂

/-- `uvmunmap` removes the pages; it panics if they reach beyond `MAXVA`. -/
theorem wp_unmapLoop {doFree : Bool} (h : Ok k t) (hfree : doFree = true → Freeable k t v n)
    (hwalk : (v + n) * PGSIZE ≤ MAXVA ∨ ∀ k, E .walk k) :
    wp (unmapLoop t.addr doFree n (v * PGSIZE)) (fun _ k' => ∃ t', Kept k t k' t' ∧
      ∀ v' < 512 ^ (2 + 1), t'.get v' = if v ≤ v' ∧ v' < v + n then none else t.get v') E k := by
  induction n generalizing k t v with
  | zero =>
    rw [unmapLoop]
    refine wp_pure.mpr ⟨t, ⟨h, rfl, rfl⟩, fun v' _ => ?_⟩
    rw [if_neg (by omega)]
  | succ n ih =>
    have hwalk' : (v + 1 + n) * PGSIZE ≤ MAXVA ∨ ∀ k, E .walk k := hwalk.imp_left fun hle => (vpn_step hle).2.1
    -- the pages after `v` in a table in which `v` is not mapped any more
    have hrest {k₁ : Kmem} {t₁ : Table 2} (hkept : Kept k t k₁ t₁)
        (hget : ∀ v' < 512 ^ (2 + 1), t₁.get v' = if v' = v then none else t.get v')
        (hfree₁ : doFree = true → Freeable k₁ t₁ (v + 1) n) :
        wp (unmapLoop t.addr doFree n (v * PGSIZE + PGSIZE)) (fun _ k' => ∃ t', Kept k t k' t' ∧
          ∀ v' < 512 ^ (2 + 1), t'.get v' = if v ≤ v' ∧ v' < v + (n + 1) then none else t.get v') E k₁ := by
      rw [page_succ, ← hkept.addr]
      refine (ih hkept.ok hfree₁ hwalk').imp fun _ k' hpost => ?_
      obtain ⟨t', hkept', hget'⟩ := hpost
      refine ⟨t', hkept.trans hkept', fun v' hv' => ?_⟩
      rw [hget' v' hv', hget v' hv']
      by_cases hself : v' = v
      · rw [if_pos hself, ite_self, if_pos (by omega)]
      · rw [if_neg hself]
        by_cases hin : v + 1 ≤ v' ∧ v' < v + 1 + n
        · rw [if_pos hin, if_pos (by omega)]
        · rw [if_neg hin, if_neg (by omega)]
    rw [unmapLoop, wp_bind]
    refine wp_walk_find h (fun hge => ?_) fun hva => ?_
    · obtain hle | hE := hwalk
      · exact absurd (vpn_step hle).1 (Nat.not_lt.mpr hge)
      · exact hE k
    rw [page_div]
    have hlt := vpn_lt hva
    have hunmapped (hnone : t.get v = none) (v' : Nat) (_ : v' < 512 ^ (2 + 1)) :
        t.get v' = if v' = v then none else t.get v' := by
      split
      · next heq => rw [heq, hnone]
      · rfl
    cases hhome : t.home v with
    | none =>
      have hnone : t.get v = none := by rw [Trie.get, Trie.home_eq_none.mp hhome, Option.join_none]
      exact hrest ⟨h, rfl, rfl⟩ (hunmapped hnone) fun hdo => (hfree hdo).tail
    | some b =>
      obtain ⟨hpte, hleaf⟩ := h.holds.read hhome
      simp only [Option.map_some, wp_bind, wp_get, hpte]
      cases hget : t.get v with
      | none =>
        rw [Option.getD_none, Nat.zero_and, if_pos rfl]
        exact hrest ⟨h, rfl, rfl⟩ (hunmapped hget) fun hdo => (hfree hdo).tail
      | some w =>
        have hput (v' : Nat) (hv' : v' < 512 ^ (2 + 1)) :
            (t.put v none).get v' = if v' = v then none else t.get v' :=
          Trie.get_put_of_lt (Trie.find_ne_none hhome) hlt hv'
        rw [Option.getD_some, if_neg (hleaf w hget).2.1]
        cases doFree with
        | false =>
          simp only [Bool.false_eq_true, if_false, wp_bind, wp_modify]
          exact hrest ⟨h.put hhome (w := none) (by simp), Trie.addr_put, rfl⟩ hput fun hdo => by cases hdo
        | true =>
          obtain ⟨hpage, hnotfree, hnode⟩ := (hfree rfl).page v hlt le_rfl (by omega) w hget
          rw [if_pos rfl, wp_bind]
          refine wp_kfree_page hpage ?_
          simp only [wp_bind, wp_modify]
          have hok := (h.kfree hpage hnotfree hnode).put hhome (w := none) (by simp)
          exact hrest ⟨hok, Trie.addr_put, rfl⟩ hput fun hdo => (hfree hdo).freed hlt hhome hget

/-- `uvmclear` clears `PTE_U`; it panics if there is no place for the entry. -/
theorem wp_uvmclear {va : Nat} (h : Ok k t) (hE : ∀ e, E e k) :
    wp (uvmclear t.addr va) (fun _ k' => ∃ t', Kept k t k' t' ∧
      ∀ v' < 512 ^ (2 + 1), t'.get v' =
        if v' = va / PGSIZE then (t.get v').map clearU else t.get v') E k := by
  rw [uvmclear, wp_bind]
  refine wp_walk_find h (fun _ => hE _) fun hva => ?_
  have hlt : va / PGSIZE < 512 ^ (2 + 1) := by
    simp only [MAXVA, PGSIZE] at hva ⊢
    omega
  cases hhome : t.home (va / PGSIZE) with
  | none => exact wp_throw.mpr (hE _)
  | some b =>
    obtain ⟨hpte, hleaf⟩ := h.holds.read hhome
    have hword : clearU ((t.get (va / PGSIZE)).getD 0) = ((t.get (va / PGSIZE)).map clearU).getD 0 := by
      cases t.get (va / PGSIZE) with
      | none => exact Nat.zero_and _
      | some w => rfl
    simp only [Option.map_some, wp_modify, hpte, hword]
    refine ⟨_, ⟨h.put hhome fun x hx => ?_, Trie.addr_put, rfl⟩, fun v' hv' => ?_⟩
    · obtain ⟨w, hw, rfl⟩ := Option.map_eq_some_iff.mp hx
      exact (clearU_leaf (hleaf w hw)).1
    · rw [Trie.get_put_of_lt (Trie.find_ne_none hhome) hlt hv']
      split
      · next heq => rw [heq]
      · rfl

end

end Sv39

end Xv6
