-- SUMMARY: What the functions on page tables do to a tree of entries, they do to its words in memory.
import Xv6.Base.Sim
import Xv6.Vm.Walk

/-!
# Trees of entries and words in memory

There are two models of the functions in `kernel/vm.c`: on trees of entries, and on the words
in the pages of a table. They agree. If the words of a table are those of a tree and the rest
of memory is the same, then a function returns the same in both and leaves them so, or it
panics with the same message in both.
-/

namespace Xv6

open Prog Radix

/-! ## Entries -/

/-- The permissions as bits of a word. -/
def Perm.bits (p : Perm) : Nat :=
  (if p.r then Sv39.PTE_R else 0) ||| (if p.w then Sv39.PTE_W else 0) |||
    (if p.x then Sv39.PTE_X else 0) ||| (if p.u then Sv39.PTE_U else 0)

/-- The word for an entry. -/
def Pte.word (e : Pte) : Nat := Sv39.pa2pte e.pa ||| e.perm.bits ||| Sv39.PTE_V

/-- An entry that can be told from its word. -/
structure Pte.Fits (e : Pte) : Prop where
  lt : e.pa < UINT64
  aligned : e.pa % PGSIZE = 0
  readable : e.perm.r = true

namespace Sv39

variable {N : Nat → Prop} {k k' k₁ k₁' : Kmem} {l v a b pa : Nat} {e : Pte}

theorem bits_lt (p : Perm) : p.bits < 1024 := by
  have hall : ∀ r w x u, (Perm.mk r w x u).bits < 1024 := by decide
  exact hall p.r p.w p.x p.u

/-- Without `PTE_U`. -/
theorem bits_clear (p : Perm) : (p.bits ||| PTE_V) &&& 1007 = { p with u := false : Perm }.bits ||| PTE_V := by
  have hall : ∀ r w x u, ((Perm.mk r w x u).bits ||| PTE_V) &&& 1007 = (Perm.mk r w x false).bits ||| PTE_V := by
    decide
  exact hall p.r p.w p.x p.u

theorem bits_readable {p : Perm} (h : p.r = true) : p.bits &&& PTE_R ≠ 0 := by
  have hall : ∀ w x u, (Perm.mk true w x u).bits &&& PTE_R ≠ 0 := by decide
  have hp := hall p.w p.x p.u
  rwa [← h] at hp

theorem word_leaf (h : e.Fits) :
    IsLeaf e.word ∧ pte2pa e.word = e.pa ∧ pteFlags e.word = e.perm.bits ||| PTE_V := by
  obtain ⟨hleaf, hpa, hflags⟩ := leafWord h.lt (bits_lt e.perm) (bits_readable h.readable)
  rw [pgrounddown, Nat.div_mul_cancel (Nat.dvd_of_mod_eq_zero h.aligned)] at hpa
  exact ⟨hleaf, hpa, hflags⟩

theorem clearU_word (h : e.Fits) :
    clearU e.word = { e with perm := { e.perm with u := false } : Pte }.word := by
  have hlt (p : Perm) : p.bits ||| PTE_V < 1024 := Nat.or_lt_two_pow (n := 10) (bits_lt p) (by decide)
  have hq : e.pa / PGSIZE < 2 ^ 54 := by
    have hpa := h.lt
    simp only [UINT64, PGSIZE] at *
    omega
  rw [Pte.word, Pte.word, Nat.or_assoc, Nat.or_assoc, pa2pte_or (hlt _), pa2pte_or (hlt _),
    clearU_eq hq (hlt _), bits_clear]

/-! ## The rest of memory -/

/-- `k'` is `k`, except for what is in the pages `N`. -/
def Agree (N : Nat → Prop) (k k' : Kmem) : Prop :=
  ∃ page, k' = { k with page := page } ∧ ∀ x, ¬ N x → page x = k.page x

namespace Agree

theorem refl (k : Kmem) : Agree N k k := ⟨k.page, rfl, fun _ _ => rfl⟩

/-- Nothing is different. -/
theorem eq (h : Agree N k k') (hN : ∀ x, ¬ N x) : k' = k := by
  obtain ⟨page, rfl, hpage⟩ := h
  have hsame : page = k.page := funext fun x => hpage x (hN x)
  rw [hsame]

theorem mono {N' : Nat → Prop} (h : Agree N k k') (hN : ∀ x, N x → N' x) : Agree N' k k' := by
  obtain ⟨page, rfl, hpage⟩ := h
  exact ⟨page, rfl, fun x hx => hpage x fun hmem => hx (hN x hmem)⟩

theorem setFails {fails : List Bool} (h : Agree N k k') : Agree N (k.setFails fails) (k'.setFails fails) := by
  obtain ⟨page, rfl, hpage⟩ := h
  exact ⟨page, rfl, hpage⟩

theorem setFreelist {free : List Nat} (h : Agree N k k') :
    Agree N (k.setFreelist free) (k'.setFreelist free) := by
  obtain ⟨page, rfl, hpage⟩ := h
  exact ⟨page, rfl, hpage⟩

theorem push (h : Agree N k k') : Agree N (k.push pa) (k'.push pa) := by
  obtain ⟨page, rfl, hpage⟩ := h
  exact ⟨page, rfl, hpage⟩

/-- A page that both overwrite is the same then. -/
theorem memset (h : Agree N k k') (pa : Nat) (c : UInt8) :
    Agree (fun x => N x ∧ x ≠ pa) (k.memset pa c) (k'.memset pa c) := by
  obtain ⟨page, rfl, hpage⟩ := h
  refine ⟨Function.update page pa fun _ => c, rfl, fun x hx => ?_⟩
  by_cases heq : x = pa
  · subst heq
    rw [Function.update_self]
    exact (Function.update_self x (fun _ => c) k.page).symm
  · rw [Function.update_of_ne heq, Kmem.page_memset_ne heq]
    exact hpage x fun hmem => hx ⟨hmem, heq⟩

theorem setPte {i : Fin 512} {w : Nat} (h : Agree N k k') (ha : N a) : Agree N k (k'.setPte a i w) := by
  obtain ⟨page, rfl, hpage⟩ := h
  refine ⟨_, rfl, fun x hx => ?_⟩
  rw [← hpage x hx]
  exact Function.update_of_ne (fun heq => hx (by rwa [heq])) _ _

end Agree

theorem sim_kalloc (h : Agree N k k') :
    Sim kalloc kalloc (fun r k₁ r' k₁' => r' = r ∧ Agree N k₁ k₁' ∧
      (r = none ∧ k₁' = k'.setFails k'.fails.tail ∨ ∃ pa rest, r = some pa ∧ k'.freelist = pa :: rest ∧
        k₁' = ((k'.setFails k'.fails.tail).setFreelist rest).memset pa 5)) k k' := by
  intro Q E hk
  obtain ⟨hfails, hfree⟩ : k.fails = k'.fails ∧ k.freelist = k'.freelist := by
    obtain ⟨page, rfl, -⟩ := h
    exact ⟨rfl, rfl⟩
  simp only [kalloc, wp_bind, wp_get, wp_set, hfails, hfree] at hk ⊢
  split at hk <;> rename_i hrefused
  · rw [if_pos hrefused, wp_pure]
    exact wp_pure.mp hk _ _ ⟨rfl, h.setFails, .inl ⟨rfl, rfl⟩⟩
  · rw [if_neg hrefused]
    cases hlist : k'.freelist with
    | nil =>
      rw [hlist] at hk
      exact wp_pure.mpr (wp_pure.mp hk _ _ ⟨rfl, h.setFails, .inl ⟨rfl, rfl⟩⟩)
    | cons pa rest =>
      rw [hlist] at hk
      simp only [wp_bind, wp_modify, wp_pure] at hk ⊢
      refine hk _ _ ⟨rfl, (h.setFails.setFreelist.memset pa 5).mono fun _ hx => hx.1, .inr ⟨pa, rest, ?_⟩⟩
      exact ⟨rfl, rfl, rfl⟩

theorem sim_kfree (h : Agree N k k') :
    Sim (kfree pa) (kfree pa) (fun _ k₁ _ k₁' => k₁' = (k'.memset pa 1).push pa ∧
      Agree (fun x => N x ∧ x ≠ pa) k₁ k₁') k k' := by
  intro Q E hk
  have hagree : Agree (fun x => N x ∧ x ≠ pa) ((k.memset pa 1).push pa) ((k'.memset pa 1).push pa) :=
    (h.memset pa 1).push
  have hpage : k'.IsPage pa ↔ k.IsPage pa := by
    obtain ⟨page, rfl, -⟩ := h
    exact Iff.rfl
  simp only [kfree, wp_bind, wp_get, wp_stopIf, wp_modify, hpage] at hk ⊢
  exact ⟨fun hnot => hk.1 hnot _, fun hp => hk.2 hp _ _ ⟨rfl, hagree⟩⟩

/-! ## Walking -/

/-- What the allocating walk leaves: the tree and the words have grown in the same way, and the pointer
is to the word for `v`. -/
structure Walked (N : Nat → Prop) (k' : Kmem) (t : Ptable l) (v : Nat) (r : Ptable l × Bool) (k₁ : Kmem)
    (p : Option (Nat × Fin 512)) (k₁' : Kmem) : Prop where
  grown : Grown k' (t.map Pte.word) k₁' (r.1.map Pte.word)
  agree : Agree (fun x => N x ∨ x ∈ r.1.nodes) k₁ k₁'
  nodes : ∀ x ∈ t.nodes, x ∈ r.1.nodes
  get : ∀ v', r.1.get v' = t.get v'
  pointer : (r.2 = false ∧ p = none) ∨
    (r.2 = true ∧ ∃ b, r.1.home v = some b ∧ p = some (b, digit 512 0 v))

/-- Below one of the slots. -/
theorem Walked.child {slot : Fin 512 → Ptable l} {r : Ptable l × Bool} {p : Option (Nat × Fin 512)}
    (h : Walked N k' (slot (digit 512 (l + 1) v)) v r k₁ p k₁') (hok : Ok k' ((Trie.node a slot).map Pte.word))
    (hne : slot (digit 512 (l + 1) v) ≠ .nil) :
    Walked N k' (.node a slot) v (.node a (Function.update slot (digit 512 (l + 1) v) r.1), r.2) k₁ p k₁' where
  grown := by
    rw [Trie.map_node_update]
    exact h.grown.child hok (Trie.map_ne_nil hne)
  agree := h.agree.mono fun x hx => hx.imp_right fun hx =>
    Trie.mem_nodes_of_slot (i := digit 512 (l + 1) v) (by rwa [Function.update_self])
  nodes _ := Trie.mem_nodes_of_update h.nodes
  get := Trie.get_node_update h.get
  pointer := by
    refine h.pointer.imp_right fun ⟨hr, b, hb, hp⟩ => ⟨hr, b, ?_, hp⟩
    rw [Trie.home_node, Function.update_self, hb]

/-- The table for slot `i` was made first. -/
theorem Walked.dir {slot : Fin 512 → Ptable l} {i : Fin 512} {k₂ : Kmem} {r : Ptable (l + 1) × Bool}
    {p : Option (Nat × Fin 512)} (hnil : slot i = .nil)
    (hdir : Grown k' ((Trie.node a slot).map Pte.word) k₂
      ((Trie.node a (Function.update slot i (Trie.empty 512 Pte pa l))).map Pte.word))
    (h : Walked (fun x => N x ∨ x = pa) k₂ (.node a (Function.update slot i (Trie.empty 512 Pte pa l))) v r k₁
      p k₁') : Walked N k' (.node a slot) v r k₁ p k₁' where
  grown := hdir.trans h.grown
  agree := by
    have hpa : pa ∈ r.1.nodes := h.nodes pa (Trie.mem_nodes_of_slot (i := i) (by simp))
    refine h.agree.mono fun x hx => ?_
    obtain (hx | rfl) | hx := hx
    · exact .inl hx
    · exact .inr hpa
    · exact .inr hx
  nodes x hx := h.nodes x (Trie.mem_nodes_of_update (by simp [hnil]) hx)
  get v' := by
    rw [h.get v']
    refine Trie.get_node_update (fun v => ?_) v'
    rw [hnil, Trie.get_empty, Trie.get_nil]
  pointer := h.pointer

theorem ensure_of_ne {t : Ptable l} (h : t ≠ .nil) : ensure t = pure (some t) := by
  cases t with
  | nil => exact absurd rfl h
  | leaf a slot => rfl
  | node a slot => rfl

theorem sim_fill {t : Ptable l} {va : Nat} (h : Ok k' (t.map Pte.word)) (hagree : Agree N k k')
    (hN : ∀ x ∈ t.nodes, N x) :
    Sim (fill t (va / PGSIZE)) (walkLoop true va l t.addr) (Walked N k' t (va / PGSIZE)) k k' := by
  induction l generalizing k k' N with
  | zero =>
    cases t with
    | nil => exact absurd rfl h.ne
    | leaf a slot =>
      intro Q E hk
      rw [fill, wp_pure] at hk
      rw [walkLoop, px_eq, wp_pure]
      refine hk _ _ ⟨⟨h.holds, h.ne, rfl, rfl, rfl, fun _ => rfl, rfl, fun _ _ _ => rfl⟩,
        hagree.mono fun _ => .inl, fun _ hx => hx, fun _ => rfl, .inr ⟨rfl, a, rfl, rfl⟩⟩
  | succ l ih =>
    cases t with
    | nil => exact absurd rfl h.ne
    | node a slot =>
      intro Q E hk
      have hword := (h.holds (digit 512 (l + 1) (va / PGSIZE))).1
      simp only [Trie.addr, walkLoop, wp_bind, wp_get, px_eq, hword]
      rw [fill, wp_bind] at hk
      by_cases hnil : slot (digit 512 (l + 1) (va / PGSIZE)) = .nil
      · rw [hnil, Trie.map, if_neg (by simp [dirWord, Trie.isNil]), if_pos trivial, wp_bind]
        rw [hnil, ensure, wp_bind] at hk
        refine sim_kalloc hagree _ _ (hk.imp fun r k₁ hr r' k₁' hpost => ?_)
        obtain ⟨rfl, hagree₁, ⟨rfl, rfl⟩ | ⟨pa, rest, rfl, hlist, rfl⟩⟩ := hpost
        · simp only [wp_pure] at hr ⊢
          exact hr _ _ ⟨⟨h.holds.setFails, h.ne, rfl, rfl, rfl, fun _ => rfl, rfl, fun _ _ _ => rfl⟩,
            hagree₁.mono fun _ => .inl, fun _ hx => hx, fun _ => rfl, .inl ⟨rfl, rfl⟩⟩
        · simp only [wp_bind, wp_modify, wp_pure] at hr ⊢
          -- the new table is in the tree and in memory, and the walk goes on from there
          have hrest : (((k'.setFails k'.fails.tail).setFreelist rest).memset pa 5).freelist = rest := rfl
          have hdir := Grown.dir h (congrArg (Trie.map Pte.word) hnil) hlist hrest rfl rfl
            fun x hx => Kmem.page_memset_ne hx
          rw [← Trie.map_empty (f := Pte.word), ← Trie.map_node_update] at hdir
          have hok := hdir.ok h
          set slot' := Function.update slot (digit 512 (l + 1) (va / PGSIZE)) (Trie.empty 512 Pte pa l) with hdef
          have hslot : slot' (digit 512 (l + 1) (va / PGSIZE)) = Trie.empty 512 Pte pa l :=
            Function.update_self ..
          have hne : slot' (digit 512 (l + 1) (va / PGSIZE)) ≠ .nil := hslot ▸ Trie.empty_ne_nil
          have ha : N a := hN a (Trie.addr_mem (by simp))
          have hagree₂ : Agree (fun x => N x ∨ x = pa) _ _ :=
            (hagree₁.memset pa 0).mono fun x hx => .inl hx.1
          have hfill := ih (hok.child (Trie.map_ne_nil hne)) (hagree₂.setPte (.inl ha)) fun x hx => by
            rw [hslot, Trie.nodes_empty, Multiset.mem_singleton] at hx
            exact .inr hx
          rw [hslot, Trie.addr_empty] at hfill
          refine hfill _ _ (hr.imp fun r k₁ hr p k₁' hwalked => hr p k₁' ?_)
          have hchild := (hslot ▸ hwalked).child hok hne
          rw [hdef, Function.update_idem] at hchild
          exact hchild.dir hnil hdir
      · obtain ⟨hv, -, hpa⟩ := (h.child (Trie.map_ne_nil hnil)).dirWord
        rw [if_pos hv, hpa, Trie.addr_map]
        rw [ensure_of_ne hnil, wp_pure, wp_bind] at hk
        refine ih (h.child (Trie.map_ne_nil hnil)) hagree (fun x hx => hN x (Trie.mem_nodes_of_slot hx)) _ _ ?_
        refine hk.imp fun r k₁ hr p k₁' hwalked => ?_
        exact wp_pure.mp hr p k₁' (hwalked.child h hnil)

/-! ## Changing entries -/

/-- The table in `k'` has the words of the tree. The rest of memory is the same. -/
structure Mirrors (k : Kmem) (t : Pagetable) (k' : Kmem) : Prop where
  ok : Ok k' (t.map Pte.word)
  fits : ∀ v, ∀ e ∈ t.get v, e.Fits
  agree : Agree (· ∈ t.nodes) k k'

variable {t : Pagetable}

namespace Mirrors

theorem walked {r : Pagetable × Bool} {p : Option (Nat × Fin 512)} (h : Mirrors k t k')
    (hw : Walked (· ∈ t.nodes) k' t v r k₁ p k₁') : Mirrors k₁ r.1 k₁' ∧ r.1.addr = t.addr := by
  refine ⟨⟨hw.grown.ok h.ok, fun v' e he => h.fits v' e (hw.get v' ▸ he), hw.agree.mono fun x hx => ?_⟩, ?_⟩
  · exact hx.elim (hw.nodes x) id
  · simpa using hw.grown.addr

theorem read (h : Mirrors k t k') (hhome : t.home v = some b) :
    k'.pte b (digit 512 0 v) = ((t.get v).map Pte.word).getD 0 := by
  rw [← Trie.get_map]
  exact (h.ok.holds.read (by rwa [Trie.home_map])).1

theorem valid (h : Mirrors k t k') (hhome : t.home v = some b) :
    k'.pte b (digit 512 0 v) &&& PTE_V ≠ 0 ↔ t.get v ≠ none := by
  rw [h.read hhome]
  cases hget : t.get v with
  | none => simp
  | some e => simpa using (word_leaf (h.fits v e hget)).1.2.1

theorem put {x : Option Pte} (h : Mirrors k t k') (hhome : t.home v = some b) (hx : ∀ e ∈ x, e.Fits) :
    Mirrors k (t.put v x) (k'.setPte b (digit 512 0 v) ((x.map Pte.word).getD 0)) where
  ok := by
    rw [Trie.put_map]
    refine h.ok.put (by rwa [Trie.home_map]) fun w hw => ?_
    obtain ⟨e, he, rfl⟩ := Option.map_eq_some_iff.mp hw
    exact (word_leaf (hx e he)).1
  fits v' e he := by
    rw [Trie.get_put (Trie.find_ne_none hhome)] at he
    split at he
    · exact hx e he
    · exact h.fits v' e he
  agree := by
    simp only [Trie.nodes_put]
    exact h.agree.setPte (Trie.home_mem hhome)

theorem kfree (h : Mirrors k t k') (hpage : k'.IsPage pa) (hfree : pa ∉ k'.freelist) (hnode : pa ∉ t.nodes)
    (hagree : Agree (fun x => x ∈ t.nodes ∧ x ≠ pa) k₁ ((k'.memset pa 1).push pa)) :
    Mirrors k₁ t ((k'.memset pa 1).push pa) :=
  ⟨h.ok.kfree hpage hfree (by rwa [Trie.nodes_map]), h.fits, hagree.mono fun _ hx => hx.1⟩

end Mirrors

theorem sim_mapLoop {perm : Perm} {n : Nat} (h : Mirrors k t k') (hpa : pa % PGSIZE = 0)
    (hlt : pa + n * PGSIZE < UINT64) (hr : perm.r = true) :
    Sim (Xv6.mapLoop perm n t a pa) (mapLoop t.addr perm.bits n a pa)
      (fun r k₁ ok k₁' => ok = r.2 ∧ Mirrors k₁ r.1 k₁' ∧ r.1.addr = t.addr) k k' := by
  induction n generalizing k k' t a pa with
  | zero =>
    intro Q E hk
    rw [Xv6.mapLoop, wp_pure] at hk
    exact wp_pure.mpr (hk _ _ ⟨rfl, h, rfl⟩)
  | succ n ih =>
    intro Q E hk
    simp only [Xv6.mapLoop, walkAlloc, wp_bind, wp_stopIf] at hk
    simp only [mapLoop, walk, wp_bind, wp_stopIf]
    refine ⟨fun hge => hk.1 hge _, fun hva => ?_⟩
    refine sim_fill h.ok h.agree (fun _ hx => hx) _ _ ((hk.2 hva).imp fun r k₁ hk₁ p k₁' hw => ?_)
    obtain ⟨hm, haddr⟩ := h.walked hw
    obtain ⟨t₁, ok⟩ := r
    obtain ⟨hok, rfl⟩ | ⟨hok, b, hhome, rfl⟩ := hw.pointer
    · cases hok
      simp only [Bool.false_eq_true, if_false, wp_pure] at hk₁ ⊢
      exact hk₁ _ _ ⟨rfl, hm, haddr⟩
    · cases hok
      simp only [if_true, wp_bind, wp_stopIf, wp_get, wp_modify] at hk₁ ⊢
      rw [hm.valid hhome]
      refine ⟨fun hmapped => hk₁.1 hmapped _, fun hfree => ?_⟩
      have hlt₁ : pa + PGSIZE + n * PGSIZE < UINT64 := by rwa [Nat.succ_mul, Nat.add_comm _ PGSIZE, ← Nat.add_assoc] at hlt
      have hmod : (pa + PGSIZE) % UINT64 = pa + PGSIZE := Nat.mod_eq_of_lt (by omega)
      have hput := hm.put (x := some ⟨pa, perm⟩) hhome fun e he => by
        cases he
        exact ⟨by show pa < _; omega, hpa, hr⟩
      have haddr₁ : (t₁.put (a / PGSIZE) (some ⟨pa, perm⟩)).addr = t.addr := Trie.addr_put.trans haddr
      rw [hmod, ← haddr₁]
      refine ih hput (by rw [Nat.add_mod_right, hpa]) hlt₁ _ _ ((hk₁.2 hfree).imp fun r k₂ hk₂ ok k₂' hpost => ?_)
      exact hk₂ ok k₂' ⟨hpost.1, hpost.2.1, hpost.2.2.trans haddr₁⟩

theorem sim_unmapLoop {doFree : Bool} {n : Nat} (h : Mirrors k t k')
    (hfree : doFree = true → Freeable k' (t.map Pte.word) v n) :
    Sim (Xv6.unmapLoop doFree n t (v * PGSIZE)) (unmapLoop t.addr doFree n (v * PGSIZE))
      (fun t' k₁ _ k₁' => Mirrors k₁ t' k₁' ∧ t'.addr = t.addr) k k' := by
  induction n generalizing k k' t v with
  | zero =>
    intro Q E hk
    rw [Xv6.unmapLoop, wp_pure] at hk
    exact wp_pure.mpr (hk _ _ ⟨h, rfl⟩)
  | succ n ih =>
    intro Q E hk
    -- the pages after `v`
    have hrest {k₁ k₁' : Kmem} {t₁ : Pagetable} (hm : Mirrors k₁ t₁ k₁') (haddr : t₁.addr = t.addr)
        (hfree₁ : doFree = true → Freeable k₁' (t₁.map Pte.word) (v + 1) n)
        (hk₁ : wp (Xv6.unmapLoop doFree n t₁ (v * PGSIZE + PGSIZE)) (fun t' k₂ => ∀ r k₂',
          Mirrors k₂ t' k₂' ∧ t'.addr = t.addr → Q r k₂') (fun e _ => ∀ k', E e k') k₁) :
        wp (unmapLoop t.addr doFree n (v * PGSIZE + PGSIZE)) Q E k₁' := by
      rw [page_succ] at hk₁ ⊢
      rw [← haddr]
      exact ih hm hfree₁ _ _ (hk₁.imp fun t' k₂ hk₂ r k₂' hpost => hk₂ r k₂' ⟨hpost.1, hpost.2.trans haddr⟩)
    simp only [Xv6.unmapLoop, Xv6.walk, wp_bind, wp_stopIf, wp_pure] at hk
    rw [unmapLoop, wp_bind, ← Trie.addr_map (f := Pte.word)]
    refine wp_walk_find h.ok (fun hge => hk.1 hge _) fun hva => ?_
    have hk := hk.2 (Nat.not_le.mpr hva)
    rw [page_div] at hk ⊢
    rw [Trie.home_map, Trie.addr_map]
    cases hhome : t.home v with
    | none =>
      rw [Trie.home_eq_none.mp hhome] at hk
      exact hrest h rfl (fun hdo => (hfree hdo).tail) hk
    | some b =>
      rw [Trie.find_of_home hhome] at hk
      simp only [Option.map_some, wp_bind, wp_get, h.read hhome]
      cases hget : t.get v with
      | none =>
        rw [hget] at hk
        rw [Option.map_none, Option.getD_none, Nat.zero_and, if_pos rfl]
        exact hrest h rfl (fun hdo => (hfree hdo).tail) hk
      | some e =>
        obtain ⟨hleaf, hpa, -⟩ := word_leaf (h.fits v e hget)
        have hmem : e.word ∈ (t.map Pte.word).get v := by rw [Trie.get_map, hget]; rfl
        rw [hget] at hk
        rw [Option.map_some, Option.getD_some, if_neg hleaf.2.1, hpa]
        cases doFree with
        | false =>
          simp only [Bool.false_eq_true, if_false, wp_bind, wp_modify] at hk ⊢
          exact hrest (h.put hhome (x := none) (by simp)) Trie.addr_put (fun hdo => by cases hdo) hk
        | true =>
          obtain ⟨hpage, hnot, hnode⟩ := (hfree rfl).page v (vpn_lt hva) le_rfl (by omega) _ hmem
          rw [hpa] at hpage hnot hnode
          rw [Trie.nodes_map] at hnode
          simp only [if_true, wp_bind] at hk
          rw [if_pos rfl, wp_bind]
          refine sim_kfree h.agree _ _ (hk.imp fun _ k₁ hk₁ _ k₁' hpost => ?_)
          obtain ⟨rfl, hagree⟩ := hpost
          simp only [wp_bind, wp_modify]
          refine hrest ((h.kfree hpage hnot hnode hagree).put hhome (x := none) (by simp)) Trie.addr_put
            (fun hdo => ?_) hk₁
          have hfreed := (hfree hdo).freed (vpn_lt hva) (by rwa [Trie.home_map]) hmem
          rw [hpa] at hfreed
          rw [Trie.put_map]
          exact hfreed

theorem sim_uvmclear {va : Nat} (h : Mirrors k t k') :
    Sim (Xv6.uvmclear t va) (uvmclear t.addr va)
      (fun t' k₁ _ k₁' => Mirrors k₁ t' k₁' ∧ t'.addr = t.addr) k k' := by
  intro Q E hk
  simp only [Xv6.uvmclear, Xv6.walk, wp_bind, wp_stopIf, wp_pure] at hk
  rw [uvmclear, wp_bind, ← Trie.addr_map (f := Pte.word)]
  refine wp_walk_find h.ok (fun hge => hk.1 hge _) fun hva => ?_
  have hk := hk.2 (Nat.not_le.mpr hva)
  rw [Trie.home_map]
  cases hhome : t.home (va / PGSIZE) with
  | none =>
    rw [Trie.home_eq_none.mp hhome] at hk
    exact wp_throw.mpr (wp_throw.mp hk _)
  | some b =>
    rw [Trie.find_of_home hhome] at hk
    simp only [Option.map_some, wp_modify, h.read hhome]
    cases hget : t.get (va / PGSIZE) with
    | none =>
      rw [hget] at hk
      have hput := h.put hhome (x := none) (by simp)
      rw [← hget, Trie.put_get, hget] at hput
      exact wp_pure.mp hk _ _ ⟨hput, rfl⟩
    | some e =>
      rw [hget] at hk
      have hfits := h.fits _ e hget
      have hput := h.put hhome (x := some { e with perm := { e.perm with u := false } }) fun e' he' => by
        cases he'
        exact ⟨hfits.lt, hfits.aligned, hfits.readable⟩
      rw [Option.map_some, Option.getD_some, ← clearU_word hfits] at hput
      exact wp_pure.mp hk _ _ ⟨hput, Trie.addr_put⟩

/-- The functions with their checks. -/
theorem sim_mappages {va size : Nat} {perm : Perm} (h : Mirrors k t k') (hpa : pa % PGSIZE = 0)
    (hlt : pa + size < UINT64) (hr : perm.r = true) :
    Sim (Xv6.mappages t va size pa perm) (mappages t.addr va size pa perm.bits)
      (fun r k₁ ok k₁' => ok = r.2 ∧ Mirrors k₁ r.1 k₁' ∧ r.1.addr = t.addr) k k' := by
  intro Q E hk
  simp only [Xv6.mappages, mappages, wp_bind, wp_stopIf] at hk ⊢
  obtain ⟨hva, hk⟩ := hk
  refine ⟨fun hc => hva hc _, fun hc => ?_⟩
  obtain ⟨hsize, hk⟩ := hk hc
  refine ⟨fun hc => hsize hc _, fun hc => ?_⟩
  obtain ⟨hzero, hk⟩ := hk hc
  refine ⟨fun hc => hzero hc _, fun hc => ?_⟩
  have hle := Nat.div_mul_le_self size PGSIZE
  exact sim_mapLoop h hpa (by omega) hr _ _ (hk hc)

theorem sim_uvmunmap {va npages : Nat} {doFree : Bool} (h : Mirrors k t k') (hfree : doFree = true →
      Freeable k' (t.map Pte.word) (va / PGSIZE) (turns va ((va + npages * PGSIZE) % UINT64))) :
    Sim (Xv6.uvmunmap t va npages doFree) (uvmunmap t.addr va npages doFree)
      (fun t' k₁ _ k₁' => Mirrors k₁ t' k₁' ∧ t'.addr = t.addr) k k' := by
  intro Q E hk
  simp only [Xv6.uvmunmap, uvmunmap, wp_bind, wp_stopIf] at hk ⊢
  refine ⟨fun hc => hk.1 hc _, fun hc => ?_⟩
  have hva : va / PGSIZE * PGSIZE = va := Nat.div_mul_cancel (Nat.dvd_of_mod_eq_zero (not_not.mp hc))
  have hloop := sim_unmapLoop h hfree
  rw [hva] at hloop
  exact hloop _ _ (hk.2 hc)

/-! ## Freeing a table -/

/-- The loop of `freewalk`: the tables in the slots `done` are freed in both. -/
structure FreeLoop (N : Nat → Prop) (k' : Kmem) (a : Nat) (slot : Fin 512 → Ptable l)
    (done : List (Fin 512)) (k₁ k₁' : Kmem) : Prop where
  agree : Agree (fun x => N x ∧ ∀ i ∈ done, x ∉ (slot i).nodes) k₁ k₁'
  page : ∀ x ≠ a, (∀ i ∈ done, x ∉ (slot i).nodes) → k₁'.page x = k'.page x
  pte : ∀ i ∉ done, k₁'.pte a i = k'.pte a i

/-- A table is freed in both. -/
structure FreedBoth (N : Nat → Prop) (k' : Kmem) (nodes : Multiset Nat) (k₁ k₁' : Kmem) : Prop where
  agree : Agree (fun x => N x ∧ x ∉ nodes) k₁ k₁'
  page : ∀ x ∉ nodes, k₁'.page x = k'.page x

section
variable {slot : Fin 512 → Ptable l} {done : List (Fin 512)} {i : Fin 512} {k₂ k₂' : Kmem}

theorem forall_mem_snoc {P : Fin 512 → Prop} : (∀ j ∈ done ++ [i], P j) ↔ (∀ j ∈ done, P j) ∧ P i := by
  simp [or_imp, forall_and]

theorem FreeLoop.skip (h : FreeLoop N k' a slot done k₁ k₁') (hnil : slot i = .nil) :
    FreeLoop N k' a slot (done ++ [i]) k₁ k₁' := by
  have hiff (x : Nat) : (∀ j ∈ done ++ [i], x ∉ (slot j).nodes) ↔ ∀ j ∈ done, x ∉ (slot j).nodes := by
    rw [forall_mem_snoc, hnil]
    simp
  refine ⟨h.agree.mono fun x hx => ⟨hx.1, (hiff x).mpr hx.2⟩, fun x hxa hx => ?_, fun j hj => ?_⟩
  · exact h.page x hxa ((hiff x).mp hx)
  · exact h.pte j fun hmem => hj (List.mem_append_left _ hmem)

theorem FreeLoop.snoc (h : FreeLoop N k' a slot done k₁ k₁') (hN : N a)
    (ha : ∀ j, a ∉ (slot j).nodes)
    (hfree : FreedBoth (fun x => N x ∧ ∀ i ∈ done, x ∉ (slot i).nodes) k₁' (slot i).nodes k₂ k₂') :
    FreeLoop N k' a slot (done ++ [i]) k₂ (k₂'.setPte a i 0) where
  agree := by
    refine (hfree.agree.mono fun x hx => ?_).setPte ⟨hN, fun j _ => ha j⟩
    exact ⟨hx.1.1, forall_mem_snoc.mpr ⟨hx.1.2, hx.2⟩⟩
  page x hxa hx := by
    obtain ⟨hdone, hi⟩ := forall_mem_snoc.mp hx
    rw [Kmem.page_setPte_ne hxa, hfree.page x hi, h.page x hxa hdone]
  pte j hj := by
    rw [List.mem_append, List.mem_singleton, not_or] at hj
    rw [Kmem.pte_setPte_ne hj.2, Kmem.pte_congr (hfree.page a (ha i)), h.pte j hj.1]

end

theorem wp_freeEntry_zero {E : Vm.Stop → Kmem → Prop} {Q : Unit → Kmem → Prop} {free : Nat → VmM Unit}
    {i : Fin 512} (hpte : k.pte a i = 0) (hQ : Q () k) : wp (freeEntry free a i) Q E k := by
  simpa [freeEntry, hpte] using hQ

theorem sim_freewalk {frames : Nat} (t : Ptable l) (hframes : l < frames) (h : Holds k' (t.map Pte.word))
    (hne : t ≠ .nil) (hnd : t.nodes.Nodup) (hpage : ∀ x ∈ t.nodes, x % PGSIZE = 0 ∧ x < UINT64)
    (hagree : Agree N k k') (hN : ∀ x ∈ t.nodes, N x) :
    Sim (Xv6.freewalk t) (freewalk frames t.addr) (fun _ k₁ _ k₁' => FreedBoth N k' t.nodes k₁ k₁') k k' := by
  induction t generalizing k k' frames N with
  | nil => exact absurd rfl hne
  | leaf a slot =>
    obtain ⟨frames, rfl⟩ := Nat.exists_eq_succ_of_ne_zero (Nat.ne_of_gt hframes)
    intro Q E hk
    rw [Xv6.freewalk, wp_bind] at hk
    rw [freewalk, wp_bind]
    have hloop : Sim ((List.finRange 512).forM fun i => stopIf (slot i ≠ none) Vm.Stop.freewalkLeaf)
        ((List.finRange 512).forM (freeEntry (freewalk frames) a)) (fun _ k₁ _ k₁' => k₁ = k ∧ k₁' = k') k k' := by
      refine Sim.forM (I := fun _ k₁ k₁' => k₁ = k ∧ k₁' = k') ?_ ⟨rfl, rfl⟩
      rintro done i rest k₁ k₁' - ⟨rfl, rfl⟩ Q E hk
      rw [wp_stopIf] at hk
      have hpte : k₁'.pte a i = ((slot i).map Pte.word).getD 0 := (h i).1
      cases hslot : slot i with
      | none =>
        rw [hslot] at hpte
        exact wp_freeEntry_zero hpte (hk.2 (by simp [hslot]) _ _ ⟨rfl, rfl⟩)
      | some e =>
        rw [hslot, Option.map_some, Option.getD_some] at hpte
        have hleaf : IsLeaf e.word := (h i).2 e.word (Option.mem_map.mpr ⟨e, hslot, rfl⟩)
        simp only [freeEntry, wp_bind, wp_get, hpte]
        rw [if_neg fun hc => hleaf.2.2 hc.2, wp_stopIf]
        exact ⟨fun _ => hk.1 (by simp [hslot]) _, fun hc => absurd (by rw [hpte]; exact hleaf.2.1) hc⟩
    refine hloop _ _ (hk.imp fun _ k₁ hk₁ _ k₁' hpost => ?_)
    obtain ⟨rfl, rfl⟩ := hpost
    refine sim_kfree hagree _ _ (hk₁.imp fun _ k₂ hk₂ _ k₂' hpost => hk₂ _ _ ?_)
    obtain ⟨rfl, hagree₂⟩ := hpost
    simp only [Trie.nodes_leaf, Trie.addr] at hagree₂ ⊢
    refine ⟨by simpa using hagree₂, fun x hx => Kmem.page_memset_ne (by simpa using hx)⟩
  | @node l a slot ih =>
    obtain ⟨frames, rfl⟩ := Nat.exists_eq_succ_of_ne_zero (Nat.ne_of_gt (Nat.zero_lt_of_lt hframes))
    intro Q E hk
    rw [Xv6.freewalk, wp_bind] at hk
    rw [freewalk, wp_bind]
    have hmem : a ∈ (Trie.node a slot).nodes := Trie.addr_mem (by simp)
    have ha (j : Fin 512) : a ∉ (slot j).nodes := fun hj => Trie.ne_of_mem_slot hnd hj rfl
    have hloop : Sim ((List.finRange 512).forM fun i => if (slot i).isNil then pure () else Xv6.freewalk (slot i))
        ((List.finRange 512).forM (freeEntry (freewalk frames) a))
        (fun _ k₁ _ k₁' => FreeLoop N k' a slot (List.finRange 512) k₁ k₁') k k' := by
      refine Sim.forM (I := FreeLoop N k' a slot) ?_
        ⟨hagree.mono fun x hx => ⟨hx, by simp⟩, fun _ _ _ => rfl, fun _ _ => rfl⟩
      intro done i rest k₁ k₁' hsplit hI Q E hk
      have hnodup : (done ++ i :: rest).Nodup := hsplit ▸ List.nodup_finRange 512
      have hi : i ∉ done := fun hmem => List.disjoint_of_nodup_append hnodup hmem List.mem_cons_self
      have hpte : k₁'.pte a i = dirWord ((slot i).map Pte.word) := (hI.pte i hi).trans (h i).1
      by_cases hnil : slot i = .nil
      · rw [if_pos (Trie.isNil_iff.mpr hnil), wp_pure] at hk
        exact wp_freeEntry_zero (by rw [hpte, hnil]; rfl) (hk _ _ (hI.skip hnil))
      · -- the tables of the other slots are on other pages
        have hother : ∀ x ∈ (slot i).nodes, ∀ j ∈ done, x ∉ (slot j).nodes := by
          intro x hx j hj
          refine Trie.notMem_slot hnd ?_ hx
          rintro rfl
          exact hi hj
        have hslot : ∀ x ∈ ((slot i).map Pte.word).nodes, k₁'.page x = k'.page x := by
          intro x hx
          rw [Trie.nodes_map] at hx
          exact hI.page x (Trie.ne_of_mem_slot hnd hx) (hother x hx)
        have hpages : ∀ x ∈ (slot i).nodes, x % PGSIZE = 0 ∧ x < UINT64 := fun x hx =>
          hpage x (Trie.mem_nodes_of_slot hx)
        obtain ⟨haligned, hlt⟩ := hpages _ (Trie.addr_mem hnil)
        have hword := dirWord_eq haligned hlt
        have hdir : dirWord ((slot i).map Pte.word) = pa2pte (slot i).addr ||| PTE_V := by
          rw [dirWord, if_neg fun hc => Trie.map_ne_nil hnil (Trie.isNil_iff.mp hc), Trie.addr_map]
        rw [if_neg fun hc => hnil (Trie.isNil_iff.mp hc)] at hk
        simp only [freeEntry, wp_bind, wp_get, hpte, hdir]
        rw [if_pos ⟨hword.2.1, hword.2.2.1⟩, hword.2.2.2, wp_bind]
        refine ih i (by omega : l < frames) ((h i).2.frame hslot) hnil (Trie.slot_nodup hnd i) hpages hI.agree
          (fun x hx => ⟨hN x (Trie.mem_nodes_of_slot hx), hother x hx⟩) _ _
          (hk.imp fun _ k₂ hk₂ _ k₂' hfreed => wp_modify.mpr (hk₂ _ _ ?_))
        exact hI.snoc (hN a hmem) ha hfreed
    refine hloop _ _ (hk.imp fun _ k₁ hk₁ _ k₁' hI => ?_)
    refine sim_kfree hI.agree _ _ (hk₁.imp fun _ k₂ hk₂ _ k₂' hpost => hk₂ _ _ ?_)
    obtain ⟨rfl, hagree₂⟩ := hpost
    have hnodes (x : Nat) : x ∉ (Trie.node a slot).nodes ↔ x ≠ a ∧ ∀ i, x ∉ (slot i).nodes := by
      rw [Trie.nodes_node_sum, Multiset.mem_add, Multiset.mem_singleton, Multiset.mem_sum]
      simp
    refine ⟨hagree₂.mono fun x hx => ⟨hx.1.1, (hnodes x).mpr ⟨hx.2, fun i => hx.1.2 i (by simp)⟩⟩, fun x hx => ?_⟩
    obtain ⟨hxa, hslots⟩ := (hnodes x).mp hx
    exact (Kmem.page_memset_ne hxa).trans (hI.page x hxa fun i _ => hslots i)

/-- The pages of a table that maps nothing are freed, and nothing else happens. -/
theorem Ok.freewalk_returns {t : Table 2} (h : Ok k t) (hnone : ∀ v < 512 ^ (2 + 1), t.get v = none) :
    ∃ k', Freed k t.nodes k' ∧ freewalk 3 t.addr k = .ok () k' := by
  -- a tree of entries with the same pages
  have hwords := Trie.map_map_of_leaves (f := fun _ : Nat => (⟨0, ⟨true, true, true, true⟩⟩ : Pte)) (g := Pte.word) t
    (Trie.leaves_eq_zero t hnone)
  set t₀ := t.map fun _ : Nat => (⟨0, ⟨true, true, true, true⟩⟩ : Pte) with ht₀
  have hnodes : t₀.nodes = t.nodes := Trie.nodes_map t
  have hleaves : t₀.leaves = 0 := Trie.leaves_eq_zero t₀ fun v hv => by
    rw [ht₀, Trie.get_map, hnone v hv, Option.map_none]
  have htree := wp_freewalk_freed (E := fun _ _ => False) t₀ (Trie.map_ne_nil h.ne)
    (fun x hx => h.isPage (hnodes ▸ hx)) hleaves
  obtain ⟨_, k₁, hrun, hfreed⟩ := htree.returns
  have hsim := sim_freewalk (N := (· ∈ t₀.nodes)) t₀ (by decide : 2 < 3) (hwords.symm ▸ h.holds)
    (Trie.map_ne_nil h.ne) (hnodes ▸ h.nodes_nodup)
    (fun x hx => ⟨(h.isPage (hnodes ▸ hx)).1, (h.isPage (hnodes ▸ hx)).2.2.trans (by decide)⟩) (.refl k)
    fun _ hx => hx
  obtain ⟨_, k', hrun', hboth⟩ := hsim.returns hrun
  rw [ht₀, Trie.addr_map] at hrun'
  rw [hnodes] at hfreed
  rw [hboth.agree.eq fun x hx => hx.2 hx.1] at hrun'
  exact ⟨k₁, hfreed, hrun'⟩

end Sv39

end Xv6
