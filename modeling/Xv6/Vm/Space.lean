-- SUMMARY: Address spaces: how a user page table is laid out, and how it is made, grown, shrunk, copied and freed.
import Xv6.Vm.Pages
import Xv6.Vm.Proc

/-!
# Address spaces

User memory of size `sz` takes the first pages of a table, the trapframe and the trampoline
the last two below `MAXVA`, and nothing else is mapped. The rules of this file say that the
functions of the kernel keep it that way as long as the size stays below the trapframe, that
they do not panic then, and where the pages go.
-/

namespace Xv6

open Prog Radix

variable {G : Nat → Prop} {k k' : Kmem} {t t' : Pagetable} {sz tf tramp : Nat}
  {E : Vm.Stop → Kmem → Prop}

/-- The layout of a table for `sz` bytes of user memory. -/
structure Layout (t : Pagetable) (sz tf tramp : Nat) : Prop where
  trampoline : t.get (NPAGES + 1) = some ⟨tramp, ⟨true, false, true, false⟩⟩
  trapframe : t.get NPAGES = some ⟨tf, ⟨true, true, false, false⟩⟩
  user : ∀ v < VPNS, t.get v ≠ none → v < npages sz ∨ v = NPAGES ∨ v = NPAGES + 1
  readable : ∀ v < VPNS, ∀ e ∈ t.get v, e.perm.r = true

/-- Above its size, user memory has no pages. -/
theorem Layout.free (h : Layout t sz tf tramp) {v : Nat} (hv : npages sz ≤ v) (hlt : v < NPAGES) :
    t.get v = none := by
  have hvpns := npages_lt_vpns
  by_contra hmapped
  rcases h.user v (by omega) hmapped with hv' | hv' | hv' <;> omega

/-! ## Growing and shrinking -/

/-- What `uvmalloc` does. -/
structure GrownTo (G : Nat → Prop) (k : Kmem) (t : Pagetable) (oldsz newsz : Nat) (perm : Perm)
    (k' : Kmem) (t' : Pagetable) (sz : Nat) : Prop where
  kmem : k'.Ok G
  image : k'.image = k.image
  table : TableOk G t'
  stock : stock k' t' = stock k t
  result : (sz = 0 ∧ ∀ v < VPNS, t'.get v = t.get v) ∨
    (sz = max oldsz newsz ∧ sz ≤ TRAPFRAME ∧
      (∀ v < VPNS, v < npages oldsz ∨ npages sz ≤ v → t'.get v = t.get v) ∧
      (∀ v, npages oldsz ≤ v → v < npages sz → ∃ e, t'.get v = some e ∧ e.perm = perm) ∧
      k'.freelist.length + npages sz ≤ k.freelist.length + npages oldsz)

theorem turns_npages {v newsz : Nat} : turns (v * PGSIZE) newsz = npages newsz - v := by
  simp only [turns, npages, PGSIZE]
  omega

theorem le_trapframe_of_npages {sz : Nat} (h : npages sz ≤ NPAGES) : sz ≤ TRAPFRAME := by
  simp only [npages, NPAGES, TRAPFRAME, TRAMPOLINE, MAXVA, PGSIZE] at *
  omega

theorem wp_uvmalloc {oldsz newsz : Nat} {w x : Bool} (h : k.Ok G) (ht : TableOk G t)
    (hold : oldsz ≤ TRAPFRAME)
    (hroom : newsz ≤ TRAPFRAME ∨ npages oldsz + k.freelist.length ≤ NPAGES ∨
      (t.get NPAGES ≠ none ∧ ∀ e k, E e k))
    (hfree : ∀ v, npages oldsz ≤ v → v < NPAGES → t.get v = none) :
    wp (uvmalloc t oldsz newsz w x)
      (fun r k' => GrownTo G k t oldsz newsz ⟨true, w, x, true⟩ k' r.1 r.2) E k := by
  unfold uvmalloc
  split
  · next hlt =>
    refine wp_pure.mpr ⟨h, rfl, ht, rfl, .inr ⟨?_, hold, fun _ _ _ => rfl, ?_, le_rfl⟩⟩
    · exact (Nat.max_eq_left (by omega)).symm
    · intro v h₁ h₂
      exact absurd h₂ (Nat.not_lt.mpr h₁)
  · next hge =>
    have hmono := npages_mono (show oldsz ≤ newsz by omega)
    have hle := npages_le hold
    simp only [pgroundup_eq (hold.trans trapframe_le), turns_npages]
    have hroom' : npages oldsz + (npages newsz - npages oldsz) ≤ NPAGES ∨
        npages oldsz + k.freelist.length ≤ NPAGES ∨ (t.get NPAGES ≠ none ∧ ∀ e k, E e k) := by
      refine hroom.imp_left fun hsz => ?_
      have := npages_le hsz
      omega
    refine (wp_allocLoop h ht le_rfl hle hroom' hfree).imp fun res k' hg => ?_
    obtain ⟨t', sz⟩ := res
    refine ⟨hg.kmem, hg.image, hg.table, hg.stock, ?_⟩
    rcases hg.result with ⟨hzero, hback⟩ | ⟨hsz, hfits, hkeep, hnew, hlen⟩
    · refine .inl ⟨hzero, fun v hv => ?_⟩
      rw [hback v hv, if_neg (by omega)]
    · have hsz : sz = newsz := hsz
      subst hsz
      have hsum : npages oldsz + (npages sz - npages oldsz) = npages sz := by omega
      rw [hsum] at hfits hkeep hnew
      refine .inr ⟨(Nat.max_eq_right (by omega)).symm, le_trapframe_of_npages hfits, hkeep, hnew, ?_⟩
      dsimp only
      omega

/-- A growth whose result is 0 changed nothing. -/
theorem GrownTo.same_of_zero {oldsz newsz : Nat} {perm : Perm}
    (h : GrownTo G k t oldsz newsz perm k' t' sz) (hsz : sz = 0) : ∀ v < VPNS, t'.get v = t.get v := by
  rcases h.result with ⟨-, hback⟩ | ⟨-, -, hkeep, -, -⟩
  · exact hback
  · intro v hv
    refine hkeep v hv (.inr ?_)
    rw [hsz]
    exact Nat.zero_le v

/-- User memory that was grown is laid out for its new size. -/
theorem GrownTo.layout {oldsz newsz : Nat} {perm : Perm} (h : GrownTo G k t oldsz newsz perm k' t' sz)
    (hl : Layout t oldsz tf tramp) (hr : perm.r = true) (hsz : sz ≠ 0) : Layout t' sz tf tramp := by
  have hlt := npages_lt_vpns
  rcases h.result with ⟨hzero, -⟩ | ⟨hmax, hfits, hkeep, hnew, -⟩
  · exact absurd hzero hsz
  · have hmono := npages_mono (show oldsz ≤ sz by omega)
    have hle := npages_le hfits
    refine ⟨?_, ?_, fun v hv hmapped => ?_, fun v hv e he => ?_⟩
    · rw [hkeep _ (by omega) (by omega), hl.trampoline]
    · rw [hkeep _ (by omega) (by omega), hl.trapframe]
    · by_cases hin : v < npages sz
      · exact .inl hin
      · rw [hkeep v hv (by omega)] at hmapped
        rcases hl.user v hv hmapped with h' | h'
        · omega
        · exact .inr h'
    · by_cases hin : npages oldsz ≤ v ∧ v < npages sz
      · obtain ⟨e', he', hperm⟩ := hnew v hin.1 hin.2
        rw [he'] at he
        cases he
        rw [hperm, hr]
      · rw [hkeep v hv (by omega)] at he
        exact hl.readable v hv e he

/-- After a failure it is laid out as before. -/
theorem Layout.congr (h : Layout t sz tf tramp) (hget : ∀ v < VPNS, t'.get v = t.get v) :
    Layout t' sz tf tramp := by
  have hlt := npages_lt_vpns
  refine ⟨?_, ?_, fun v hv hmapped => ?_, fun v hv e he => ?_⟩
  · rw [hget _ (by omega), h.trampoline]
  · rw [hget _ (by omega), h.trapframe]
  · rw [hget v hv] at hmapped
    exact h.user v hv hmapped
  · rw [hget v hv] at he
    exact h.readable v hv e he

theorem Unmapped.layout {oldsz newsz : Nat}
    (h : Unmapped G k t (npages newsz) (npages oldsz - npages newsz) k' t')
    (hl : Layout t oldsz tf tramp) (hold : oldsz ≤ TRAPFRAME) : Layout t' newsz tf tramp := by
  have hlt := npages_lt_vpns
  have hle := npages_le hold
  refine ⟨?_, ?_, fun v hv hmapped => ?_, fun v hv e he => ?_⟩
  · rw [h.get _ (by omega), if_neg (by omega), hl.trampoline]
  · rw [h.get _ (by omega), if_neg (by omega), hl.trapframe]
  · rw [h.get v hv] at hmapped
    split at hmapped
    · exact absurd rfl hmapped
    · rcases hl.user v hv hmapped with h' | h'
      · exact .inl (by omega)
      · exact .inr h'
  · rw [h.get v hv] at he
    split at he
    · cases he
    · exact hl.readable v hv e he

/-! ## Freeing -/

/-- `freewalk` gives back the pages of a table without entries. -/
theorem wp_freewalk {l : Nat} (t : Ptable l) (h : k.Ok G) (hne : t ≠ .nil)
    (hnodes : ∀ x ∈ t.nodes, G x) (hleaves : t.leaves = 0) :
    wp (freewalk t) (fun _ k' => k'.Ok G ∧ k'.image = k.image ∧
      (k'.freelist : Multiset Nat) = k.freelist + t.nodes ∧ OnlyFrees k k') E k := by
  refine (wp_freewalk_freed t hne (fun x hx => h.page x (hnodes x hx)) hleaves).imp fun _ k' hfreed => ?_
  obtain ⟨himage, new, hnew, hlist, hfreed⟩ := hfreed
  have hG : ∀ x ∈ new, G x := fun x hx => hnodes x (hnew ▸ Multiset.mem_coe.mpr hx)
  refine ⟨⟨fun x hx => ?_, fun x hx => ?_, fun x hx => ?_⟩, himage, ?_, new, hlist, hfreed⟩
  · unfold Kmem.IsPage
    rw [himage]
    exact h.page x hx
  · rw [hlist] at hx
    exact (List.mem_append.mp hx).elim (hG x) (h.free x)
  · rw [hfreed] at hx
    exact (List.mem_append.mp hx).elim (hG x) (h.freed x)
  · rw [hlist, ← Multiset.coe_add, hnew, add_comm]

/-- A table none of whose page numbers is mapped holds no entries. -/
theorem leaves_zero_of_get (h : ∀ v < VPNS, t.get v = none) : t.leaves = 0 :=
  Trie.leaves_eq_zero t h

theorem wp_uvmfree (h : k.Ok G) (ht : TableOk G t) (hsz : sz ≤ MAXVA)
    (huser : ∀ v < VPNS, t.get v ≠ none → v < npages sz ∧ v < NPAGES) :
    wp (uvmfree t sz) (fun _ k' => k'.Ok G ∧ k'.image = k.image ∧
      (k'.freelist : Multiset Nat) = k.freelist + tablePages t ∧ OnlyFrees k k') E k := by
  unfold uvmfree
  split
  · have hpages : pgroundup sz / PGSIZE = npages sz := by
      rw [pgroundup_eq hsz, page_div]
    rw [hpages, wp_bind]
    have hstart : (0 : Nat) = 0 * PGSIZE := rfl
    rw [hstart]
    have hle := npages_le_maxva hsz
    have hlt := npages_lt_vpns
    refine (wp_uvmunmap_user h ht (by omega) fun v _ hv hmapped => (huser v (by omega) hmapped).2).imp
      fun t₁ k₁ hu => ?_
    have hzero : t₁.leaves = 0 := by
      refine leaves_zero_of_get fun v hv => ?_
      rw [hu.get v hv]
      split
      · rfl
      · next hout =>
        by_contra hmapped
        exact hout ⟨Nat.zero_le v, by rw [Nat.zero_add]; exact (huser v hv hmapped).1⟩
    refine (wp_freewalk t₁ hu.kmem hu.table.ne hu.table.nodes hzero).imp fun _ k₂ hpost => ?_
    obtain ⟨hk₂, himage₂, hlist₂, hfrees₂⟩ := hpost
    refine ⟨hk₂, himage₂.trans hu.image, ?_, hu.frees.trans hfrees₂⟩
    have hpages₁ := hu.pages
    rw [hzero, Multiset.map_zero, add_zero] at hpages₁
    rw [hlist₂, hpages₁, hu.nodes, tablePages]
    abel
  · next hnot =>
    have hzero : t.leaves = 0 := by
      refine leaves_zero_of_get fun v hv => ?_
      by_contra hmapped
      have hlt := (huser v hv hmapped).1
      have hsz0 : sz = 0 := by omega
      rw [hsz0, show npages 0 = 0 from rfl] at hlt
      exact Nat.not_lt_zero v hlt
    refine (wp_freewalk t h ht.ne ht.nodes hzero).imp fun _ k₂ hpost => ?_
    obtain ⟨hk₂, himage₂, hlist₂, hfrees₂⟩ := hpost
    refine ⟨hk₂, himage₂, ?_, hfrees₂⟩
    rw [hlist₂, tablePages, hzero, Multiset.map_zero, add_zero]

/-- Unmapping the trapframe or the trampoline: the page is not freed. -/
theorem wp_uvmunmap_keep {v : Nat} {e : Pte} {Q : Pagetable → Kmem → Prop} (hv : v ≤ NPAGES + 1)
    (hget : t.get v = some e) (hQ : Q (t.put v none) k) :
    wp (uvmunmap t (v * PGSIZE) 1 false) Q E k := by
  have hlt := npages_lt_vpns
  simp only [uvmunmap, wp_bind, wp_stopIf, Nat.mul_mod_left, ne_eq, not_true_eq_false,
    false_implies, true_and, not_false_eq_true, forall_const, turns_pages (show v + 1 ≤ VPNS by omega),
    unmapLoop]
  refine wp_walk (page_lt hv) ?_
  rw [page_div, find_of_get hget]
  simpa [unmapLoop] using hQ

theorem get_put_none {v v' : Nat} {e : Pte} (hget : t.get v = some e) (hv : v < VPNS)
    (hv' : v' < VPNS) : (t.put v none).get v' = if v' = v then none else t.get v' :=
  get_put_page (by rw [find_of_get hget]; exact (by simp)) hv hv'

theorem pages_put_none {v : Nat} {e : Pte} (hget : t.get v = some e) :
    tablePages (t.put v none) + {e.pa} = tablePages t := by
  rw [tablePages, tablePages, Trie.nodes_put, ← Trie.leaves_of_get hget, Multiset.map_add,
    Multiset.map_singleton, add_assoc]

/-- A special page above user memory may go. -/
theorem TableOk.put_special {v : Nat} {e : Pte} (h : TableOk G t) (hv : NPAGES ≤ v)
    (hlt : v < VPNS) (hget : t.get v = some e) : TableOk G (t.put v none) where
  ne := Trie.put_ne_nil h.ne
  nodes := by
    rw [Trie.nodes_put]
    exact h.nodes
  user := by
    intro v' hv' e' he'
    rw [get_put_none hget hlt (by omega), if_neg (by omega)] at he'
    exact h.user v' hv' e' he'

theorem trampoline_eq : TRAMPOLINE = (NPAGES + 1) * PGSIZE := rfl

theorem trapframe_eq : TRAPFRAME = NPAGES * PGSIZE := rfl

theorem wp_procFreepagetable (h : k.Ok G) (ht : TableOk G t) (hl : Layout t sz tf tramp)
    (hsz : sz ≤ MAXVA) :
    wp (procFreepagetable t sz) (fun _ k' => k'.Ok G ∧ k'.image = k.image ∧
      (k'.freelist : Multiset Nat) + {tf} + {tramp} = k.freelist + tablePages t ∧
      OnlyFrees k k') E k := by
  have hlt := npages_lt_vpns
  have htramp := hl.trampoline
  have htf₁ : (t.put (NPAGES + 1) none).get NPAGES = some ⟨tf, ⟨true, true, false, false⟩⟩ := by
    rw [get_put_none htramp hlt (by omega), if_neg (by omega), hl.trapframe]
  simp only [procFreepagetable, wp_bind]
  rw [trampoline_eq]
  refine wp_uvmunmap_keep le_rfl htramp ?_
  rw [trapframe_eq]
  refine wp_uvmunmap_keep (by omega) htf₁ ?_
  have ht₁ := ht.put_special (by omega) hlt htramp
  have ht₂ := ht₁.put_special le_rfl (by omega) htf₁
  refine (wp_uvmfree h ht₂ hsz ?_).imp fun _ k' hpost => ?_
  · intro v hv hmapped
    rw [get_put_none htf₁ (by omega) hv] at hmapped
    split at hmapped
    · exact absurd rfl hmapped
    · rw [get_put_none htramp hlt hv] at hmapped
      split at hmapped
      · exact absurd rfl hmapped
      · have hle := npages_le_maxva hsz
        rcases hl.user v hv hmapped with h' | h' | h'
        · exact ⟨h', by omega⟩
        · contradiction
        · contradiction
  · obtain ⟨hk', himage', hlist', hfrees'⟩ := hpost
    refine ⟨hk', himage', ?_, hfrees'⟩
    rw [hlist', ← pages_put_none htramp, ← pages_put_none htf₁]
    abel

/-! ## A new table -/

theorem TableOk.empty {pa : Nat} (h : G pa) : TableOk G (Trie.empty 512 Pte pa 2) where
  ne := Trie.empty_ne_nil
  nodes := by
    intro x hx
    rw [Trie.nodes_empty, Multiset.mem_singleton] at hx
    exact hx ▸ h
  user := by
    intro v _ e he
    rw [Trie.get_empty] at he
    cases he

theorem stock_empty {pa : Nat} : stock k (Trie.empty 512 Pte pa 2) = k.freelist + {pa} := by
  simp [stock, tablePages]

/-- What `proc_pagetable` does. -/
structure Created (G : Nat → Prop) (k : Kmem) (tf : Nat) (k' : Kmem) (t : Pagetable) : Prop where
  kmem : k'.Ok G
  image : k'.image = k.image
  result : (t = .nil ∧ (k'.freelist : Multiset Nat) = k.freelist) ∨
    (TableOk G t ∧ Layout t 0 tf k.image.trampoline ∧
      stock k' t = k.freelist + {tf} + {k.image.trampoline} ∧
      k'.freelist.length ≤ k.freelist.length)

/-- The ways out of `proc_pagetable` when a page is missing. -/
theorem wp_giveUp {k₀ : Kmem} (h : k.Ok G) (himage : k.image = k₀.image) (ht : TableOk G t)
    (hempty : ∀ v < VPNS, t.get v = none)
    (hstock : stock k t = k₀.freelist) :
    wp (do
      uvmfree t 0
      pure .nil) (fun t k' => Created G k₀ tf k' t) E k := by
  simp only [wp_bind]
  refine (wp_uvmfree h ht (Nat.zero_le MAXVA) fun v hv hmapped => absurd (hempty v hv) hmapped).imp
    fun _ k' hpost => ?_
  obtain ⟨hk', himage', hlist', _⟩ := hpost
  refine wp_pure.mpr ⟨hk', himage'.trans himage, .inl ⟨rfl, ?_⟩⟩
  rw [hlist', ← hstock, stock]

theorem wp_procPagetable (h : k.Ok G) :
    wp (procPagetable tf) (fun t k' => Created G k tf k' t) E k := by
  have hlt := npages_lt_vpns
  simp only [procPagetable, uvmcreate, wp_bind]
  refine (wp_kalloc h).imp fun r k₁ hpost => ?_
  obtain ⟨hk₁, himage₁, -, hr⟩ := hpost
  rcases hr with ⟨rfl, hlist⟩ | ⟨pa, rfl, hpa, hlist⟩
  · exact wp_pure.mpr (wp_pure.mpr ⟨hk₁, himage₁, .inl ⟨rfl, by rw [hlist]⟩⟩)
  · have ht₁ := TableOk.empty hpa
    have hstock₁ : stock (k₁.memset pa 0) (Trie.empty 512 Pte pa 2) = k.freelist := by
      rw [stock_empty, hlist, coe_cons, memset_freelist, add_comm]
    simp only [wp_bind, wp_modify, wp_pure, wp_get, show (Trie.empty 512 Pte pa 2).isNil = false from rfl,
      Bool.false_eq_true, if_false]
    rw [trampoline_eq]
    refine (wp_mappages hk₁.memset ht₁.ne ht₁.nodes le_rfl (.inl Trie.get_empty)).imp
      fun res k₂ hm => ?_
    obtain ⟨t₂, ok⟩ := res
    have hstock₂ := hm.stock
    have himage₂ : k₂.image = k.image := hm.image.trans himage₁
    have ht₂ := hm.table ht₁ fun hno => absurd hno (by omega)
    rw [hstock₁] at hstock₂
    cases ok with
    | false =>
      refine wp_giveUp hm.kmem himage₂ ht₂ (fun v hv => ?_) (by simpa using hstock₂)
      rw [hm.get v hv]
      simp
    | true =>
      simp only [Bool.not_true, Bool.false_eq_true, if_false, wp_bind]
      have hget₂ : ∀ v < VPNS, v ≠ NPAGES + 1 → t₂.get v = none := by
        intro v hv hne
        rw [hm.get v hv, if_neg (fun hc => hne hc.2), Trie.get_empty]
      rw [trapframe_eq]
      refine (wp_mappages hm.kmem hm.ne hm.nodes (by omega)
        (.inl (hget₂ _ (by omega) (by omega)))).imp fun res k₃ hm' => ?_
      obtain ⟨t₃, ok⟩ := res
      have hstock₃ := hm'.stock
      have himage₃ := hm'.image.trans himage₂
      have ht₃ := hm'.table ht₂ fun hno => absurd hno (by omega)
      rw [hstock₂] at hstock₃
      have htramp : t₃.get (NPAGES + 1)
          = some ⟨(k₁.memset pa 0).image.trampoline, ⟨true, false, true, false⟩⟩ := by
        rw [hm'.get _ hlt, if_neg (by omega), hm.get _ hlt, if_pos ⟨rfl, rfl⟩]
      have htramp_eq : (k₁.memset pa 0).image.trampoline = k.image.trampoline := by
        rw [memset_image, himage₁]
      cases ok with
      | false =>
        simp only [Bool.not_false, if_true, wp_bind]
        refine wp_uvmunmap_keep le_rfl htramp ?_
        have hgive : wp (do
            uvmfree (t₃.put (NPAGES + 1) none) 0
            pure .nil) (fun t k' => Created G k tf k' t) E k₃ := by
          refine wp_giveUp hm'.kmem himage₃ (ht₃.put_special (by omega) hlt htramp)
            (fun v hv => ?_) ?_
          · rw [get_put_none htramp hlt hv]
            split
            · rfl
            · next hne =>
              rw [hm'.get v hv]
              simpa using hget₂ v hv hne
          · have hput := pages_put_none htramp
            rw [stock, ← hput, ← add_assoc] at hstock₃
            simp only [Bool.false_eq_true, if_false, add_zero, if_true] at hstock₃
            rw [stock]
            exact add_right_cancel hstock₃
        simpa only [wp_bind] using hgive
      | true =>
        simp only [Bool.not_true, Bool.false_eq_true, if_false]
        refine wp_pure.mpr ⟨hm'.kmem, himage₃, .inr ⟨ht₃, ⟨?_, ?_, ?_, ?_⟩, ?_, ?_⟩⟩
        · rw [htramp, htramp_eq]
        · rw [hm'.get _ (by omega), if_pos ⟨rfl, rfl⟩]
        · intro v hv hmapped
          rw [hm'.get v hv] at hmapped
          split at hmapped
          · next hc => exact .inr (.inl hc.2)
          · by_cases hne : v = NPAGES + 1
            · exact .inr (.inr hne)
            · exact absurd (hget₂ v hv hne) hmapped
        · intro v hv e he
          rw [hm'.get v hv, hm.get v hv, Trie.get_empty] at he
          split at he
          · cases he
            rfl
          · split at he
            · cases he
              rfl
            · cases he
        · simp only [if_true] at hstock₃
          rw [hstock₃, htramp_eq]
          abel
        · have h₁ := hm.length
          have h₂ := hm'.length
          simp only [memset_freelist] at h₁
          rw [hlist, List.length_cons]
          omega

end Xv6
