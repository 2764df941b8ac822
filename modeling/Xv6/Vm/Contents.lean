-- SUMMARY: What the functions on page tables do to the contents of pages: only pages that were free, or that are freed, are written.
import Xv6.Vm.UserMemory

/-!
# Contents of pages

The allocator fills the pages it hands out and those it gets back, and the kernel fills new
pages before it maps them. Nothing else is written while a table is grown, copied or torn down,
so whatever is mapped before and after keeps its contents.
-/

namespace Xv6

open Prog Radix

variable {G S : Nat → Prop} {k k' k₀ k₁ : Kmem} {t t' : Pagetable} {sz tf tramp : Nat}

/-! ## Freeing -/

theorem wp_kfree_within {pa : Nat} (h : Within S k₀ k) (hpa : pa ∈ k₀.freelist ∨ S pa) :
    wp (kfree pa) (fun _ k' => Within S k₀ k') (fun _ _ => True) k := by
  simp only [kfree, wp_bind, wp_get, wp_stopIf, wp_modify]
  exact ⟨fun _ => trivial, fun _ => (h.write hpa).push hpa⟩

/-- What is left in the table was there before, and so was the table itself. -/
structure Shrunk (t t' : Pagetable) : Prop where
  nodes : t'.nodes = t.nodes
  get : ∀ v < VPNS, ∀ e, t'.get v = some e → t.get v = some e

theorem Shrunk.refl : Shrunk t t := ⟨rfl, fun _ _ _ h => h⟩

theorem Shrunk.put_none {v : Nat} {e : Pte} (hget : t.get v = some e) (hv : v < VPNS)
    (h : Shrunk (t.put v none) t') : Shrunk t t' where
  nodes := h.nodes.trans (Trie.nodes_put t none)
  get v' hv' e' he' := by
    have hold := h.get v' hv' e' he'
    rw [get_put_none hget hv hv'] at hold
    split at hold
    · cases hold
    · exact hold

theorem wp_unmapLoop_within {doFree : Bool} {n v : Nat} (h : Within S k₀ k)
    (hpages : doFree = true → ∀ v' < VPNS, v ≤ v' → v' < v + n → ∀ e, t.get v' = some e →
      e.pa ∈ k₀.freelist ∨ S e.pa) :
    wp (unmapLoop doFree n t (v * PGSIZE)) (fun t' k' => Within S k₀ k' ∧ Shrunk t t') (fun _ _ => True) k := by
  induction n generalizing k t v with
  | zero => exact wp_pure.mpr ⟨h, .refl⟩
  | succ n ih =>
    simp only [unmapLoop]
    rw [page_succ, page_div, wp_bind]
    by_cases hva : v * PGSIZE < MAXVA
    · have hv : v < VPNS := page_div (v := v) ▸ vpn_lt_vpns hva
      refine wp_walk_match hva (fun e he => ?_) fun _ => ?_
      · rw [page_div] at he
        have hrest (k₁ : Kmem) (h₁ : Within S k₀ k₁) :
            wp (unmapLoop doFree n (t.put v none) ((v + 1) * PGSIZE))
              (fun t' k' => Within S k₀ k' ∧ Shrunk t t') (fun _ _ => True) k₁ := by
          refine (ih h₁ fun hfree v' hv' hlo hhi e' he' => ?_).imp fun t' k' hpost =>
            ⟨hpost.1, hpost.2.put_none he hv⟩
          rw [get_put_none he hv hv', if_neg (by omega)] at he'
          exact hpages hfree v' hv' (by omega) (by omega) e' he'
        cases doFree with
        | false => exact hrest k h
        | true =>
          simp only [if_true, wp_bind]
          exact (wp_kfree_within h (hpages rfl v hv le_rfl (by omega) e he)).imp fun _ k₁ h₁ => hrest k₁ h₁
      · exact ih h fun hfree v' hv' hlo hhi => hpages hfree v' hv' (by omega) (by omega)
    · simp only [walk, wp_bind, wp_stopIf]
      exact ⟨fun _ => trivial, fun hlt => absurd (Nat.not_le.mp hlt) hva⟩

theorem wp_uvmunmap_within {doFree : Bool} {n v : Nat} (h : Within S k₀ k) (hlim : v + n ≤ VPNS)
    (hpages : doFree = true → ∀ v' < VPNS, v ≤ v' → v' < v + n → ∀ e, t.get v' = some e →
      e.pa ∈ k₀.freelist ∨ S e.pa) :
    wp (uvmunmap t (v * PGSIZE) n doFree) (fun t' k' => Within S k₀ k' ∧ Shrunk t t') (fun _ _ => True) k := by
  simp only [uvmunmap, wp_bind, wp_stopIf, turns_pages hlim]
  exact ⟨fun _ => trivial, fun _ => wp_unmapLoop_within h hpages⟩

theorem wp_uvmdealloc_within {oldsz newsz : Nat} (h : Within S k₀ k) (hold : oldsz ≤ TRAPFRAME)
    (hpages : ∀ v < VPNS, npages newsz ≤ v → v < npages oldsz → ∀ e, t.get v = some e →
      e.pa ∈ k₀.freelist ∨ S e.pa) :
    wp (uvmdealloc t oldsz newsz) (fun r k' => Within S k₀ k' ∧ Shrunk t r.1) (fun _ _ => True) k := by
  unfold uvmdealloc
  rw [wp_ite]
  refine ⟨fun _ => wp_pure.mpr ⟨h, .refl⟩, fun hlt => ?_⟩
  rw [wp_ite]
  refine ⟨fun _ => ?_, fun _ => wp_pure.mpr ⟨h, .refl⟩⟩
  have hle := npages_le hold
  have hvpns := npages_lt_vpns
  have hmono := npages_mono (show newsz ≤ oldsz by omega)
  have hsmall : npages oldsz - npages newsz < 2 ^ 31 := by
    simp only [NPAGES, TRAPFRAME, TRAMPOLINE, MAXVA, PGSIZE] at hle
    omega
  have hnew : newsz ≤ TRAPFRAME := by omega
  rw [pgroundup_eq (hold.trans trapframe_le), pgroundup_eq (hnew.trans trapframe_le), ← Nat.sub_mul,
    page_div]
  simp only [addInt_int hsmall, wp_bind]
  refine (wp_uvmunmap_within h (by omega) fun _ v hv hlo hhi => ?_).imp fun t' k' hpost => wp_pure.mpr hpost
  exact hpages v hv hlo (by omega)

/-- The pages of a table itself are freed. -/
theorem wp_freewalk_within {l : Nat} {t : Ptable l} (h : Within S k₀ k)
    (hnodes : ∀ x ∈ t.nodes, x ∈ k₀.freelist ∨ S x) :
    wp (freewalk t) (fun _ k' => Within S k₀ k') (fun _ _ => True) k := by
  induction t generalizing k with
  | nil =>
    rw [freewalk]
    exact wp_throw.mpr trivial
  | leaf a slot =>
    rw [freewalk, wp_bind]
    have hloop : wp ((List.finRange 512).forM fun i => stopIf (slot i ≠ none) Vm.Stop.freewalkLeaf)
        (fun _ k' => Within S k₀ k') (fun _ _ => True) k := by
      refine wp_forM (I := fun _ k' => Within S k₀ k') (fun done i rest k₁ _ h₁ => ?_) h
      exact wp_stopIf.mpr ⟨fun _ => trivial, fun _ => h₁⟩
    exact hloop.imp fun _ k₁ h₁ => wp_kfree_within h₁ (hnodes a (Trie.addr_mem (by rintro ⟨⟩)))
  | node a slot ih =>
    rw [freewalk, wp_bind]
    have hloop : wp ((List.finRange 512).forM fun i => if (slot i).isNil then pure () else freewalk (slot i))
        (fun _ k' => Within S k₀ k') (fun _ _ => True) k := by
      refine wp_forM (I := fun _ k' => Within S k₀ k') (fun done i rest k₁ _ h₁ => ?_) h
      rw [wp_ite]
      exact ⟨fun _ => wp_pure.mpr h₁, fun _ => ih i h₁ fun x hx => hnodes x (Trie.mem_nodes_of_slot hx)⟩
    exact hloop.imp fun _ k₁ h₁ => wp_kfree_within h₁ (hnodes a (Trie.addr_mem (by rintro ⟨⟩)))

/-- Whatever the size is, only pages that are mapped are freed. -/
theorem wp_uvmfree_within (h : Within S k₀ k) (hnodes : ∀ x ∈ t.nodes, x ∈ k₀.freelist ∨ S x)
    (hpages : ∀ v < VPNS, ∀ e, t.get v = some e → e.pa ∈ k₀.freelist ∨ S e.pa) :
    wp (uvmfree t sz) (fun _ k' => Within S k₀ k') (fun _ _ => True) k := by
  have hstart : (0 : Nat) = 0 * PGSIZE := rfl
  unfold uvmfree
  rw [wp_ite]
  refine ⟨fun _ => ?_, fun _ => wp_freewalk_within h hnodes⟩
  simp only [uvmunmap, wp_bind, wp_stopIf]
  refine ⟨fun _ => trivial, fun _ => ?_⟩
  rw [hstart]
  refine (wp_unmapLoop_within h fun _ v hv _ _ => hpages v hv).imp fun t' k' hpost => ?_
  refine wp_freewalk_within hpost.1 fun x hx => hnodes x ?_
  rwa [← hpost.2.nodes]

theorem wp_procFreepagetable_within {n tf tramp : Nat} (h : Within S k₀ k) (hl : Layout t n tf tramp)
    (hn : n ≤ TRAPFRAME) (hnodes : ∀ x ∈ t.nodes, x ∈ k₀.freelist ∨ S x)
    (hpages : ∀ v < NPAGES, ∀ e, t.get v = some e → e.pa ∈ k₀.freelist ∨ S e.pa) :
    wp (procFreepagetable t sz) (fun _ k' => Within S k₀ k') (fun _ _ => True) k := by
  have hlt := npages_lt_vpns
  have hle := npages_le hn
  have htramp := hl.trampoline
  have htf : (t.put (NPAGES + 1) none).get NPAGES = some ⟨tf, ⟨true, true, false, false⟩⟩ := by
    rw [get_put_none htramp hlt (by omega), if_neg (by omega), hl.trapframe]
  simp only [procFreepagetable, wp_bind, trampoline_eq, trapframe_eq]
  refine wp_uvmunmap_keep le_rfl htramp (wp_uvmunmap_keep (by omega) htf ?_)
  refine wp_uvmfree_within h (fun x hx => hnodes x ?_) fun v hv e he => ?_
  · rwa [Trie.nodes_put, Trie.nodes_put] at hx
  · rw [get_put_none htf (by omega) hv] at he
    split at he
    · cases he
    · rw [get_put_none htramp hlt hv] at he
      split at he
      · cases he
      · obtain hv | rfl | rfl := hl.user v hv (by rw [he]; simp)
        · exact hpages v (by omega) e he
        · contradiction
        · contradiction

/-! ## Growing -/

/-- The entries from page `lo` to page `hi` are for pages that were free and are full of zeros. -/
def Zeroed (k k' : Kmem) (t : Pagetable) (lo hi : Nat) : Prop :=
  ∀ v, lo ≤ v → v < hi → ∀ e, t.get v = some e →
    e.pa ∈ k.freelist ∧ e.pa ∉ k'.freelist ∧ ∀ i, k'.page e.pa i = 0

theorem Added.stock_nodup {v : Nat} {perm : Perm} {new : Option Nat} (h : Added G k t v perm k' t' new)
    (hnodup : (Xv6.stock k t).Nodup) : (Xv6.stock k' t').Nodup := h.stock ▸ hnodup

theorem free_nodup (h : (stock k t).Nodup) : k.freelist.Nodup :=
  Multiset.coe_nodup.mp (Multiset.nodup_add.mp h).1

theorem wp_allocLoop_view {base v n newsz : Nat} {perm : Perm} (h : k.Ok G) (ht : TableOk G t)
    (hnodup : (stock k t).Nodup) (hbase : base ≤ v) (hv : v ≤ NPAGES) (htf : t.get NPAGES ≠ none)
    (hin : Inside k₀ k)
    (hnew : ∀ v', base ≤ v' → v' < v → ∀ e, t.get v' = some e → e.pa ∈ k₀.freelist) :
    wp (allocLoop (base * PGSIZE) newsz perm n t (v * PGSIZE)) (fun r k' => Inside k₀ k' ∧
      (r.2 ≠ 0 → r.2 = newsz ∧ Inside k k' ∧ (∀ v' < v, r.1.get v' = t.get v') ∧
        Zeroed k k' r.1 v (v + n))) (fun _ _ => True) k := by
  have hlt := npages_lt_vpns
  induction n generalizing k t v with
  | zero => exact wp_pure.mpr ⟨hin, fun _ => ⟨rfl, .refl, fun _ _ => rfl, fun v' hlo hhi => by omega⟩⟩
  | succ n ih =>
    have hundo : ∀ k₁ t₁, Added G k t v perm k₁ t₁ none → wp (do
        let r ← uvmdealloc t₁ (v * PGSIZE) (base * PGSIZE)
        pure (r.1, 0)) (fun r k' => Inside k₀ k' ∧ r.2 = 0) (fun _ _ => True) k₁ := by
      intro k₁ t₁ ha
      simp only [wp_bind]
      refine (wp_uvmdealloc_within (hin.trans ha.took.inside) (page_le_trapframe hv)
        fun v' hv' hlo hhi e he => .inl ?_).imp fun r k' hpost => wp_pure.mpr ⟨hpost.1, rfl⟩
      rw [npages_page] at hlo hhi
      rw [ha.same v' hv' fun _ => rfl] at he
      exact hnew v' hlo hhi e he
    simp only [allocLoop, Kmem.memset]
    refine wp_mapNew h ht (fun _ => ⟨hv, .inr fun _ _ => trivial⟩)
      (fun k₁ ha => (hundo k₁ t ha).imp fun _ _ hpost => ⟨hpost.1, absurd hpost.2⟩)
      (fun k₁ t₁ _ ha => (hundo k₁ t₁ ha).imp fun _ _ hpost => ⟨hpost.1, absurd hpost.2⟩)
      fun k₁ t₁ mem ha hs => ?_
    have hins := ha.took.inside
    have hpage := ha.page mem rfl
    have hfresh := ha.fresh (Option.some_ne_none mem)
    have hvlt : v < NPAGES := lt_of_le_of_ne hv fun heq => htf (heq ▸ hfresh)
    obtain ⟨hmem, hgone, k₂, -, hzero⟩ := hs (free_nodup hnodup)
    have hsame (v' : Nat) (hne : v' ≠ v) (hv' : v' ≤ NPAGES) : t₁.get v' = t.get v' :=
      ha.same v' (by omega) fun heq => absurd heq hne
    rw [page_succ]
    refine (ih ha.kmem ha.table (ha.stock_nodup hnodup) (by omega) hvlt
      (by rw [hsame NPAGES hvlt.ne' le_rfl]; exact htf) (hin.trans hins) fun v' hlo hhi e he => ?_).imp
        fun r k' hpost => ?_
    · by_cases heq : v' = v
      · rw [heq, hpage] at he
        cases he
        exact hin.mem_free hmem
      · rw [hsame v' heq (by omega)] at he
        exact hnew v' hlo (by omega) e he
    · obtain ⟨hin', hdone⟩ := hpost
      refine ⟨hin', fun hne => ?_⟩
      obtain ⟨hsz, hin₂, hkeep, hzeros⟩ := hdone hne
      refine ⟨hsz, hins.trans hin₂, fun v' hv' => ?_, fun v' hlo hhi e he => ?_⟩
      · rw [hkeep v' (by omega), hsame v' hv'.ne (by omega)]
      · by_cases heq : v' = v
        · rw [heq, hkeep v (by omega), hpage] at he
          cases he
          refine ⟨hmem, fun hfree => hgone (hin₂.mem_free hfree), fun i => ?_⟩
          rw [hin₂.keeps_page hgone, hzero]
        · obtain ⟨hfree, hrest⟩ := hzeros v' (by omega) (by omega) e he
          exact ⟨hins.mem_free hfree, hrest⟩

/-- `uvmalloc` writes only to pages that were free, and new pages are full of zeros. -/
theorem wp_uvmalloc_view {oldsz newsz : Nat} {w x : Bool} (h : k.Ok G) (ht : TableOk G t)
    (hnodup : (stock k t).Nodup) (hold : oldsz ≤ TRAPFRAME) (htf : t.get NPAGES ≠ none) :
    wp (uvmalloc t oldsz newsz w x) (fun r k' => Inside k k' ∧
      (r.2 ≠ 0 → Zeroed k k' r.1 (npages oldsz) (npages r.2))) (fun _ _ => True) k := by
  unfold uvmalloc
  rw [wp_ite]
  refine ⟨fun _ => wp_pure.mpr ⟨.refl, fun _ v hlo hhi => absurd hhi (Nat.not_lt.mpr hlo)⟩, fun hge => ?_⟩
  have hmono := npages_mono (show oldsz ≤ newsz by omega)
  simp only [pgroundup_eq (hold.trans trapframe_le), turns_npages]
  refine (wp_allocLoop_view h ht hnodup le_rfl (npages_le hold) htf Within.refl
    fun v' hlo hhi => absurd hhi (Nat.not_lt.mpr hlo)).imp fun r k' hpost => ⟨hpost.1, fun hne => ?_⟩
  obtain ⟨hsz, -, -, hzeros⟩ := hpost.2 hne
  rw [hsz, ← Nat.add_sub_cancel' hmono]
  exact hzeros

/-! ## Copying -/

/-- What `uvmcopy` puts into the entries from page `lo` to page `hi`. -/
structure Copies (old : Pagetable) (k : Kmem) (new : Pagetable) (k' : Kmem) (t' : Pagetable) (lo hi : Nat) :
    Prop where
  same : ∀ v < VPNS, (v < lo ∨ hi ≤ v ∨ old.get v = none) → t'.get v = new.get v
  copy : ∀ v, lo ≤ v → v < hi → ∀ e, old.get v = some e → ∃ mem, t'.get v = some ⟨mem, e.perm⟩ ∧
    mem ∈ k.freelist ∧ mem ∉ k'.freelist ∧ k'.page mem = k.page e.pa

theorem wp_copyLoop_view {old new : Pagetable} {n v : Nat} (h : k.Ok G) (ht : TableOk G new)
    (hnodup : (stock k new).Nodup) (hlim : v + n ≤ NPAGES)
    (hold : ∀ v' < NPAGES, ∀ e, old.get v' = some e → e.pa ∉ k.freelist) (hin : Inside k₀ k)
    (hnew : ∀ v' < NPAGES, ∀ e, new.get v' = some e → e.pa ∈ k₀.freelist) :
    wp (copyLoop old n new (v * PGSIZE)) (fun r k' => Inside k₀ k' ∧
      (r.2 = true → Inside k k' ∧ Copies old k new k' r.1 v (v + n))) (fun _ _ => True) k := by
  have hlt := npages_lt_vpns
  induction n generalizing k new v with
  | zero =>
    refine wp_pure.mpr ⟨hin, fun _ => ⟨.refl, fun _ _ _ => rfl, fun v' hlo hhi => ?_⟩⟩
    omega
  | succ n ih =>
    simp only [copyLoop]
    rw [wp_bind, page_succ, page_div]
    refine wp_walk_match (page_lt (by omega)) (fun e he => ?_) fun hnone => ?_
    · rw [page_div] at he
      have hpa : e.pa ∉ k.freelist := hold v (by omega) e he
      have hundo : ∀ k₁ t₁, Added G k new v e.perm k₁ t₁ none → wp (do
          let new ← uvmunmap t₁ (0 * PGSIZE) v true
          pure (new, false)) (fun r k' => Inside k₀ k' ∧ r.2 = false) (fun _ _ => True) k₁ := by
        intro k₁ t₁ ha
        simp only [wp_bind]
        refine (wp_uvmunmap_within (hin.trans ha.took.inside) (by omega) fun _ v' hv' _ hhi e' he' =>
          .inl ?_).imp fun t' k' hpost => wp_pure.mpr ⟨hpost.1, rfl⟩
        rw [ha.same v' hv' fun _ => rfl] at he'
        exact hnew v' (by omega) e' he'
      refine wp_mapNew h ht (fun _ => ⟨by omega, .inr fun _ _ => trivial⟩)
        (fun k₁ ha => (hundo k₁ new ha).imp fun _ _ hpost => ⟨hpost.1, by simp [hpost.2]⟩)
        (fun k₁ t₁ _ ha => (hundo k₁ t₁ ha).imp fun _ _ hpost => ⟨hpost.1, by simp [hpost.2]⟩)
        fun k₁ t₁ mem ha hs => ?_
      have hins := ha.took.inside
      have hpage := ha.page mem rfl
      obtain ⟨hmem, hgone, k₂, hin₂, hdata⟩ := hs (free_nodup hnodup)
      have hdata : k₁.page mem = k.page e.pa := hdata.trans (hin₂.keeps_page hpa)
      have hsame (v' : Nat) (hne : v' ≠ v) (hv' : v' < VPNS) : t₁.get v' = new.get v' :=
        ha.same v' hv' fun heq => absurd heq hne
      refine (ih ha.kmem ha.table (ha.stock_nodup hnodup) (by omega) (fun v' hv' e' he' hfree =>
        hold v' hv' e' he' (hins.mem_free hfree)) (hin.trans hins) fun v' hhi e' he' => ?_).imp
          fun r k' hpost => ?_
      · by_cases heq : v' = v
        · rw [heq, hpage] at he'
          cases he'
          exact hin.mem_free hmem
        · rw [hsame v' heq (by omega)] at he'
          exact hnew v' (by omega) e' he'
      · obtain ⟨hin', hdone⟩ := hpost
        refine ⟨hin', fun hok => ?_⟩
        obtain ⟨hin₃, hc⟩ := hdone hok
        refine ⟨hins.trans hin₃, fun v' hv' hout => ?_, fun v' hlo hhi e' he' => ?_⟩
        · have hne : v' ≠ v := by
            rintro rfl
            rw [he] at hout
            obtain hout | hout | hout := hout
            · omega
            · omega
            · cases hout
          rw [hc.same v' hv' (hout.imp (by omega) (Or.imp_left (by omega))), hsame v' hne hv']
        · by_cases heq : v' = v
          · subst heq
            rw [he] at he'
            cases he'
            refine ⟨mem, ?_, hmem, fun hfree => hgone (hin₃.mem_free hfree), ?_⟩
            · rw [hc.same v' (by omega) (.inl (Nat.lt_succ_self v')), hpage]
            · rw [hin₃.keeps_page hgone, hdata]
          · obtain ⟨mem', hget, hfree, hgone', hdata'⟩ := hc.copy v' (by omega) (by omega) e' he'
            refine ⟨mem', hget, hins.mem_free hfree, hgone', hdata'.trans ?_⟩
            exact hins.keeps_page (hold v' (by omega) e' he')
    · rw [page_div] at hnone
      refine (ih h ht hnodup (by omega) hold hin hnew).imp fun r k' hpost => ⟨hpost.1, fun hok => ?_⟩
      obtain ⟨hin', hc⟩ := hpost.2 hok
      refine ⟨hin', fun v' hv' hout => hc.same v' hv' ?_, fun v' hlo hhi e he => hc.copy v' ?_ (by omega) e he⟩
      · by_cases heq : v' = v
        · exact .inr (.inr (heq ▸ hnone))
        · exact hout.imp (by omega) (Or.imp_left (by omega))
      · by_contra hlt
        rw [show v' = v by omega, hnone] at he
        cases he

theorem wp_uvmcopy_view {old new : Pagetable} (h : k.Ok G) (ht : TableOk G new) (hnodup : (stock k new).Nodup)
    (hl : Layout new 0 tf tramp) (hsz : sz ≤ TRAPFRAME)
    (hold : ∀ v < NPAGES, ∀ e, old.get v = some e → e.pa ∉ k.freelist) :
    wp (uvmcopy old new sz) (fun r k' => Inside k k' ∧
      (r.2 = true → Copies old k new k' r.1 0 (npages sz))) (fun _ _ => True) k := by
  have hturns : turns 0 sz = npages sz := turns_npages (v := 0)
  have hlim : 0 + npages sz ≤ NPAGES := by
    rw [Nat.zero_add]
    exact npages_le hsz
  have hstart : (0 : Nat) = 0 * PGSIZE := rfl
  rw [uvmcopy, hturns, hstart]
  refine (wp_copyLoop_view h ht hnodup hlim hold .refl fun v hv e he => ?_).imp fun r k' hpost =>
    ⟨hpost.1, fun hok => ?_⟩
  · rw [hl.free (Nat.zero_le v) hv] at he
    cases he
  · obtain ⟨-, hc⟩ := hpost.2 hok
    rwa [Nat.zero_add] at hc

/-! ## A new table -/

/-- The pages of a table come from the free list. -/
theorem Mapped.nodes_free {v : Nat} {e : Pte} {ok : Bool} (h : Mapped G k t v e k' t' ok) (hin : Inside k₀ k)
    (hnodes : ∀ x ∈ t.nodes, x ∈ k₀.freelist) : ∀ x ∈ t'.nodes, x ∈ k₀.freelist := by
  intro x hx
  have hmem : x ∈ (k.freelist : Multiset Nat) + t.nodes := h.pages ▸ Multiset.mem_add.mpr (.inr hx)
  obtain hfree | hnode := Multiset.mem_add.mp hmem
  · exact hin.mem_free (Multiset.mem_coe.mp hfree)
  · exact hnodes x hnode

/-- Mapping a page in a table whose pages came from the free list. -/
theorem wp_mappages_inside {v pa : Nat} {perm : Perm} (h : k.Ok G) (ht : TableOk G t) (hin : Inside k₀ k)
    (hnodes : ∀ x ∈ t.nodes, x ∈ k₀.freelist) (hv : v ≤ NPAGES + 1) :
    wp (mappages t (v * PGSIZE) PGSIZE pa perm) (fun r k' => Mapped G k t v ⟨pa, perm⟩ k' r.1 r.2 ∧
      Inside k₀ k' ∧ ∀ x ∈ r.1.nodes, x ∈ k₀.freelist) (fun _ _ => True) k := by
  have hmapped : wp (mappages t (v * PGSIZE) PGSIZE pa perm)
      (fun r k' => Mapped G k t v ⟨pa, perm⟩ k' r.1 r.2) (fun _ _ => True) k :=
    wp_mappages h ht.ne ht.nodes hv (.inr fun _ _ => trivial)
  exact hmapped.imp fun r k' hm => ⟨hm, hin.trans hm.took.inside, hm.nodes_free hin hnodes⟩

theorem wp_procPagetable_inside (h : k.Ok G) :
    wp (procPagetable tf) (fun _ k' => Inside k k') (fun _ _ => True) k := by
  have hlt := npages_lt_vpns
  -- both ways out free the pages of the table
  have hgive {t : Pagetable} {k₁ : Kmem} (hin : Inside k k₁) (hnodes : ∀ x ∈ t.nodes, x ∈ k.freelist) :
      wp (do
        uvmfree t 0
        pure (.nil : Pagetable)) (fun _ k' => Inside k k') (fun _ _ => True) k₁ := by
    rw [wp_bind, uvmfree, if_neg (Nat.lt_irrefl 0)]
    exact (wp_freewalk_within hin fun x hx => .inl (hnodes x hx)).imp fun _ k' hin' => wp_pure.mpr hin'
  simp only [procPagetable, uvmcreate, wp_bind, trampoline_eq, trapframe_eq]
  refine (wp_kalloc h).imp fun r k₁ hpost => ?_
  obtain ⟨hk₁, -, ⟨hin₁, -⟩, ⟨rfl, -⟩ | ⟨pa, rfl, hpa, hlist⟩⟩ := hpost
  · exact wp_pure.mpr (wp_pure.mpr hin₁)
  · have hmem : pa ∈ k.freelist := hlist ▸ List.mem_cons_self
    have hnodes : ∀ x ∈ (Trie.empty 512 Pte pa 2).nodes, x ∈ k.freelist := by
      intro x hx
      rw [Trie.nodes_empty, Multiset.mem_singleton] at hx
      exact hx ▸ hmem
    simp only [wp_bind, wp_modify, wp_pure, wp_get, show (Trie.empty 512 Pte pa 2).isNil = false from rfl,
      Bool.false_eq_true, if_false]
    refine (wp_mappages_inside hk₁.memset (.empty hpa) (hin₁.write (.inl hmem)) hnodes le_rfl).imp
      fun res k₂ hpost => ?_
    obtain ⟨t₂, ok⟩ := res
    obtain ⟨hm, hin₂, hnodes₂⟩ := hpost
    cases ok with
    | false => exact hgive hin₂ hnodes₂
    | true =>
      simp only [Bool.not_true, Bool.false_eq_true, if_false, wp_bind]
      have ht₂ := hm.table (.empty hpa) fun hno => absurd hno (by omega)
      refine (wp_mappages_inside hm.kmem ht₂ hin₂ hnodes₂ (by omega)).imp fun res k₃ hpost => ?_
      obtain ⟨t₃, ok⟩ := res
      obtain ⟨-, hin₃, hnodes₃⟩ := hpost
      cases ok with
      | true => exact wp_pure.mpr hin₃
      | false =>
        simp only [Bool.not_false, if_true, wp_bind]
        refine (wp_uvmunmap_within hin₃ (by omega) fun hfree => by cases hfree).imp fun t₄ k₄ hpost => ?_
        have hend := hgive hpost.1 (hpost.2.nodes ▸ hnodes₃)
        rwa [wp_bind] at hend

end Xv6
