-- SUMMARY: What faults, `sbrk`, `fork` and the end of a process do to its memory while its size stays below the trapframe.
import Xv6.Vm.Space

/-!
# Operations on the memory of a process

A process is well formed when its size is at most `TRAPFRAME`, its pages are pages that may
be used, and its table is laid out for its size. The operations of the kernel keep it well
formed, do not panic, and move pages only between the free list and the table.
-/

namespace Xv6

open Prog Radix

variable {G : Nat → Prop} {k k' : Kmem} {t t' : Pagetable} {sz tf tramp : Nat}
  {E : Vm.Stop → Kmem → Prop}

/-! ## Copying -/

/-- Both outcomes of a walk that does not allocate. -/
theorem wp_walk_match {β : Type} {va : Nat} {A : Pte → VmM β} {B : VmM β} {Q : β → Kmem → Prop}
    (hva : va < MAXVA) (hsome : ∀ e, t.get (va / PGSIZE) = some e → wp (A e) Q E k)
    (hnone : t.get (va / PGSIZE) = none → wp B Q E k) :
    wp (walk t va) (fun r k' => wp (match r with | some (some e) => A e | _ => B) Q E k') E k := by
  refine wp_walk hva ?_
  unfold Trie.get at hsome hnone
  cases hf : t.find (va / PGSIZE) with
  | none =>
    rw [hf] at hnone
    exact hnone rfl
  | some x =>
    rw [hf] at hsome hnone
    cases x with
    | none => exact hnone rfl
    | some e => exact hsome e rfl

/-- A page more of user memory. -/
theorem Layout.mono {sz' : Nat} (h : Layout t sz tf tramp) (hle : npages sz ≤ npages sz') :
    Layout t sz' tf tramp :=
  ⟨h.trampoline, h.trapframe, fun v hv hmapped => (h.user v hv hmapped).imp_left (by omega), h.readable⟩

/-- An attempt to map a new page of user memory keeps the layout. -/
theorem Added.layout {v : Nat} {perm : Perm} {new : Option Nat} (h : Added G k t v perm k' t' new)
    (hl : Layout t sz tf tramp) (hr : perm.r = true) (hv : v < npages sz) (hsz : sz ≤ TRAPFRAME) :
    Layout t' sz tf tramp := by
  have hlt := npages_lt_vpns
  have hle := npages_le hsz
  refine ⟨?_, ?_, fun v' hv' hmapped => ?_, fun v' hv' e he => ?_⟩
  · rw [h.same _ (by omega) (by omega), hl.trampoline]
  · rw [h.same _ (by omega) (by omega), hl.trapframe]
  · by_cases hvv : v' = v
    · exact .inl (hvv ▸ hv)
    · rw [h.same v' hv' fun hc => absurd hc hvv] at hmapped
      exact hl.user v' hv' hmapped
  · by_cases hvv : v' = v ∧ new ≠ none
    · obtain ⟨rfl, hnew⟩ := hvv
      obtain ⟨mem, hmem⟩ := Option.ne_none_iff_exists'.mp hnew
      rw [h.page mem hmem] at he
      cases he
      exact hr
    · rw [h.same v' hv' fun hc => not_not.mp fun hnew => hvv ⟨hc, hnew⟩] at he
      exact hl.readable v' hv' e he

/-- What copying up to the size `sz` does: without success there is no user memory left. -/
structure Copied (G : Nat → Prop) (k : Kmem) (t : Pagetable) (sz tf tramp : Nat) (k' : Kmem)
    (t' : Pagetable) (ok : Bool) : Prop where
  kmem : k'.Ok G
  image : k'.image = k.image
  table : TableOk G t'
  stock : stock k' t' = stock k t
  layout : Layout t' (if ok then sz else 0) tf tramp

/-- The ways out of `uvmcopy` when a page is missing. -/
theorem wp_uncopy {k₀ : Kmem} {t₀ : Pagetable} {v : Nat} (h : k.Ok G) (himage : k.image = k₀.image)
    (ht : TableOk G t) (hl : Layout t (v * PGSIZE) tf tramp) (hv : v ≤ NPAGES)
    (hstock : stock k t = stock k₀ t₀) :
    wp (do
      let new ← uvmunmap t 0 (v * PGSIZE / PGSIZE) true
      pure (new, false)) (fun r k' => Copied G k₀ t₀ sz tf tramp k' r.1 r.2) E k := by
  have hstart : (0 : Nat) = 0 * PGSIZE := rfl
  rw [page_div, hstart]
  simp only [wp_bind]
  refine (wp_uvmunmap h ht (by omega)).imp fun t' k' hu => wp_pure.mpr ?_
  have hall : Unmapped G k t (npages 0) (npages (v * PGSIZE) - npages 0) k' t' := by
    rw [npages_page]
    exact hu
  exact ⟨hu.kmem, hu.image.trans himage, hu.table, hu.stock.trans hstock,
    hall.layout hl (page_le_trapframe hv)⟩

theorem wp_copyLoop {old new : Pagetable} {n v : Nat} (h : k.Ok G) (ht : TableOk G new)
    (hl : Layout new (v * PGSIZE) tf tramp) (hold : ∀ v < VPNS, ∀ e ∈ old.get v, e.perm.r = true)
    (hlim : v + n ≤ NPAGES) :
    wp (copyLoop old n new (v * PGSIZE))
      (fun r k' => Copied G k new ((v + n) * PGSIZE) tf tramp k' r.1 r.2) E k := by
  induction n generalizing k new v with
  | zero => exact wp_pure.mpr ⟨h, rfl, ht, rfl, hl⟩
  | succ n ih =>
    have hmore : Layout new ((v + 1) * PGSIZE) tf tramp :=
      hl.mono (by rw [npages_page, npages_page]; omega)
    have hsum : v + 1 + n = v + (n + 1) := by omega
    have hundo : ∀ k₁ t₁ perm, Added G k new v perm k₁ t₁ none → wp (do
        let new ← uvmunmap t₁ 0 (v * PGSIZE / PGSIZE) true
        pure (new, false))
        (fun r k' => Copied G k new ((v + (n + 1)) * PGSIZE) tf tramp k' r.1 r.2) E k₁ :=
      fun k₁ t₁ _ ha => wp_uncopy ha.kmem ha.image ha.table
        (hl.congr fun v' hv' => ha.same v' hv' fun _ => rfl) (by omega) ha.stock
    simp only [copyLoop]
    rw [wp_bind]
    refine wp_walk_match (page_lt (by omega)) (fun e he => ?_) fun _ => ?_
    · have hr : e.perm.r = true := by
        have hlt := npages_lt_vpns
        rw [page_div] at he
        exact hold v (by omega) e he
      have hroom : k.freelist ≠ [] → v ≤ NPAGES ∧ (new.get v = none ∨ ∀ e k, E e k) :=
        fun _ => ⟨by omega, .inl (hl.free (by rw [npages_page]) (by omega))⟩
      refine wp_mapNew h ht hroom (fun k₁ ha => hundo k₁ new _ ha)
        (fun k₁ t₁ _ ha => hundo k₁ t₁ _ ha) fun k₁ t₁ mem ha _ => ?_
      have hl₁ := ha.layout hmore hr (by rw [npages_page]; omega) (page_le_trapframe (by omega))
      rw [page_succ]
      refine (ih ha.kmem ha.table hl₁ (by omega)).imp fun r k' hc => ?_
      rw [hsum] at hc
      exact ⟨hc.kmem, hc.image.trans ha.image, hc.table, hc.stock.trans ha.stock, hc.layout⟩
    · rw [page_succ]
      refine (ih h ht hmore (by omega)).imp fun r k' hc => ?_
      rw [hsum] at hc
      exact hc

theorem wp_uvmcopy {old new : Pagetable} (h : k.Ok G) (ht : TableOk G new)
    (hl : Layout new 0 tf tramp) (hold : ∀ v < VPNS, ∀ e ∈ old.get v, e.perm.r = true)
    (hsz : sz ≤ TRAPFRAME) :
    wp (uvmcopy old new sz) (fun r k' => Copied G k new sz tf tramp k' r.1 r.2) E k := by
  have hturns : turns 0 sz = npages sz := turns_npages (v := 0)
  have hl₀ : Layout new (0 * PGSIZE) tf tramp := hl
  have hlim : 0 + npages sz ≤ NPAGES := by
    rw [Nat.zero_add]
    exact npages_le hsz
  rw [uvmcopy, hturns]
  refine (wp_copyLoop h ht hl₀ hold hlim).imp fun res k' hc => ?_
  obtain ⟨t', ok⟩ := res
  refine ⟨hc.kmem, hc.image, hc.table, hc.stock, hc.layout.mono ?_⟩
  cases ok with
  | false => exact le_rfl
  | true => simp [npages_page]

/-! ## Processes -/

/-- A process whose memory is well formed. -/
structure ProcOk (G : Nat → Prop) (tramp : Nat) (p : Proc) : Prop where
  sz : p.sz ≤ TRAPFRAME
  table : TableOk G p.pagetable
  layout : Layout p.pagetable p.sz p.trapframe tramp

/-- What an operation on a process does to the pages: it keeps the trapframe, and moves pages
between the free list and the table. -/
structure Keeps (G : Nat → Prop) (k : Kmem) (p : Proc) (k' : Kmem) (p' : Proc) : Prop where
  kmem : k'.Ok G
  image : k'.image = k.image
  proc : ProcOk G k.image.trampoline p'
  trapframe : p'.trapframe = p.trapframe
  stock : stock k' p'.pagetable = stock k p.pagetable

variable {p p' : Proc}

theorem Keeps.refl (h : k.Ok G) (hp : ProcOk G k.image.trampoline p) : Keeps G k p k p :=
  ⟨h, rfl, hp, rfl, rfl⟩

theorem page_lt_npages {va : Nat} (h : va < sz) : va / PGSIZE < npages sz := by
  simp only [npages, PGSIZE]
  omega

theorem Keeps.trans {k₁ k₂ : Kmem} {p₁ p₂ : Proc} (h : Keeps G k p k₁ p₁) (h' : Keeps G k₁ p₁ k₂ p₂) :
    Keeps G k p k₂ p₂ where
  kmem := h'.kmem
  image := h'.image.trans h.image
  proc := h.image ▸ h'.proc
  trapframe := h'.trapframe.trans h.trapframe
  stock := h'.stock.trans h.stock

/-- The process itself, and the memory it can be used with. -/
theorem Keeps.ok (h : Keeps G k p k' p') : ProcOk G k'.image.trampoline p' := h.image.symm ▸ h.proc

theorem Keeps.write {pa : Nat} {data : Bytes.Mem} (h : Keeps G k p k' p') :
    Keeps G k p (k'.write pa data) p' :=
  ⟨h.kmem.write, h.image, h.proc, h.trapframe, h.stock⟩

/-- What a page fault at `va` does; `new` is the page that it brings in, if any, full of zeros. -/
structure Faulted (G : Nat → Prop) (k : Kmem) (p : Proc) (va : Nat) (k' : Kmem) (p' : Proc)
    (new : Option Nat) : Prop extends Keeps G k p k' p' where
  sz : p'.sz = p.sz
  name : p'.name = p.name
  fresh : new ≠ none → p.pagetable.get (va / PGSIZE) = none
  same : ∀ v < VPNS, (v = va / PGSIZE → new = none) → p'.pagetable.get v = p.pagetable.get v
  page : ∀ mem, new = some mem → p'.pagetable.get (va / PGSIZE) = some ⟨mem, ⟨true, true, false, true⟩⟩
  took : Took 3 k k' (va < p.sz → p.pagetable.get (va / PGSIZE) = none → new ≠ none)
  low : new ≠ none → va < p.sz
  zero : k.freelist.Nodup → ∀ mem ∈ new, mem ∈ k.freelist ∧ ∀ i, k'.page mem i = 0

theorem Faulted.refl {va : Nat} (h : k.Ok G) (hp : ProcOk G k.image.trampoline p)
    (hno : va < p.sz → p.pagetable.get (va / PGSIZE) ≠ none) : Faulted G k p va k p none :=
  ⟨.refl h hp, rfl, rfl, absurd rfl, fun _ _ _ => rfl, (by simp),
    (Took.refl fun hlt hnone => absurd hnone (hno hlt)).mono (Nat.zero_le 3) id, absurd rfl, (by simp)⟩

theorem Faulted.get_ne {va : Nat} {new : Option Nat} (h : Faulted G k p va k' p' new) (hnew : new ≠ none) :
    p'.pagetable.get (va / PGSIZE) ≠ none := by
  obtain ⟨mem, hmem⟩ := Option.ne_none_iff_exists'.mp hnew
  rw [h.page mem hmem]
  exact Option.some_ne_none _

/-- A page fault of a process. -/
theorem wp_vmfault {va : Nat} (h : k.Ok G) (hp : ProcOk G k.image.trampoline p) :
    wp (vmfault Proc.pagetable p va) (fun r k' => Faulted G k p va k' r.1 r.2) E k := by
  have hle := npages_le hp.sz
  unfold vmfault
  split
  · exact wp_pure.mpr (.refl h hp fun hlt => by omega)
  · next hlt =>
    have hv : va / PGSIZE < npages p.sz := page_lt_npages (by omega)
    have hdiv : va / PGSIZE * PGSIZE / PGSIZE = va / PGSIZE := page_div
    have hkeep : ∀ k₁ t₁ new, Added G k p.pagetable (va / PGSIZE) ⟨true, true, false, true⟩ k₁ t₁ new →
        (k.freelist.Nodup → ∀ mem ∈ new, Supplied k (fun _ _ => 0) k₁ mem) →
        Faulted G k p va k₁ { p with pagetable := t₁ } new := by
      intro k₁ t₁ new ha hs
      have hproc : ProcOk G k.image.trampoline { p with pagetable := t₁ } :=
        ⟨hp.sz, ha.table, ha.layout hp.layout rfl hv hp.sz⟩
      refine ⟨⟨ha.kmem, ha.image, hproc, rfl, ha.stock⟩, rfl, rfl, ha.fresh, ha.same, ha.page,
        ha.took.mono le_rfl fun hne _ _ => hne, fun _ => by omega, fun hnodup mem hmem => ?_⟩
      obtain ⟨hfree, -, k₂, -, hzero⟩ := hs hnodup mem hmem
      exact ⟨hfree, fun i => by rw [hzero]⟩
    simp only [ismapped, Kmem.memset, pgrounddown]
    rw [wp_bind, wp_bind]
    refine wp_walk_match (page_lt (by omega)) (fun e he => ?_) fun hnone => ?_
    · rw [hdiv] at he
      exact wp_pure.mpr (wp_pure.mpr (.refl h hp fun _ => by rw [he]; simp))
    · rw [hdiv] at hnone
      rw [wp_pure, if_neg (by simp)]
      refine wp_mapNew h hp.table (fun _ => ⟨by omega, .inl hnone⟩)
        (fun k₁ ha => wp_pure.mpr (hkeep k₁ _ _ ha (by simp)))
        (fun k₁ t₁ _ ha => wp_pure.mpr (hkeep k₁ t₁ _ ha (by simp)))
        fun k₁ t₁ mem ha hs => wp_pure.mpr (hkeep k₁ t₁ _ ha fun hnodup _ hmem => ?_)
      cases hmem
      exact hs hnodup

/-! ## Copies from and to a process -/

/-- `walkaddr` only looks. -/
theorem wp_walkaddr_any {va : Nat} : wp (walkaddr t va) (fun r k' => k' = k ∧
    (r ≠ none → va < MAXVA ∧ t.get (va / PGSIZE) ≠ none)) E k := by
  unfold walkaddr
  split
  · exact wp_pure.mpr ⟨rfl, absurd rfl⟩
  · next hva =>
    rw [wp_bind]
    refine wp_walk_match (by omega) (fun e he => ?_) fun _ => wp_pure.mpr ⟨rfl, absurd rfl⟩
    refine wp_pure.mpr ⟨rfl, fun _ => ⟨by omega, ?_⟩⟩
    rw [he]
    simp

/-- The address for a page of a process, which is faulted in if it must be. -/
theorem wp_pageOf {β : Type} {va : Nat} {f : Proc × Option Nat → VmM β} {Q : β → Kmem → Prop}
    (h : k.Ok G) (hp : ProcOk G k.image.trampoline p)
    (hf : ∀ p' r k', Keeps G k p k' p' → (r ≠ none → p'.pagetable.get (va / PGSIZE) ≠ none) →
      wp (f (p', r)) Q E k') :
    wp (do
      match ← walkaddr p.pagetable va with
      | some pa => do
        let r ← pure (p, some pa)
        f r
      | none => do
        let r ← vmfault Proc.pagetable p va
        f r) Q E k := by
  rw [wp_bind]
  refine wp_walkaddr_any.imp fun r k₁ hpost => ?_
  obtain ⟨hk, hr⟩ := hpost
  subst hk
  cases r with
  | some pa =>
    rw [wp_bind, wp_pure]
    exact hf p (some pa) k₁ (.refl h hp) fun _ => (hr (by simp)).2
  | none =>
    rw [wp_bind]
    exact (wp_vmfault h hp).imp fun r k₂ h => hf r.1 r.2 k₂ h.toKeeps h.get_ne

/-! ## Growing and shrinking a process -/

/-- The precondition under which a process may ask for `n` bytes. -/
def Fits (p : Proc) (n : Int) : Prop := 0 < n → p.sz + n ≤ TRAPFRAME

instance (p : Proc) (n : Int) : Decidable (Fits p n) := inferInstanceAs (Decidable (_ → _))

/-- There are too few free pages to fill user memory up to the trapframe. -/
def Short (k : Kmem) (p : Proc) : Prop := npages p.sz + k.freelist.length ≤ NPAGES

theorem addInt_fits {n : Int} (hn : 0 ≤ n) (h : p.sz + n ≤ TRAPFRAME) :
    (addInt p.sz n : Int) = p.sz + n := by
  simp only [addInt, UINT64, TRAPFRAME, TRAMPOLINE, MAXVA, PGSIZE] at *
  omega

/-- Growing eagerly stops at the trapframe, if not earlier. -/
theorem wp_growproc {n : Int} (h : k.Ok G) (hp : ProcOk G k.image.trampoline p)
    (hfits : Fits p n ∨ Short k p ∨ ∀ e k, E e k) : wp (growproc p n) (fun r k' => Keeps G k p k' r.1) E k := by
  unfold growproc
  split
  · next hpos =>
    have hroom : addInt p.sz n ≤ TRAPFRAME ∨ npages p.sz + k.freelist.length ≤ NPAGES ∨
        (p.pagetable.get NPAGES ≠ none ∧ ∀ e k, E e k) := by
      rcases hfits with hfits | hshort | hE
      · have hnew := addInt_fits hpos.le (hfits hpos)
        have := hfits hpos
        exact .inl (by omega)
      · exact .inr (.inl hshort)
      · refine .inr (.inr ⟨?_, hE⟩)
        rw [hp.layout.trapframe]
        simp
    simp only [wp_bind]
    refine (wp_uvmalloc h hp.table hp.sz hroom fun v hv hlt => hp.layout.free hv hlt).imp
      fun res k' hg => ?_
    obtain ⟨t', sz⟩ := res
    rw [wp_ite]
    constructor
    · intro hzero
      exact wp_pure.mpr ⟨hg.kmem, hg.image,
        ⟨hp.sz, hg.table, hp.layout.congr (hg.same_of_zero hzero)⟩, rfl, hg.stock⟩
    · intro hsz
      refine wp_pure.mpr ⟨hg.kmem, hg.image, ⟨?_, hg.table, hg.layout hp.layout rfl hsz⟩, rfl, hg.stock⟩
      rcases hg.result with ⟨hzero, -⟩ | ⟨-, hle, -⟩
      · exact absurd hzero hsz
      · exact hle
  · split
    · simp only [wp_bind]
      refine (wp_uvmdealloc h hp.table hp.sz).imp fun res k' hpost => ?_
      obtain ⟨t', sz⟩ := res
      obtain ⟨hsz, hu⟩ := hpost
      refine wp_pure.mpr ⟨hu.kmem, hu.image, ⟨?_, hu.table, hu.layout hp.layout hp.sz⟩, rfl, hu.stock⟩
      have hle := hp.sz
      dsimp only at hsz ⊢
      omega
    · exact wp_pure.mpr (.refl h hp)

/-- The lazy branch of `sbrk` only changes the size. -/
theorem keeps_lazy {n : Int} (h : k.Ok G) (hp : ProcOk G k.image.trampoline p)
    (hge : ¬ addInt p.sz n < p.sz) (hnew : addInt p.sz n ≤ TRAPFRAME) :
    Keeps G k p k { p with sz := addInt p.sz n } :=
  ⟨h, rfl, ⟨hnew, hp.table, hp.layout.mono (npages_mono (Nat.not_lt.mp hge))⟩, rfl, rfl⟩

/-- A process that asks for memory below the trapframe gets it or not; one that asks for
more may get a size above it. -/
theorem wp_sysSbrk {n t : Int} (h : k.Ok G) (hp : ProcOk G k.image.trampoline p)
    (hfits : argint t = SBRK_EAGER → Fits p (argint n) ∨ Short k p ∨ ∀ e k, E e k) :
    wp (sysSbrk p n t) (fun r k' => Fits p (argint n) ∨ r.1.sz ≤ TRAPFRAME → Keeps G k p k' r.1)
      E k := by
  simp only [sysSbrk]
  split
  · next hnow =>
    simp only [wp_bind]
    have hgrow : Fits p (argint n) ∨ Short k p ∨ ∀ e k, E e k := by
      obtain heager | hneg := hnow
      · exact hfits heager
      · exact .inl fun hpos => absurd hneg (by omega)
    exact (wp_growproc h hp hgrow).imp fun r k' hk => wp_pure.mpr fun _ => hk
  · next hlazy =>
    split
    · exact wp_pure.mpr fun _ => .refl h hp
    · next hge =>
      refine wp_pure.mpr fun hbound => keeps_lazy h hp hge ?_
      rcases hbound with hfits | hle
      · by_cases hpos : 0 < argint n
        · have := addInt_fits hpos.le (hfits hpos)
          have := hfits hpos
          omega
        · have hzero : argint n = 0 := by omega
          have := addInt_fits (p := p) hzero.ge (by have := hp.sz; omega)
          have := hp.sz
          omega
      · exact hle

/-! ## The beginning and the end of a process -/

theorem isNil_of_ne (h : t ≠ .nil) : t.isNil = false := by
  cases hc : t.isNil with
  | false => rfl
  | true => exact absurd (Trie.isNil_iff.mp hc) h

/-- What `freeproc` does: the pages of the process are free again. -/
theorem wp_freeproc (h : k.Ok G) (ht : TableOk G t) (hl : Layout t sz tf tramp)
    (hsz : sz ≤ TRAPFRAME) (htf : G tf) :
    wp (freeproc (some tf) t sz) (fun _ k' => k'.Ok G ∧ k'.image = k.image ∧
      (k'.freelist : Multiset Nat) + {tramp} = k.freelist + tablePages t ∧
      OnlyFrees k k' ∧ tf ∈ k'.freed) E k := by
  simp only [freeproc, wp_bind]
  refine (wp_kfree h htf).imp fun _ k₁ hpost => ?_
  obtain ⟨hk₁, himage₁, hlist₁, hfrees₁⟩ := hpost
  have hmem : tf ∈ k₁.freed := by
    obtain ⟨new, hnew, hfreed⟩ := hfrees₁
    rw [hlist₁, ← List.singleton_append] at hnew
    rw [hfreed, ← List.append_cancel_right hnew]
    simp
  rw [isNil_of_ne ht.ne, if_neg (by simp)]
  refine (wp_procFreepagetable hk₁ ht hl (hsz.trans trapframe_le)).imp fun _ k₂ hpost => ?_
  obtain ⟨hk₂, himage₂, hlist₂, hfrees₂⟩ := hpost
  refine ⟨hk₂, himage₂.trans himage₁, ?_, hfrees₁.trans hfrees₂, ?_⟩
  · rw [hlist₁, coe_cons] at hlist₂
    refine add_right_cancel (b := {tf}) ?_
    rw [add_right_comm, hlist₂]
    abel
  · obtain ⟨new, -, hfreed⟩ := hfrees₂
    rw [hfreed, List.mem_append]
    exact .inr hmem

/-- What making a process does: it has all its pages from the free list. -/
def Made (G : Nat → Prop) (k k' : Kmem) : Option Proc → Prop
  | none => k'.Ok G ∧ k'.image = k.image ∧ (k'.freelist : Multiset Nat) = k.freelist
  | some np => k'.Ok G ∧ k'.image = k.image ∧ ProcOk G k.image.trampoline np ∧
      stock k' np.pagetable = k.freelist + {k.image.trampoline}

theorem wp_allocproc (h : k.Ok G) : wp allocproc (fun r k' => Made G k k' r ∧
    ∀ np ∈ r, np.sz = 0 ∧ G np.trapframe) E k := by
  unfold allocproc
  rw [wp_bind]
  refine (wp_kalloc h).imp fun r k₁ hpost => ?_
  obtain ⟨hk₁, himage₁, -, hr⟩ := hpost
  rcases hr with ⟨rfl, hlist⟩ | ⟨tf, rfl, htf, hlist⟩
  · simp [freeproc, Trie.isNil, Made, hk₁, himage₁, hlist]
  · simp only [wp_bind]
    refine (wp_procPagetable hk₁).imp fun t k₂ hc => ?_
    rcases hc.result with ⟨rfl, hback⟩ | ⟨ht, hl, hstock, -⟩
    · simp only [Trie.isNil, if_true, freeproc, wp_bind]
      refine (wp_kfree hc.kmem htf).imp fun _ k₃ hpost => ?_
      obtain ⟨hk₃, himage₃, hlist₃, _⟩ := hpost
      simp only [wp_pure]
      refine ⟨⟨hk₃, himage₃.trans (hc.image.trans himage₁), ?_⟩, (by simp)⟩
      rw [hlist₃, hlist, coe_cons, coe_cons, hback]
    · rw [isNil_of_ne ht.ne, if_neg (by simp)]
      refine wp_pure.mpr ⟨⟨hc.kmem, hc.image.trans himage₁, ⟨Nat.zero_le _, ht, ?_⟩, ?_⟩, ?_⟩
      · rw [← himage₁]
        exact hl
      · rw [hstock, hlist, coe_cons, himage₁]
        abel
      · rintro np ⟨rfl⟩
        exact ⟨rfl, htf⟩

theorem wp_kfork (h : k.Ok G) (hp : ProcOk G k.image.trampoline p) :
    wp (kfork p) (fun r k' => Made G k k' r) E k := by
  unfold kfork
  rw [wp_bind]
  refine (wp_allocproc h).imp fun r k₁ hpost => ?_
  obtain ⟨hmade, hnew⟩ := hpost
  cases r with
  | none => exact wp_pure.mpr hmade
  | some np =>
    obtain ⟨hk₁, himage₁, hnp, hstock⟩ := hmade
    obtain ⟨hzero, htf⟩ := hnew np rfl
    have hl : Layout np.pagetable 0 np.trapframe k.image.trampoline := hzero ▸ hnp.layout
    simp only [wp_bind]
    refine (wp_uvmcopy hk₁ hnp.table hl hp.layout.readable hp.sz).imp fun res k₂ hc => ?_
    obtain ⟨t, ok⟩ := res
    have hst := hc.stock
    have hl₂ := hc.layout
    rw [hstock] at hst
    cases ok with
    | false =>
      simp only [Bool.not_false, if_true, wp_bind]
      rw [hzero]
      refine (wp_freeproc hc.kmem hc.table hl₂ (Nat.zero_le _) htf).imp fun _ k₃ hpost => ?_
      obtain ⟨hk₃, himage₃, hlist₃, _⟩ := hpost
      refine wp_pure.mpr ⟨hk₃, himage₃.trans (hc.image.trans himage₁), ?_⟩
      rw [stock, ← hlist₃] at hst
      exact add_right_cancel hst
    | true =>
      simp only [Bool.not_true, Bool.false_eq_true, if_false, setReg, wp_bind, wp_modify]
      exact wp_pure.mpr ⟨hc.kmem.write.write, hc.image.trans himage₁, ⟨hp.sz, hc.table, hl₂⟩, hst⟩

end Xv6
