-- SUMMARY: `uvmcopy` makes a faithful copy of user memory, in pages of its own, and writes to one copy are not seen in the other.
import Xv6.Vm.Copies

/-!
# The memory of a child

Right after `fork` parent and child see the same bytes in different pages. From then on each of
them goes its own way: whatever the kernel or the program writes to the memory of one, including
pages that are faulted in, the other reads what it has read before.
-/

namespace Xv6

open Prog Radix

variable {G : Nat → Prop} {k k' : Kmem} {p p' q np : Proc} {E : Vm.Stop → Kmem → Prop}

/-! ## Two processes -/

/-- Two processes that are well formed. Their pages and the free ones are all different. -/
structure Apart (G : Nat → Prop) (k : Kmem) (p q : Proc) : Prop where
  kmem : k.Ok G
  left : ProcOk G k.image.trampoline p
  right : ProcOk G k.image.trampoline q
  nodup : (stock k p.pagetable + Vm.procPages q).Nodup

theorem ProcOk.stock (h : ProcOk G k.image.trampoline p) :
    stock k p.pagetable = k.freelist + Vm.procPages p + {k.image.trampoline} :=
  Vm.Shape.stock ⟨h.sz, h.table.ne, h.layout⟩

theorem Apart.symm (h : Apart G k p q) : Apart G k q p where
  kmem := h.kmem
  left := h.right
  right := h.left
  nodup := by
    have hswap : stock k q.pagetable + Vm.procPages p = stock k p.pagetable + Vm.procPages q := by
      rw [h.left.stock, h.right.stock]
      abel
    rw [hswap]
    exact h.nodup

theorem Apart.owns (h : Apart G k p q) : Owns G k p :=
  ⟨h.kmem, h.left, (Multiset.nodup_add.mp h.nodup).1⟩

/-- The user's pages of one process are neither free nor pages of the other. -/
theorem Apart.notMem {v : Nat} {e : Pte} (h : Apart G k p q) (hv : v < NPAGES)
    (hget : q.pagetable.get v = some e) : e.pa ∉ stock k p.pagetable := by
  refine Multiset.disjoint_right.mp (Multiset.nodup_add.mp h.nodup).2.2 ?_
  rw [Vm.procPages]
  exact Multiset.mem_add.mpr (.inl (Multiset.mem_add.mpr (.inr (Vm.mem_userPages hv hget))))

/-- What is mapped for the user lies below the trapframe. -/
theorem Layout.user_lt {t : Pagetable} {sz tf tramp v : Nat} {e : Pte} (h : Layout t sz tf tramp)
    (hsz : sz ≤ TRAPFRAME) (hv : v < VPNS) (hget : t.get v = some e) (hu : e.perm.u = true) : v < NPAGES := by
  have hle := npages_le hsz
  rcases h.user v hv (by rw [hget]; exact Option.some_ne_none e) with hlt | rfl | rfl
  · omega
  · rw [h.trapframe] at hget
    cases hget
    cases hu
  · rw [h.trampoline] at hget
    cases hget
    cases hu

/-- The user sees what is in the pages below the trapframe. -/
theorem ProcOk.userByte_congr {tramp : Nat} (hp : ProcOk G tramp p)
    (h : ∀ v < NPAGES, ∀ e, p.pagetable.get v = some e → k'.page e.pa = k.page e.pa) (a : Nat) :
    userByte k' p a = userByte k p a := by
  unfold userByte
  by_cases ha : a < MAXVA
  · rw [if_pos ha, if_pos ha]
    cases hget : p.pagetable.get (a / PGSIZE) with
    | none => rfl
    | some e =>
      dsimp only
      by_cases hu : e.perm.u = true
      · rw [h _ (hp.layout.user_lt hp.sz (vpn_lt_vpns ha) hget hu) e hget]
      · rw [if_neg hu, if_neg hu]
  · rw [if_neg ha, if_neg ha]

/-- A write to the memory of one process is not seen by the other. -/
theorem wp_copyout_apart {dstva : Nat} {bytes : List UInt8} (h : Apart G k p q) :
    wp (copyout Proc.pagetable p dstva bytes)
      (fun r k' => Apart G k' r.1 q ∧ ∀ a, userByte k' q a = userByte k q a) E k := by
  refine ((wp_copyout_own h.kmem h.left).also (wp_copyout_view h.owns)).imp fun r k' hpost => ?_
  obtain ⟨hkeeps, hout⟩ := hpost
  refine ⟨⟨hkeeps.kmem, hkeeps.ok, hkeeps.image.symm ▸ h.right, hkeeps.stock.symm ▸ h.nodup⟩, ?_⟩
  refine h.right.userByte_congr fun v hv e he => ?_
  have hstock := h.notMem hv he
  refine hout.kept e.pa (fun hfree => hstock ?_) fun v' _ e' he' _ _ heq => hstock ?_
  · exact Multiset.mem_add.mpr (.inl (Multiset.mem_coe.mpr hfree))
  · rw [← heq]
    exact Multiset.mem_add.mpr (.inr (mem_tablePages he'))

/-! ## Both of them running -/

/-- A parent, its child, and memory. -/
structure Pair where
  kmem : Kmem
  parent : Proc
  child : Proc

/-- A write of some bytes to an address of the child or of the parent. -/
structure Write where
  toChild : Bool
  va : Nat
  bytes : List UInt8

/-- Writing, which may fault pages in. -/
def Pair.write (s : Pair) (w : Write) : Option Pair :=
  match copyout Proc.pagetable (if w.toChild then s.child else s.parent) w.va w.bytes s.kmem with
  | .ok (p, _) k => some (if w.toChild then { s with kmem := k, child := p } else { s with kmem := k, parent := p })
  | .error _ _ => none

def Pair.Step (s : Pair) (w : Write) (s' : Pair) : Prop := s.write w = some s'

/-- What the one that is not written to sees. -/
def Pair.unwritten (s : Pair) (w : Write) (a : Nat) : Option UInt8 :=
  userByte s.kmem (if w.toChild then s.parent else s.child) a

theorem Pair.Step.apart {s s' : Pair} {w : Write} (h : Apart G s.kmem s.parent s.child) (hstep : s.Step w s') :
    Apart G s'.kmem s'.parent s'.child ∧ ∀ a, s'.unwritten w a = s.unwritten w a := by
  obtain ⟨toChild, va, bytes⟩ := w
  unfold Pair.Step Pair.write at hstep
  split at hstep
  · next p ok k hrun =>
    cases hstep
    cases toChild with
    | true =>
      have hwp : wp (copyout Proc.pagetable s.child va bytes) (fun r k' => Apart G k' r.1 s.parent ∧
        ∀ a, userByte k' s.parent a = userByte s.kmem s.parent a) (fun _ _ => False) s.kmem :=
        wp_copyout_apart h.symm
      obtain ⟨hapart, hbyte⟩ := hwp.of_ok hrun
      exact ⟨hapart.symm, hbyte⟩
    | false =>
      have hwp : wp (copyout Proc.pagetable s.parent va bytes) (fun r k' => Apart G k' r.1 s.child ∧
        ∀ a, userByte k' s.child a = userByte s.kmem s.child a) (fun _ _ => False) s.kmem :=
        wp_copyout_apart h
      exact hwp.of_ok hrun
  · cases hstep

/-- However the two write, neither sees what the other writes. -/
theorem Pair.run_isolated {s₀ s s' : Pair} {ws : List Write} {w : Write}
    (h : Apart G s₀.kmem s₀.parent s₀.child) (hrun : Sys.Run Pair.Step s₀ ws s) (hstep : s.Step w s') (a : Nat) :
    s'.unwritten w a = s.unwritten w a := by
  have hapart : Apart G s.kmem s.parent s.child :=
    hrun.invariant (I := fun t => Apart G t.kmem t.parent t.child) (fun _ _ _ ht hst => (hst.apart ht).1) h
  exact (hstep.apart hapart).2 a

/-! ## The copy -/

/-- The user part of the table `t` maps what `p` maps, with the same permissions, to pages that
were free, and the contents are equal. -/
structure CopyOf (k : Kmem) (p : Proc) (k' : Kmem) (t : Pagetable) : Prop where
  hole : ∀ v < NPAGES, p.pagetable.get v = none → t.get v = none
  page : ∀ v < NPAGES, ∀ e, p.pagetable.get v = some e → ∃ mem, t.get v = some ⟨mem, e.perm⟩ ∧
    mem ∈ k.freelist ∧ k'.page mem = k.page e.pa

/-- The child of `p`, a new process until now. -/
def Proc.forked (p np : Proc) (t : Pagetable) : Proc := { np with sz := p.sz, pagetable := t }

theorem Copies.copyOf {new t : Pagetable} {tf tramp : Nat} (h : Copies p.pagetable k new k' t 0 (npages p.sz))
    (hp : ProcOk G tramp p) (hl : Layout new 0 tf tramp) : CopyOf k p k' t where
  hole v hv hnone := by
    have hlt := npages_lt_vpns
    rw [h.same v (by omega) (.inr (.inr hnone))]
    exact hl.free (Nat.zero_le v) hv
  page v hv e he := by
    have hlt : v < npages p.sz := by
      by_contra hge
      rw [hp.layout.free (Nat.not_lt.mp hge) hv] at he
      cases he
    obtain ⟨mem, hget, hfree, -, hdata⟩ := h.copy v (Nat.zero_le v) hlt e he
    exact ⟨mem, hget, hfree, hdata⟩

/-- `uvmcopy` returns. If it returns 0, the child sees a copy of the memory of the parent in pages
of its own, the parent sees what it saw, and no later write to one of them is seen by the other. -/
theorem uvmcopy_faithful (h : Apart k.IsPage k p np) (hsz : np.sz = 0) :
    ∃ t ok k', uvmcopy p.pagetable np.pagetable p.sz k = .ok (t, ok) k' ∧ (ok = true →
      CopyOf k p k' t ∧
      (∀ v < NPAGES, ∀ e, p.pagetable.get v = some e → k'.page e.pa = k.page e.pa) ∧
      (∀ a, userByte k' p a = userByte k p a) ∧
      Apart k.IsPage k' p (p.forked np t) ∧
      ∀ ws s w s', Sys.Run Pair.Step ⟨k', p, p.forked np t⟩ ws s → s.Step w s' →
        ∀ a, s'.unwritten w a = s.unwritten w a) := by
  have hl : Layout np.pagetable 0 np.trapframe k.image.trampoline := hsz ▸ h.right.layout
  have hwp : wp (uvmcopy p.pagetable np.pagetable p.sz)
      (fun r k' => Copied k.IsPage k np.pagetable p.sz np.trapframe k.image.trampoline k' r.1 r.2)
      (fun _ _ => False) k := wp_uvmcopy h.kmem h.right.table hl h.left.layout.readable h.left.sz
  have hview := wp_uvmcopy_view h.kmem h.right.table h.symm.owns.nodup hl h.left.sz
    fun v _ e he => h.owns.notMem_free he
  obtain ⟨⟨t, ok⟩, k', hrun, hcopied, hin, hcopies⟩ := (hwp.also hview).returns
  refine ⟨t, ok, k', hrun, ?_⟩
  rintro rfl
  have hpages (v : Nat) (e : Pte) (he : p.pagetable.get v = some e) : k'.page e.pa = k.page e.pa :=
    hin.keeps_page (h.owns.notMem_free he)
  have hapart : Apart k.IsPage k' p (p.forked np t) := by
    refine Apart.symm ⟨hcopied.kmem, ?_, ?_, ?_⟩
    · rw [hcopied.image]
      exact ⟨h.left.sz, hcopied.table, hcopied.layout⟩
    · rw [hcopied.image]
      exact h.left
    · exact hcopied.stock.symm ▸ h.symm.nodup
  exact ⟨(hcopies rfl).copyOf h.left hl, fun v _ => hpages v, h.left.userByte_congr fun v _ => hpages v, hapart,
    fun ws s w s' hrun hstep a => Pair.run_isolated hapart hrun hstep a⟩

theorem isPage_congr (h : k'.image = k.image) : k'.IsPage = k.IsPage := by
  funext x
  rw [Kmem.IsPage, Kmem.IsPage, h]

/-- The process that `kfork` starts with has pages of its own. -/
theorem wp_allocproc_apart (h : Owns k.IsPage k p) :
    wp allocproc (fun r k' => ∀ np ∈ r, Apart k'.IsPage k' p np ∧ np.sz = 0) E k := by
  refine (wp_allocproc h.kmem).imp fun r k' hpost np hnp => ?_
  obtain ⟨hmade, hnew⟩ := hpost
  cases hnp
  obtain ⟨hk', himage, hok, hstock⟩ := hmade
  have hok' : ProcOk k.IsPage k'.image.trampoline np := himage.symm ▸ hok
  rw [isPage_congr himage]
  refine ⟨⟨hk', himage.symm ▸ h.proc, hok', ?_⟩, (hnew np rfl).1⟩
  have hfree : (k'.freelist : Multiset Nat) + Vm.procPages np = k.freelist := by
    refine add_right_cancel (b := ({k.image.trampoline} : Multiset Nat)) ?_
    rw [← hstock, hok'.stock, himage]
  have hsame : stock k' p.pagetable + Vm.procPages np = stock k p.pagetable := by
    rw [stock, stock, ← hfree]
    abel
  rw [hsame]
  exact h.nodup

/-- A check that a new process can be made and the memory of `p` be copied to it. -/
def canFork (k : Kmem) (p : Proc) : Bool :=
  match allocproc k with
  | .ok (some np) k' =>
    match uvmcopy p.pagetable np.pagetable p.sz k' with
    | .ok (_, ok) _ => ok
    | .error _ _ => false
  | _ => false

theorem exists_of_canFork (h : canFork k p = true) : ∃ np k₁ t k', allocproc k = .ok (some np) k₁ ∧
    uvmcopy p.pagetable np.pagetable p.sz k₁ = .ok (t, true) k' := by
  unfold canFork at h
  split at h
  · next np k₁ halloc =>
    split at h
    · next t ok k' hcopy => exact ⟨np, k₁, t, k', halloc, h ▸ hcopy⟩
    · cases h
  · cases h

/-- A process with two pages and a third one reserved forks. -/
theorem uvmcopy_faithful_lazy : ∃ k p np t k', Apart k.IsPage k p np ∧
    p.pagetable.get 1 ≠ none ∧ p.pagetable.get 2 = none ∧
    uvmcopy p.pagetable np.pagetable p.sz k = .ok (t, true) k' ∧ t.get 1 ≠ none ∧ t.get 2 = none := by
  obtain ⟨k, p, howns, -, hcheck⟩ := @exists_owns []
    (fun k p => decide ((p.pagetable.get 1).isSome = true ∧ (p.pagetable.get 2).isNone = true ∧
      canFork k p = true)) [(.sbrk 0 8192 1, []), (.sbrk 0 4096 2, [])] (by decide +kernel)
  obtain ⟨hone, htwo, hfork⟩ := of_decide_eq_true hcheck
  have hone : p.pagetable.get 1 ≠ none := Option.isSome_iff_ne_none.mp hone
  have htwo : p.pagetable.get 2 = none := Option.isNone_iff_eq_none.mp htwo
  obtain ⟨np, k₁, t, k', halloc, hcopy⟩ := exists_of_canFork hfork
  have hwp : wp allocproc (fun r k' => ∀ np ∈ r, Apart k'.IsPage k' p np ∧ np.sz = 0) (fun _ _ => False) k :=
    wp_allocproc_apart howns
  obtain ⟨hapart, hsz⟩ := hwp.of_ok halloc np rfl
  obtain ⟨t', ok, k'', hrun, hpost⟩ := uvmcopy_faithful hapart hsz
  rw [hcopy] at hrun
  cases hrun
  obtain ⟨hc, -⟩ := hpost rfl
  refine ⟨k₁, p, np, t, k', hapart, hone, htwo, hcopy, ?_, hc.hole 2 (by decide) htwo⟩
  obtain ⟨e, he⟩ := Option.ne_none_iff_exists'.mp hone
  obtain ⟨mem, hget, -⟩ := hc.page 1 (by decide) e he
  rw [hget]
  exact Option.some_ne_none _

end Xv6
