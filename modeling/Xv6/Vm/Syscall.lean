-- SUMMARY: What copies from and to user memory, and the system calls that need pages for a while, do to the pages of a process.
import Xv6.Vm.Exec

/-!
# System calls that take pages

`exec` keeps its arguments in pages of their own, a pipe has a page, and `wait` frees the
pages of a child. All of them copy from or to the memory of the caller, which may fault
pages in. The rules of this file say where the pages are afterwards, on every way out.
-/

namespace Xv6

open Prog Radix

variable {G : Nat → Prop} {k k' : Kmem} {p p' : Proc} {E : Vm.Stop → Kmem → Prop}

/-! ## Copies -/

theorem find_of_ne {l v : Nat} {t : Ptable l} (h : t.get v ≠ none) : ∃ e, t.find v = some (some e) := by
  obtain ⟨e, he⟩ := Option.ne_none_iff_exists'.mp h
  exact ⟨e, find_of_get he⟩

theorem wp_copyoutLoop_own {fuel dstva : Nat} {bytes : List UInt8} (h : k.Ok G)
    (hp : ProcOk G k.image.trampoline p) :
    wp (copyoutLoop Proc.pagetable fuel p dstva bytes) (fun r k' => Keeps G k p k' r.1) E k := by
  induction fuel generalizing k p dstva bytes with
  | zero =>
    cases bytes with
    | nil => exact wp_pure.mpr (.refl h hp)
    | cons b rest => exact wp_pure.mpr (.refl h hp)
  | succ fuel ih =>
    cases bytes with
    | nil => exact wp_pure.mpr (.refl h hp)
    | cons b rest =>
      simp only [copyoutLoop]
      rw [wp_ite]
      refine ⟨fun _ => wp_pure.mpr (.refl h hp), fun hva => ?_⟩
      refine wp_pageOf h hp fun p₁ r k₁ hk₁ hr => ?_
      cases r with
      | none => exact wp_pure.mpr hk₁
      | some pa =>
        obtain ⟨e, he⟩ := find_of_ne (hr (by simp))
        simp only [wp_bind]
        refine wp_walk (by omega) ?_
        rw [he]
        dsimp only
        rw [wp_ite]
        refine ⟨fun _ => ?_, fun _ => wp_pure.mpr hk₁⟩
        simp only [wp_bind, wp_modify]
        exact (ih hk₁.kmem.write hk₁.ok).imp fun r k₂ hk₂ => hk₁.write.trans hk₂

theorem wp_copyout_own {dstva : Nat} {bytes : List UInt8} (h : k.Ok G)
    (hp : ProcOk G k.image.trampoline p) :
    wp (copyout Proc.pagetable p dstva bytes) (fun r k' => Keeps G k p k' r.1) E k :=
  wp_copyoutLoop_own h hp

theorem wp_copyinLoop {fuel srcva len : Nat} {bytes : List UInt8} (h : k.Ok G)
    (hp : ProcOk G k.image.trampoline p) :
    wp (copyinLoop fuel p srcva len bytes) (fun r k' => Keeps G k p k' r.1) E k := by
  induction fuel generalizing k p srcva len bytes with
  | zero =>
    cases len with
    | zero => exact wp_pure.mpr (.refl h hp)
    | succ len => exact wp_pure.mpr (.refl h hp)
  | succ fuel ih =>
    cases len with
    | zero => exact wp_pure.mpr (.refl h hp)
    | succ len =>
      simp only [copyinLoop]
      refine wp_pageOf h hp fun p₁ r k₁ hk₁ _ => ?_
      cases r with
      | none => exact wp_pure.mpr hk₁
      | some pa =>
        simp only [wp_bind, wp_get]
        exact (ih hk₁.kmem hk₁.ok).imp fun r k₂ hk₂ => hk₁.trans hk₂

theorem wp_fetchaddr {addr : Nat} (h : k.Ok G) (hp : ProcOk G k.image.trampoline p) :
    wp (fetchaddr p addr) (fun r k' => Keeps G k p k' r.1) E k := by
  unfold fetchaddr
  rw [wp_ite]
  refine ⟨fun _ => wp_pure.mpr (.refl h hp), fun _ => ?_⟩
  simp only [copyin, wp_bind]
  exact (wp_copyinLoop h hp).imp fun r k₁ hk₁ => wp_pure.mpr hk₁

/-- A string is read without a change. -/
theorem wp_copyinstrLoop {t : Pagetable} {fuel srcva max : Nat} {bytes : List UInt8} :
    wp (copyinstrLoop t fuel srcva max bytes) (fun _ k' => k' = k) E k := by
  induction fuel generalizing srcva max bytes with
  | zero => exact wp_pure.mpr rfl
  | succ fuel ih =>
    cases max with
    | zero => exact wp_pure.mpr rfl
    | succ max =>
      simp only [copyinstrLoop]
      rw [wp_bind]
      refine wp_walkaddr_any.imp fun r k₁ hpost => ?_
      obtain ⟨hk, _⟩ := hpost
      subst hk
      cases r with
      | none => exact wp_pure.mpr rfl
      | some pa =>
        simp only [wp_bind, wp_get]
        rw [wp_ite]
        exact ⟨fun _ => wp_pure.mpr rfl, fun _ => ih⟩

theorem wp_copyinstr {t : Pagetable} {srcva max : Nat} :
    wp (copyinstr t srcva max) (fun _ k' => k' = k) E k := wp_copyinstrLoop

/-! ## Pages for a while -/

/-- As `Keeps`, but the kernel has taken `pages` for something else. -/
structure Lends (G : Nat → Prop) (k : Kmem) (p : Proc) (k' : Kmem) (p' : Proc)
    (pages : List Nat) : Prop where
  kmem : k'.Ok G
  image : k'.image = k.image
  proc : ProcOk G k.image.trampoline p'
  trapframe : p'.trapframe = p.trapframe
  usable : ∀ x ∈ pages, G x
  stock : stock k' p'.pagetable + pages = stock k p.pagetable

variable {k₁ k₂ : Kmem} {p₁ p₂ : Proc} {pages : List Nat}

theorem Lends.refl (h : k.Ok G) (hp : ProcOk G k.image.trampoline p) : Lends G k p k p [] :=
  ⟨h, rfl, hp, rfl, (by simp), by simp⟩

theorem Lends.ok (h : Lends G k p k' p' pages) : ProcOk G k'.image.trampoline p' :=
  h.image.symm ▸ h.proc

/-- An operation on the process in between. -/
theorem Lends.keeps (h : Lends G k p k₁ p₁ pages) (h' : Keeps G k₁ p₁ k₂ p₂) :
    Lends G k p k₂ p₂ pages where
  kmem := h'.kmem
  image := h'.image.trans h.image
  proc := h.image ▸ h'.proc
  trapframe := h'.trapframe.trans h.trapframe
  usable := h.usable
  stock := by
    rw [h'.stock]
    exact h.stock

/-- A further page, or none. -/
theorem wp_kalloc_lends (h : Lends G k p k₁ p₁ pages) :
    wp kalloc (fun r k₂ => match r with
      | none => Lends G k p k₂ p₁ pages
      | some pa => Lends G k p k₂ p₁ (pages ++ [pa])) E k₁ := by
  refine (wp_kalloc h.kmem).imp fun r k₂ hpost => ?_
  obtain ⟨hk₂, himage₂, -, hr⟩ := hpost
  rcases hr with ⟨rfl, hlist⟩ | ⟨pa, rfl, hpa, hlist⟩
  · refine ⟨hk₂, himage₂.trans h.image, h.proc, h.trapframe, h.usable, ?_⟩
    rw [← h.stock, Xv6.stock, Xv6.stock, hlist]
  · refine ⟨hk₂, himage₂.trans h.image, h.proc, h.trapframe, ?_, ?_⟩
    · intro x hx
      rcases List.mem_append.mp hx with hx | hx
      · exact h.usable x hx
      · exact List.mem_singleton.mp hx ▸ hpa
    · rw [← h.stock, Xv6.stock, Xv6.stock, hlist, coe_cons, ← Multiset.coe_add]
      simp only [Multiset.coe_singleton]
      abel

/-- One of the pages is given back. -/
theorem wp_kfree_lends {pa : Nat} (h : Lends G k p k₁ p₁ (pa :: pages)) :
    wp (kfree pa) (fun _ k₂ => Lends G k p k₂ p₁ pages) E k₁ := by
  refine (wp_kfree h.kmem (h.usable pa (by simp))).imp fun _ k₂ hpost => ?_
  obtain ⟨hk₂, himage₂, hlist, _⟩ := hpost
  refine ⟨hk₂, himage₂.trans h.image, h.proc, h.trapframe, fun x hx => h.usable x (by simp [hx]), ?_⟩
  rw [← h.stock, Xv6.stock, Xv6.stock, hlist, coe_cons, coe_cons]
  abel

theorem Lends.done (h : Lends G k p k' p' []) : Keeps G k p k' p' :=
  ⟨h.kmem, h.image, h.proc, h.trapframe, by simpa using h.stock⟩

/-- All of them are. -/
theorem wp_kfreeAll (h : Lends G k p k₁ p₁ pages) :
    wp (pages.forM kfree) (fun _ k₂ => Keeps G k p k₂ p₁) E k₁ := by
  induction pages generalizing k₁ with
  | nil => exact wp_pure.mpr h.done
  | cons pa pages ih =>
    rw [List.forM, wp_bind]
    exact (wp_kfree_lends h).imp fun _ k₂ h₂ => ih h₂

/-! ## Pipes and wait -/

/-- A pipe has a page, and without a pipe there is none. -/
theorem wp_sysPipe {fdarray : Nat} {files : Bool} {fds : Option (Nat × Nat)} (h : k.Ok G)
    (hp : ProcOk G k.image.trampoline p) :
    wp (sysPipe p fdarray files fds) (fun r k' => Lends G k p k' r.1 r.2.toList) E k := by
  have hrefl := Lends.refl h hp
  simp only [sysPipe]
  rw [wp_ite]
  refine ⟨fun _ => wp_pure.mpr hrefl, fun _ => ?_⟩
  rw [wp_bind]
  refine (wp_kalloc_lends hrefl).imp fun r k₁ h₁ => ?_
  cases r with
  | none => exact wp_pure.mpr h₁
  | some pi =>
    -- the ways out with -1
    have hback : ∀ k₂ p₂, Lends G k p k₂ p₂ [pi] →
        wp (kfree pi) (fun _ k₃ => Lends G k p k₃ p₂ []) E k₂ := fun _ _ h₂ => wp_kfree_lends h₂
    cases fds with
    | none =>
      simp only [wp_bind]
      exact (hback _ _ h₁).imp fun _ _ h₂ => wp_pure.mpr h₂
    | some fds =>
      simp only [wp_bind]
      refine (wp_copyout_own h₁.kmem h₁.ok).imp fun res k₂ hk₂ => ?_
      obtain ⟨p₂, ok⟩ := res
      have h₂ := h₁.keeps hk₂
      cases ok with
      | false =>
        simp only [Bool.false_eq_true, if_false, wp_bind]
        exact (hback _ _ h₂).imp fun _ _ h₃ => wp_pure.mpr h₃
      | true =>
        simp only [if_true, wp_bind]
        refine (wp_copyout_own h₂.kmem h₂.ok).imp fun res k₃ hk₃ => ?_
        obtain ⟨p₃, ok⟩ := res
        have h₃ := h₂.keeps hk₃
        cases ok with
        | false =>
          simp only [Bool.false_eq_true, if_false, wp_bind]
          exact (hback _ _ h₃).imp fun _ _ h₄ => wp_pure.mpr h₄
        | true => exact wp_pure.mpr h₃

/-- What reaping the child `np` does: the caller is copied to, and then the child is freed. -/
def Reaped (G H : Nat → Prop) (k : Kmem) (p np : Proc) (k' : Kmem) (p' : Proc) (ok : Bool) : Prop :=
  ∃ k₁, Keeps G k p k₁ p' ∧ if ok then
    k'.Ok H ∧ k'.image = k.image ∧
      (k'.freelist : Multiset Nat) + {k.image.trampoline} = k₁.freelist + tablePages np.pagetable ∧
      OnlyFrees k₁ k' ∧ np.trapframe ∈ k'.freed
    else k' = k₁

/-- The copy may use the pages in `G`, and the pages of the child are in `H` as well. -/
theorem wp_kwaitReap {H : Nat → Prop} {np : Proc} {addr xstate : Nat} (h : k.Ok G)
    (hp : ProcOk G k.image.trampoline p) (hnp : ProcOk H k.image.trampoline np)
    (hGH : ∀ x, G x → H x) (hH : ∀ x, H x → k.IsPage x) (htf : H np.trapframe) :
    wp (kwaitReap p np addr xstate) (fun r k' => Reaped G H k p np k' r.1 r.2) E k := by
  have hfree : ∀ k₁ p₁, Keeps G k p k₁ p₁ → wp (do
      freeproc (some np.trapframe) np.pagetable np.sz
      pure (p₁, true)) (fun r k' => Reaped G H k p np k' r.1 r.2) E k₁ := by
    intro k₁ p₁ hk₁
    have hok : k₁.Ok H := by
      refine ⟨fun x hx => ?_, fun x hx => hGH x (hk₁.kmem.free x hx),
        fun x hx => hGH x (hk₁.kmem.freed x hx)⟩
      rw [Kmem.IsPage, hk₁.image]
      exact hH x hx
    rw [wp_bind]
    refine (wp_freeproc hok hnp.table hnp.layout hnp.sz htf).imp fun _ k₂ hpost => ?_
    obtain ⟨hk₂, himage₂, hlist₂, hfrees₂, hmem₂⟩ := hpost
    refine wp_pure.mpr ⟨k₁, hk₁, ?_⟩
    rw [if_pos rfl]
    exact ⟨hk₂, himage₂.trans hk₁.image, hlist₂, hfrees₂, hmem₂⟩
  simp only [kwaitReap]
  rw [wp_ite]
  constructor
  · intro _
    simp only [wp_bind]
    refine (wp_copyout_own h hp).imp fun res k₁ hk₁ => ?_
    obtain ⟨p₁, ok⟩ := res
    cases ok with
    | false => exact wp_pure.mpr ⟨k₁, hk₁, rfl⟩
    | true => simpa only [if_true, wp_bind] using hfree k₁ p₁ hk₁
  · intro _
    exact hfree k p (.refl h hp)

end Xv6
