-- SUMMARY: What the caller of a failed `exec` sees: its arguments are fetched, their pages are given back, and its memory and registers are as before.
import Xv6.Vm.Program

/-!
# A failed exec

`sys_exec` fetches the arguments before it calls `kexec`, and that may fault in pages of the
caller. The caller does not notice: what it sees in its memory does not change, nor does its
trapframe.
-/

namespace Xv6

open Prog Radix

variable {G : Nat → Prop} {k k' k₁ k₂ : Kmem} {p p' p₁ p₂ : Proc} {E : Vm.Stop → Kmem → Prop}

/-! ## What the caller sees -/

/-- Pages were faulted in, and of the process only the page table has changed. -/
structure Undisturbed (G : Nat → Prop) (k : Kmem) (p : Proc) (k' : Kmem) (p' : Proc) : Prop
    extends Faults G k p k' p' where
  frame : k'.page p.trapframe = k.page p.trapframe

namespace Undisturbed

theorem refl (h : Owns G k p) : Undisturbed G k p k p := ⟨.refl h, rfl⟩

theorem trans (h : Undisturbed G k p k₁ p₁) (h' : Undisturbed G k₁ p₁ k₂ p₂) (hin : Inside k k₁) :
    Undisturbed G k p k₂ p₂ where
  toFaults := h.toFaults.trans h'.toFaults fun _ hx => hin.mem_free hx
  frame := by
    have := h'.frame
    rw [h.trapframe] at this
    exact this.trans h.frame

/-- Nothing in the pages of the process was written. -/
theorem of_pages (h : Owns G k' p) (himage : k'.image = k.image)
    (hpage : ∀ x ∈ tablePages p.pagetable, k'.page x = k.page x) : Undisturbed G k p k' p where
  owns := h
  image := himage
  sz := rfl
  name := rfl
  trapframe := rfl
  byte a := by
    unfold userByte
    cases hget : p.pagetable.get (a / PGSIZE) with
    | none => rfl
    | some e => simp only [hpage _ (mem_tablePages hget)]
  mapped _ _ _ he := he
  new v hv e hnone hsome := by
    rw [hnone] at hsome
    cases hsome
  frame := hpage _ (mem_tablePages h.proc.layout.trapframe)

theorem of_inside (h : Owns G k p) (h' : Owns G k' p) (himage : k'.image = k.image) (hin : Inside k k') :
    Undisturbed G k p k' p :=
  of_pages h' himage fun _ hx => hin.keeps_page fun hfree =>
    Multiset.disjoint_left.mp (Multiset.nodup_add.mp h.nodup).2.2 (Multiset.mem_coe.mpr hfree) hx

end Undisturbed

/-! ## Fetching -/

/-- A word is fetched, and the process does not notice. -/
theorem wp_fetchaddr_view {addr : Nat} (h : Owns G k p) :
    wp (fetchaddr p addr) (fun r k' => Undisturbed G k p k' r.1 ∧ Inside k k') E k := by
  unfold fetchaddr
  rw [wp_ite]
  refine ⟨fun _ => wp_pure.mpr ⟨.refl h, .refl⟩, fun _ => ?_⟩
  rw [wp_bind]
  refine (wp_copyin_view h).imp fun r k' hcopy => wp_pure.mpr ⟨⟨hcopy.faults, ?_⟩, hcopy.inside⟩
  exact hcopy.inside.keeps_page h.pages.trapframe_notMem

variable {pages : List Nat}

theorem Lends.owns (h : Owns G k p) (hl : Lends G k p k' p' pages) : Owns G k' p' :=
  ⟨hl.kmem, hl.ok, (Multiset.nodup_add.mp (hl.stock ▸ h.nodup)).1⟩

/-- The pages of the arguments are not pages of the process. -/
theorem Lends.notMem (h : Owns G k p) (hl : Lends G k p k' p' pages) {x : Nat} (hx : x ∈ tablePages p'.pagetable) :
    x ∉ k'.freelist ∧ x ∉ pages := by
  have hnodup := hl.stock ▸ h.nodup
  refine ⟨fun hfree => ?_, fun hpage => ?_⟩
  · exact Multiset.disjoint_left.mp (Multiset.nodup_add.mp (Multiset.nodup_add.mp hnodup).1).2.2
      (Multiset.mem_coe.mpr hfree) hx
  · exact Multiset.disjoint_left.mp (Multiset.nodup_add.mp hnodup).2.2 (Multiset.mem_add.mpr (.inr hx))
      (Multiset.mem_coe.mpr hpage)

/-- While arguments are fetched, pages are taken for them, and nothing else changes. -/
structure Fetching (G : Nat → Prop) (k : Kmem) (p : Proc) (k' : Kmem) (p' : Proc) (pages : List Nat) : Prop where
  lends : Lends G k p k' p' pages
  undisturbed : Undisturbed G k p k' p'
  inside : Inside k k'

theorem wp_fetchArgs_view {uargv n i : Nat} {args : List Arg} (h : Owns G k p)
    (hf : Fetching G k p k₁ p₁ pages) :
    wp (fetchArgs uargv n i p₁ pages args) (fun r k₂ => Fetching G k p k₂ r.1 r.2.1) E k₁ := by
  induction n generalizing k₁ p₁ i pages args with
  | zero => exact wp_pure.mpr hf
  | succ n ih =>
    simp only [fetchArgs]
    rw [wp_bind]
    refine ((wp_fetchaddr hf.lends.kmem hf.lends.ok).also
      (wp_fetchaddr_view (hf.lends.owns h))).imp fun res k₂ hpost => ?_
    obtain ⟨p₂, r⟩ := res
    obtain ⟨hkeeps, hund, hin⟩ := hpost
    have hf₂ : Fetching G k p k₂ p₂ pages :=
      ⟨hf.lends.keeps hkeeps, hf.undisturbed.trans hund hf.inside, hf.inside.trans hin⟩
    cases r with
    | none => exact wp_pure.mpr hf₂
    | some uarg =>
      dsimp only
      rw [wp_ite]
      refine ⟨fun _ => wp_pure.mpr hf₂, fun _ => ?_⟩
      rw [wp_bind]
      refine ((wp_kalloc_lends hf₂.lends).also (wp_kalloc hf₂.lends.kmem)).imp fun r k₃ hpost => ?_
      obtain ⟨hl₃, -, -, ⟨hin₃, -⟩, -⟩ := hpost
      have hnext {pages' : List Nat} (hl : Lends G k p k₃ p₂ pages') : Fetching G k p k₃ p₂ pages' := by
        have himage : k₃.image = k₂.image := hl.image.trans hf₂.lends.image.symm
        have hund₃ := Undisturbed.of_inside (hf₂.lends.owns h) (hl.owns h) himage hin₃
        exact ⟨hl, hf₂.undisturbed.trans hund₃ hf₂.inside, hf₂.inside.trans hin₃⟩
      cases r with
      | none => exact wp_pure.mpr (hnext hl₃)
      | some pa =>
        dsimp only at hl₃ ⊢
        rw [wp_bind]
        refine wp_copyinstr.imp fun r k₄ hk₄ => ?_
        subst hk₄
        cases r with
        | none => exact wp_pure.mpr (hnext hl₃)
        | some str => exact ih (hnext hl₃)

/-! ## Giving the pages back -/

theorem wp_kfreeAll_within {S : Nat → Prop} {k₀ : Kmem} (h : Within S k₀ k) (hpages : ∀ x ∈ pages, S x) :
    wp (pages.forM kfree) (fun _ k' => Within S k₀ k') (fun _ _ => True) k := by
  induction pages generalizing k with
  | nil => exact wp_pure.mpr h
  | cons pa pages ih =>
    rw [List.forall_mem_cons] at hpages
    rw [List.forM, wp_bind]
    exact (wp_kfree_within h (.inr hpages.1)).imp fun _ k₂ h₂ => ih h₂ hpages.2

theorem wp_kfreeAll_view (h : Owns G k p) (hf : Fetching G k p k₁ p₁ pages) :
    wp (pages.forM kfree) (fun _ k₂ => Keeps G k p k₂ p₁ ∧ Undisturbed G k p k₂ p₁) E k₁ := by
  have hself : Within (fun x => x ∈ pages) k₁ k₁ := .refl
  refine ((wp_kfreeAll hf.lends).also (wp_kfreeAll_within hself fun _ hx => hx)).imp fun _ k₂ hpost => ?_
  obtain ⟨hkeeps, hin⟩ := hpost
  have himage : k₂.image = k₁.image := hkeeps.image.trans hf.lends.image.symm
  have hund : Undisturbed G k₁ p₁ k₂ p₁ := .of_pages (h.keeps hkeeps) himage fun x hx =>
    hin.page x (hf.lends.notMem h hx).1 (hf.lends.notMem h hx).2
  exact ⟨hkeeps, hf.undisturbed.trans hund hf.inside⟩

/-- If `exec` fails, the caller has what it had before, but for pages that were faulted in. -/
theorem wp_sysExec_view {find : List UInt8 → Option (List UInt8)} {upath uargv : Nat} (h : Owns G k p)
    (hmem : k.freelist.length ≤ NPAGES) :
    wp (sysExec find p upath uargv) (fun r k' => Keeps G k p k' r.1 ∧
      (r.2 = -1 → Undisturbed G k p k' r.1)) E k := by
  simp only [sysExec]
  rw [wp_bind]
  refine wp_copyinstr.imp fun r k₀ hk₀ => ?_
  subst hk₀
  cases r with
  | none => exact wp_pure.mpr ⟨.refl h.kmem h.proc, fun _ => .refl h⟩
  | some path =>
    dsimp only
    rw [wp_bind]
    refine (wp_fetchArgs_view h ⟨.refl h.kmem h.proc, .refl h, .refl⟩).imp fun res k₁ hf => ?_
    obtain ⟨p₁, pages, args⟩ := res
    cases args with
    | none =>
      simp only [wp_bind]
      exact (wp_kfreeAll_view h hf).imp fun _ k₂ hpost => wp_pure.mpr ⟨hpost.1, fun _ => hpost.2⟩
    | some args =>
      have howns := hf.lends.owns h
      have hlen : k₁.freelist.length ≤ NPAGES :=
        (howns.free_nodup.subperm fun x hx => hf.inside.mem_free hx).length_le.trans hmem
      simp only [wp_bind]
      refine (wp_kexec_view howns.pages (.inl (howns.proc.sz.trans trapframe_le)) hlen).imp fun r k₂ hpost => ?_
      obtain ⟨p₂, ret⟩ := r
      obtain ⟨hkeeps, hpost⟩ := hpost
      have hkeeps := hkeeps howns.proc.sz
      obtain hrefused | ⟨f, -, hstarted⟩ := hpost
      · cases hrefused.result
        have hund := Undisturbed.of_inside howns (howns.keeps hkeeps) hkeeps.image hrefused.inside
        have hf₂ : Fetching G k₀ p k₂ p₁ pages :=
          ⟨hf.lends.keeps hkeeps, hf.undisturbed.trans hund hf.inside, hf.inside.trans hrefused.inside⟩
        exact (wp_kfreeAll_view h hf₂).imp fun _ k₃ hpost => wp_pure.mpr ⟨hpost.1, fun _ => hpost.2⟩
      · obtain ⟨t, ht⟩ := hstarted.proc
        refine (wp_kfreeAll (hf.lends.keeps hkeeps)).imp fun _ k₃ hk₃ => wp_pure.mpr ⟨hk₃, fun hret => ?_⟩
        cases ht
        exact absurd hret (by dsimp only; omega)

end Xv6
