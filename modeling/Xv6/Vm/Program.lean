-- SUMMARY: What `exec` leaves in memory: the old image if it fails, and otherwise that of the file, with the arguments on its stack.
import Xv6.Vm.Stack

/-!
# Programs in memory

The new image is a function of the file and the arguments. `exec` either shows it in the new page
table, or fails, and then all pages that it took are free again and no others have changed.
-/

namespace Xv6

open Prog Radix

variable {G : Nat → Prop} {k k' k₀ : Kmem} {t t' : Pagetable} {p p' : Proc} {I : Img}
  {E : Vm.Stop → Kmem → Prop}

/-! ## Pages -/

/-- The pages of the old image. -/
def OldPage (p : Proc) (x : Nat) : Prop := x ∈ p.pagetable.nodes + Vm.userPages p.pagetable

namespace Pages

theorem stock_eq (h : Pages G k p) : stock k p.pagetable =
    k.freelist + {p.trapframe} + {k.image.trampoline} + (p.pagetable.nodes + Vm.userPages p.pagetable) := by
  rw [stock, Vm.tablePages_eq h.layout (Nat.min_le_right ..)]
  abel

theorem free_nodup_frame (h : Pages G k p) :
    ((k.freelist : Multiset Nat) + {p.trapframe} + {k.image.trampoline}).Nodup :=
  (Multiset.nodup_add.mp (h.stock_eq ▸ h.nodup)).1

theorem oldPage_notMem (h : Pages G k p) {x : Nat} (hx : OldPage p x) :
    x ∉ (k.freelist : Multiset Nat) + {p.trapframe} + {k.image.trampoline} :=
  Multiset.disjoint_right.mp (Multiset.nodup_add.mp (h.stock_eq ▸ h.nodup)).2.2 hx

theorem trapframe_notMem (h : Pages G k p) : p.trapframe ∉ k.freelist := notMem_free h.nodup h.layout.trapframe

/-- There are not more free pages than pages below the trapframe. -/
theorem free_length (h : Pages k.IsPage k p) : k.freelist.length ≤ NPAGES := by
  have hsub : k.freelist ⊆ ramPages k.image := fun x hx => Vm.mem_ramPages.mpr (h.kmem.free x hx)
  have hnodup : k.freelist.Nodup := Multiset.coe_nodup.mp (Multiset.nodup_add.mp h.nodup).1
  have hlen := (hnodup.subperm hsub).length_le
  have := Vm.length_ramPages k.image
  omega

end Pages

/-- Writes elsewhere do not change what a table shows. -/
theorem Shows.frame (h : Shows k t I)
    (hpage : ∀ v < npages I.sz, ∀ e, t.get v = some e → k'.page e.pa = k.page e.pa) : Shows k' t I where
  page v hv := by
    obtain ⟨e, he, hperm, hbyte⟩ := h.page v hv
    exact ⟨e, he, hperm, fun i hi => by rw [hpage v hv e he, hbyte i hi]⟩
  blank := h.blank

/-! ## Both ways out -/

/-- `exec` has failed. -/
structure Refused (k : Kmem) (p : Proc) (k' : Kmem) (r : Proc × Int) : Prop where
  result : r = (p, -1)
  inside : Inside k k'
  free : (k'.freelist : Multiset Nat) = k.freelist

/-- The image in the making is freed. -/
theorem wp_dropImage (hp : Pages G k₀ p) (h : Loaded G k₀ p.trapframe k t I) : wp (do
    procFreepagetable t I.sz
    pure (p, -1)) (fun (r : Proc × Int) k' => (p.sz ≤ TRAPFRAME → Keeps G k₀ p k' r.1) ∧
      Refused k₀ p k' r) E k := by
  rw [wp_bind]
  have hpages : ∀ v < NPAGES, ∀ e, t.get v = some e → e.pa ∈ k₀.freelist ∨ False := fun v hv e he =>
    .inl (h.page_mem hv he)
  refine ((wp_procFreepagetable h.kmem h.table h.layout (h.below.trans trapframe_le)).also
    (wp_procFreepagetable_within h.inside h.layout h.below (fun x hx => .inl (h.nodes_mem x hx)) hpages)).imp
    fun _ k' hpost => ?_
  obtain ⟨⟨hok, himage, hlist, -⟩, hin⟩ := hpost
  have hfree : (k'.freelist : Multiset Nat) = k₀.freelist := by
    have hstock := h.stock
    rw [stock, ← hlist] at hstock
    exact add_right_cancel (add_right_cancel hstock)
  refine wp_pure.mpr ⟨fun hsz => ?_, rfl, hin, hfree⟩
  exact ⟨hok, himage.trans h.sameImage, (hp.owns hsz).proc, rfl, by rw [stock, stock, hfree]⟩

/-- The registers that `exec` sets. -/
def startFrame (frame : Bytes.Mem) (entry sp : Nat) : Bytes.Mem :=
  Bytes.putLE (Bytes.putLE (Bytes.putLE frame Trapframe.a1 8 sp) Trapframe.epc 8 entry) Trapframe.sp 8 sp

/-- The old image is freed. If its size is above `MAXVA`, this may panic. -/
theorem wp_dropOld (h : k.Ok G) (hp : Pages G k₀ p) (hE : p.sz ≤ MAXVA ∨ ∀ e k, E e k) :
    wp (procFreepagetable p.pagetable p.sz) (fun _ k' => Within (OldPage p) k k' ∧
      (p.sz ≤ MAXVA → k'.Ok G ∧ k'.image = k.image ∧ (k'.freelist : Multiset Nat) + {p.trapframe}
        + {k₀.image.trampoline} = k.freelist + tablePages p.pagetable)) E k := by
  have hwithin : wp (procFreepagetable p.pagetable p.sz) (fun _ k' => Within (OldPage p) k k')
      (fun _ _ => True) k :=
    wp_procFreepagetable_within .refl hp.layout (Nat.min_le_right ..)
      (fun x hx => .inr (Multiset.mem_add.mpr (.inl hx)))
      fun v hv e he => .inr (Multiset.mem_add.mpr (.inr (Vm.mem_userPages hv he)))
  by_cases hsz : p.sz ≤ MAXVA
  · have hlayout := hp.layout.mono (npages_mono (Nat.min_le_left p.sz TRAPFRAME))
    refine ((wp_procFreepagetable h hp.table hlayout hsz).also hwithin).imp fun _ _ hpost => ?_
    obtain ⟨⟨hok, himage, hlist, -⟩, hin⟩ := hpost
    exact ⟨hin, fun _ => ⟨hok, himage, hlist⟩⟩
  · exact hwithin.mono (fun _ _ hin => ⟨hin, fun hle => absurd hle hsz⟩) fun e k' _ => hE.resolve_left hsz e k'

/-- The new image takes the place of the old one, whose pages are all different from its own. -/
theorem wp_replaceImage {entry sp argc : Nat} {name : List UInt8} (hp : Pages G k₀ p)
    (hE : p.sz ≤ MAXVA ∨ ∀ e k, E e k) (h : Loaded G k₀ p.trapframe k t I) : wp (do
      setReg p.trapframe Trapframe.a1 sp
      setReg p.trapframe Trapframe.epc entry
      setReg p.trapframe Trapframe.sp sp
      procFreepagetable p.pagetable p.sz
      pure (⟨I.sz, t, p.trapframe, name⟩, (argc : Int)))
    (fun (r : Proc × Int) k' => (p.sz ≤ TRAPFRAME → Keeps G k₀ p k' r.1) ∧
      r = (⟨I.sz, t, p.trapframe, name⟩, (argc : Int)) ∧ Shows k' t I ∧
      k'.page p.trapframe = startFrame (k₀.page p.trapframe) entry sp) E k := by
  simp only [setReg]
  rw [wp_bind, wp_modify, wp_bind, wp_modify, wp_bind, wp_modify, wp_bind]
  set k₁ := ((k.write p.trapframe (Bytes.putLE (k.page p.trapframe) Trapframe.a1 8 sp)).write p.trapframe _).write
    p.trapframe _ with hk₁
  have hframe : k₁.page p.trapframe = startFrame (k₀.page p.trapframe) entry sp := by
    rw [← h.inside.keeps_page hp.trapframe_notMem, startFrame]
    simp only [hk₁, Kmem.write, Function.update_self]
  have hsame {x : Nat} (hx : x ≠ p.trapframe) : k₁.page x = k.page x := by
    simp only [hk₁, Kmem.write, Function.update_of_ne hx]
  have hw : Writes k k₁ := (Writes.refl _).of_write.of_write.of_write
  refine (wp_dropOld (hw.ok h.kmem) hp hE).imp fun _ k' hpost => ?_
  obtain ⟨hin, hfreed⟩ := hpost
  -- a page that was free is not a page of the old image, nor its trapframe
  have hnew : ∀ v < npages I.sz, ∀ e, t.get v = some e → k'.page e.pa = k.page e.pa := by
    intro v hv e he
    have hmem := h.page_mem (hv.trans_le (npages_le h.below)) he
    have hne : e.pa ≠ p.trapframe := fun heq => hp.trapframe_notMem (heq ▸ hmem)
    rw [hin.page e.pa, hsame hne]
    · exact notMem_free h.stock_nodup he
    · intro hold
      exact hp.oldPage_notMem hold (Multiset.mem_add.mpr (.inl (Multiset.mem_add.mpr (.inl hmem))))
  refine wp_pure.mpr ⟨fun hsz => ?_, rfl, h.shows.frame hnew, ?_⟩
  · obtain ⟨hok, himage, hlist⟩ := hfreed (hsz.trans trapframe_le)
    refine ⟨hok, himage.trans (hw.image.trans h.sameImage), ⟨h.below, h.table, h.layout⟩, rfl, ?_⟩
    refine add_right_cancel (b := ({p.trapframe} + {k₀.image.trampoline} : Multiset Nat)) ?_
    calc stock k' t + ({p.trapframe} + {k₀.image.trampoline})
        = (k'.freelist + {p.trapframe} + {k₀.image.trampoline}) + tablePages t := by
          rw [stock]
          abel
      _ = stock k t + tablePages p.pagetable := by
          rw [hlist, hw.freelist, stock]
          abel
      _ = _ := by
          rw [h.stock, stock]
          abel
  · rw [hin.page, hframe]
    · rw [hw.freelist]
      exact fun hmem => hp.trapframe_notMem (h.inside.mem_free hmem)
    · intro hold
      refine hp.oldPage_notMem hold (Multiset.mem_add.mpr (.inl (Multiset.mem_add.mpr (.inr ?_))))
      exact Multiset.mem_singleton_self _

/-! ## The whole of `exec` -/

/-- The image of a file, without a stack. -/
def fileImage (file : List UInt8) : Img :=
  let elf := Elfhdr.ofBytes (readi file 0 Elfhdr.size)
  (proghdrs file elf.phnum (elf.phoff % UINT)).foldl (Img.load file) Img.empty

/-- The image that `exec` builds. -/
def execImage (file : List UInt8) (argv : List Arg) : Img := (fileImage file).addStack.pushStack argv

/-- `exec` has succeeded. -/
structure Started (k : Kmem) (p : Proc) (path file : List UInt8) (argv : List Arg) (k' : Kmem)
    (r : Proc × Int) : Prop where
  proc : ∃ t, r = (⟨(execImage file argv).sz, t, p.trapframe, lastName path⟩, (argv.length : Int))
  shows : Shows k' r.1.pagetable (execImage file argv)
  below : (execImage file argv).sz ≤ TRAPFRAME
  fits : stackUse argv ≤ USERSTACK * PGSIZE
  frame : k'.page p.trapframe = startFrame (k.page p.trapframe)
    (Elfhdr.ofBytes (readi file 0 Elfhdr.size)).entry ((execImage file argv).sz - stackUse argv)
  headers : ∀ ph ∈ proghdrs file (Elfhdr.ofBytes (readi file 0 Elfhdr.size)).phnum
    ((Elfhdr.ofBytes (readi file 0 Elfhdr.size)).phoff % UINT), ph.type = ELF_PROG_LOAD → ph.Ok

/-- What `exec` does. A process that is well formed stays so. -/
def Execs (G : Nat → Prop) (k : Kmem) (p : Proc) (path : List UInt8) (file : Option (List UInt8))
    (argv : List Arg) (r : Proc × Int) (k' : Kmem) : Prop :=
  (p.sz ≤ TRAPFRAME → Keeps G k p k' r.1) ∧
    (Refused k p k' r ∨ ∃ f, file = some f ∧ Started k p path f argv k' r)

theorem Img.addStack_sz : I.addStack.sz = npages I.sz * PGSIZE + (USERSTACK + 1) * PGSIZE :=
  Nat.max_eq_right (Nat.le_add_right _ _)

theorem Img.addStack_perm {v : Nat} (hv : npages I.sz < v) : I.addStack.perm v = ⟨true, true, false, true⟩ := by
  simp only [Img.addStack, Img.clear, Img.grow, Img.round, npages_page]
  rw [Function.update_of_ne (by omega), if_neg (by omega)]

theorem Img.addStack_writable : I.addStack.Writable (I.addStack.sz - USERSTACK * PGSIZE) I.addStack.sz := by
  intro a hlo hhi
  have hv : npages I.sz < a / PGSIZE := by
    rw [Img.addStack_sz] at hlo
    simp only [USERSTACK, PGSIZE] at hlo ⊢
    omega
  rw [Img.addStack_perm hv]
  exact ⟨rfl, rfl⟩

theorem Loaded.empty (h : Pages G k p) (hc : Created G k p.trapframe k' t) (hin : Inside k k') (hne : t ≠ .nil) :
    Loaded G k p.trapframe k' t Img.empty ∧ k'.freelist.length ≤ k.freelist.length := by
  obtain ⟨hnil, -⟩ | ⟨ht, hl, hstock, hlen⟩ := hc.result
  · exact absurd hnil hne
  · refine ⟨⟨⟨hc.kmem, hc.image, ht, Nat.zero_le _, hl, hstock⟩, h.free_nodup_frame, hin, ?_, fun _ _ => rfl⟩, hlen⟩
    intro v hv
    exact absurd hv (Nat.not_lt_zero v)

theorem wp_stackPages (h : Loaded G k₀ p.trapframe k t I) (hroom : Room k I.sz) :
    wp (uvmalloc t (pgroundup I.sz) ((pgroundup I.sz + (USERSTACK + 1) * PGSIZE) % UINT64) true false)
      (fun r k' => r.2 = 0 ∧ Loaded G k₀ p.trapframe k' r.1 I.round ∨
        r.2 ≠ 0 ∧ r.2 = I.addStack.sz ∧ Loaded G k₀ p.trapframe k' r.1
          (I.round.grow (npages I.sz * PGSIZE + (USERSTACK + 1) * PGSIZE) ⟨true, true, false, true⟩)) E k := by
  have hle := npages_le h.below
  have hmod : (npages I.sz * PGSIZE + (USERSTACK + 1) * PGSIZE) % UINT64
      = npages I.sz * PGSIZE + (USERSTACK + 1) * PGSIZE := by
    simp only [NPAGES, TRAPFRAME, TRAMPOLINE, MAXVA, PGSIZE, USERSTACK, UINT64] at hle ⊢
    omega
  have hroom' : Room k I.round.sz := by
    rw [Room, Img.round, npages_page]
    exact hroom
  rw [pgroundup_eq (h.below.trans trapframe_le), hmod]
  refine (wp_uvmalloc_image h.round hroom').imp fun r k' hpost => ?_
  exact hpost.imp_right fun h => ⟨h.1, h.2.1, h.2.2.1⟩

theorem wp_guardPage (h : Loaded G k₀ p.trapframe k t
      (I.round.grow (npages I.sz * PGSIZE + (USERSTACK + 1) * PGSIZE) ⟨true, true, false, true⟩)) :
    wp (uvmclear t (I.addStack.sz - (USERSTACK + 1) * PGSIZE)) (fun t' k' => k' = k ∧
      Loaded G k₀ p.trapframe k t' I.addStack) E k := by
  rw [Img.addStack_sz, Nat.add_sub_cancel]
  refine wp_uvmclear_image h ?_
  have hsz : (I.round.grow (npages I.sz * PGSIZE + (USERSTACK + 1) * PGSIZE) ⟨true, true, false, true⟩).sz
      = (npages I.sz + 3) * PGSIZE := Img.addStack_sz.trans (by ring)
  rw [hsz, npages_page]
  omega

/-- `exec` fails and leaves all as it was, or the new image is that of the file. -/
theorem wp_kexec_view {path : List UInt8} {file : Option (List UInt8)} {argv : List Arg} (h : Pages G k p)
    (hE : p.sz ≤ MAXVA ∨ ∀ e k, E e k) (hmem : k.freelist.length ≤ NPAGES) :
    wp (kexec p path file argv) (Execs G k p path file argv) E k := by
  have hbad : wp (pure (p, -1)) (Execs G k p path file argv) E k :=
    wp_pure.mpr ⟨fun hsz => .refl h.kmem (h.owns hsz).proc, .inl ⟨rfl, .refl, rfl⟩⟩
  cases file with
  | none => exact hbad
  | some file =>
    simp only [kexec]
    rw [wp_ite]
    refine ⟨fun _ => hbad, fun _ => ?_⟩
    rw [wp_bind]
    refine ((wp_procPagetable h.kmem).also (wp_procPagetable_inside h.kmem)).imp fun t k₁ hpost => ?_
    obtain ⟨hc, hin⟩ := hpost
    by_cases hnil : t = .nil
    · have hback : (k₁.freelist : Multiset Nat) = k.freelist := by
        obtain ⟨-, hback⟩ | ⟨ht, -⟩ := hc.result
        · exact hback
        · exact absurd hnil ht.ne
      subst hnil
      refine wp_pure.mpr ⟨fun hsz => ⟨hc.kmem, hc.image, (h.owns hsz).proc, rfl, ?_⟩, .inl ⟨rfl, hin, hback⟩⟩
      rw [stock, stock, hback]
    · obtain ⟨h₁, hlen⟩ := Loaded.empty h hc hin hnil
      have hroom : Room k₁ Img.empty.sz := by
        simp only [Room, Img.empty, show npages 0 = 0 from rfl]
        omega
      rw [isNil_of_ne hnil, if_neg (by simp), wp_bind]
      refine (wp_loadLoop_image h₁ (fun v hv => absurd hv (Nat.not_lt_zero v)) hroom).imp fun res k₂ hpost => ?_
      obtain ⟨t₂, sz₂, ok⟩ := res
      obtain ⟨I, h₂, hsz, hok⟩ := hpost
      have hsz : I.sz = sz₂ := hsz
      subst hsz
      cases ok with
      | false => exact (wp_dropImage h h₂).imp fun _ _ hpost => ⟨hpost.1, .inl hpost.2⟩
      | true =>
        obtain ⟨-, hroom₂, himg, hall⟩ := hok rfl
        simp only [Bool.not_true, Bool.false_eq_true, if_false]
        rw [wp_bind]
        refine (wp_stackPages h₂ hroom₂).imp fun res k₃ hpost => ?_
        obtain ⟨t₃, sz₃⟩ := res
        obtain ⟨hzero, h₃⟩ | ⟨hne, hsz₃, h₃⟩ := hpost
        · rw [if_pos hzero, pgroundup_eq (h₂.below.trans trapframe_le)]
          exact (wp_dropImage h h₃).imp fun _ _ hpost => ⟨hpost.1, .inl hpost.2⟩
        · have hsz₃ : sz₃ = I.addStack.sz := hsz₃
          subst hsz₃
          rw [if_neg hne, wp_bind]
          refine (wp_guardPage h₃).imp fun t₄ k₄ hpost => ?_
          obtain ⟨hk, h₄⟩ := hpost
          subst hk
          have hbase : (USERSTACK + 1) * PGSIZE ≤ I.addStack.sz := by
            rw [Img.addStack_sz]
            exact Nat.le_add_left _ _
          have halign : I.addStack.sz % PGSIZE = 0 := by
            rw [Img.addStack_sz, ← Nat.add_mul]
            exact Nat.mul_mod_left _ _
          rw [wp_bind]
          refine (wp_pushStack_image h₄ Img.addStack_writable hbase halign).imp fun res k₅ hpost => ?_
          obtain ⟨p', r⟩ := res
          obtain ⟨hp', J, h₅, hJsz, hres⟩ := hpost
          have hp' : p' = p := hp'
          subst hp'
          rw [← hJsz]
          cases r with
          | none => exact (wp_dropImage h h₅).imp fun _ _ hpost => ⟨hpost.1, .inl hpost.2⟩
          | some sp =>
            obtain ⟨hsp, hfits, heq⟩ := hres sp rfl
            have hJ : J = execImage file argv := by
              rw [heq, himg, execImage, fileImage]
            subst hJ
            refine (wp_replaceImage h hE h₅).imp fun r k' hpost => ?_
            obtain ⟨hkeeps, hr, hshows, hframe⟩ := hpost
            subst hr
            rw [← hJsz] at hsp
            exact ⟨hkeeps, .inr ⟨file, rfl, ⟨t₄, rfl⟩, hshows, h₅.below, hfits, hsp ▸ hframe, hall⟩⟩

theorem kexec_returns (path : List UInt8) (file : Option (List UInt8)) (argv : List Arg)
    (h : Pages k.IsPage k p) (hsz : p.sz ≤ MAXVA) : ∃ p' r k', kexec p path file argv k = .ok (p', r) k' ∧
      (Refused k p k' (p', r) ∨ ∃ f, file = some f ∧ Started k p path f argv k' (p', r)) := by
  have hwp : wp (kexec p path file argv) (Execs k.IsPage k p path file argv) (fun _ _ => False) k :=
    wp_kexec_view h (.inl hsz) h.free_length
  obtain ⟨⟨p', r⟩, k', hrun, -, hpost⟩ := hwp.returns
  exact ⟨p', r, k', hrun, hpost⟩

end Xv6
