-- SUMMARY: Where the physical pages are: every page of memory is free, or has exactly one owner, between any two system calls.
import Xv6.Vm.ExecArgs
import Xv6.Vm.System

/-!
# Page conservation

The pages between the end of the kernel and `PHYSTOP` are on the free list, or they belong
to a page table, a user address, a trapframe, a pipe, or the kernel. As bags the two sides
are equal, and the left one has no duplicates, so every page is in exactly one place.
-/

namespace Xv6.Vm

open Prog Radix

variable {n : Nat} {image : KernelImage} {s s' : System n} {i j : Fin n} {p p' : Proc}
  {t : Pagetable}

/-! ## Owners -/

/-- The pages of a process. -/
def procPages (p : Proc) : Multiset Nat := p.pagetable.nodes + userPages p.pagetable + {p.trapframe}

def Slot.pages : Slot → Multiset Nat
  | .unused => 0
  | .live p | .zombie p => procPages p

def pipePages (l : List Pipe) : Multiset Nat := (l.map Pipe.page : List Nat)

/-- The processes, dead or alive. -/
def Slot.Has (x : Slot) (p : Proc) : Prop := x = .live p ∨ x = .zombie p

theorem Slot.Has.pages {x : Slot} (h : x.Has p) : x.pages = procPages p := by
  rcases h with rfl | rfl <;> rfl

/-- A page of memory that is not held back. -/
def May (image : KernelImage) (hold : Multiset Nat) (x : Nat) : Prop := x ∈ ramPages image ∧ x ∉ hold

/-- If the free pages, those held back and those of a process are all of memory, the free ones
and those of the process are not held back. -/
theorem may_of_mem {free hold mine : Multiset Nat} (h : free + hold + mine = ramPages image) {x : Nat}
    (hx : x ∈ free ∨ x ∈ mine) : May image hold x := by
  have hnodup : (free + mine + hold).Nodup := by
    rw [add_right_comm, h]
    exact Multiset.coe_nodup.mpr (ramPages_nodup image)
  have hmem : x ∈ free + mine := Multiset.mem_add.mpr hx
  refine ⟨?_, fun hold' => ?_⟩
  · rw [← Multiset.mem_coe, ← h, add_right_comm]
    exact Multiset.mem_add.mpr (.inl hmem)
  · exact (Multiset.disjoint_left.mp (Multiset.nodup_add.mp hnodup).2.2 hmem) hold'

/-! ## The invariant -/

/-- The memory of a process is laid out for its size. -/
structure Shape (image : KernelImage) (p : Proc) : Prop where
  sz : p.sz ≤ TRAPFRAME
  ne : p.pagetable ≠ .nil
  layout : Layout p.pagetable p.sz p.trapframe image.trampoline

/-- Every page of memory has one owner. -/
structure Inv (image : KernelImage) (s : System n) : Prop where
  sameImage : s.kmem.image = image
  shape : ∀ i p, (s.proc i).Has p → Shape image p
  pages : (s.kmem.freelist : Multiset Nat) + (s.kept + pipePages s.pipes) + ∑ i, (s.proc i).pages
    = ramPages image

/-- What the processes other than `i` have. -/
def others (s : System n) (i : Fin n) : Multiset Nat := ∑ q ∈ Finset.univ.erase i, (s.proc q).pages

theorem Inv.split (h : Inv image s) (i : Fin n) :
    (s.kmem.freelist : Multiset Nat) + (s.kept + pipePages s.pipes) + others s i + (s.proc i).pages
      = ramPages image := by
  rw [← h.pages, ← Finset.add_sum_erase _ _ (Finset.mem_univ i), others, add_assoc, add_comm (s.proc i).pages]

/-- The invariant after slot `i` changed. -/
theorem Inv.update {k : Kmem} {l : List Pipe} {x : Slot} (h : Inv image s) (himage : k.image = image)
    (hshape : ∀ p, x.Has p → Shape image p)
    (hpages : (k.freelist : Multiset Nat) + (s.kept + pipePages l) + others s i + x.pages = ramPages image) :
    Inv image { s with kmem := k, proc := Function.update s.proc i x, pipes := l } where
  sameImage := himage
  shape := by
    intro q p hq
    by_cases hqi : q = i
    · subst hqi
      exact hshape p (by simpa using hq)
    · exact h.shape q p (by simpa [hqi] using hq)
  pages := by
    have hothers : ∑ q ∈ Finset.univ.erase i, (Function.update s.proc i x q).pages = others s i := by
      refine Finset.sum_congr rfl fun q hq => ?_
      rw [Function.update_of_ne (Finset.ne_of_mem_erase hq)]
    dsimp only
    rw [← Finset.add_sum_erase _ _ (Finset.mem_univ i), hothers, Function.update_self, ← hpages]
    abel

/-- The pages of other processes are among those of the others. -/
theorem pages_le_others (hij : j ≠ i) : (s.proc j).pages ≤ others s i :=
  Finset.single_le_sum (f := fun q => (s.proc q).pages) (fun _ _ => Multiset.zero_le _)
    (Finset.mem_erase.mpr ⟨hij, Finset.mem_univ j⟩)

theorem trapframe_mem (h : (s.proc i).Has p) : p.trapframe ∈ (s.proc i).pages := by
  rw [h.pages, procPages]
  simp

/-! ## One process and the rest -/

/-- What an operation on process `i` must not touch. -/
def hold (s : System n) (i : Fin n) (p : Proc) : Multiset Nat :=
  s.kept + pipePages s.pipes + others s i + {p.trapframe}

theorem Inv.budget (h : Inv image s) (hi : (s.proc i).Has p) :
    (s.kmem.freelist : Multiset Nat) + hold s i p + (p.pagetable.nodes + userPages p.pagetable)
      = ramPages image := by
  rw [← h.split i, hi.pages, hold, procPages]
  abel

theorem Shape.stock {k : Kmem} (hp : Shape image p) :
    stock k p.pagetable = k.freelist + procPages p + {image.trampoline} := by
  rw [Xv6.stock, tablePages_eq hp.layout hp.sz, procPages]
  abel

section
variable (h : Inv image s) (hi : (s.proc i).Has p) (fails : List Bool)
include h hi

theorem Inv.kmem_ok : ((s.begin fails).kmem).Ok (May image (hold s i p)) where
  page := by
    intro x hx
    rw [← mem_ramPages]
    exact h.sameImage.symm ▸ hx.1
  free := fun x hx => may_of_mem (h.budget hi) (.inl (Multiset.mem_coe.mpr hx))
  freed := fun x hx => by cases hx

theorem Inv.proc_ok : ProcOk (May image (hold s i p)) (s.begin fails).kmem.image.trampoline p where
  sz := (h.shape i p hi).sz
  table :=
    { ne := (h.shape i p hi).ne
      nodes := fun x hx => may_of_mem (h.budget hi) (.inr (Multiset.mem_add.mpr (.inl hx)))
      user := fun v hv e he => may_of_mem (h.budget hi)
        (.inr (Multiset.mem_add.mpr (.inr (mem_userPages hv he)))) }
  layout := by
    have hl := (h.shape i p hi).layout
    rw [← h.sameImage] at hl
    exact hl

/-- A process owns its pages. -/
theorem Inv.owns_may : Owns (May image (hold s i p)) (s.begin fails).kmem p where
  kmem := h.kmem_ok hi fails
  proc := h.proc_ok hi fails
  nodup := by
    rw [(h.shape i p hi).stock]
    have hsplit := h.split i
    rw [hi.pages] at hsplit
    have hnodup : (ramPages image : Multiset Nat).Nodup := Multiset.coe_nodup.mpr (ramPages_nodup image)
    have hle : (s.kmem.freelist : Multiset Nat) + procPages p ≤ ramPages image := by
      rw [← hsplit]
      refine Multiset.le_iff_exists_add.mpr ⟨s.kept + pipePages s.pipes + others s i, ?_⟩
      abel
    refine Multiset.nodup_add.mpr ⟨Multiset.nodup_of_le hle hnodup, Multiset.nodup_singleton _, ?_⟩
    refine Multiset.disjoint_right.mpr fun hx hmem => ?_
    rw [Multiset.mem_singleton.mp hx] at hmem
    exact trampoline_notMem image (Multiset.mem_coe.mp (Multiset.mem_of_le hle hmem))

/-- The same, where any page of memory may be used. -/
theorem Inv.owns : Owns (s.begin fails).kmem.IsPage (s.begin fails).kmem p :=
  (h.owns_may hi fails).mono (h.kmem_ok hi fails).page fun _ hx => hx

theorem Inv.free_length : (s.begin fails).kmem.freelist.length ≤ NPAGES := (h.owns hi fails).pages.free_length

end

/-! ## What a call leaves -/

def Slot.isUnused : Slot → Bool
  | .unused => true
  | _ => false

/-- The call did not free the trampoline, and a trapframe once if it freed the process. -/
structure Spares (image : KernelImage) (s s' : System n) : Prop where
  trampoline : image.trampoline ∉ s'.kmem.freed
  trapframe : ∀ q p, (s.proc q).Has p →
    s'.kmem.freed.count p.trapframe = if (s'.proc q).isUnused then 1 else 0

theorem Slot.Has.not_unused {x : Slot} (h : x.Has p) : x.isUnused = false := by
  rcases h with rfl | rfl <;> rfl

/-- A call that frees no page of a process. -/
theorem Spares.of_freed {held : Multiset Nat} (hfreed : ∀ x ∈ s'.kmem.freed, May image held x)
    (hheld : ∀ q p, (s.proc q).Has p → p.trapframe ∈ held)
    (hstay : ∀ q p, (s.proc q).Has p → (s'.proc q).isUnused = false) : Spares image s s' where
  trampoline := fun hmem => trampoline_notMem image (hfreed _ hmem).1
  trapframe := by
    intro q p hq
    rw [hstay q p hq, if_neg (by simp), List.count_eq_zero]
    exact fun hmem => (hfreed _ hmem).2 (hheld q p hq)

/-- The trapframes of all processes are held back. -/
theorem trapframe_mem_hold (hi : (s.proc i).Has p) {q : Fin n} {p' : Proc} (hq : (s.proc q).Has p') :
    p'.trapframe ∈ hold s i p := by
  rw [hold, Multiset.mem_add]
  by_cases hqi : q = i
  · subst hqi
    have hpp : p' = p := by
      rcases hq with hq | hq <;> rcases hi with hi | hi <;> rw [hq] at hi <;> cases hi <;> rfl
    exact .inr (by simp [hpp])
  · exact .inl (Multiset.mem_add.mpr (.inr (Multiset.mem_of_le (pages_le_others hqi) (trapframe_mem hq))))

/-- A slot that was in use and was not freed is in use. -/
theorem update_not_unused {q : Fin n} {p₁ : Proc} (hq : (s.proc q).Has p₁) :
    (Function.update s.proc i (.live p') q).isUnused = false := by
  by_cases hqi : q = i
  · subst hqi
    rw [Function.update_self]
    rfl
  · rw [Function.update_of_ne hqi]
    exact hq.not_unused

section
variable {k' : Kmem} {fails : List Bool} {pages : List Nat} {l : List Pipe}

/-- After an operation that took `pages` for pipes. -/
theorem Inv.lends (h : Inv image s) (hi : s.proc i = .live p)
    (hk : Lends (May image (hold s i p)) (s.begin fails).kmem p k' p' pages)
    (hl : pipePages l = pipePages s.pipes + pages) :
    Inv image { s with kmem := k', proc := Function.update s.proc i (.live p'), pipes := l } ∧
    Spares image s { s with kmem := k', proc := Function.update s.proc i (.live p'), pipes := l } := by
  have hhas : (s.proc i).Has p := .inl hi
  have himage : (s.begin fails).kmem.image = image := h.sameImage
  have hshape : Shape image p' := by
    refine ⟨hk.proc.sz, hk.proc.table.ne, ?_⟩
    rw [← himage]
    exact hk.proc.layout
  constructor
  · refine h.update (hk.image.trans himage) ?_ ?_
    · rintro q (⟨⟨⟩⟩ | ⟨⟨⟩⟩)
      exact hshape
    · have hstock := hk.stock
      rw [hshape.stock, (h.shape i p hhas).stock] at hstock
      have hmove : (k'.freelist : Multiset Nat) + procPages p' + pages
          = s.kmem.freelist + procPages p := by
        refine add_right_cancel (b := {image.trampoline}) ?_
        rw [add_right_comm, hstock]
        rfl
      rw [← h.split i, hhas.pages, hl]
      calc (k'.freelist : Multiset Nat) + (s.kept + (pipePages s.pipes + pages)) + others s i + procPages p'
          = (k'.freelist + procPages p' + pages) + (s.kept + pipePages s.pipes) + others s i := by abel
        _ = _ := by rw [hmove]; abel
  · exact .of_freed hk.kmem.freed (fun q p' hq => trapframe_mem_hold hhas hq)
      fun q p' hq => update_not_unused hq

/-- After an operation that moved pages between the free list and the process. -/
theorem Inv.keeps (h : Inv image s) (hi : s.proc i = .live p)
    (hk : Keeps (May image (hold s i p)) (s.begin fails).kmem p k' p') :
    Inv image { s with kmem := k', proc := Function.update s.proc i (.live p') } ∧
    Spares image s { s with kmem := k', proc := Function.update s.proc i (.live p') } := by
  have hlend : Lends (May image (hold s i p)) (s.begin fails).kmem p k' p' [] :=
    ⟨hk.kmem, hk.image, hk.proc, hk.trapframe, (by simp), by simpa using hk.stock⟩
  exact h.lends hi hlend (by simp)

/-- After a `fork`: the child has its pages from the free list. -/
theorem Inv.made {np : Proc} (h : Inv image s) (hi : s.proc i = .live p) (hj : s.proc j = .unused)
    (hm : Made (May image (hold s i p)) (s.begin fails).kmem k' (some np)) :
    Inv image { s with kmem := k', proc := Function.update s.proc j (.live np) } ∧
    Spares image s { s with kmem := k', proc := Function.update s.proc j (.live np) } := by
  obtain ⟨hk', himage', hnp, hstock⟩ := hm
  have himage : (s.begin fails).kmem.image = image := h.sameImage
  have hshape : Shape image np := by
    refine ⟨hnp.sz, hnp.table.ne, ?_⟩
    rw [← himage]
    exact hnp.layout
  constructor
  · refine h.update (himage'.trans himage) ?_ ?_
    · rintro q (⟨⟨⟩⟩ | ⟨⟨⟩⟩)
      exact hshape
    · rw [hshape.stock, himage] at hstock
      have hmove : (k'.freelist : Multiset Nat) + procPages np = s.kmem.freelist :=
        add_right_cancel hstock
      rw [← h.split j, hj, Slot.pages, add_zero, ← hmove, Slot.pages]
      abel
  · exact .of_freed hk'.freed (fun q p' hq => trapframe_mem_hold (.inl hi) hq)
      fun q p' hq => update_not_unused hq

end

/-! ## Rules for the system -/

section
variable {α : Type} {Q : α → System n → Prop} {E : Vm.Stop → System n → Prop} {m : VmM α}

theorem wp_onKmem : wp (onKmem m) Q E s ↔
    wp m (fun a k => Q a { s with kmem := k }) (fun e k => E e { s with kmem := k }) s.kmem := by
  unfold wp onKmem
  cases m s.kmem <;> rfl

theorem wp_setProc {x : Slot} {Q : Unit → System n → Prop} : wp (setProc i x) Q E s ↔
    Q () { s with proc := Function.update s.proc i x } := by
  rw [setProc, wp_modify]

theorem wp_onProc {call : Proc → SysM n Proc} {Q : Unit → System n → Prop}
    (hlive : ∀ p, s.proc i = .live p →
      wp (call p) (fun p' s' => Q () { s' with proc := Function.update s'.proc i (.live p') }) E s)
    (hnot : (∀ p, s.proc i ≠ .live p) → Q () s) : wp (onProc i call) Q E s := by
  simp only [onProc, wp_bind, wp_get]
  cases hi : s.proc i with
  | live p =>
    simp only [wp_bind, wp_setProc]
    exact hlive p hi
  | unused => exact wp_pure.mpr (hnot fun p hp => by rw [hi] at hp; cases hp)
  | zombie p => exact wp_pure.mpr (hnot fun p hp => by rw [hi] at hp; cases hp)

end

/-! ## Every system call -/

def Slot.Fits : Slot → Int → Prop
  | .live p, k => Xv6.Fits p k
  | _, _ => True

/-- A growing `sbrk` keeps below the trapframe. -/
def Careful (s : System n) : Act n → Prop
  | .sbrk i k _ => (s.proc i).Fits (argint k)
  | _ => True

def Slot.Roomy (k : Kmem) : Slot → Int → Prop
  | .live p, n => Xv6.Fits p n ∨ Short k p
  | _, _ => True

/-- An eager `sbrk` keeps below the trapframe, or there is not enough memory to get there. -/
def Roomy (s : System n) : Act n → Prop
  | .sbrk i k t => argint t = SBRK_EAGER → (s.proc i).Roomy s.kmem (argint k)
  | _ => True

def Slot.sz : Slot → Nat
  | .unused => 0
  | .live p | .zombie p => p.sz

/-- No process is larger than `TRAPFRAME`. -/
def Bounded (s : System n) : Prop := ∀ i, (s.proc i).sz ≤ TRAPFRAME

instance : Decidable (Bounded s) := inferInstanceAs (Decidable (∀ _, _))

@[simp] theorem begin_proc (fails : List Bool) : (s.begin fails).proc = s.proc := rfl
@[simp] theorem begin_pipes (fails : List Bool) : (s.begin fails).pipes = s.pipes := rfl

/-- What a call that does nothing leaves. -/
theorem Inv.begin (h : Inv image s) (fails : List Bool) :
    Inv image (s.begin fails) ∧ Spares image s (s.begin fails) := by
  have hall : ∀ q p, (s.proc q).Has p → p.trapframe ∈ ∑ i, (s.proc i).pages :=
    fun q _ hq => Multiset.mem_sum.mpr ⟨q, Finset.mem_univ q, trapframe_mem hq⟩
  exact ⟨⟨h.sameImage, h.shape, h.pages⟩, .of_freed (fun x hx => by cases hx) hall fun _ _ hq => hq.not_unused⟩

section
variable {E : Vm.Stop → System n → Prop} {a : Act n} {fails : List Bool}

/-- What is to be shown of a call. -/
abbrev Leaves (image : KernelImage) (s : System n) (a : Act n) (s' : System n) : Prop :=
  Careful s a ∨ Bounded s' → Inv image s' ∧ Spares image s s'

theorem Inv.idle (h : Inv image s) (hi : s.proc i = .live p) (fails : List Bool) :
    Keeps (May image (hold s i p)) (s.begin fails).kmem p (s.begin fails).kmem p :=
  .refl (h.kmem_ok (.inl hi) fails) (h.proc_ok (.inl hi) fails)

/-- A call of one process that moves pages between the free list and the process. -/
theorem wp_call {α : Type} {call : Proc → VmM α} {proj : α → Proc} (h : Inv image s)
    (hcall : ∀ p, s.proc i = .live p → wp (call p)
      (fun r k' => Careful s a ∨ (proj r).sz ≤ TRAPFRAME →
        Keeps (May image (hold s i p)) (s.begin fails).kmem p k' (proj r))
      (fun e k => E e { s.begin fails with kmem := k }) (s.begin fails).kmem) :
    wp (onProc i fun p => do
      let r ← onKmem (call p)
      pure (proj r)) (fun _ s' => Leaves image s a s') E (s.begin fails) := by
  refine wp_onProc (fun p hp => ?_) fun _ _ => h.begin fails
  rw [wp_bind, wp_onKmem]
  refine (hcall p hp).imp fun r k' hk => wp_pure.mpr fun hbound => h.keeps hp (hk ?_)
  refine hbound.imp_right fun hb => ?_
  have hi := hb i
  dsimp only at hi
  rwa [Function.update_self] at hi

theorem wp_fork (h : Inv image s) :
    wp (perform (.fork i j)) (fun _ s' => Leaves image s (.fork i j) s') E (s.begin fails) := by
  refine wp_onProc (fun p hp => ?_) fun _ _ => h.begin fails
  have hsame : Function.update s.proc i (.live p) = s.proc := by
    rw [← show s.proc i = .live p from hp, Function.update_eq_self]
  rw [wp_bind, wp_get]
  cases hj : (s.begin fails).proc j with
  | unused =>
    have hj : s.proc j = .unused := hj
    have hij : i ≠ j := by
      rintro rfl
      rw [show s.proc i = .live p from hp] at hj
      cases hj
    simp only [wp_bind]
    rw [wp_onKmem]
    refine (wp_kfork (h.kmem_ok (.inl hp) fails) (h.proc_ok (.inl hp) fails)).imp fun r k' hm => ?_
    cases r with
    | none =>
      obtain ⟨hk', himage', hlist'⟩ := hm
      have hk : Keeps (May image (hold s i p)) (s.begin fails).kmem p k' p := by
        refine ⟨hk', himage', h.proc_ok (.inl hp) fails, rfl, ?_⟩
        rw [stock, stock, hlist']
      exact wp_pure.mpr fun _ => h.keeps hp hk
    | some np =>
      dsimp only
      rw [wp_bind, wp_setProc, wp_pure]
      intro _
      have hcomm : Function.update (Function.update s.proc j (.live np)) i (.live p)
          = Function.update s.proc j (.live np) := by
        rw [Function.update_comm hij.symm, hsame]
      have hmade := h.made hp hj hm
      rw [← hcomm] at hmade
      exact hmade
  | live _ => exact wp_pure.mpr fun _ => h.keeps hp (h.idle hp fails)
  | zombie _ => exact wp_pure.mpr fun _ => h.keeps hp (h.idle hp fails)

theorem wp_exit (h : Inv image s) :
    wp (perform (.exit i)) (fun _ s' => Leaves image s (.exit i) s') E (s.begin fails) := by
  simp only [perform]
  rw [wp_bind, wp_get]
  cases hi : (s.begin fails).proc i with
  | live p =>
    have hi : s.proc i = .live p := hi
    rw [wp_setProc]
    intro _
    have hpages := h.split i
    rw [hi] at hpages
    have hheld : ∀ q p', (s.proc q).Has p' → p'.trapframe ∈ hold s i p :=
      fun q p' hq => trapframe_mem_hold (.inl hi) hq
    refine ⟨h.update h.sameImage ?_ hpages, .of_freed (fun x hx => by cases hx) hheld fun q p' hq => ?_⟩
    · rintro q (⟨⟨⟩⟩ | ⟨⟨⟩⟩)
      exact h.shape i p (.inl hi)
    · by_cases hqi : q = i
      · subst hqi
        simp [Slot.isUnused]
      · simpa [hqi] using hq.not_unused
  | unused => exact wp_pure.mpr fun _ => h.begin fails
  | zombie _ => exact wp_pure.mpr fun _ => h.begin fails

/-! ### wait -/

/-- What `wait` must not touch: as for the caller, without the child. -/
def holdWait (s : System n) (i j : Fin n) (p : Proc) : Multiset Nat :=
  s.kept + pipePages s.pipes + ∑ q ∈ (Finset.univ.erase i).erase j, (s.proc q).pages + {p.trapframe}

theorem hold_eq {np : Proc} (hij : j ≠ i) (hj : (s.proc j).Has np) :
    hold s i p = holdWait s i j p + procPages np := by
  have hsum := Finset.add_sum_erase (Finset.univ.erase i) (fun q => (s.proc q).pages)
    (Finset.mem_erase.mpr ⟨hij, Finset.mem_univ j⟩)
  rw [hold, others, ← hsum, hj.pages, holdWait]
  abel

theorem Inv.budget_wait {np : Proc} (h : Inv image s) (hij : j ≠ i) (hi : (s.proc i).Has p)
    (hj : (s.proc j).Has np) :
    (s.kmem.freelist : Multiset Nat) + holdWait s i j p
      + (p.pagetable.nodes + userPages p.pagetable + procPages np) = ramPages image := by
  rw [← h.budget hi, hold_eq hij hj]
  abel

section
variable {np : Proc} {k₁ k' : Kmem} (h : Inv image s) (hij : j ≠ i) (hi : s.proc i = .live p)
  (hj : s.proc j = .zombie np)
  (hk₁ : Keeps (May image (hold s i p)) (s.begin fails).kmem p k₁ p')
  (hlist : (k'.freelist : Multiset Nat) + {image.trampoline} = k₁.freelist + tablePages np.pagetable)
  (himage : k'.image = image)
include h hij hi hj hk₁ hlist himage

/-- The child is gone, and its pages are free. -/
theorem Inv.reaped : Inv image { s with
    kmem := k', proc := Function.update (Function.update s.proc i (.live p')) j .unused } := by
  have h₁ := (h.keeps hi hk₁).1
  have hshape := h.shape j np (.inr hj)
  have hsplit := h₁.split j
  dsimp only at hsplit
  rw [Function.update_of_ne hij, hj, Slot.pages] at hsplit
  rw [tablePages_eq hshape.layout hshape.sz, ← add_assoc] at hlist
  have hmove : (k'.freelist : Multiset Nat) = k₁.freelist + procPages np := by
    refine add_right_cancel hlist |>.trans ?_
    rw [procPages]
  refine h₁.update himage (by rintro q (⟨⟨⟩⟩ | ⟨⟨⟩⟩)) ?_
  rw [Slot.pages, add_zero, hmove, ← hsplit]
  abel

/-- Its trapframe was freed once, and no other one. -/
theorem Spares.reaped (hok : k'.Ok (May image (holdWait s i j p))) (hfrees : OnlyFrees k₁ k')
    (hmem : np.trapframe ∈ k'.freed) : Spares image s { s with
      kmem := k', proc := Function.update (Function.update s.proc i (.live p')) j .unused } where
  trampoline := fun hc => trampoline_notMem image (hok.freed _ hc).1
  trapframe := by
    have hinv := Inv.reaped h hij hi hj hk₁ hlist himage
    intro q p₁ hq
    dsimp only
    by_cases hqj : q = j
    · subst hqj
      have hpp : p₁ = np := by
        rcases hq with hq | hq <;> rw [hq] at hj <;> cases hj
        rfl
      subst hpp
      obtain ⟨new, hnew, hfreed⟩ := hfrees
      have hnot : p₁.trapframe ∉ k₁.freed := by
        intro hc
        refine (hk₁.kmem.freed _ hc).2 ?_
        exact trapframe_mem_hold (.inl hi) (.inr hj)
      have hnodup : k'.freelist.Nodup := by
        have hram : ((ramPages image : List Nat) : Multiset Nat).Nodup :=
          Multiset.coe_nodup.mpr (ramPages_nodup image)
        rw [← hinv.pages, add_assoc] at hram
        exact Multiset.coe_nodup.mp (Multiset.nodup_add.mp hram).1
      rw [hnew] at hnodup
      have hone : p₁.trapframe ∈ new := by
        rw [hfreed, List.mem_append] at hmem
        exact hmem.resolve_right hnot
      have hgone : (Function.update (Function.update s.proc i (.live p')) q .unused q).isUnused = true := by
        rw [Function.update_self]
        rfl
      rw [hgone, if_pos rfl, hfreed, List.count_append, List.count_eq_zero.mpr hnot,
        List.count_eq_one_of_mem (List.Nodup.of_append_left hnodup) hone]
    · have hused : (Function.update (Function.update s.proc i (.live p')) j .unused q).isUnused = false := by
        rw [Function.update_of_ne hqj]
        exact update_not_unused hq
      rw [hused, if_neg (by simp), List.count_eq_zero]
      intro hc
      refine (hok.freed _ hc).2 ?_
      rw [holdWait, Multiset.mem_add]
      by_cases hqi : q = i
      · subst hqi
        have hpp : p₁ = p := by
          rcases hq with hq | hq <;> rw [hq] at hi <;> cases hi
          rfl
        exact .inr (by simp [hpp])
      · refine .inl (Multiset.mem_add.mpr (.inr (Multiset.mem_sum.mpr ⟨q, ?_, trapframe_mem hq⟩)))
        exact Finset.mem_erase.mpr ⟨hqj, Finset.mem_erase.mpr ⟨hqi, Finset.mem_univ q⟩⟩

end

theorem wp_wait {addr xstate : Nat} (h : Inv image s) :
    wp (perform (.wait i j addr xstate)) (fun _ s' => Leaves image s (.wait i j addr xstate) s') E
      (s.begin fails) := by
  refine wp_onProc (fun p hp => ?_) fun _ _ => h.begin fails
  rw [wp_bind, wp_get]
  have hp : s.proc i = .live p := hp
  cases hj : (s.begin fails).proc j with
  | zombie np =>
    have hj : s.proc j = .zombie np := hj
    have hij : j ≠ i := by
      rintro rfl
      rw [hp] at hj
      cases hj
    have hbudget := h.budget_wait hij (.inl hp) (.inr hj)
    have hshape := h.shape j np (.inr hj)
    have himage : (s.begin fails).kmem.image = image := h.sameImage
    have hnp : ProcOk (May image (holdWait s i j p)) (s.begin fails).kmem.image.trampoline np := by
      refine ⟨hshape.sz, ⟨hshape.ne, fun x hx => ?_, fun v hv e he => ?_⟩, ?_⟩
      · refine may_of_mem hbudget (.inr (Multiset.mem_add.mpr (.inr ?_)))
        rw [procPages, Multiset.mem_add, Multiset.mem_add]
        exact .inl (.inl hx)
      · refine may_of_mem hbudget (.inr (Multiset.mem_add.mpr (.inr ?_)))
        rw [procPages, Multiset.mem_add, Multiset.mem_add]
        exact .inl (.inr (mem_userPages hv he))
      · rw [himage]
        exact hshape.layout
    have hmay : ∀ x, May image (hold s i p) x → May image (holdWait s i j p) x := by
      rintro x ⟨hram, hnot⟩
      refine ⟨hram, fun hc => hnot ?_⟩
      rw [hold_eq hij (.inr hj), Multiset.mem_add]
      exact .inl hc
    have hpage : ∀ x, May image (holdWait s i j p) x → (s.begin fails).kmem.IsPage x := by
      intro x hx
      rw [← mem_ramPages, himage]
      exact hx.1
    have htf : May image (holdWait s i j p) np.trapframe := by
      refine may_of_mem hbudget (.inr (Multiset.mem_add.mpr (.inr ?_)))
      rw [procPages]
      simp
    simp only [wp_bind]
    rw [wp_onKmem]
    refine (wp_kwaitReap (h.kmem_ok (.inl hp) fails) (h.proc_ok (.inl hp) fails) hnp hmay hpage
      htf).imp fun res k' hpost => ?_
    obtain ⟨p', ok⟩ := res
    obtain ⟨k₁, hk₁, hreaped⟩ := hpost
    cases ok with
    | false =>
      have hk' : k' = k₁ := hreaped
      subst hk'
      exact wp_pure.mpr fun _ => h.keeps hp hk₁
    | true =>
      obtain ⟨hok, himage', hlist, hfrees, hmem⟩ := hreaped
      simp only [if_true]
      rw [wp_bind, wp_setProc, wp_pure]
      intro _
      rw [himage] at hlist
      have hinv := Inv.reaped h hij hp hj hk₁ hlist (himage'.trans himage)
      have hspares := Spares.reaped h hij hp hj hk₁ hlist (himage'.trans himage) hok hfrees hmem
      rw [Function.update_comm hij.symm] at hinv hspares
      exact ⟨hinv, hspares⟩
  | live _ => exact wp_pure.mpr fun _ => h.keeps hp (h.idle hp fails)
  | unused => exact wp_pure.mpr fun _ => h.keeps hp (h.idle hp fails)

/-! ### Pipes -/

theorem wp_pipe {fdarray : Nat} {files : Bool} {fds : Option (Nat × Nat)} (h : Inv image s) :
    wp (perform (.pipe i fdarray files fds))
      (fun _ s' => Leaves image s (.pipe i fdarray files fds) s') E (s.begin fails) := by
  refine wp_onProc (fun p hp => ?_) fun _ _ => h.begin fails
  have hp : s.proc i = .live p := hp
  rw [wp_bind, wp_onKmem]
  refine (wp_sysPipe (h.kmem_ok (.inl hp) fails) (h.proc_ok (.inl hp) fails)).imp
    fun res k' hk => ?_
  obtain ⟨p', page⟩ := res
  cases page with
  | none => exact wp_pure.mpr fun _ => h.lends hp hk (by simp)
  | some page =>
    simp only [addPipe]
    rw [wp_bind, wp_modify, wp_pure]
    refine fun _ => h.lends hp hk ?_
    rw [pipePages, List.map_cons, coe_cons, add_comm]
    rfl

theorem pipePages_erase {l : List Pipe} {k : Nat} {pi : Pipe} (h : l[k]? = some pi) :
    pipePages l = pipePages (l.eraseIdx k) + {pi.page} := by
  obtain ⟨hk, rfl⟩ := List.getElem?_eq_some_iff.mp h
  have hperm := (List.getElem_cons_eraseIdx_perm hk).map Pipe.page
  rw [pipePages, pipePages, ← Multiset.coe_eq_coe.mpr hperm, List.map_cons, coe_cons, add_comm]

theorem pipePages_set {l : List Pipe} {k : Nat} {pi pi' : Pipe} (h : l[k]? = some pi)
    (hpage : pi'.page = pi.page) : pipePages (l.set k pi') = pipePages l := by
  obtain ⟨hk, rfl⟩ := List.getElem?_eq_some_iff.mp h
  rw [pipePages, pipePages, List.map_set, hpage, ← List.getElem_map Pipe.page (h := by simpa using hk),
    List.set_getElem_self]

theorem wp_pipeclose {k : Nat} {writable : Bool} (h : Inv image s) :
    wp (pipeclose k writable) (fun _ s' => Inv image s' ∧ Spares image s s') E (s.begin fails) := by
  have hall : ∀ q p, (s.proc q).Has p → p.trapframe ∈ ∑ i, (s.proc i).pages :=
    fun q _ hq => Multiset.mem_sum.mpr ⟨q, Finset.mem_univ q, trapframe_mem hq⟩
  simp only [pipeclose]
  rw [wp_bind, wp_get, begin_pipes]
  cases hk : s.pipes[k]? with
  | none => exact wp_pure.mpr (h.begin fails)
  | some pi =>
    set pi' := if writable then { pi with writeopen := false } else { pi with readopen := false }
    have hpage : pi'.page = pi.page := by
      simp only [pi']
      split <;> rfl
    dsimp only
    rw [wp_ite]
    constructor
    · intro _
      have hbudget : (s.kmem.freelist : Multiset Nat)
          + (s.kept + pipePages (s.pipes.eraseIdx k) + ∑ i, (s.proc i).pages) + {pi.page}
          = ramPages image := by
        rw [← h.pages, pipePages_erase hk]
        abel
      have hok : (s.begin fails).kmem.Ok
          (May image (s.kept + pipePages (s.pipes.eraseIdx k) + ∑ i, (s.proc i).pages)) := by
        refine ⟨fun x hx => ?_, fun x hx => may_of_mem hbudget (.inl (Multiset.mem_coe.mpr hx)), fun x hx => by cases hx⟩
        rw [← mem_ramPages]
        exact h.sameImage.symm ▸ hx.1
      rw [wp_bind, wp_set, wp_onKmem, hpage]
      refine (wp_kfree hok (may_of_mem hbudget (.inr (Multiset.mem_singleton_self _)))).imp
        fun _ k' hpost => ?_
      obtain ⟨hk', himage', hlist', _⟩ := hpost
      refine ⟨⟨himage'.trans h.sameImage, h.shape, ?_⟩, ?_⟩
      · dsimp only
        rw [hlist', coe_cons, ← hbudget]
        change ({pi.page} : Multiset Nat) + s.kmem.freelist + (s.kept + pipePages (s.pipes.eraseIdx k))
          + ∑ i, (s.proc i).pages = _
        abel
      · refine .of_freed hk'.freed (fun q p hq => ?_) fun q p hq => hq.not_unused
        exact Multiset.mem_add.mpr (.inr (hall q p hq))
    · intro _
      rw [wp_set]
      refine ⟨⟨h.sameImage, h.shape, ?_⟩, .of_freed (fun x hx => by cases hx) hall fun q p hq => hq.not_unused⟩
      have hsame := pipePages_set hk hpage
      dsimp only
      rw [hsame]
      exact h.pages

/-- No system call panics as long as an eager `sbrk` does not reach the trapframe, and as long as
sizes stay below it every page has one owner. -/
theorem wp_perform (h : Inv image s) (hc : Roomy s a ∨ ∀ e s, E e s) :
    wp (perform a) (fun _ s' => Leaves image s a s') E (s.begin fails) := by
  cases a with
  | forkret i files =>
    refine wp_call h fun p hp => ?_
    have howns := h.owns_may (.inl hp) fails
    exact (wp_kexec_view howns.pages (.inl (howns.proc.sz.trans trapframe_le))
      (h.free_length (.inl hp) fails)).imp fun r k' hk _ => hk.1 howns.proc.sz
  | sbrk i k t =>
    refine wp_call h fun p hp => ?_
    have hcareful : Careful s (.sbrk i k t) → Fits p (argint k) := by
      rw [Careful, hp]
      exact id
    have hfits (ht : argint t = SBRK_EAGER) : Fits p (argint k) ∨ Short (s.begin fails).kmem p ∨
        ∀ e k, E e { s.begin fails with kmem := k } := by
      rw [← or_assoc]
      refine hc.imp (fun hroomy => ?_) fun hE e k => hE e _
      have hslot := hroomy ht
      rw [hp] at hslot
      exact hslot
    exact (wp_sysSbrk (h.kmem_ok (.inl hp) fails) (h.proc_ok (.inl hp) fails) hfits).imp
      fun r k' hk hb => hk (hb.imp_left hcareful)
  | fault i va =>
    refine wp_call h fun p hp => ?_
    exact (wp_vmfault (h.kmem_ok (.inl hp) fails) (h.proc_ok (.inl hp) fails)).imp fun r k' hk _ => hk.toKeeps
  | copyin i va len =>
    refine wp_call h fun p hp => ?_
    exact (wp_copyinLoop (h.kmem_ok (.inl hp) fails) (h.proc_ok (.inl hp) fails)).imp fun r k' hk _ => hk
  | copyout i va bytes =>
    refine wp_call h fun p hp => ?_
    exact (wp_copyout_own (h.kmem_ok (.inl hp) fails) (h.proc_ok (.inl hp) fails)).imp fun r k' hk _ => hk
  | fork i j => exact wp_fork h
  | exec i files upath uargv =>
    refine wp_call h fun p hp => ?_
    exact (wp_sysExec_view (h.owns_may (.inl hp) fails) (h.free_length (.inl hp) fails)).imp
      fun r k' hk _ => hk.1
  | exit i => exact wp_exit h
  | wait i j addr xstate => exact wp_wait h
  | pipe i fdarray files fds => exact wp_pipe h
  | pipeclose k writable => exact (wp_pipeclose h).imp fun _ s' hs' _ => hs'

end

/-! ## Runs -/

/-- Memory right after `userinit`. -/
theorem Inv.boot [NeZero n] {pages : Nat} {fails : List Bool} (h : boot image pages fails = some s) :
    Inv image s := by
  have hram : ((kinit image).freelist.drop pages : Multiset Nat) + (kinit image).freelist.take pages + 0
      = ramPages image := by
    rw [add_zero, add_comm, Multiset.coe_add, List.take_append_drop]
    exact Multiset.coe_eq_coe.mpr (List.reverse_perm _)
  unfold Vm.boot at h
  set k : Kmem := { (kinit image).setFreelist ((kinit image).freelist.drop pages) with fails := fails }
  have hok : k.Ok (May image ((kinit image).freelist.take pages)) := by
    refine ⟨fun x hx => ?_, fun x hx => may_of_mem hram (.inl (Multiset.mem_coe.mpr hx)), fun x hx => by cases hx⟩
    rw [← mem_ramPages]
    exact hx.1
  have hmade := wp_allocproc (E := fun _ _ => True) hok
  dsimp only at h
  split at h
  · next p k' halloc =>
    cases h
    obtain ⟨⟨hk', himage', hp, hstock⟩, -⟩ := hmade.of_ok halloc
    have hshape : Shape image p := ⟨hp.sz, hp.table.ne, hp.layout⟩
    refine ⟨himage', fun i q hq => ?_, ?_⟩
    · by_cases hi : i = 0
      · subst hi
        rcases hq with hq | hq <;> simp only [Function.update_self] at hq <;> cases hq
        exact hshape
      · rcases hq with hq | hq <;> simp only [Function.update_of_ne hi] at hq <;> cases hq
    · have hsum : ∑ i, (Function.update (fun _ : Fin n => Slot.unused) 0 (.live p) i).pages
          = procPages p := by
        have hupdate := Sys.sum_update (fun _ : Fin n => Slot.unused) Slot.pages 0 (.live p)
        simpa [Slot.pages] using hupdate
      rw [hshape.stock] at hstock
      have hmove : (k'.freelist : Multiset Nat) + procPages p = k.freelist := add_right_cancel hstock
      have hlist : k.freelist = (kinit image).freelist.drop pages := rfl
      dsimp only
      rw [hsum, ← hram, add_zero, ← hlist, ← hmove, pipePages, List.map_nil, Multiset.coe_nil, add_zero]
      abel
  · cases h

/-- A call that returned. -/
theorem Step.leaves {e : Act n × List Bool} (h : Inv image s) (hstep : Step s e s') :
    Leaves image s e.1 s' := by
  have hwp : wp (perform e.1) (fun _ s' => Leaves image s e.1 s') (fun _ _ => True) (s.begin e.2) :=
    wp_perform h (.inr fun _ _ => trivial)
  unfold Step next at hstep
  split at hstep
  · next hperform =>
    cases hstep
    exact hwp.of_ok hperform
  · cases hstep

/-! ## Places -/

/-- In how many places of a process is a page: as a page-table page, as user memory, and as
its trapframe? -/
def Slot.places (pa : Nat) : Slot → Nat
  | .unused => 0
  | .live p | .zombie p =>
    p.pagetable.nodes.count pa + mappings p.pagetable pa + if p.trapframe = pa then 1 else 0

/-- In how many places is a page? -/
def places (s : System n) (pa : Nat) : Nat :=
  s.kmem.freelist.count pa + s.kept.count pa + (s.pipes.map Pipe.page).count pa
    + ∑ i, (s.proc i).places pa

theorem Slot.count_pages {x : Slot} {pa : Nat} : x.pages.count pa = x.places pa := by
  have hproc : ∀ p, (procPages p).count pa = p.pagetable.nodes.count pa + mappings p.pagetable pa
      + if p.trapframe = pa then 1 else 0 := by
    intro p
    rw [procPages, Multiset.count_add, Multiset.count_add, count_userPages, Multiset.count_singleton]
    simp only [eq_comm]
  cases x with
  | unused => rfl
  | live p => exact hproc p
  | zombie p => exact hproc p

theorem Inv.places (h : Inv image s) {pa : Nat} (hpa : s.kmem.IsPage pa) : places s pa = 1 := by
  have hcount := congrArg (Multiset.count pa) h.pages
  have hmem : pa ∈ ramPages image := by
    rw [← h.sameImage, mem_ramPages]
    exact hpa
  rw [Multiset.coe_count, List.count_eq_one_of_mem (ramPages_nodup image) hmem, Multiset.count_add,
    Multiset.count_add, Multiset.count_add, Multiset.count_sum', pipePages, Multiset.coe_count,
    Multiset.coe_count, Multiset.coe_count, ← add_assoc] at hcount
  simp only [Slot.count_pages] at hcount
  exact hcount

/-- Page conservation: in every run of system calls and page faults in which sizes stay at most
`TRAPFRAME`, whatever calls of `kalloc` fail, every page from the end of the kernel to
`PHYSTOP` is in exactly one place. -/
theorem page_in_one_place [NeZero n] {pages : Nat} {fails : List Bool} {s₀ s : System n}
    {es : List (Act n × List Bool)} {pa : Nat} (hboot : boot image pages fails = some s₀)
    (hrun : Sys.Run (fun s e s' => Step s e s' ∧ Bounded s') s₀ es s) (hpa : s.kmem.IsPage pa) :
    places s pa = 1 := by
  have hinv : Inv image s := by
    refine hrun.invariant (fun t e u ht hstep => ?_) (.boot hboot)
    exact (hstep.1.leaves ht (.inr hstep.2)).1
  exact hinv.places hpa

/-- A run whose sizes are checked after every call. -/
theorem run_bounded {s₀ s : System n} {es : List (Act n × List Bool)}
    (h : Sys.exec (fun s e => (next s e).filter fun t => decide (Bounded t)) s₀ es = some s) :
    Sys.Run (fun s e s' => Step s e s' ∧ Bounded s') s₀ es s := by
  refine (Sys.exec_run h).mono fun t e u hstep => ?_
  obtain ⟨hnext, hbound⟩ := Option.filter_eq_some_iff.mp hstep
  exact ⟨hnext, of_decide_eq_true hbound⟩

/-- A kernel that leaves 24 pages of memory. -/
def smallImage : KernelImage where
  kend := PHYSTOP - 24 * PGSIZE
  trampoline := KERNBASE
  trampoline_aligned := by decide
  trampoline_lt := by decide
  kend_le := by decide

/-- Process `i` grows, tries to fork without memory, forks, and reaps its child. -/
def forkWait (i j : Fin n) : List (Act n × List Bool) :=
  [(.sbrk i 8192 1, []), (.fork i j, [false, true]), (.fork i j, []), (.exit j, []), (.wait i j 0 7, [])]

theorem page_in_one_place_forkWait : ∃ s₀ s : System 2, boot smallImage 3 [] = some s₀ ∧
    Sys.Run (fun s e s' => Step s e s' ∧ Bounded s') s₀ (forkWait 0 1) s ∧
    s.kmem.IsPage (PHYSTOP - PGSIZE) ∧ places s (PHYSTOP - PGSIZE) = 1 := by
  have hexec : ((boot smallImage 3 [] : Option (System 2)).bind fun s₀ =>
      Sys.exec (fun s e => (next s e).filter fun t => decide (Bounded t)) s₀ (forkWait 0 1)).any
        (fun s => decide (s.kmem.IsPage (PHYSTOP - PGSIZE))) = true := by decide +kernel
  obtain ⟨s, hs, hpa⟩ := Sys.exists_of_any hexec
  obtain ⟨s₀, hboot, hs⟩ := Option.bind_eq_some_iff.mp hs
  have hpa : s.kmem.IsPage (PHYSTOP - PGSIZE) := of_decide_eq_true hpa
  have hrun := run_bounded hs
  exact ⟨s₀, s, hboot, hrun, hpa, page_in_one_place hboot hrun hpa⟩

end Xv6.Vm
