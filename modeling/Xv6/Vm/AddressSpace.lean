-- SUMMARY: What user page tables map in every run in which sizes stay below the trapframe, and the one call that panics then.
import Xv6.Vm.Bound

/-!
# User address spaces

A page table maps the trampoline and the trapframe for the kernel, and otherwise nothing but
pages below the size of the process. Growth may be lazy or eager in any mixture, and any call
of `kalloc` may fail.

The size is compared with nothing when it grows. An eager `sbrk` therefore runs into the
trapframe, unless memory is used up before, and `mappages` panics. The size of the process
has not changed yet when this happens.
-/

namespace Xv6.Vm

open Prog

variable {n : Nat} {image : KernelImage}

/-- What the table of a process maps. -/
structure AddressSpace (p : Proc) : Prop where
  trampoline : ∃ e, p.pagetable.get (TRAMPOLINE / PGSIZE) = some e ∧ e.perm.u = false
  trapframe : ∃ e, p.pagetable.get (TRAPFRAME / PGSIZE) = some e ∧ e.perm.u = false
  user : ∀ v < VPNS, p.pagetable.get v ≠ none →
    v * PGSIZE < pgroundup p.sz ∨ v * PGSIZE = TRAPFRAME ∨ v * PGSIZE = TRAMPOLINE
  readable : ∀ v < VPNS, ∀ e ∈ p.pagetable.get v, e.perm.r = true

theorem Shape.addressSpace {p : Proc} (h : Shape image p) : AddressSpace p where
  trampoline := ⟨_, h.layout.trampoline, rfl⟩
  trapframe := ⟨_, h.layout.trapframe, rfl⟩
  user := by
    intro v hv hmapped
    rw [pgroundup_eq (h.sz.trans trapframe_le)]
    obtain hlow | rfl | rfl := h.layout.user v hv hmapped
    · exact .inl (Nat.mul_lt_mul_of_pos_right hlow (by decide))
    · exact .inr (.inl rfl)
    · exact .inr (.inr rfl)
  readable := h.layout.readable

/-- In every run in which sizes stay at most `TRAPFRAME`, every process has the address space that
goes with its size, and every further call returns unless it grows eagerly into the trapframe. -/
theorem address_space_invariant [NeZero n] {pages : Nat} {fails : List Bool} {s₀ s : System n}
    {es : List (Act n × List Bool)} (hboot : boot image pages fails = some s₀)
    (hrun : Sys.Run (fun s e s' => Step s e s' ∧ Bounded s') s₀ es s) :
    (∀ i p, (s.proc i).Has p → AddressSpace p) ∧
    ∀ a fails, Roomy s a → ∃ s', Step s (a, fails) s' := by
  have hinv : Inv image s := by
    refine hrun.invariant (fun t e u ht hstep => ?_) (.boot hboot)
    exact (hstep.1.leaves ht (.inr hstep.2)).1
  refine ⟨fun i p hp => (hinv.shape i p hp).addressSpace, fun a fails hroomy => ?_⟩
  have hwp : wp (perform a) (fun _ s' => Leaves image s a s') (fun _ _ => False) (s.begin fails) :=
    wp_perform hinv (.inl hroomy)
  obtain ⟨_, s', hperform, -⟩ := hwp.returns
  refine ⟨s', ?_⟩
  rw [Step, next, hperform]

/-- Process `i` grows lazily and eagerly, touches its memory, forks without memory and with it,
shrinks, and reaps its child. -/
def growShrink (i j : Fin n) : List (Act n × List Bool) :=
  [(.sbrk i 8191 2, []), (.fault i 4096, []), (.sbrk i 5000 1, []), (.fork i j, [false, true]),
    (.fork i j, []), (.sbrk i (-9000) 1, []), (.exit j, []), (.wait i j 0 7, [])]

theorem address_space_invariant_growShrink : ∃ s₀ s : System 2, boot smallImage 3 [] = some s₀ ∧
    Sys.Run (fun s e s' => Step s e s' ∧ Bounded s') s₀ (growShrink 0 1) s ∧
    (∀ i p, (s.proc i).Has p → AddressSpace p) ∧
    ∀ a fails, Roomy s a → ∃ s', Step s (a, fails) s' := by
  have hexec : ((boot smallImage 3 [] : Option (System 2)).bind fun s₀ =>
      Sys.exec (fun s e => (next s e).filter fun t => decide (Bounded t)) s₀ (growShrink 0 1)).isSome
        = true := by decide +kernel
  obtain ⟨s, hs⟩ := Option.isSome_iff_exists.mp hexec
  obtain ⟨s₀, hboot, hs⟩ := Option.bind_eq_some_iff.mp hs
  have hrun := run_bounded hs
  exact ⟨s₀, s, hboot, hrun, address_space_invariant hboot hrun⟩

/-- Process `i` grows lazily until only one page is left below the trapframe. -/
def growToTop (i : Fin n) : List (Act n × List Bool) :=
  List.replicate 127 (.sbrk i 0x7fffffff 2, []) ++ [(.sbrk i (TRAPFRAME - PGSIZE - 127 * 0x7fffffff) 2, [])]

/-- Does an eager `sbrk` of two pages panic with a remap? -/
def sbrkRemaps (s : System n) (i : Fin n) : Bool :=
  match perform (.sbrk i (2 * PGSIZE) SBRK_EAGER) (s.begin []) with
  | .error .remap _ => true
  | _ => false

theorem eager_sbrk_remaps : ∃ s₀ s : System 1, boot smallImage 3 [] = some s₀ ∧
    Sys.Run (fun s e s' => Step s e s' ∧ Bounded s') s₀ (growToTop 0) s ∧ sbrkRemaps s 0 = true := by
  have hexec : ((boot smallImage 3 [] : Option (System 1)).bind fun s₀ =>
      Sys.exec (fun s e => (next s e).filter fun t => decide (Bounded t)) s₀ (growToTop 0)).any
        (fun s => sbrkRemaps s 0) = true := by decide +kernel
  obtain ⟨s, hs, hpanic⟩ := Sys.exists_of_any hexec
  obtain ⟨s₀, hboot, hs⟩ := Option.bind_eq_some_iff.mp hs
  exact ⟨s₀, s, hboot, run_bounded hs, hpanic⟩

end Xv6.Vm
