-- SUMMARY: The size of a process stays below the trapframe as long as no `sbrk` asks for more, and then nothing panics.
import Xv6.Vm.Conservation

/-!
# The bound on the size of a process

Neither `growproc` nor the lazy branch of `sys_sbrk` compares the new size with `TRAPFRAME`.
The eager branch would run out of memory first, unless the size is near the trapframe
already; the lazy branch needs no memory. As long as every `sbrk` keeps below the trapframe,
every system call returns, and no trapframe or trampoline page is freed by mistake.
-/

namespace Xv6.Vm

open Prog

variable {n : Nat} {image : KernelImage}

instance : ∀ (x : Slot) (k : Int), Decidable (x.Fits k)
  | .live p, k => inferInstanceAs (Decidable (Xv6.Fits p k))
  | .unused, _ => isTrue trivial
  | .zombie _, _ => isTrue trivial

theorem Slot.Fits.roomy {x : Slot} {k : Kmem} {n : Int} (h : x.Fits n) : x.Roomy k n := by
  cases x with
  | live p => exact .inl h
  | unused => exact trivial
  | zombie _ => exact trivial

theorem Careful.roomy {s : System n} {a : Act n} (h : Careful s a) : Roomy s a := by
  cases a with
  | sbrk i k t => exact fun _ => Slot.Fits.roomy h
  | _ => exact trivial

instance (s : System n) : ∀ a : Act n, Decidable (Careful s a)
  | .sbrk i k _ => inferInstanceAs (Decidable ((s.proc i).Fits (argint k)))
  | .forkret .. | .fault .. | .copyin .. | .copyout .. | .fork .. | .exec .. | .exit .. | .wait ..
  | .pipe .. | .pipeclose .. => isTrue trivial

theorem Inv.bounded {s : System n} (h : Inv image s) : Bounded s := by
  intro i
  cases hi : s.proc i with
  | unused => exact Nat.zero_le _
  | live p => exact (h.shape i p (.inl hi)).sz
  | zombie p => exact (h.shape i p (.inr hi)).sz

/-- A careful call returns, and leaves the trampoline and the trapframes of others alone. -/
theorem Inv.returns {s : System n} {a : Act n} (h : Inv image s) (hc : Careful s a) (fails : List Bool) :
    ∃ s', Step s (a, fails) s' ∧ Inv image s' ∧ Spares image s s' := by
  have hwp : wp (perform a) (fun _ s' => Leaves image s a s') (fun _ _ => False) (s.begin fails) :=
    wp_perform h (.inl hc.roomy)
  obtain ⟨_, s', hperform, hleaves⟩ := hwp.returns
  refine ⟨s', ?_, hleaves (.inl hc)⟩
  rw [Step, next, hperform]

/-- In every run in which every `sbrk` keeps below the trapframe, sizes are at most `TRAPFRAME`,
no further careful call panics, and none frees the trampoline, or a trapframe other than once
in freeing its process. -/
theorem sbrk_below_trapframe [NeZero n] {pages : Nat} {fails : List Bool} {s₀ s : System n}
    {es : List (Act n × List Bool)} (hboot : boot image pages fails = some s₀)
    (hrun : Sys.RunWhere Step (fun s e => Careful s e.1) s₀ es s) :
    Bounded s ∧ ∀ a fails, Careful s a → ∃ s', Step s (a, fails) s' ∧ Spares image s s' := by
  have hinv : Inv image s := by
    refine hrun.invariant (fun t e u ht hc hstep => ?_) (.boot hboot)
    exact (hstep.leaves ht (.inl hc)).1
  refine ⟨hinv.bounded, fun a fails hc => ?_⟩
  obtain ⟨s', hstep, -, hspares⟩ := hinv.returns hc fails
  exact ⟨s', hstep, hspares⟩

/-- Process `i` grows lazily, touches its memory, and forks. -/
def growFork (i j : Fin n) : List (Act n × List Bool) :=
  [(.sbrk i 8192 2, []), (.fault i 4096, []), (.fork i j, []), (.exit j, []), (.wait i j 0 7, [])]

theorem sbrk_below_trapframe_growFork : ∃ s₀ s : System 2, boot smallImage 3 [] = some s₀ ∧
    Sys.RunWhere Step (fun s e => Careful s e.1) s₀ (growFork 0 1) s ∧
    (Bounded s ∧ ∀ a fails, Careful s a → ∃ s', Step s (a, fails) s' ∧ Spares smallImage s s') := by
  have hexec : ((boot smallImage 3 [] : Option (System 2)).bind fun s₀ =>
      Sys.exec (fun s e => if Careful s e.1 then next s e else none) s₀ (growFork 0 1)).isSome = true := by
    decide +kernel
  obtain ⟨s, hs⟩ := Option.isSome_iff_exists.mp hexec
  obtain ⟨s₀, hboot, hs⟩ := Option.bind_eq_some_iff.mp hs
  have hrun := Sys.exec_runWhere hs
  exact ⟨s₀, s, hboot, hrun, sbrk_below_trapframe hboot hrun⟩

/-- Does a page fault at `va` in process `i` panic in `walk`? -/
def faultPanics (s : System n) (i : Fin n) (va : Nat) : Bool :=
  match perform (.fault i va) (s.begin []) with
  | .error .walk _ => true
  | _ => false

/-- Process `i` asks for 2 GB lazily 129 times. -/
def lazyGrowth (i : Fin n) : List (Act n × List Bool) := List.replicate 129 (.sbrk i 0x7fffffff 2, [])

/-- It is larger than `TRAPFRAME` then, and a page fault at `MAXVA` panics. -/
theorem lazy_sbrk_passes_trapframe : ∃ s₀ s : System 1, boot smallImage 3 [] = some s₀ ∧
    Sys.Run Step s₀ (lazyGrowth 0) s ∧ ¬ Bounded s ∧ faultPanics s 0 MAXVA = true := by
  have hexec : ((boot smallImage 3 [] : Option (System 1)).bind fun s₀ =>
      Sys.exec next s₀ (lazyGrowth 0)).any
        (fun s => decide (¬ Bounded s) && faultPanics s 0 MAXVA) = true := by decide +kernel
  obtain ⟨s, hs, hcheck⟩ := Sys.exists_of_any hexec
  obtain ⟨s₀, hboot, hs⟩ := Option.bind_eq_some_iff.mp hs
  obtain ⟨hbound, hpanic⟩ := Bool.and_eq_true_iff.mp hcheck
  exact ⟨s₀, s, hboot, Sys.exec_run hs, of_decide_eq_true hbound, hpanic⟩

end Xv6.Vm
