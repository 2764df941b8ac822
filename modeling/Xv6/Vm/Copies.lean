-- SUMMARY: `copyin`, `copyout` and `copyinstr` read and write user memory as an array of bytes, in every state that is reached.
import Xv6.Vm.Conservation

/-!
# Copies

The functions that copy see the flat view of user memory. A process owns its pages in every state
of the system in which no size is above the trapframe, and so they do what they should there.
-/

namespace Xv6

open Prog Radix

variable {G : Nat → Prop} {k : Kmem} {p : Proc}

/-! ## Processes of a run -/

/-- A check of a process and of the memory that its next system call starts with. -/
def checkLive {n : Nat} (fails : List Bool) (check : Kmem → Proc → Bool) (s : Vm.System n) (i : Fin n) :
    Bool :=
  match s.proc i with
  | .live p => check (s.begin fails).kmem p
  | _ => false

/-- In a run of the system in which sizes stay below the trapframe, the first process owns its
pages. -/
theorem exists_owns {fails : List Bool} {check : Kmem → Proc → Bool} {es : List (Vm.Act 1 × List Bool)}
    (hexec : ((Vm.boot Vm.smallImage 3 [] : Option (Vm.System 1)).bind fun s₀ =>
      Sys.exec (fun s e => (Vm.next s e).filter fun t => decide (Vm.Bounded t)) s₀ es).any
        (checkLive fails check · 0) = true) :
    ∃ k p, Owns k.IsPage k p ∧ k.fails = fails ∧ check k p = true := by
  obtain ⟨s, hs, hcheck⟩ := Sys.exists_of_any hexec
  obtain ⟨s₀, hboot, hs⟩ := Option.bind_eq_some_iff.mp hs
  cases hp : s.proc 0 with
  | unused => simp only [checkLive, hp] at hcheck; cases hcheck
  | zombie p => simp only [checkLive, hp] at hcheck; cases hcheck
  | live p =>
    simp only [checkLive, hp] at hcheck
    have hinv : Vm.Inv Vm.smallImage s := by
      refine (Vm.run_bounded hs).invariant (fun t e u ht hstep => ?_) (.boot hboot)
      exact (hstep.1.leaves ht (.inr hstep.2)).1
    exact ⟨_, p, hinv.owns (.inl hp) fails, rfl, hcheck⟩

/-- Right after the first process has grown lazily by two pages, it has none of them. -/
theorem exists_lazy : ∃ k p, Owns k.IsPage k p ∧ k.fails = [] ∧ p.sz = 8192 ∧
    p.pagetable.get 0 = none ∧ p.pagetable.get 1 = none ∧ 6 ≤ k.freelist.length := by
  obtain ⟨k, p, howns, hfails, hcheck⟩ := @exists_owns []
    (fun k p => decide (p.sz = 8192 ∧ p.pagetable.get 0 = none ∧ p.pagetable.get 1 = none ∧
      6 ≤ k.freelist.length)) [(.sbrk 0 8192 2, [])] (by decide +kernel)
  exact ⟨k, p, howns, hfails, of_decide_eq_true hcheck⟩

/-! ## Flat memory -/

/-- The functions that copy see user memory as an array of bytes: `copyout` changes the bytes of
the range and no others, `copyin` and `copyinstr` find what is there. With three free pages for
every page of the range, the first two fail only if the user could not access all of it. -/
theorem copies_are_flat (hpages : Pages k.IsPage k p) (hsz : p.sz ≤ TRAPFRAME) :
    (∀ dstva bytes, ∃ p' ok k', copyout Proc.pagetable p dstva bytes k = .ok (p', ok) k' ∧
      (ok = true → ∀ a, userByte k' p' a =
        if dstva ≤ a ∧ a < dstva + bytes.length then bytes[a - dstva]? else userByte k p a) ∧
      (k.fails = [] → 3 * (bytes.length / PGSIZE + 2) ≤ k.freelist.length →
        (ok = true ↔ ∀ a, dstva ≤ a → a < dstva + bytes.length → CanAccess true p a)) ∧
      ∀ x ∉ k.freelist, (∀ v < VPNS, ∀ e, p.pagetable.get v = some e →
        e.perm.u = true → e.perm.w = true → e.pa ≠ x) → k'.page x = k.page x) ∧
    (∀ srcva len, ∃ p' r k', copyin p srcva len k = .ok (p', r) k' ∧
      (∀ bs ∈ r, bs.length = len ∧ ∀ i < len, userByte k p (srcva + i) = bs[i]?) ∧
      (∀ a, userByte k' p' a = userByte k p a) ∧
      (k.fails = [] → 3 * (len / PGSIZE + 2) ≤ k.freelist.length →
        (r ≠ none ↔ ∀ a, srcva ≤ a → a < srcva + len → CanAccess false p a))) ∧
    ∀ srcva max, ∃ r, copyinstr p.pagetable srcva max k = .ok r k ∧ ∀ s ∈ r, IsString k p srcva max [] s := by
  have h := hpages.owns hsz
  refine ⟨fun dstva bytes => ?_, fun srcva len => ?_, fun srcva max => ?_⟩
  · have hwp : wp (copyout Proc.pagetable p dstva bytes)
        (fun r k' => CopiedOut k.IsPage k p dstva bytes k' r.1 r.2) (fun _ _ => False) k := wp_copyout_view h
    obtain ⟨⟨p', ok⟩, k', hrun, hout⟩ := hwp.returns
    refine ⟨p', ok, k', hrun, hout.byte, fun hf hroom => ⟨hout.access, hout.enough hf ?_⟩, hout.kept⟩
    exact (Nat.mul_le_mul_left 3 (touched_le dstva bytes.length)).trans hroom
  · have hwp : wp (copyin p srcva len)
        (fun r k' => CopiedIn k.IsPage k p srcva len [] k' r.1 r.2) (fun _ _ => False) k := wp_copyin_view h
    obtain ⟨⟨p', r⟩, k', hrun, hin⟩ := hwp.returns
    refine ⟨p', r, k', hrun, fun bs hbs => ?_, hin.faults.byte, fun hf hroom => ⟨hin.access, hin.enough hf ?_⟩⟩
    · obtain ⟨new, rfl, hlen, hbyte⟩ := hin.bytes bs hbs
      exact ⟨hlen, hbyte⟩
    · exact (Nat.mul_le_mul_left 3 (touched_le srcva len)).trans hroom
  · have hwp : wp (copyinstr p.pagetable srcva max)
        (fun r k' => k' = k ∧ CopiedStr k p srcva max [] r) (fun _ _ => False) k := wp_copyinstr_view
    obtain ⟨r, k', hrun, rfl, hstr⟩ := hwp.returns
    refine ⟨r, hrun, fun s hs => ?_⟩
    obtain ⟨new, rfl, hnew, -⟩ := hstr.found s hs
    exact hnew

/-- The kernel copies three bytes across the boundary of two pages that are not there yet. -/
theorem copies_are_flat_lazy : ∃ k p, Owns k.IsPage k p ∧ p.pagetable.get 0 = none ∧
    ∃ p' k', copyout Proc.pagetable p 4095 [1, 2, 3] k = .ok (p', true) k' ∧
      userByte k' p' 4097 = some 3 ∧ userByte k' p' 4098 = userByte k p 4098 := by
  obtain ⟨k, p, howns, hfails, hsz, hzero, hone, hroom⟩ := exists_lazy
  obtain ⟨p', ok, k', hrun, hbyte, hiff, -⟩ := (copies_are_flat howns.pages howns.proc.sz).1 4095 [1, 2, 3]
  have hok : ok = true := by
    refine (hiff hfails hroom).mpr fun a hlo hhi => ⟨hhi.trans (by decide), ?_⟩
    have hhi : a < 4098 := hhi
    have hpage : a / PGSIZE = 0 ∨ a / PGSIZE = 1 := by
      simp only [PGSIZE]
      omega
    have hdown : pgrounddown a < p.sz := by
      simp only [pgrounddown, PGSIZE]
      omega
    obtain hpage | hpage := hpage
    · rw [hpage, hzero]
      exact hdown
    · rw [hpage, hone]
      exact hdown
  subst hok
  refine ⟨_, p, howns, hzero, p', k', hrun, ?_, ?_⟩
  · rw [hbyte rfl]
    rfl
  · rw [hbyte rfl]
    rfl

end Xv6
