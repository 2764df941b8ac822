-- SUMMARY: The arguments of a program: `exec` puts the strings and their addresses on the stack, or fails if there is no room.
import Xv6.Vm.Copies

/-!
# Arguments

After a successful `exec` the array at `sp` has the addresses of copies of the argument strings,
in order, and then a null word. All of this lies in the stack pages, and nothing below them
depends on the arguments.
-/

namespace Xv6

open Prog Radix

variable {k k' : Kmem} {p p' : Proc} {I : Img} {argv : List Arg}

/-! ## Reading memory -/

/-- The byte at an address, whatever the user may do there. -/
def memByte (k : Kmem) (p : Proc) (a : Nat) : Option UInt8 :=
  (p.pagetable.get (a / PGSIZE)).map fun e => k.page e.pa (a % PGSIZE)

/-- The user sees these bytes from an address on. -/
def HoldsAt (k : Kmem) (p : Proc) (a : Nat) (bytes : List UInt8) : Prop :=
  ∀ i < bytes.length, userByte k p (a + i) = bytes[i]?

/-- A register of a process. -/
def reg (k : Kmem) (p : Proc) (off : Nat) : Nat := Bytes.getLE (k.page p.trapframe) off 8

theorem Shows.page_byte {a : Nat} (h : Shows k p.pagetable I) (ha : a / PGSIZE < npages I.sz) :
    ∃ e, p.pagetable.get (a / PGSIZE) = some e ∧ e.perm = I.perm (a / PGSIZE) ∧
      k.page e.pa (a % PGSIZE) = I.byte a := by
  obtain ⟨e, he, hperm, hbyte⟩ := h.page _ ha
  refine ⟨e, he, hperm, ?_⟩
  rw [hbyte _ (Nat.mod_lt _ (by decide)), Nat.div_add_mod']

theorem Shows.memByte_eq {a : Nat} (h : Shows k p.pagetable I) (ha : a / PGSIZE < npages I.sz) :
    memByte k p a = some (I.byte a) := by
  obtain ⟨e, he, -, hbyte⟩ := h.page_byte ha
  rw [memByte, he, Option.map_some, hbyte]

theorem Shows.userByte_eq {a : Nat} (h : Shows k p.pagetable I) (hsz : I.sz ≤ TRAPFRAME)
    (ha : a / PGSIZE < npages I.sz) (hu : (I.perm (a / PGSIZE)).u = true) :
    userByte k p a = some (I.byte a) := by
  obtain ⟨e, he, hperm, hbyte⟩ := h.page_byte ha
  have hmax : a < MAXVA := by
    have := npages_le hsz
    simp only [NPAGES, TRAPFRAME, TRAMPOLINE, MAXVA, PGSIZE] at *
    omega
  rw [userByte, if_pos hmax, he]
  simp only [hperm, hu, if_true, hbyte]

/-! ## The stack -/

/-- What belongs on the stack if the strings are at `addrs`, and their addresses at `sp`. -/
def onStack (argv : List Arg) (sp : Nat) (addrs : List Nat) : List Piece :=
  addrs.zip (argv.map fun arg => arg.bytes ++ [0]) ++ [(sp, ustackBytes addrs)]

/-- The arguments are on the stack of a process. -/
structure ArgStack (k : Kmem) (p : Proc) (argv : List Arg) (sp : Nat) (addrs : List Nat) : Prop where
  aligned : sp % 16 = 0
  each : addrs.length = argv.length
  /-- The null word has a place in `ustack` too. -/
  slots : addrs.length < MAXARG
  holds : ∀ c ∈ onStack argv sp addrs, HoldsAt k p c.1 c.2
  inside : ∀ c ∈ onStack argv sp addrs, p.sz - USERSTACK * PGSIZE ≤ c.1 ∧ c.1 + c.2.length ≤ p.sz
  disjoint : (onStack argv sp addrs).Pairwise fun c d => c.1 + c.2.length ≤ d.1 ∨ d.1 + d.2.length ≤ c.1

theorem onStack_eq {sz : Nat} : onStack argv (sz - stackUse argv) (argAddrs argv sz) = stackPieces argv sz := by
  rw [onStack, stackPieces, argPieces_eq_zip]
  rfl

theorem stackUse_mod (argv : List Arg) : stackUse argv % 16 = 0 := by
  have := argsUse_mod argv
  have := aligned16_mod ((argv.length + 1) * 8)
  rw [stackUse]
  omega

theorem Img.pushStack_sz (I : Img) (argv : List Arg) : (I.pushStack argv).sz = I.sz := Img.writeAll_sz

theorem Img.pushStack_perm : (I.pushStack argv).perm = I.perm := Img.writeAll_perm

/-- Pushing does not reach below the stack. -/
theorem Img.pushStack_below {a : Nat} (hfits : stackUse argv ≤ I.sz) (ha : a < I.sz - stackUse argv) :
    (I.pushStack argv).byte a = I.byte a :=
  Img.writeAll_outside fun _ hc => .inl (ha.trans_le (stackPieces_bounds hfits hc).1)

section
variable {path file : List UInt8} {r : Int}

theorem execImage_sz (file : List UInt8) (argv : List Arg) :
    (execImage file argv).sz = npages (fileImage file).sz * PGSIZE + (USERSTACK + 1) * PGSIZE :=
  (Img.pushStack_sz _ argv).trans Img.addStack_sz

theorem Started.sz_eq (h : Started k p path file argv k' (p', r)) : p'.sz = (execImage file argv).sz := by
  obtain ⟨t, ht⟩ := h.proc
  cases ht
  rfl

theorem Started.trapframe_eq (h : Started k p path file argv k' (p', r)) : p'.trapframe = p.trapframe := by
  obtain ⟨t, ht⟩ := h.proc
  cases ht
  rfl

theorem Started.argc_eq (h : Started k p path file argv k' (p', r)) : r = argv.length := by
  obtain ⟨t, ht⟩ := h.proc
  cases ht
  rfl

theorem Started.use_le (h : Started k p path file argv k' (p', r)) : stackUse argv ≤ (execImage file argv).sz := by
  have := h.fits
  rw [execImage_sz]
  simp only [USERSTACK, PGSIZE] at *
  omega

/-- The stack pages are below the size, and above the rest. -/
theorem Started.stack_page {a : Nat} (hlo : (execImage file argv).sz - USERSTACK * PGSIZE ≤ a)
    (hhi : a < (execImage file argv).sz) :
    a / PGSIZE < npages (execImage file argv).sz ∧ npages (fileImage file).sz < a / PGSIZE := by
  refine ⟨page_lt_npages hhi, ?_⟩
  rw [execImage_sz] at hlo
  simp only [USERSTACK, PGSIZE] at hlo ⊢
  omega

/-- The user sees what `exec` has pushed. -/
theorem Started.holds {c : Piece} (h : Started k p path file argv k' (p', r))
    (hc : c ∈ stackPieces argv (execImage file argv).sz) : HoldsAt k' p' c.1 c.2 := by
  have hle := h.use_le
  intro i hi
  obtain ⟨hlo, hhi⟩ := stackPieces_bounds hle hc
  have hstack : (execImage file argv).sz - USERSTACK * PGSIZE ≤ c.1 + i := by
    have := h.fits
    omega
  obtain ⟨hpage, habove⟩ := Started.stack_page hstack (by omega)
  have hu : ((execImage file argv).perm ((c.1 + i) / PGSIZE)).u = true := by
    rw [execImage, Img.pushStack_perm, Img.addStack_perm habove]
  rw [h.shows.userByte_eq h.below hpage hu]
  rw [execImage, Img.pushStack_sz] at hc hle
  exact Img.writeAll_piece (stackPieces_descending hle) hc hi

theorem Started.argStack (h : Started k p path file argv k' (p', r)) (hargs : argv.length < MAXARG) :
    ArgStack k' p' argv ((execImage file argv).sz - stackUse argv)
      (argAddrs argv (execImage file argv).sz) := by
  have hle := h.use_le
  refine ⟨?_, length_argAddrs, length_argAddrs.trans_lt hargs, ?_, ?_, ?_⟩
  · have hsz := execImage_sz file argv
    have := stackUse_mod argv
    simp only [USERSTACK, PGSIZE] at hsz
    omega
  · rw [onStack_eq]
    exact fun c hc => h.holds hc
  · rw [onStack_eq, h.sz_eq]
    intro c hc
    have := stackPieces_bounds hle hc
    have := h.fits
    omega
  · rw [onStack_eq]
    exact (stackPieces_descending hle).imp Or.inr

/-- The memory below the stack is what the file says. -/
theorem Started.below_stack {a : Nat} (h : Started k p path file argv k' (p', r))
    (ha : a < p'.sz - USERSTACK * PGSIZE) : memByte k' p' a = some ((fileImage file).byte a) := by
  have hsz := h.sz_eq
  have hfits := h.fits
  have hpage : a / PGSIZE < npages (execImage file argv).sz := page_lt_npages (by omega)
  rw [h.shows.memByte_eq hpage, execImage, Img.pushStack_below]
  · rfl
  · rw [← Img.pushStack_sz _ argv, ← execImage]
    exact h.use_le
  · rw [← Img.pushStack_sz _ argv, ← execImage]
    omega

/-- The new process finds its stack in `sp` and `a1`. -/
theorem Started.regs (h : Started k p path file argv k' (p', r)) :
    reg k' p' Trapframe.a1 = (execImage file argv).sz - stackUse argv ∧
    reg k' p' Trapframe.sp = (execImage file argv).sz - stackUse argv := by
  have hlt : (execImage file argv).sz - stackUse argv < 256 ^ 8 := by
    have hle := (Nat.sub_le (execImage file argv).sz (stackUse argv)).trans h.below
    simp only [TRAPFRAME, TRAMPOLINE, MAXVA, PGSIZE] at hle
    omega
  rw [reg, reg, h.trapframe_eq, h.frame, startFrame]
  refine ⟨?_, Bytes.getLE_putLE_of_lt hlt⟩
  rw [Bytes.getLE_putLE_disjoint (by decide), Bytes.getLE_putLE_disjoint (by decide),
    Bytes.getLE_putLE_of_lt hlt]

end

/-! ## A small program -/

/-- The bytes of a program header. -/
def Proghdr.bytes (ph : Proghdr) : List UInt8 :=
  leBytes 4 ph.type ++ leBytes 4 ph.flags ++ leBytes 8 ph.off ++ leBytes 8 ph.vaddr ++ leBytes 8 0 ++
    leBytes 8 ph.filesz ++ leBytes 8 ph.memsz ++ leBytes 8 0

/-- Four bytes for address 0, readable and executable, and four more bytes of memory. -/
def smallText : Proghdr := ⟨ELF_PROG_LOAD, 5, 176, 0, 4, 8⟩

/-- Two bytes for the page after the next one, readable and writable. -/
def smallData : Proghdr := ⟨ELF_PROG_LOAD, 6, 180, 8192, 2, 100⟩

/-- A file with two segments, and a page between them. -/
def smallElf : List UInt8 :=
  leBytes 4 ELF_MAGIC ++ List.replicate 28 0 ++ leBytes 8 Elfhdr.size ++ List.replicate 16 0 ++ leBytes 2 2 ++
    List.replicate 6 0 ++ smallText.bytes ++ smallData.bytes ++ [1, 2, 3, 4, 5, 6]

/-- The strings `A` and `BC`. -/
def smallArgs : List Arg := [⟨[65], by decide⟩, ⟨[66, 67], by decide⟩]

/-- Does `exec` return this result, and leave a process of this size? -/
def execReturns (file : List UInt8) (argv : List Arg) (sz : Nat) (r : Int) (k : Kmem) (p : Proc) : Bool :=
  match kexec p [] (some file) argv k with
  | .ok (p', x) _ => decide (p'.sz = sz ∧ x = r)
  | .error _ _ => false

theorem exists_of_execReturns {file : List UInt8} {sz : Nat} {r : Int} {argv : List Arg}
    (h : execReturns file argv sz r k p = true) :
    ∃ p' k', kexec p [] (some file) argv k = .ok (p', r) k' ∧ p'.sz = sz := by
  unfold execReturns at h
  split at h
  · next p' x k' hrun =>
    obtain ⟨hsz, rfl⟩ := of_decide_eq_true h
    exact ⟨p', k', hrun, hsz⟩
  · cases h

/-- A process that runs the small program. -/
theorem exists_exec : ∃ k p p' k', Owns k.IsPage k p ∧
    kexec p [] (some smallElf) smallArgs k = .ok (p', 2) k' ∧ p'.sz = 6 * PGSIZE := by
  obtain ⟨k, p, howns, -, hcheck⟩ := @exists_owns [] (execReturns smallElf smallArgs (6 * PGSIZE) 2) []
    (by decide +kernel)
  obtain ⟨p', k', hrun, hsz⟩ := exists_of_execReturns hcheck
  exact ⟨k, p, p', k', howns, hrun, hsz⟩

/-- The same when the fifth page is missing, which is one for the page table. -/
theorem exists_exec_fails : ∃ k p p' k', Owns k.IsPage k p ∧
    kexec p [] (some smallElf) smallArgs k = .ok (p', -1) k' := by
  obtain ⟨k, p, howns, -, hcheck⟩ := @exists_owns [false, false, false, false, true]
    (execReturns smallElf smallArgs 0 (-1)) [] (by decide +kernel)
  obtain ⟨p', k', hrun, -⟩ := exists_of_execReturns hcheck
  exact ⟨k, p, p', k', howns, hrun⟩

/-! ## The stack of a new program -/

/-- For at most `MAXARG - 1` strings, each shorter than a page, `exec` returns. If it succeeds, the
result is their number and they are on the stack, with their addresses at `sp` and `a1`, and below
the stack pages memory is what the file alone says. If they do not fit in the stack pages, it
fails. -/
theorem kexec_builds_stack {path : List UInt8} {file : Option (List UInt8)} (h : Pages k.IsPage k p)
    (hsz : p.sz ≤ MAXVA) (hargs : argv.length < MAXARG) :
    ∃ p' r k', kexec p path file argv k = .ok (p', r) k' ∧
      (r ≠ -1 → r = argv.length ∧
        (∃ sp addrs, reg k' p' Trapframe.a1 = sp ∧ reg k' p' Trapframe.sp = sp ∧ ArgStack k' p' argv sp addrs) ∧
        ∃ f, file = some f ∧ ∀ a < p'.sz - USERSTACK * PGSIZE, memByte k' p' a = some ((fileImage f).byte a)) ∧
      (USERSTACK * PGSIZE < stackUse argv → r = -1) := by
  obtain ⟨p', r, k', hrun, hrefused | ⟨f, rfl, hs⟩⟩ := kexec_returns path file argv h hsz
  · have hr : r = -1 := (Prod.mk.inj hrefused.result).2
    exact ⟨p', r, k', hrun, fun hne => absurd hr hne, fun _ => hr⟩
  · refine ⟨p', r, k', hrun, fun _ => ⟨hs.argc_eq, ?_, f, rfl, fun a ha => hs.below_stack ha⟩, fun hbig => ?_⟩
    · exact ⟨_, _, hs.regs.1, hs.regs.2, hs.argStack hargs⟩
    · exact absurd hs.fits (Nat.not_le.mpr hbig)

/-- A small program starts with two arguments. -/
theorem kexec_builds_stack_small : ∃ k p p' k', Pages k.IsPage k p ∧ p.sz ≤ MAXVA ∧
    kexec p [] (some smallElf) smallArgs k = .ok (p', 2) k' ∧
    ∃ sp addrs, reg k' p' Trapframe.a1 = sp ∧ ArgStack k' p' smallArgs sp addrs := by
  obtain ⟨k, p, p', k', howns, hrun, -⟩ := exists_exec
  have hsz := howns.proc.sz.trans trapframe_le
  obtain ⟨_, _, _, hrun', hok, -⟩ := kexec_builds_stack howns.pages hsz (by decide : smallArgs.length < MAXARG)
  cases hrun.symm.trans hrun'
  obtain ⟨-, ⟨sp, addrs, ha1, -, hstack⟩, -⟩ := hok (by decide)
  exact ⟨k, p, p', k', howns.pages, hsz, hrun, sp, addrs, ha1, hstack⟩

end Xv6
