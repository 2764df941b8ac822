-- SUMMARY: `exec` in the order of the source, with its transaction and the inode it opens: it always returns, and when it fails the caller keeps everything.
import Xv6.Fs.Layout
import Xv6.Vm.Arguments
import Xv6.Vm.Bound

/-!
# exec and the file system

`kexec` with the calls that `kernel/exec.c` makes to the file system around the work on memory.
The loop of `loadseg` counts in a `uint` here, as in the source, and has fuel. All of this comes
to the same as the model of the memory alone: the loop ends, since a read behind the end of the
file fails, and every way out gives back what was taken.
-/

namespace Xv6.Exec

open Prog Radix

/-! ## The model -/

/-- Operations in progress, the reference count of the inode of the file, and whether the process
holds its lock. -/
structure Files where
  outstanding : Int
  ref : Nat
  locked : Bool

structure State where
  kmem : Kmem
  files : Files

inductive Stop where
  | vm (s : Vm.Stop)
  /-- `panic("ilock")` -/
  | ilock
  /-- `panic("iunlock")` -/
  | iunlock
  /-- The loop of `loadseg` has not ended. -/
  | fuel

abbrev ExecM : Type → Type := EStateM Stop State

/-- Work on memory. -/
def mem {α : Type} (m : VmM α) : ExecM α := zoom State.kmem (fun s k => { s with kmem := k }) Stop.vm m

/-- Work on files. -/
def files (f : Files → Files) : ExecM Unit := modify fun s => { s with files := f s.files }

def beginOp : ExecM Unit := files fun f => { f with outstanding := f.outstanding + 1 }

def endOp : ExecM Unit := files fun f => { f with outstanding := f.outstanding - 1 }

/-- `namei` takes a reference to the inode that it finds. -/
def namei (file : Option (List UInt8)) : ExecM (Option (List UInt8)) := do
  match file with
  | none => pure none
  | some file => do
    files fun f => { f with ref := f.ref + 1 }
    pure (some file)

def ilock : ExecM Unit := do
  let s ← get
  stopIf (s.files.ref < 1) .ilock
  files fun f => { f with locked := true }

def iunlockput : ExecM Unit := do
  let s ← get
  stopIf (s.files.locked = false ∨ s.files.ref < 1) .iunlock
  files fun f => { f with locked := false, ref := f.ref - 1 }

/-- The loop of `loadseg`; `none` when the fuel is used up. -/
def loadsegLoop (t : Pagetable) (va : Nat) (file : List UInt8) (offset sz : Nat) :
    Nat → Nat → VmM (Option Bool)
  | 0, _ => pure none
  | fuel + 1, i => do
    if i < sz then
      match ← walkaddr t ((va + i) % UINT64) with
      | none => throw .loadseg
      | some pa => do
        let n := if sz - i < PGSIZE then sz - i else PGSIZE
        let data := readi file ((offset + i) % UINT) n
        modify fun m => m.write pa (patch (m.page pa) 0 data)
        if data.length = n then
          loadsegLoop t va file offset sz fuel ((i + PGSIZE) % UINT)
        else
          pure (some false)
    else
      pure (some true)

def loadseg (fuel : Nat) (t : Pagetable) (va : Nat) (file : List UInt8) (offset sz : Nat) : ExecM Bool := do
  match ← mem (loadsegLoop t va file (offset % UINT) (sz % UINT) fuel 0) with
  | none => throw .fuel
  | some ok => pure ok

/-- The loop over the program headers. -/
def loadLoop (fuel : Nat) (file : List UInt8) :
    Nat → Nat → Pagetable → Nat → ExecM (Pagetable × Nat × Bool)
  | 0, _, t, sz => pure (t, sz, true)
  | k + 1, off, t, sz => do
    let bytes := readi file off Proghdr.size
    let ph := Proghdr.ofBytes bytes
    let next := (off + Proghdr.size) % UINT
    if bytes.length ≠ Proghdr.size then
      pure (t, sz, false)
    else if ph.type ≠ ELF_PROG_LOAD then
      loadLoop fuel file k next t sz
    else if ph.memsz < ph.filesz then
      pure (t, sz, false)
    else if (ph.vaddr + ph.memsz) % UINT64 < ph.vaddr then
      pure (t, sz, false)
    else if ph.vaddr % PGSIZE ≠ 0 then
      pure (t, sz, false)
    else do
      let (t, sz1) ← mem (uvmalloc t sz ((ph.vaddr + ph.memsz) % UINT64) (ph.flags.testBit 1)
        (ph.flags.testBit 0))
      if sz1 = 0 then
        pure (t, sz, false)
      else if ← loadseg fuel t ph.vaddr file ph.off ph.filesz then
        loadLoop fuel file k next t sz1
      else
        pure (t, sz1, false)

/-- The label `bad`: `image` is the new page table with its size, and `ip` says that the inode is
still open. -/
def bad (image : Option (Pagetable × Nat)) (ip : Bool) (p : Proc) : ExecM (Proc × Int) := do
  match image with
  | none => pure ()
  | some (t, sz) => mem (procFreepagetable t sz)
  if ip then do
    iunlockput
    endOp
    pure (p, -1)
  else
    pure (p, -1)

def kexec (fuel : Nat) (p : Proc) (path : List UInt8) (file : Option (List UInt8)) (argv : List Arg) :
    ExecM (Proc × Int) := do
  beginOp
  match ← namei file with
  | none => do
    endOp
    pure (p, -1)
  | some file => do
    ilock
    let bytes := readi file 0 Elfhdr.size
    let elf := Elfhdr.ofBytes bytes
    if bytes.length ≠ Elfhdr.size ∨ elf.magic ≠ ELF_MAGIC then
      bad none true p
    else do
      let t ← mem (procPagetable p.trapframe)
      if t.isNil then
        bad none true p
      else do
        let (t, sz, ok) ← loadLoop fuel file elf.phnum (elf.phoff % UINT) t 0
        if !ok then
          bad (some (t, sz)) true p
        else do
          iunlockput
          endOp
          let oldsz := p.sz
          let sz := pgroundup sz
          let (t, sz1) ← mem (uvmalloc t sz ((sz + (USERSTACK + 1) * PGSIZE) % UINT64) true false)
          if sz1 = 0 then
            bad (some (t, sz)) false p
          else do
            let sz := sz1
            let t ← mem (uvmclear t (sz - (USERSTACK + 1) * PGSIZE))
            let (p, r) ← mem (pushStack t sz argv p)
            match r with
            | none => bad (some (t, sz)) false p
            | some sp => do
              mem (setReg p.trapframe Trapframe.a1 sp)
              mem (setReg p.trapframe Trapframe.epc elf.entry)
              mem (setReg p.trapframe Trapframe.sp sp)
              mem (procFreepagetable p.pagetable oldsz)
              pure (⟨sz, t, p.trapframe, lastName path⟩, argv.length)

def sysExec (fuel : Nat) (find : List UInt8 → Option (List UInt8)) (p : Proc) (upath uargv : Nat) :
    ExecM (Proc × Int) := do
  match ← mem (copyinstr p.pagetable upath MAXPATH) with
  | none => pure (p, -1)
  | some path => do
    let (p, pages, args) ← mem (fetchArgs uargv MAXARG 0 p [] [])
    match args with
    | none => do
      mem (pages.forM kfree)
      pure (p, -1)
    | some args => do
      let (p, ret) ← kexec fuel p path (find path) args
      mem (pages.forM kfree)
      pure (p, ret)

/-! ## Memory -/

/-- No file is longer than the blocks of an inode. -/
def Sized (file : List UInt8) : Prop := file.length ≤ Fs.MAXFILE * BSIZE

section
variable {t : Pagetable} {va offset sz fuel i : Nat} {file : List UInt8}

/-- A full read ends inside the file. -/
theorem readi_full {n : Nat} (hn : 0 < n) (h : (readi file offset n).length = n) : offset + n ≤ file.length := by
  unfold readi at h
  split at h
  · rw [List.length_nil] at h
    omega
  · rw [List.length_take, List.length_drop] at h
    omega

/-- So the counter of `loadseg` does not wrap. -/
theorem loadsegLoop_eq {n : Nat} (hfile : Sized file) (hoff : offset < UINT)
    (hi : i < sz → i = 0 ∨ offset + i ≤ file.length) (hn : n = turns i sz) (hfuel : n < fuel) :
    loadsegLoop t va file offset sz fuel i = some <$> Xv6.loadsegLoop t va file offset sz n i := by
  induction fuel generalizing i n with
  | zero => exact absurd hfuel (Nat.not_lt_zero _)
  | succ fuel ih =>
    cases n with
    | zero =>
      have hlt : ¬ i < sz := by
        simp only [turns, PGSIZE] at hn
        omega
      rw [loadsegLoop, if_neg hlt, Xv6.loadsegLoop, map_pure]
    | succ n =>
      have hlt : i < sz := by
        simp only [turns, PGSIZE] at hn
        omega
      have hnext : n = turns (i + PGSIZE) sz := by
        simp only [turns, PGSIZE] at hn ⊢
        omega
      have hmod : (offset + i) % UINT = offset + i := by
        obtain rfl | hle := hi hlt
        · rw [Nat.add_zero, Nat.mod_eq_of_lt hoff]
        · simp only [Sized, Fs.MAXFILE, Fs.NDIRECT, Fs.NINDIRECT, BSIZE, UINT] at *
          omega
      have hmin : (if sz - i < PGSIZE then sz - i else PGSIZE) = min (sz - i) PGSIZE := by
        split <;> omega
      rw [loadsegLoop, if_pos hlt, Xv6.loadsegLoop, map_bind]
      congr 1
      funext r
      cases r with
      | none => rfl
      | some pa =>
        simp only [hmod, hmin, map_bind]
        congr 1
        funext _
        by_cases hfull : (readi file (offset + i) (min (sz - i) PGSIZE)).length = min (sz - i) PGSIZE
        · have hend := readi_full (by simp only [PGSIZE]; omega) hfull
          have hwrap : (i + PGSIZE) % UINT = i + PGSIZE := by
            simp only [Sized, Fs.MAXFILE, Fs.NDIRECT, Fs.NINDIRECT, BSIZE, UINT, PGSIZE] at *
            omega
          rw [if_pos hfull, if_pos hfull, hwrap, ih (fun hmore => .inr (by omega)) hnext (by omega)]
        · rw [if_neg hfull, if_neg hfull, map_pure]

variable {s : State} {Q : Bool → State → Prop} {E : Stop → State → Prop}

/-- What holds of the memory holds of the whole. -/
theorem wp_mem {α : Type} {m : VmM α} {Q : α → State → Prop} :
    wp (mem m) Q E s ↔ wp m (fun a k => Q a { s with kmem := k }) (fun e k => E (.vm e) { s with kmem := k }) s.kmem :=
  wp_zoom

theorem wp_pure_sim {α : Type} {a : α} {Q : α → State → Prop}
    (h : wp (pure a : VmM α) (fun a k => Q a { s with kmem := k }) (fun e k => E (.vm e) { s with kmem := k }) s.kmem) :
    wp (pure a) Q E s := by
  rw [wp_pure] at h ⊢
  exact h

theorem wp_loadseg_sim (hfile : Sized file) (hfuel : UINT / PGSIZE < fuel)
    (h : wp (Xv6.loadseg t va file offset sz) (fun ok k => Q ok { s with kmem := k })
      (fun e k => E (.vm e) { s with kmem := k }) s.kmem) :
    wp (loadseg fuel t va file offset sz) Q E s := by
  have hoff : offset % UINT < UINT := Nat.mod_lt _ (by decide)
  have hsz : sz % UINT < UINT := Nat.mod_lt _ (by decide)
  have hturns : turns 0 (sz % UINT) < fuel := by
    simp only [turns, UINT, PGSIZE] at *
    omega
  rw [loadseg, wp_bind, wp_mem, loadsegLoop_eq hfile hoff (fun _ => .inl rfl) rfl hturns, wp_map]
  simp only [wp_pure]
  exact h

end

section
variable {s : State} {fuel n off sz : Nat} {t : Pagetable} {file : List UInt8} {E : Stop → State → Prop}

theorem wp_loadLoop_sim {Q : Pagetable × Nat × Bool → State → Prop} (hfile : Sized file)
    (hfuel : UINT / PGSIZE < fuel)
    (h : wp (Xv6.loadLoop file n off t sz) (fun r k => Q r { s with kmem := k })
      (fun e k => E (.vm e) { s with kmem := k }) s.kmem) :
    wp (loadLoop fuel file n off t sz) Q E s := by
  induction n generalizing s off t sz with
  | zero => exact wp_pure_sim h
  | succ n ih =>
    simp only [loadLoop]
    simp only [Xv6.loadLoop] at h
    rw [wp_ite] at h ⊢
    refine h.imp (fun h hc => wp_pure_sim (h hc)) fun h hc => ?_
    replace h := h hc
    rw [wp_ite] at h ⊢
    refine h.imp (fun h hc => ih (h hc)) fun h hc => ?_
    replace h := h hc
    rw [wp_ite] at h ⊢
    refine h.imp (fun h hc => wp_pure_sim (h hc)) fun h hc => ?_
    replace h := h hc
    rw [wp_ite] at h ⊢
    refine h.imp (fun h hc => wp_pure_sim (h hc)) fun h hc => ?_
    replace h := h hc
    rw [wp_ite] at h ⊢
    refine h.imp (fun h hc => wp_pure_sim (h hc)) fun h hc => ?_
    replace h := h hc
    rw [wp_bind] at h ⊢
    rw [wp_mem]
    refine h.imp fun r k₁ h => ?_
    rw [wp_ite] at h ⊢
    refine h.imp (fun h hc => wp_pure_sim (h hc)) fun h hc => ?_
    replace h := h hc
    rw [wp_bind] at h ⊢
    refine wp_loadseg_sim hfile hfuel (h.imp fun ok k₂ h => ?_)
    rw [wp_ite] at h ⊢
    exact h.imp (fun h hc => ih (h hc)) fun h hc => wp_pure_sim (h hc)

end

/-! ## Files -/

section
variable {k : Kmem} {f : Files} {p : Proc} {t : Pagetable} {sz : Nat} {E : Stop → State → Prop}

/-- In an operation, with the inode of the file open. -/
def Files.opened (f : Files) : Files := ⟨f.outstanding + 1, f.ref + 1, true⟩

theorem wp_files {g : Files → Files} {s : State} {Q : Unit → State → Prop} :
    wp (files g) Q E s ↔ Q () { s with files := g s.files } := wp_modify

theorem wp_ilock {Q : Unit → State → Prop} (h : Q () ⟨k, f.opened⟩) :
    wp ilock Q E ⟨k, ⟨f.outstanding + 1, f.ref + 1, f.locked⟩⟩ := by
  simp only [ilock, wp_bind, wp_get, wp_stopIf, wp_files]
  exact ⟨fun href => absurd href (Nat.not_lt.mpr (Nat.le_add_left 1 f.ref)), fun _ => h⟩

/-- The inode is closed, and the operation ends. -/
theorem wp_close {α : Type} {m : ExecM α} {Q : α → State → Prop} (hf : f.locked = false)
    (h : wp m Q E ⟨k, f⟩) : wp (do
      iunlockput
      endOp
      m) Q E ⟨k, f.opened⟩ := by
  obtain ⟨n, ref, locked⟩ := f
  obtain rfl : locked = false := hf
  simp only [iunlockput, endOp, Files.opened, wp_bind, wp_get, wp_stopIf, wp_files]
  refine ⟨fun hstop => ?_, fun _ => ?_⟩
  · obtain hlock | href := hstop
    · cases hlock
    · exact absurd href (Nat.not_lt.mpr (Nat.le_add_left 1 ref))
  · rw [Nat.add_sub_cancel, Int.add_sub_cancel]
    exact h

theorem wp_bad_none {Q : Proc × Int → State → Prop} (hf : f.locked = false) (h : Q (p, -1) ⟨k, f⟩) :
    wp (bad none true p) Q E ⟨k, f.opened⟩ := by
  simp only [bad, if_true]
  exact wp_close hf (wp_pure.mpr h)

/-- A result of the work on memory. -/
theorem wp_result {r : Proc × Int} {Q : Proc × Int → State → Prop} {E' : Vm.Stop → Kmem → Prop}
    (h : wp (pure r : VmM (Proc × Int)) (fun r k => Q r ⟨k, f⟩) E' k) : Q r ⟨k, f⟩ := by
  rwa [wp_pure] at h

theorem wp_bad_sim (ip : Bool) {Q : Proc × Int → State → Prop} (hf : f.locked = false)
    (h : wp (do
      procFreepagetable t sz
      pure (p, -1)) (fun (r : Proc × Int) k => Q r ⟨k, f⟩) (fun e k => ∀ f, E (.vm e) ⟨k, f⟩) k) :
    wp (bad (some (t, sz)) ip p) Q E ⟨k, if ip then f.opened else f⟩ := by
  rw [wp_bind] at h
  rw [bad, wp_bind, wp_mem]
  refine h.mono (fun _ k' h => ?_) fun e k' h => h _
  cases ip with
  | false => exact wp_pure.mpr (wp_result h)
  | true => exact wp_close hf (wp_pure.mpr (wp_result h))

end

section
variable {k : Kmem} {f : Files} {p : Proc} {fuel : Nat} {path : List UInt8} {argv : List Arg}
  {file : Option (List UInt8)} {Q : Proc × Int → State → Prop} {E : Stop → State → Prop}

/-- What holds of the memory after `exec` holds of the whole, and the files are as before. -/
theorem wp_kexec_sim (hfile : ∀ bytes ∈ file, Sized bytes) (hfuel : UINT / PGSIZE < fuel) (hf : f.locked = false)
    (h : wp (Xv6.kexec p path file argv) (fun r k => Q r ⟨k, f⟩) (fun e k => ∀ f, E (.vm e) ⟨k, f⟩) k) :
    wp (kexec fuel p path file argv) Q E ⟨k, f⟩ := by
  cases file with
  | none =>
    simp only [kexec, namei, beginOp, endOp, wp_bind, wp_pure, wp_files]
    rw [Int.add_sub_cancel]
    exact wp_result h
  | some file =>
    have hfile := hfile file rfl
    simp only [kexec, namei, beginOp]
    rw [wp_bind, wp_files, wp_bind, wp_bind, wp_files, wp_pure, wp_bind]
    refine wp_ilock ?_
    simp only [Xv6.kexec] at h
    rw [wp_ite] at h ⊢
    refine h.imp (fun h hc => wp_bad_none hf (wp_result (h hc))) fun h hc => ?_
    replace h := h hc
    rw [wp_bind] at h ⊢
    rw [wp_mem]
    refine h.mono (fun t k₁ h => ?_) fun e k' h => h _
    rw [wp_ite] at h ⊢
    refine h.imp (fun h hc => wp_bad_none hf (wp_result (h hc))) fun h hc => ?_
    replace h := h hc
    rw [wp_bind] at h ⊢
    refine wp_loadLoop_sim hfile hfuel (h.mono (fun r k₂ h => ?_) fun e k' h => h _)
    obtain ⟨t₂, sz₂, ok⟩ := r
    cases ok with
    | false => exact wp_bad_sim true hf h
    | true =>
      simp only [Bool.not_true, Bool.false_eq_true, if_false] at h ⊢
      refine wp_close hf ?_
      rw [wp_bind] at h ⊢
      rw [wp_mem]
      refine h.mono (fun r k₃ h => ?_) fun e k' h => h _
      rw [wp_ite] at h ⊢
      refine h.imp (fun h hc => wp_bad_sim false hf (h hc)) fun h hc => ?_
      replace h := h hc
      rw [wp_bind] at h ⊢
      rw [wp_mem]
      refine h.mono (fun t₄ k₄ h => ?_) fun e k' h => h _
      rw [wp_bind] at h ⊢
      rw [wp_mem]
      refine h.mono (fun r k₅ h => ?_) fun e k' h => h _
      obtain ⟨p', r⟩ := r
      cases r with
      | none => exact wp_bad_sim false hf h
      | some sp =>
        simp only [wp_bind, wp_mem] at h ⊢
        refine h.mono (fun _ k₆ h => ?_) fun e k' h => h _
        refine h.mono (fun _ k₇ h => ?_) fun e k' h => h _
        refine h.mono (fun _ k₈ h => ?_) fun e k' h => h _
        refine h.mono (fun _ k₉ h => ?_) fun e k' h => h _
        exact wp_pure.mpr (wp_result h)

variable {find : List UInt8 → Option (List UInt8)} {upath uargv : Nat}

theorem wp_sysExec_sim (hfile : ∀ path, ∀ bytes ∈ find path, Sized bytes) (hfuel : UINT / PGSIZE < fuel)
    (hf : f.locked = false)
    (h : wp (Xv6.sysExec find p upath uargv) (fun r k => Q r ⟨k, f⟩) (fun e k => ∀ f, E (.vm e) ⟨k, f⟩) k) :
    wp (sysExec fuel find p upath uargv) Q E ⟨k, f⟩ := by
  simp only [Xv6.sysExec] at h
  simp only [sysExec]
  rw [wp_bind] at h ⊢
  rw [wp_mem]
  refine h.mono (fun r k₁ h => ?_) fun e k' h => h _
  cases r with
  | none => exact wp_pure.mpr (wp_result h)
  | some path =>
    dsimp only at h ⊢
    rw [wp_bind] at h ⊢
    rw [wp_mem]
    refine h.mono (fun r k₂ h => ?_) fun e k' h => h _
    obtain ⟨p₂, pages, args⟩ := r
    cases args with
    | none =>
      simp only [wp_bind, wp_mem] at h ⊢
      exact h.mono (fun _ k₃ h => wp_pure.mpr (wp_result h)) fun e k' h => h _
    | some args =>
      dsimp only at h ⊢
      rw [wp_bind] at h ⊢
      refine wp_kexec_sim (hfile path) hfuel hf (h.mono (fun r k₃ h => ?_) fun e k' h => h)
      simp only [wp_bind, wp_mem] at h ⊢
      exact h.mono (fun _ k₄ h => wp_pure.mpr (wp_result h)) fun e k' h => h _

end

/-! ## Sizes above `MAXVA`

The old image is freed in the end, and `uvmunmap` looks at all pages below the old size. -/

section
variable {k : Kmem} {p : Proc} {t : Pagetable} {n a sz tf : Nat}

/-- `walk` panics when the loop comes to `MAXVA`. -/
theorem wp_unmapLoop_beyond {doFree : Bool} (ha : a % PGSIZE = 0) (hle : a ≤ MAXVA) (hgt : MAXVA < a + n * PGSIZE) :
    wp (unmapLoop doFree n t a) (fun _ _ => False) (fun _ _ => True) k := by
  induction n generalizing k t a with
  | zero =>
    rw [Nat.zero_mul, Nat.add_zero] at hgt
    exact absurd hgt (Nat.not_lt.mpr hle)
  | succ n ih =>
    rw [unmapLoop, wp_bind]
    by_cases hlt : a < MAXVA
    · have hrest {t : Pagetable} {k : Kmem} :
          wp (unmapLoop doFree n t (a + PGSIZE)) (fun _ _ => False) (fun _ _ => True) k := by
        refine ih ?_ ?_ ?_ <;> simp only [PGSIZE, MAXVA] at * <;> omega
      refine wp_walk_match hlt (fun e _ => ?_) fun _ => hrest
      cases doFree with
      | false => exact hrest
      | true =>
        simp only [if_true, wp_bind, kfree, wp_get, wp_stopIf, wp_modify]
        exact ⟨fun _ => trivial, fun _ => hrest⟩
    · simp only [walk, wp_bind, wp_stopIf]
      exact ⟨fun _ => trivial, fun h => absurd (Nat.not_lt.mp hlt) h⟩

theorem wp_uvmfree_beyond (hgt : MAXVA < sz) (hlt : sz + PGSIZE ≤ UINT64) :
    wp (uvmfree t sz) (fun _ _ => False) (fun _ _ => True) k := by
  have hround : pgroundup sz = npages sz * PGSIZE := pgroundup_eq_of_lt (by simp only [PGSIZE] at *; omega)
  have hle : sz ≤ npages sz * PGSIZE ∧ npages sz * PGSIZE < UINT64 := by
    simp only [npages, PGSIZE] at *
    omega
  have hturns : turns 0 ((0 + npages sz * PGSIZE) % UINT64) = npages sz := by
    rw [Nat.zero_add, Nat.mod_eq_of_lt hle.2]
    simp only [turns, PGSIZE]
    omega
  rw [uvmfree, if_pos (Nat.lt_of_le_of_lt (Nat.zero_le _) hgt), wp_bind, hround, page_div]
  simp only [uvmunmap, wp_bind, wp_stopIf, hturns]
  refine ⟨fun _ => trivial, fun _ => (wp_unmapLoop_beyond rfl (Nat.zero_le _) ?_).imp fun _ _ h => h.elim⟩
  rw [Nat.zero_add]
  exact hgt.trans_le hle.1

theorem wp_procFreepagetable_beyond (hgt : MAXVA < sz) (hlt : sz + PGSIZE ≤ UINT64) :
    wp (procFreepagetable t sz) (fun _ _ => False) (fun _ _ => True) k := by
  simp only [procFreepagetable, wp_bind]
  exact (wp_true _).imp fun _ _ _ => (wp_true _).imp fun _ _ _ => wp_uvmfree_beyond hgt hlt

/-- A program without segments. -/
def emptyElf : List UInt8 := leBytes 4 ELF_MAGIC ++ List.replicate 60 0

/-- Is there memory for its stack? -/
def emptyLoads (k : Kmem) (tf : Nat) : Bool :=
  match procPagetable tf k with
  | .error _ _ => false
  | .ok t k =>
    match uvmalloc t 0 (3 * PGSIZE) true false k with
    | .error _ _ => false
    | .ok (t', sz) k =>
      match uvmclear t' 0 k with
      | .error _ _ => false
      | .ok t'' _ => !t.isNil && sz == 3 * PGSIZE && (t''.get 2).any fun e => e.perm.u && e.perm.w

/-- The stack is there, and the arguments fit. -/
theorem wp_pushStack_empty {E : Vm.Stop → Kmem → Prop}
    (hw : (t.get 2).any (fun e => e.perm.u && e.perm.w) = true) :
    wp (pushStack t (3 * PGSIZE) [] p) (fun r _ => r.2 ≠ none) E k := by
  obtain ⟨e, hget, hperm⟩ := (Option.any_eq_true _ _).mp hw
  obtain ⟨hu, hwrite⟩ := Bool.and_eq_true_iff.mp hperm
  have hpage : pgrounddown (3 * PGSIZE - 16) = 2 * PGSIZE := by decide
  have hdiv : 2 * PGSIZE / PGSIZE = 2 := by decide
  simp only [pushStack, pushArgs, wp_bind, wp_pure]
  rw [if_neg (by decide), wp_bind]
  -- the null word goes into the last page
  change wp (copyoutLoop (fun _ => t) 8 p (3 * PGSIZE - 16) (0 :: List.replicate 7 0)) _ _ _
  simp only [copyoutLoop, hpage]
  rw [if_neg (by decide), wp_bind]
  refine wp_walkaddr (by decide) (by rwa [hdiv]) hu ?_
  simp only [wp_bind, wp_pure]
  refine wp_walk (by decide) ?_
  rw [hdiv, find_of_get hget]
  simp only [hwrite, if_true, wp_bind, wp_modify]
  exact wp_pure.mpr (Option.some_ne_none _)

theorem wp_kexec_empty (hload : emptyLoads k p.trapframe = true) (hgt : MAXVA < p.sz)
    (hlt : p.sz + PGSIZE ≤ UINT64) :
    wp (Xv6.kexec p [] (some emptyElf) []) (fun _ _ => False) (fun _ _ => True) k := by
  have hheader : ¬ ((readi emptyElf 0 Elfhdr.size).length ≠ Elfhdr.size ∨
      (Elfhdr.ofBytes (readi emptyElf 0 Elfhdr.size)).magic ≠ ELF_MAGIC) := by decide +kernel
  have hphnum : (Elfhdr.ofBytes (readi emptyElf 0 Elfhdr.size)).phnum = 0 := by decide +kernel
  unfold emptyLoads at hload
  split at hload
  · cases hload
  next t₁ k₁ h₁ =>
  split at hload
  · cases hload
  next t₂ sz k₂ h₂ =>
  split at hload
  · cases hload
  next t₃ k₃ h₃ =>
  simp only [Bool.and_eq_true, Bool.not_eq_true', beq_iff_eq] at hload
  obtain ⟨⟨hnil, rfl⟩, hw⟩ := hload
  simp only [Xv6.kexec, hphnum, Xv6.loadLoop]
  rw [if_neg hheader, wp_bind]
  refine wp_of_eq h₁ ?_
  rw [if_neg (by rw [hnil]; decide), wp_bind, wp_pure]
  simp only [Bool.not_true, Bool.false_eq_true, if_false]
  rw [wp_bind]
  refine wp_of_eq h₂ ?_
  have hguard : 3 * PGSIZE - (USERSTACK + 1) * PGSIZE = 0 := rfl
  dsimp only
  rw [if_neg (by decide), hguard, wp_bind]
  refine wp_of_eq h₃ ?_
  rw [wp_bind]
  refine (wp_pushStack_empty hw).imp fun r k₄ hr => ?_
  obtain ⟨p', r⟩ := r
  cases r with
  | none => exact absurd rfl hr
  | some sp =>
    simp only [setReg]
    rw [wp_bind, wp_modify, wp_bind, wp_modify, wp_bind, wp_modify, wp_bind]
    exact (wp_procFreepagetable_beyond hgt hlt).imp fun _ _ h => h.elim

theorem exists_emptyLoads : ∃ k p, Owns k.IsPage k p ∧ emptyLoads k p.trapframe = true := by
  obtain ⟨k, p, howns, -, hload⟩ := @exists_owns [] (fun k p => emptyLoads k p.trapframe) [] (by decide +kernel)
  exact ⟨k, p, howns, hload⟩

end

/-! ## The whole call -/

section
variable {k : Kmem} {p : Proc} {f : Files} {fuel : Nat}

theorem wp_kexec_call {path : List UInt8} {file : Option (List UInt8)} {argv : List Arg}
    {E : Stop → State → Prop} (h : Pages k.IsPage k p) (hE : p.sz ≤ MAXVA ∨ ∀ e s, E e s)
    (hfile : ∀ bytes ∈ file, Sized bytes) (hfuel : UINT / PGSIZE < fuel) (hf : f.locked = false) :
    wp (kexec fuel p path file argv) (fun r s => s.files = f ∧ (r.2 = -1 → Refused k p s.kmem r)) E ⟨k, f⟩ := by
  have hE' : p.sz ≤ MAXVA ∨ ∀ e k, ∀ f, E (.vm e) ⟨k, f⟩ := hE.imp_right fun hE e k f => hE _ _
  refine wp_kexec_sim hfile hfuel hf
    ((wp_kexec_view h hE' h.free_length).imp fun r k' hpost => ⟨rfl, fun hr => ?_⟩)
  obtain ⟨-, hrefused | ⟨f, -, hstarted⟩⟩ := hpost
  · exact hrefused
  · obtain ⟨t, rfl⟩ := hstarted.proc
    exact absurd hr (by dsimp only; omega)

theorem wp_sysExec_call {find : List UInt8 → Option (List UInt8)} {upath uargv : Nat} (h : Owns k.IsPage k p)
    (hfile : ∀ path, ∀ bytes ∈ find path, Sized bytes) (hfuel : UINT / PGSIZE < fuel) (hf : f.locked = false) :
    wp (sysExec fuel find p upath uargv) (fun r s => s.files = f ∧ Keeps k.IsPage k p s.kmem r.1 ∧
      (r.2 = -1 → Undisturbed k.IsPage k p s.kmem r.1)) (fun _ _ => False) ⟨k, f⟩ := by
  refine wp_sysExec_sim hfile hfuel hf ((wp_sysExec_view h h.pages.free_length).imp fun r k' hpost => ?_)
  exact ⟨rfl, hpost⟩

/-- Whatever is in the file and whatever the arguments are, and whenever pages run out, `exec`
returns, with the inode closed and the operation ended. -/
theorem kexec_ends {path : List UInt8} {file : Option (List UInt8)} {argv : List Arg} (h : Pages k.IsPage k p)
    (hsz : p.sz ≤ MAXVA) (hfile : ∀ bytes ∈ file, Sized bytes) (hfuel : UINT / PGSIZE < fuel)
    (hf : f.locked = false) : ∃ p' r k', kexec fuel p path file argv ⟨k, f⟩ = .ok (p', r) ⟨k', f⟩ := by
  have hwp : wp (kexec fuel p path file argv) _ (fun _ _ => False) ⟨k, f⟩ :=
    wp_kexec_call h (.inl hsz) hfile hfuel hf
  obtain ⟨⟨p', r⟩, ⟨k', f'⟩, hrun, hfiles, -⟩ := hwp.returns
  obtain rfl : f' = f := hfiles
  exact ⟨p', r, k', hrun⟩

theorem sized_emptyElf : ∀ bytes ∈ some emptyElf, Sized bytes := by
  rintro _ ⟨rfl⟩
  rw [Sized]
  decide +kernel

/-- A process whose size is above `MAXVA` cannot start a program: its old image cannot be freed. -/
theorem kexec_empty_panics (hload : emptyLoads k p.trapframe = true) (hgt : MAXVA < p.sz)
    (hlt : p.sz + PGSIZE ≤ UINT64) (hf : f.locked = false) :
    wp (kexec (UINT / PGSIZE + 1) p [] (some emptyElf) []) (fun _ _ => False) (fun _ _ => True) ⟨k, f⟩ :=
  wp_kexec_sim sized_emptyElf (Nat.lt_succ_self _) hf
    ((wp_kexec_empty hload hgt hlt).mono (fun _ _ h => h) fun _ _ _ _ => trivial)

/-- `exec` returns for all processes of a size, all files, arguments and failures of `kalloc`, if
and only if the size is at most `MAXVA`. -/
theorem kexec_survives_iff {sz : Nat} (hsz : sz + PGSIZE ≤ UINT64) :
    (∀ (k : Kmem) (p : Proc) (f : Files) (fuel : Nat) (path : List UInt8) (file : Option (List UInt8))
      (argv : List Arg), Pages k.IsPage k p → p.sz = sz → (∀ bytes ∈ file, Sized bytes) →
      UINT / PGSIZE < fuel → f.locked = false →
      ∃ p' r k', kexec fuel p path file argv ⟨k, f⟩ = .ok (p', r) ⟨k', f⟩) ↔ sz ≤ MAXVA := by
  constructor
  · intro hall
    by_contra hgt
    obtain ⟨k, p, howns, hload⟩ := exists_emptyLoads
    have hgt := Nat.not_le.mp hgt
    obtain ⟨p', r, k', hrun⟩ := hall k { p with sz := sz } ⟨0, 1, false⟩ _ [] (some emptyElf) []
      (howns.resize (trapframe_le.trans hgt.le)) rfl sized_emptyElf (Nat.lt_succ_self _) rfl
    exact (kexec_empty_panics (p := { p with sz := sz }) hload hgt hsz rfl).of_ok hrun
  · rintro hle k p f fuel path file argv h rfl hfile hfuel hf
    exact kexec_ends h hle hfile hfuel hf

theorem sized_smallElf : ∀ bytes ∈ some smallElf, Sized bytes := by
  rintro _ ⟨rfl⟩
  rw [Sized]
  decide +kernel

/-- A process that has grown by two pages runs the small program. -/
theorem kexec_survives_small : ∃ k p p' r k', Pages k.IsPage k p ∧ p.sz = 8192 ∧
    kexec (UINT / PGSIZE + 1) p [] (some smallElf) smallArgs ⟨k, ⟨0, 1, false⟩⟩ = .ok (p', r) ⟨k', ⟨0, 1, false⟩⟩ := by
  obtain ⟨k, p, howns, -, hsz, -⟩ := exists_lazy
  obtain ⟨p', r, k', hrun⟩ := (kexec_survives_iff (by decide : 8192 + PGSIZE ≤ UINT64)).mpr (by decide) k p
    ⟨0, 1, false⟩ (UINT / PGSIZE + 1) [] (some smallElf) smallArgs howns.pages hsz sized_smallElf
    (Nat.lt_succ_self _) rfl
  exact ⟨k, p, p', r, k', howns.pages, hsz, hrun⟩

/-- After 129 lazy calls `sbrk(0x7fffffff)`, even a program without segments panics. -/
theorem kexec_panics_oversize : ∃ (s₀ s : Vm.System 1) (p : Proc), Vm.boot Vm.smallImage 3 [] = some s₀ ∧
    Sys.Run Vm.Step s₀ (Vm.lazyGrowth 0) s ∧ s.proc 0 = .live p ∧ MAXVA < p.sz ∧
    ∃ e s', kexec (UINT / PGSIZE + 1) p [] (some emptyElf) [] ⟨(s.begin []).kmem, ⟨0, 1, false⟩⟩ = .error e s' := by
  have hexec : ((Vm.boot Vm.smallImage 3 [] : Option (Vm.System 1)).bind fun s₀ =>
      Sys.exec Vm.next s₀ (Vm.lazyGrowth 0)).any (checkLive [] (fun k p =>
        decide (emptyLoads k p.trapframe = true ∧ MAXVA < p.sz ∧ p.sz + PGSIZE ≤ UINT64)) · 0) = true := by
    decide +kernel
  obtain ⟨s, hs, hcheck⟩ := Sys.exists_of_any hexec
  obtain ⟨s₀, hboot, hs⟩ := Option.bind_eq_some_iff.mp hs
  unfold checkLive at hcheck
  split at hcheck
  · next p hp =>
    obtain ⟨hload, hgt, hlt⟩ := of_decide_eq_true hcheck
    obtain ⟨e, s', hrun, -⟩ := (kexec_empty_panics (f := ⟨0, 1, false⟩) hload hgt hlt rfl).stops
    exact ⟨s₀, s, p, hboot, Sys.exec_run hs, hp, hgt, e, s', hrun⟩
  · cases hcheck

/-- When `exec` fails, the process, its registers and its memory are as before, the free pages are
the same, and so are the files. When the whole system call fails, its arguments may have been
faulted in, and every other page is back where it was. -/
theorem failed_exec_undisturbed (h : Pages k.IsPage k p) (hfuel : UINT / PGSIZE < fuel) (hf : f.locked = false) :
    (∀ path file argv p' s, (∀ bytes ∈ file, Sized bytes) →
      kexec fuel p path file argv ⟨k, f⟩ = .ok (p', -1) s →
      p' = p ∧ s.files = f ∧ (s.kmem.freelist : Multiset Nat) = k.freelist ∧
      s.kmem.page p.trapframe = k.page p.trapframe ∧ (∀ a, userByte s.kmem p' a = userByte k p a) ∧
      ∀ x ∉ k.freelist, s.kmem.page x = k.page x) ∧
    ∀ find upath uargv p' s, p.sz ≤ TRAPFRAME → (∀ path, ∀ bytes ∈ find path, Sized bytes) →
      sysExec fuel find p upath uargv ⟨k, f⟩ = .ok (p', -1) s →
      p'.sz = p.sz ∧ p'.name = p.name ∧ p'.trapframe = p.trapframe ∧ s.files = f ∧
      stock s.kmem p'.pagetable = stock k p.pagetable ∧
      s.kmem.page p.trapframe = k.page p.trapframe ∧ ∀ a, userByte s.kmem p' a = userByte k p a := by
  refine ⟨fun path file argv p' s hfile hrun => ?_, fun find upath uargv p' s hsz hfile hrun => ?_⟩
  · obtain ⟨hfiles, hrefused⟩ := (wp_kexec_call h (.inr fun _ _ => trivial) hfile hfuel hf).of_ok hrun
    have hr := hrefused rfl
    obtain rfl : p' = p := (Prod.mk.inj hr.result).1
    refine ⟨rfl, hfiles, hr.free, hr.inside.keeps_page h.trapframe_notMem, fun a => ?_,
      fun x hx => hr.inside.keeps_page hx⟩
    unfold userByte
    cases hget : p'.pagetable.get (a / PGSIZE) with
    | none => rfl
    | some e => simp only [hr.inside.keeps_page (notMem_free h.nodup hget)]
  · obtain ⟨hfiles, hkeeps, hund⟩ := (wp_sysExec_call (h.owns hsz) hfile hfuel hf).of_ok hrun
    have hu := hund rfl
    exact ⟨hu.sz, hu.name, hu.trapframe, hfiles, hkeeps.stock, hu.frame, hu.byte⟩

/-- The small program, when a page for its page table is missing. -/
theorem failed_exec_undisturbed_small : ∃ k p s, Pages k.IsPage k p ∧
    kexec (UINT / PGSIZE + 1) p [] (some smallElf) smallArgs ⟨k, ⟨0, 1, false⟩⟩ = .ok (p, -1) s ∧
    s.files = ⟨0, 1, false⟩ ∧ (s.kmem.freelist : Multiset Nat) = k.freelist := by
  obtain ⟨k, p, p', k', howns, hrun⟩ := exists_exec_fails
  have hfuel : UINT / PGSIZE < UINT / PGSIZE + 1 := Nat.lt_succ_self _
  have hmem : wp (Xv6.kexec p [] (some smallElf) smallArgs) (fun r _ => r.2 = -1) (fun _ _ => False) k := by
    rw [wp, hrun]
  have hwp : wp (kexec (UINT / PGSIZE + 1) p [] (some smallElf) smallArgs) (fun r _ => r.2 = -1)
      (fun _ _ => False) ⟨k, ⟨0, 1, false⟩⟩ :=
    wp_kexec_sim sized_smallElf hfuel rfl (hmem.mono (fun _ _ h => h) fun _ _ h _ => h)
  obtain ⟨⟨p', r⟩, s, hrun, hr⟩ := hwp.returns
  obtain rfl : r = -1 := hr
  obtain ⟨hp, hfiles, hfree, -⟩ :=
    (failed_exec_undisturbed howns.pages hfuel rfl).1 _ _ _ _ _ sized_smallElf hrun
  subst hp
  exact ⟨k, p', s, howns.pages, hrun, hfiles, hfree⟩

end

end Xv6.Exec
