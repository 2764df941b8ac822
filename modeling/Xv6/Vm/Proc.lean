-- SUMMARY: The memory of processes: page faults, `sbrk`, `fork`, `exec`, and the end of a process.
import Xv6.Kernel.Param
import Xv6.Vm.PageTable

/-!
# Memory of a process

The parts of `kernel/proc.c`, `kernel/sysproc.c`, `kernel/vm.c` and `kernel/exec.c` that
build and change the memory of processes. Of `struct proc` there are the fields that they
use; the registers of a process are in its trapframe page.
-/

namespace Xv6

open Prog Radix

/-- User stack pages. -/
abbrev USERSTACK : Nat := 2

abbrev SBRK_EAGER : Int := 1

structure Proc where
  sz : Nat
  pagetable : Pagetable
  /-- The address of the page for `trampoline.S`. -/
  trapframe : Nat
  name : List UInt8

/-- Offsets in `struct trapframe`, and its size. -/
abbrev Trapframe.epc : Nat := 24
abbrev Trapframe.sp : Nat := 48
abbrev Trapframe.a0 : Nat := 112
abbrev Trapframe.a1 : Nat := 120
abbrev Trapframe.size : Nat := 288

/-- Set a register in a trapframe page. -/
def setReg (trapframe off v : Nat) : VmM Unit :=
  modify fun k => k.write trapframe (Bytes.putLE (k.page trapframe) off 8 v)

/-! ## The page table of a process -/

/-- `proc_pagetable`; the absent tree on failure. -/
def procPagetable (trapframe : Nat) : VmM Pagetable := do
  let t ← uvmcreate
  if t.isNil then
    pure .nil
  else do
    let k ← get
    let (t, ok) ← mappages t TRAMPOLINE PGSIZE k.image.trampoline ⟨true, false, true, false⟩
    if !ok then do
      uvmfree t 0
      pure .nil
    else do
      let (t, ok) ← mappages t TRAPFRAME PGSIZE trapframe ⟨true, true, false, false⟩
      if !ok then do
        let t ← uvmunmap t TRAMPOLINE 1 false
        uvmfree t 0
        pure .nil
      else
        pure t

def procFreepagetable (t : Pagetable) (sz : Nat) : VmM Unit := do
  let t ← uvmunmap t TRAMPOLINE 1 false
  let t ← uvmunmap t TRAPFRAME 1 false
  uvmfree t sz

/-! ## Faults and copies -/

/-- `vmfault(pagetable, va)`: the process afterwards, and the address of the new page. The
argument `table` says which table is meant, the one of the process or another one; the page
is mapped in the one of the process. -/
def vmfault (table : Proc → Pagetable) (p : Proc) (va : Nat) : VmM (Proc × Option Nat) := do
  if va ≥ p.sz then
    pure (p, none)
  else if ← ismapped (table p) (pgrounddown va) then
    pure (p, none)
  else
    match ← kalloc with
    | none => pure (p, none)
    | some mem => do
      modify (·.memset mem 0)
      let (t, ok) ← mappages p.pagetable (pgrounddown va) PGSIZE mem ⟨true, true, false, true⟩
      if ok then
        pure ({ p with pagetable := t }, some mem)
      else do
        kfree mem
        pure ({ p with pagetable := t }, none)

/-- The `w` bytes of a number in memory. -/
def leBytes (w v : Nat) : List UInt8 := (List.range w).map fun i => UInt8.ofNat (v / 256 ^ i)

/-- Replace the bytes of a page from `off` on. -/
def patch (m : Bytes.Mem) (off : Nat) (bytes : List UInt8) : Bytes.Mem := fun i =>
  if off ≤ i ∧ i < off + bytes.length then bytes.getD (i - off) 0 else m i

/-- The loop of `copyout`. Every turn copies a byte at least, so `bytes.length` turns
are enough. -/
def copyoutLoop (table : Proc → Pagetable) :
    Nat → Proc → Nat → List UInt8 → VmM (Proc × Bool)
  | _, p, _, [] => pure (p, true)
  | 0, p, _, _ => pure (p, false)
  | fuel + 1, p, dstva, bytes => do
    let va0 := pgrounddown dstva
    if va0 ≥ MAXVA then
      pure (p, false)
    else
      let (p, pa0) ← do
        match ← walkaddr (table p) va0 with
        | some pa => pure (p, some pa)
        | none => vmfault table p va0
      match pa0 with
      | none => pure (p, false)
      | some pa0 =>
        match ← walk (table p) va0 with
        | none => throw .nullPointer
        | some none => pure (p, false)
        | some (some pte) =>
          if pte.perm.w then do
            let m := min (PGSIZE - (dstva - va0)) bytes.length
            modify fun k => k.write pa0 (patch (k.page pa0) (dstva - va0) (bytes.take m))
            copyoutLoop table fuel p (va0 + PGSIZE) (bytes.drop m)
          else
            pure (p, false)

/-- `copyout`; the result says whether it returns 0. -/
def copyout (table : Proc → Pagetable) (p : Proc) (dstva : Nat) (bytes : List UInt8) :
    VmM (Proc × Bool) :=
  copyoutLoop table bytes.length p dstva bytes

/-- The loop of `copyin` from the memory of `p`, with the bytes so far. -/
def copyinLoop : Nat → Proc → Nat → Nat → List UInt8 → VmM (Proc × Option (List UInt8))
  | _, p, _, 0, bytes => pure (p, some bytes)
  | 0, p, _, _, _ => pure (p, none)
  | fuel + 1, p, srcva, len, bytes => do
    let va0 := pgrounddown srcva
    let (p, pa0) ← do
      match ← walkaddr p.pagetable va0 with
      | some pa => pure (p, some pa)
      | none => vmfault Proc.pagetable p va0
    match pa0 with
    | none => pure (p, none)
    | some pa0 => do
      let n := min (PGSIZE - (srcva - va0)) len
      let k ← get
      copyinLoop fuel p (va0 + PGSIZE) (len - n)
        (bytes ++ (List.range n).map fun i => k.page pa0 (srcva - va0 + i))

/-- `copyin` of `len` bytes; `none` if it returns -1. -/
def copyin (p : Proc) (srcva len : Nat) : VmM (Proc × Option (List UInt8)) :=
  copyinLoop len p srcva len []

/-- The loop of `copyinstr`; it does not fault pages in. -/
def copyinstrLoop (t : Pagetable) : Nat → Nat → Nat → List UInt8 → VmM (Option (List UInt8))
  | 0, _, _, _ => pure none
  | _, _, 0, _ => pure none
  | fuel + 1, srcva, max, bytes => do
    let va0 := pgrounddown srcva
    match ← walkaddr t va0 with
    | none => pure none
    | some pa0 => do
      let n := min (PGSIZE - (srcva - va0)) max
      let k ← get
      let new := (List.range n).map fun i => k.page pa0 (srcva - va0 + i)
      if 0 ∈ new then
        pure (some (bytes ++ new.takeWhile (· ≠ 0)))
      else
        copyinstrLoop t fuel (va0 + PGSIZE) (max - n) (bytes ++ new)

/-- `copyinstr`: the string without its null byte. -/
def copyinstr (t : Pagetable) (srcva max : Nat) : VmM (Option (List UInt8)) :=
  copyinstrLoop t max srcva max []

/-- `fetchaddr`. -/
def fetchaddr (p : Proc) (addr : Nat) : VmM (Proc × Option Nat) := do
  if addr ≥ p.sz ∨ (addr + 8) % UINT64 > p.sz then
    pure (p, none)
  else do
    let (p, bytes) ← copyin p addr 8
    pure (p, bytes.map fun b => Bytes.getLE (fun i => b.getD i 0) 0 8)

/-! ## Size changes -/

def growproc (p : Proc) (n : Int) : VmM (Proc × Int) := do
  if n > 0 then
    let (t, sz) ← uvmalloc p.pagetable p.sz (addInt p.sz n) true false
    if sz = 0 then
      pure ({ p with pagetable := t }, -1)
    else
      pure ({ p with pagetable := t, sz := sz }, 0)
  else if n < 0 then
    let (t, sz) ← uvmdealloc p.pagetable p.sz (addInt p.sz n)
    pure ({ p with pagetable := t, sz := sz }, 0)
  else
    pure (p, 0)

/-- An `int` argument of a system call. -/
def argint (x : Int) : Int := x.bmod (2 ^ 32)

/-- `sys_sbrk` with the raw arguments `n` and `t`. The result is the old size, or -1. -/
def sysSbrk (p : Proc) (n t : Int) : VmM (Proc × Int) := do
  let n := argint n
  let addr := p.sz
  if argint t = SBRK_EAGER ∨ n < 0 then
    let (p, r) ← growproc p n
    pure (p, if r < 0 then -1 else addr)
  else if addInt addr n < addr then
    pure (p, -1)
  else
    pure ({ p with sz := addInt p.sz n }, addr)

/-! ## Beginning and end -/

/-- The part of `freeproc` about memory. -/
def freeproc (trapframe : Option Nat) (t : Pagetable) (sz : Nat) : VmM Unit := do
  match trapframe with
  | some pa => kfree pa
  | none => pure ()
  if t.isNil then pure () else procFreepagetable t sz

def allocproc : VmM (Option Proc) := do
  match ← kalloc with
  | none => do
    freeproc none .nil 0
    pure none
  | some trapframe => do
    let t ← procPagetable trapframe
    if t.isNil then do
      freeproc (some trapframe) .nil 0
      pure none
    else
      pure (some ⟨0, t, trapframe, []⟩)

/-- `kfork`: the child. -/
def kfork (p : Proc) : VmM (Option Proc) := do
  match ← allocproc with
  | none => pure none
  | some np => do
    let (t, ok) ← uvmcopy p.pagetable np.pagetable p.sz
    if !ok then do
      freeproc (some np.trapframe) t np.sz
      pure none
    else do
      modify fun k => k.write np.trapframe (patch (k.page np.trapframe) 0
        ((List.range Trapframe.size).map (k.page p.trapframe)))
      setReg np.trapframe Trapframe.a0 0
      pure (some ⟨p.sz, t, np.trapframe, p.name⟩)

/-! ## exec -/

/-- `readi` into kernel memory, on a file without holes. `off` and `n` are `uint`. -/
def readi (file : List UInt8) (off n : Nat) : List UInt8 :=
  if off > file.length ∨ (off + n) % UINT < off then [] else (file.drop off).take n

/-- The number in the `w` bytes from `off` on. -/
def field (bytes : List UInt8) (off w : Nat) : Nat := Bytes.getLE (fun i => bytes.getD i 0) off w

structure Elfhdr where
  magic : Nat
  entry : Nat
  phoff : Nat
  phnum : Nat

abbrev Elfhdr.size : Nat := 64

abbrev ELF_MAGIC : Nat := 0x464C457F

def Elfhdr.ofBytes (b : List UInt8) : Elfhdr := ⟨field b 0 4, field b 24 8, field b 32 8, field b 56 2⟩

structure Proghdr where
  type : Nat
  flags : Nat
  off : Nat
  vaddr : Nat
  filesz : Nat
  memsz : Nat

abbrev Proghdr.size : Nat := 56

abbrev ELF_PROG_LOAD : Nat := 1

def Proghdr.ofBytes (b : List UInt8) : Proghdr :=
  ⟨field b 0 4, field b 4 4, field b 8 8, field b 16 8, field b 32 8, field b 40 8⟩

/-- The loop of `loadseg`, at offset `i` of the segment. -/
def loadsegLoop (t : Pagetable) (va : Nat) (file : List UInt8) (offset sz : Nat) :
    Nat → Nat → VmM Bool
  | 0, _ => pure true
  | k + 1, i => do
    match ← walkaddr t ((va + i) % UINT64) with
    | none => throw .loadseg
    | some pa => do
      let n := min (sz - i) PGSIZE
      let data := readi file ((offset + i) % UINT) n
      modify fun m => m.write pa (patch (m.page pa) 0 data)
      if data.length = n then
        loadsegLoop t va file offset sz k (i + PGSIZE)
      else
        pure false

/-- `offset` and `sz` are `uint` parameters. -/
def loadseg (t : Pagetable) (va : Nat) (file : List UInt8) (offset sz : Nat) : VmM Bool :=
  loadsegLoop t va file (offset % UINT) (sz % UINT) (turns 0 (sz % UINT)) 0

/-- The loop over the program headers: the table and the size, and whether all is well. -/
def loadLoop (file : List UInt8) : Nat → Nat → Pagetable → Nat → VmM (Pagetable × Nat × Bool)
  | 0, _, t, sz => pure (t, sz, true)
  | k + 1, off, t, sz => do
    let bytes := readi file off Proghdr.size
    let ph := Proghdr.ofBytes bytes
    let next := (off + Proghdr.size) % UINT
    if bytes.length ≠ Proghdr.size then
      pure (t, sz, false)
    else if ph.type ≠ ELF_PROG_LOAD then
      loadLoop file k next t sz
    else if ph.memsz < ph.filesz then
      pure (t, sz, false)
    else if (ph.vaddr + ph.memsz) % UINT64 < ph.vaddr then
      pure (t, sz, false)
    else if ph.vaddr % PGSIZE ≠ 0 then
      pure (t, sz, false)
    else do
      -- `flags2perm`
      let (t, sz1) ← uvmalloc t sz ((ph.vaddr + ph.memsz) % UINT64) (ph.flags.testBit 1)
        (ph.flags.testBit 0)
      if sz1 = 0 then
        pure (t, sz, false)
      else if ← loadseg t ph.vaddr file ph.off ph.filesz then
        loadLoop file k next t sz1
      else
        pure (t, sz1, false)

/-- A string argument that `sys_exec` has fetched into a page of its own. -/
structure Arg where
  bytes : List UInt8
  fits : bytes.length < PGSIZE

/-- The loop that pushes the strings: the process, `sp` and `ustack`, or `none` at `bad`. -/
def pushArgs (table : Proc → Pagetable) (stackbase : Nat) :
    List Arg → Proc → Nat → List Nat → VmM (Proc × Option (Nat × List Nat))
  | [], p, sp, ustack => pure (p, some (sp, ustack))
  | arg :: args, p, sp, ustack => do
    if ustack.length ≥ MAXARG then
      pure (p, none)
    else
      let sp := addInt sp (-(arg.bytes.length + 1))
      let sp := sp - sp % 16
      if sp < stackbase then
        pure (p, none)
      else do
        let (p, ok) ← copyout table p sp (arg.bytes ++ [0])
        if ok then
          pushArgs table stackbase args p sp (ustack ++ [sp])
        else
          pure (p, none)

/-- The words of `ustack`, with the null word at its end. -/
def ustackBytes (ustack : List Nat) : List UInt8 := (ustack ++ [0]).flatMap (leBytes 8)

/-- The new stack: `sp`, or `none` at `bad`. -/
def pushStack (t : Pagetable) (sz : Nat) (argv : List Arg) (p : Proc) :
    VmM (Proc × Option Nat) := do
  let stackbase := sz - USERSTACK * PGSIZE
  let (p, r) ← pushArgs (fun _ => t) stackbase argv p sz []
  match r with
  | none => pure (p, none)
  | some (sp, ustack) =>
    let sp := addInt sp (-((argv.length + 1) * 8))
    let sp := sp - sp % 16
    if sp < stackbase then
      pure (p, none)
    else do
      let (p, ok) ← copyout (fun _ => t) p sp (ustackBytes ustack)
      pure (p, if ok then some sp else none)

/-- The part of the path after its last slash, cut to the size of `p->name`. -/
def lastName (path : List UInt8) : List UInt8 :=
  ((path.reverse.takeWhile (· ≠ 47)).reverse).take 15

/-- `kexec(path, argv)`, where `file` has the contents of the file that `namei` finds. The
result is `argc`, or -1. -/
def kexec (p : Proc) (path : List UInt8) (file : Option (List UInt8)) (argv : List Arg) :
    VmM (Proc × Int) := do
  match file with
  | none => pure (p, -1)
  | some file =>
    let bytes := readi file 0 Elfhdr.size
    let elf := Elfhdr.ofBytes bytes
    if bytes.length ≠ Elfhdr.size ∨ elf.magic ≠ ELF_MAGIC then
      pure (p, -1)
    else do
      let t ← procPagetable p.trapframe
      if t.isNil then
        pure (p, -1)
      else do
        let (t, sz, ok) ← loadLoop file elf.phnum (elf.phoff % UINT) t 0
        if !ok then do
          procFreepagetable t sz
          pure (p, -1)
        else do
          let oldsz := p.sz
          let sz := pgroundup sz
          let (t, sz1) ← uvmalloc t sz ((sz + (USERSTACK + 1) * PGSIZE) % UINT64) true false
          if sz1 = 0 then do
            procFreepagetable t sz
            pure (p, -1)
          else do
            let sz := sz1
            let t ← uvmclear t (sz - (USERSTACK + 1) * PGSIZE)
            let (p, r) ← pushStack t sz argv p
            match r with
            | none => do
              procFreepagetable t sz
              pure (p, -1)
            | some sp => do
              setReg p.trapframe Trapframe.a1 sp
              setReg p.trapframe Trapframe.epc elf.entry
              setReg p.trapframe Trapframe.sp sp
              procFreepagetable p.pagetable oldsz
              pure (⟨sz, t, p.trapframe, lastName path⟩, argv.length)

/-! ## The system calls around them -/

abbrev MAXPATH : Nat := 128

/-- The string in a page that `fetchstr` has filled. -/
def Arg.ofBytes (b : List UInt8) : Arg where
  bytes := b.take (PGSIZE - 1)
  fits := by
    rw [List.length_take]
    simp only [PGSIZE]
    omega

/-- The loop of `sys_exec`, with the pages and strings so far; `i` counts up to `MAXARG`. -/
def fetchArgs (uargv : Nat) :
    Nat → Nat → Proc → List Nat → List Arg → VmM (Proc × List Nat × Option (List Arg))
  | 0, _, p, pages, _ => pure (p, pages, none)
  | k + 1, i, p, pages, args => do
    let (p, uarg) ← fetchaddr p ((uargv + 8 * i) % UINT64)
    match uarg with
    | none => pure (p, pages, none)
    | some uarg =>
      if uarg = 0 then
        pure (p, pages, some args)
      else
        match ← kalloc with
        | none => pure (p, pages, none)
        | some pa => do
          match ← copyinstr p.pagetable uarg PGSIZE with
          | none => pure (p, pages ++ [pa], none)
          | some str => fetchArgs uargv k (i + 1) p (pages ++ [pa]) (args ++ [.ofBytes str])

/-- `sys_exec`, where `files` has what `namei` finds. -/
def sysExec (files : List UInt8 → Option (List UInt8)) (p : Proc) (upath uargv : Nat) :
    VmM (Proc × Int) := do
  match ← copyinstr p.pagetable upath MAXPATH with
  | none => pure (p, -1)
  | some path => do
    let (p, pages, args) ← fetchArgs uargv MAXARG 0 p [] []
    match args with
    | none => do
      pages.forM kfree
      pure (p, -1)
    | some args => do
      let (p, ret) ← kexec p path (files path) args
      pages.forM kfree
      pure (p, ret)

/-- The memory part of `sys_pipe`: `files` says whether there are two free files, and `fds`
has the two descriptors if there are any. The result has the page of the pipe. -/
def sysPipe (p : Proc) (fdarray : Nat) (files : Bool) (fds : Option (Nat × Nat)) :
    VmM (Proc × Option Nat) := do
  if !files then
    pure (p, none)
  else
    match ← kalloc with
    | none => pure (p, none)
    | some pi =>
      match fds with
      | none => do
        kfree pi
        pure (p, none)
      | some (fd0, fd1) => do
        let (p, ok) ← copyout Proc.pagetable p fdarray (leBytes 4 fd0)
        if ok then do
          let (p, ok) ← copyout Proc.pagetable p ((fdarray + 4) % UINT64) (leBytes 4 fd1)
          if ok then
            pure (p, some pi)
          else do
            kfree pi
            pure (p, none)
        else do
          kfree pi
          pure (p, none)

/-- The end of `kwait` for the exited child `np`: is it reaped? -/
def kwaitReap (p np : Proc) (addr : Nat) (xstate : Nat) : VmM (Proc × Bool) := do
  if addr ≠ 0 then
    let (p, ok) ← copyout Proc.pagetable p addr (leBytes 4 xstate)
    if ok then do
      freeproc (some np.trapframe) np.pagetable np.sz
      pure (p, true)
    else
      pure (p, false)
  else do
    freeproc (some np.trapframe) np.pagetable np.sz
    pure (p, true)

end Xv6
