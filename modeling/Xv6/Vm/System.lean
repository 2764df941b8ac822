-- SUMMARY: All processes and the page allocator: the system calls that move physical pages, as steps of one system.
import Xv6.Base.Transition
import Xv6.Vm.Proc

/-!
# Processes and their pages

The process table with the memory of each process, the pipes, and the pages that the kernel
took for good when it booted. A step is one system call or one page fault, or the `kexec` by
which the first process becomes `/init`. Its label says which calls of `kalloc` are refused even
though there are free pages.
-/

namespace Xv6.Vm

open Prog

/-- A slot of the process table; a zombie still has its memory. -/
inductive Slot
  | unused
  | live (p : Proc)
  | zombie (p : Proc)

structure Pipe where
  page : Nat
  readopen : Bool
  writeopen : Bool

structure System (n : Nat) where
  kmem : Kmem
  proc : Fin n → Slot
  pipes : List Pipe
  /-- Page tables and stacks of the kernel, and the rings of the disk. -/
  kept : List Nat

inductive Act (n : Nat)
  /-- The call of `kexec` in the first `forkret`. If it fails, `panic("exec")` ends the run. -/
  | forkret (i : Fin n) (files : List UInt8 → Option (List UInt8))
  | sbrk (i : Fin n) (k t : Int)
  /-- A page fault in user code. -/
  | fault (i : Fin n) (va : Nat)
  /-- What system calls copy from and to user memory. -/
  | copyin (i : Fin n) (va len : Nat)
  | copyout (i : Fin n) (va : Nat) (bytes : List UInt8)
  | fork (i j : Fin n)
  | exec (i : Fin n) (files : List UInt8 → Option (List UInt8)) (upath uargv : Nat)
  | exit (i : Fin n)
  | wait (i j : Fin n) (addr xstate : Nat)
  | pipe (i : Fin n) (fdarray : Nat) (files : Bool) (fds : Option (Nat × Nat))
  /-- The last descriptor of one end of a pipe goes away. -/
  | pipeclose (k : Nat) (writable : Bool)

abbrev SysM (n : Nat) := EStateM Vm.Stop (System n)

variable {n : Nat}

/-- Run a computation on the memory of the system. -/
def onKmem {α : Type} (m : VmM α) : SysM n α := fun s =>
  match m s.kmem with
  | .ok a k => .ok a { s with kmem := k }
  | .error e k => .error e { s with kmem := k }

def setProc (i : Fin n) (x : Slot) : SysM n Unit :=
  modify fun s => { s with proc := Function.update s.proc i x }

/-- A system call of process `i`, with the process that it leaves. -/
def onProc (i : Fin n) (call : Proc → SysM n Proc) : SysM n Unit := do
  let s ← get
  match s.proc i with
  | .live p => do
    let p ← call p
    setProc i (.live p)
  | _ => pure ()

def addPipe (page : Nat) : SysM n Unit :=
  modify fun s => { s with pipes := ⟨page, true, true⟩ :: s.pipes }

/-- `pipeclose`. -/
def pipeclose (k : Nat) (writable : Bool) : SysM n Unit := do
  let s ← get
  match s.pipes[k]? with
  | none => pure ()
  | some pi => do
    let pi := if writable then { pi with writeopen := false } else { pi with readopen := false }
    if pi.readopen = false ∧ pi.writeopen = false then do
      set { s with pipes := s.pipes.eraseIdx k }
      onKmem (kfree pi.page)
    else
      set { s with pipes := s.pipes.set k pi }

/-- `"/init"`, the path and the argument. -/
def initArg : Arg := ⟨[47, 105, 110, 105, 116], by decide⟩

def perform : Act n → SysM n Unit
  | .forkret i files => onProc i fun p => do
    let r ← onKmem (kexec p initArg.bytes (files initArg.bytes) [initArg])
    pure r.1
  | .sbrk i k t => onProc i fun p => do
    let r ← onKmem (sysSbrk p k t)
    pure r.1
  | .fault i va => onProc i fun p => do
    let r ← onKmem (vmfault Proc.pagetable p va)
    pure r.1
  | .copyin i va len => onProc i fun p => do
    let r ← onKmem (Xv6.copyin p va len)
    pure r.1
  | .copyout i va bytes => onProc i fun p => do
    let r ← onKmem (Xv6.copyout Proc.pagetable p va bytes)
    pure r.1
  | .fork i j => onProc i fun p => do
    let s ← get
    match s.proc j with
    | .unused => do
      match ← onKmem (kfork p) with
      | some np => setProc j (.live np)
      | none => pure ()
      pure p
    | _ => pure p
  | .exec i files upath uargv => onProc i fun p => do
    let r ← onKmem (sysExec files p upath uargv)
    pure r.1
  | .exit i => do
    let s ← get
    match s.proc i with
    | .live p => setProc i (.zombie p)
    | _ => pure ()
  | .wait i j addr xstate => onProc i fun p => do
    let s ← get
    match s.proc j with
    | .zombie np => do
      let r ← onKmem (kwaitReap p np addr xstate)
      if r.2 then setProc j .unused else pure ()
      pure r.1
    | _ => pure p
  | .pipe i fdarray files fds => onProc i fun p => do
    let r ← onKmem (sysPipe p fdarray files fds)
    match r.2 with
    | some page => addPipe page
    | none => pure ()
    pure r.1
  | .pipeclose k writable => pipeclose k writable

/-- The system before a call: the oracle for `kalloc`, and no page freed yet. -/
def System.begin (s : System n) (fails : List Bool) : System n :=
  { s with kmem := { s.kmem with fails := fails, freed := [] } }

/-- A system call that returns. -/
def next (s : System n) (e : Act n × List Bool) : Option (System n) :=
  match perform e.1 (s.begin e.2) with
  | .ok _ s' => some s'
  | .error _ _ => none

def Step (s : System n) (e : Act n × List Bool) (s' : System n) : Prop := next s e = some s'

/-- After `kinit` the kernel takes some pages for good, and `userinit` makes process 0. -/
def boot [NeZero n] (image : KernelImage) (pages : Nat) (fails : List Bool) : Option (System n) :=
  let k := kinit image
  match allocproc { k.setFreelist (k.freelist.drop pages) with fails := fails } with
  | .ok (some p) k' =>
    some ⟨k', Function.update (fun _ => .unused) 0 (.live p), [], k.freelist.take pages⟩
  | _ => none

end Xv6.Vm
