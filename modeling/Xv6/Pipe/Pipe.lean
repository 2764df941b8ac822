-- SUMMARY: `kernel/pipe.c`: processes that read, write and close one pipe.
import Xv6.Sched.Wakeup
import Xv6.Base.Ring
import Xv6.Kernel.Param

/-!
# Pipe

The code of `pipe.c` on the machine of `proc.c`. The heads of its loops are points of their
own, so that a call may take any number of rounds. Bytes that are copied from user memory, and
whether a copy fails, are inputs of a round.

A pipe is shared by any number of processes, which call `pipewrite`, `piperead` and `pipeclose`
in any order; they also fork, exit, wait, and are killed. The page of the pipe is freed when
both ends are closed; `file.c` makes no calls after that.
-/

namespace Xv6

open Sched

abbrev PIPESIZE : Nat := 512

/-- `struct pipe`. The last three fields are not part of it: they record what happens. -/
structure Pipe where
  data : Fin PIPESIZE → UInt8
  nread : UInt32
  nwrite : UInt32
  readopen : Bool
  writeopen : Bool
  /-- All bytes that were put into the buffer, and all that were taken out. -/
  put : List UInt8
  taken : List UInt8
  /-- Bytes were put in since the last `wakeup(&pi->nread)` of a writer. -/
  unannounced : Bool

namespace Pipe

/-- The channels `&pi->nread` and `&pi->nwrite`. -/
inductive Ch
  | nread
  | nwrite
  deriving DecidableEq

/-- Accesses to the pipe. -/
inductive Act
  | look
  /-- `pi->data[pi->nwrite++ % PIPESIZE] = ch` -/
  | put (ch : UInt8)
  /-- `ch = pi->data[pi->nread++ % PIPESIZE]` -/
  | take
  | closeRead
  | closeWrite
  /-- Not in the source: the bytes so far have been announced to the readers. -/
  | announce

/-- `pi->nwrite == pi->nread + PIPESIZE` -/
def full (pi : Pipe) : Prop := pi.nwrite = pi.nread + UInt32.ofNat PIPESIZE

instance (pi : Pipe) : Decidable pi.full := inferInstanceAs (Decidable (_ = _))

def pushed (pi : Pipe) (ch : UInt8) : Pipe := { pi with
  data := Function.update pi.data (Ring.slot pi.nwrite) ch
  nwrite := pi.nwrite + 1
  put := pi.put ++ [ch]
  unannounced := true }

def popped (pi : Pipe) : Pipe := { pi with
  nread := pi.nread + 1
  taken := pi.taken ++ [pi.data (Ring.slot pi.nread)] }

@[reducible] def sig : Sig where
  Lk := Unit
  Ch := Ch
  Data := Pipe
  Act := Act
  Res
    | .look => Pipe
    | .take => UInt8
    | _ => Unit
  act
    | .look, pi => (pi, pi)
    | .put ch, pi => ((), pi.pushed ch)
    | .take, pi => (pi.data (Ring.slot pi.nread), pi.popped)
    | .closeRead, pi => ((), { pi with readopen := false })
    | .closeWrite, pi => ((), { pi with writeopen := false })
    | .announce, pi => ((), { pi with unannounced := false })

variable {nproc : Nat}

def access (a : Act) : Script sig nproc (sig.Res a) := Script.act (K := sig) a

/-- Where a process is: in user space with the result of its last call, or at the head of a
loop of `pipewrite` or `piperead`, with `pi->lock` held. -/
inductive Ctl
  | user (ret : Int)
  | writing (i : Nat) (n : Int)
  | waiting (n : Int)
  | reading (i : Nat) (n : Int)

/-! ## `pipe.c` -/

def pipeclose (writable : Bool) : Script sig nproc (Goto Ctl) := do
  Script.acquire ()
  if writable then
    access .closeWrite
    Script.wakeup .nread
  else
    access .closeRead
    Script.wakeup .nwrite
  let pi ← access .look
  if pi.readopen = false ∧ pi.writeopen = false then
    -- the page is freed after the release
    Script.release ()
  else
    Script.release ()
  pure (.client (.user 0))

def pipewrite (n : Int) : Script sig nproc (Goto Ctl) := do
  Script.acquire ()
  pure (.client (.writing 0 n))

/-- The end of `pipewrite`. -/
def pipewriteDone (i : Nat) : Script sig nproc (Goto Ctl) := do
  Script.wakeup .nread
  access .announce
  Script.release ()
  pure (.client (.user i))

def pipewriteFails : Script sig nproc (Goto Ctl) := do
  Script.release ()
  pure (.client (.user (-1)))

/-- The pipe has room; `byte` is what `copyin` finds, if it does not fail. -/
def pipewriteCopy (i : Nat) (n : Int) : Option UInt8 → Script sig nproc (Goto Ctl)
  | none => pipewriteDone i
  | some ch => do
    access (.put ch)
    pure (.client (.writing (i + 1) n))

/-- One round of the loop of `pipewrite`. -/
def pipewriteRound (i : Nat) (n : Int) (byte : Option UInt8) : Script sig nproc (Goto Ctl) := do
  if i < n then
    let pi ← access .look
    if pi.readopen = false then
      pipewriteFails
    else if ← Script.killed then
      pipewriteFails
    else
      let pi ← access .look
      if pi.full then
        Script.wakeup .nread
        access .announce
        Script.sleep .nwrite ()
        pure (.client (.writing i n))
      else
        pipewriteCopy i n byte
  else
    pipewriteDone i

def piperead (n : Int) : Script sig nproc (Goto Ctl) := do
  Script.acquire ()
  pure (.client (.waiting n))

/-- One round of the first loop of `piperead`, which waits for bytes. -/
def pipereadWait (n : Int) : Script sig nproc (Goto Ctl) := do
  let pi ← access .look
  if pi.nread = pi.nwrite ∧ pi.writeopen = true then
    if ← Script.killed then
      Script.release ()
      pure (.client (.user (-1)))
    else
      Script.sleep .nread ()
      pure (.client (.waiting n))
  else
    pure (.client (.reading 0 n))

/-- The end of `piperead`. -/
def pipereadDone (i : Nat) : Script sig nproc (Goto Ctl) := do
  Script.wakeup .nwrite
  Script.release ()
  pure (.client (.user i))

/-- One round of the loop of `piperead` that copies; `fails` tells whether `copyout` does. -/
def pipereadRound (i : Nat) (n : Int) (fails : Bool) : Script sig nproc (Goto Ctl) := do
  if i < n then
    let pi ← access .look
    if pi.nread = pi.nwrite then
      pipereadDone i
    else
      let _ch ← access .take
      if fails then
        pipereadDone i
      else
        pure (.client (.reading (i + 1) n))
  else
    pipereadDone i

/-! ## Processes -/

/-- What a process may do in user space. -/
inductive Call
  | write (n : Int)
  | read (n : Int)
  | close (writable : Bool)
  | fork
  | exit (status : Int)
  | wait (copy : Bool)
  | kill (pid : Int)
  /-- A fault that `usertrap` kills the process for. -/
  | fault

structure Input where
  call : Call
  /-- What a copy from user memory finds. -/
  byte : Option UInt8
  /-- Does a copy to user memory fail? -/
  fails : Bool

def Call.script : Call → Script sig nproc (Goto Ctl)
  | .write n => pipewrite n
  | .read n => piperead n
  | .close writable => pipeclose writable
  | .fork => do
    let pid ← Script.kfork
    pure (.client (.user pid))
  | .exit status => .kexit status
  | .wait copy => pure (.kwait copy .user)
  | .kill pid => do
    let ret ← Script.kkill pid
    pure (.client (.user ret))
  | .fault => do
    Script.setkilled
    pure (.client (.user 0))

def script : Ctl → Input → Script sig nproc (Goto Ctl)
  | .user _, x => x.call.script
  | .writing i n, x => pipewriteRound i n x.byte
  | .waiting n, _ => pipereadWait n
  | .reading i n, x => pipereadRound i n x.fails

/-- The processes that share the pipe. -/
@[reducible] def client (nproc : Nat) : Client sig nproc where
  Ctl := Ctl
  Input := Input
  Intr := Empty
  start := .user 0
  code := script
  handler := nofun

end Pipe

end Xv6
