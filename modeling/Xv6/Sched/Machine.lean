-- SUMMARY: CPUs, spinlocks, context switches and the code of `kernel/proc.c` that runs on them.
import Xv6.Base.Code
import Xv6.Base.Transition
import Xv6.Proc.Table
import Mathlib.Algebra.GroupWithZero.Nat
import Mathlib.Data.List.FinRange

/-!
# Machine

Any number of CPUs run the kernel threads of `proc.c`: one thread for each process, on the
kernel stack of that process, and one for the scheduler of each CPU. The code of a thread is
a tree of operations, and every operation is a step of its own: taking or releasing a
spinlock, one access to a slot of `proc[]`, a context switch. An interrupt may come whenever
the CPU holds no spinlock.

The rest of the kernel is a parameter: its locks, sleep channels and shared data, and the
code of its system calls and interrupt handlers, which calls `proc.c`.
-/

namespace Xv6.Sched

open Proc (ProcState incInt)

/-- What the rest of the kernel brings: locks, channels to sleep on, data, and accesses to
the data. -/
structure Sig where
  Lk : Type
  Ch : Type
  Data : Type
  Act : Type
  Res : Act → Type
  act : (a : Act) → Data → Res a × Data
  [lkEq : DecidableEq Lk]
  [chEq : DecidableEq Ch]

attribute [instance] Sig.lkEq Sig.chEq

variable {K : Sig} {n m : Nat}

inductive Lock (K : Sig) (n : Nat)
  | proc (i : Fin n)
  | wait
  | client (l : K.Lk)
  deriving DecidableEq

theorem Lock.wait_ne (i : Fin n) : (Lock.wait : Lock K n) ≠ .proc i := nofun

theorem Lock.client_ne (l : K.Lk) (i : Fin n) : (Lock.client l : Lock K n) ≠ .proc i := nofun

/-- `kwait` sleeps on the address of its process. -/
inductive Chan (K : Sig) (n : Nat)
  | proc (i : Fin n)
  | client (ch : K.Ch)
  deriving DecidableEq

/-- The fields of `struct proc` that `p->lock` and `wait_lock` protect. -/
structure Slot (K : Sig) (n : Nat) where
  state : ProcState
  chan : Option (Chan K n)
  killed : Bool
  xstate : Int
  pid : Int
  parent : Option (Fin n)

/-- A free slot: `procinit` finds it so, and `freeproc` leaves it so. -/
def Slot.empty : Slot K n := ⟨.unused, none, false, 0, 0, none⟩

/-- Assignments to the fields of a slot. Those that stand together in one constructor are
made under `p->lock`, and no one reads these fields without it. -/
inductive Write (K : Sig) (n : Nat)
  | state (x : ProcState)
  /-- `p->chan = chan; p->state = SLEEPING;` -/
  | sleep (chan : Option (Chan K n))
  /-- `p->chan = 0;` -/
  | awake
  /-- `p->killed = 1;` -/
  | killed
  | parent (q : Fin n)
  /-- `p->pid = allocpid(); p->state = USED;` -/
  | alloc (pid : Int)
  /-- `p->xstate = status; p->state = ZOMBIE;` -/
  | exit (status : Int)
  /-- `freeproc(p)` -/
  | free
  /-- `freeproc(pp)` in a `kwait` that returns `pid` and has copied out `status`. -/
  | reap (pid : Int) (status : Option Int)

def Write.apply (x : Slot K n) : Write K n → Slot K n
  | .state st => { x with state := st }
  | .sleep chan => { x with chan := chan, state := .sleeping }
  | .awake => { x with chan := none }
  | .killed => { x with killed := true }
  | .parent q => { x with parent := some q }
  | .alloc pid => { x with pid := pid, state := .used }
  | .exit status => { x with xstate := status, state := .zombie }
  | .free => .empty
  | .reap _ _ => .empty

/-- The operations of kernel code, on the CPU that executes it. -/
inductive Op (K : Sig) (n : Nat)
  | acquire (l : Lock K n)
  | release (l : Lock K n)
  | holding (l : Lock K n)
  /-- `mycpu()->noff` -/
  | noff
  | myproc
  | read (i : Fin n)
  | write (i : Fin n) (w : Write K n)
  /-- Set `p->context` up to start at `forkret`. -/
  | setContext (i : Fin n)
  | allocpid
  /-- `c->proc = p` -/
  | setProc (p : Option (Fin n))
  /-- `swtch(&c->context, &p->context)` -/
  | swtchTo (p : Fin n)
  /-- `swtch(&p->context, &mycpu()->context)` -/
  | swtch
  | act (a : K.Act)
  /-- Did something outside this model fail? -/
  | choose
  | panic

@[reducible] def Op.Res : Op K n → Type
  | .holding _ => Bool
  | .noff => Nat
  | .myproc => Option (Fin n)
  | .read _ => Slot K n
  | .allocpid => Int
  | .act a => K.Res a
  | .choose => Bool
  | .panic => Empty
  | _ => Unit

abbrev KCode (K : Sig) (n : Nat) := Code (Op K n) Op.Res

section
variable (l : Lock K n) (i : Fin n)

def acquire : KCode K n Unit := .perform (Op.acquire l)
def release : KCode K n Unit := .perform (Op.release l)
def holding : KCode K n Bool := .perform (Op.holding l)
def noff : KCode K n Nat := .perform Op.noff
def myproc : KCode K n (Option (Fin n)) := .perform Op.myproc
def read : KCode K n (Slot K n) := .perform (Op.read i)
def write (w : Write K n) : KCode K n Unit := .perform (Op.write i w)
def setContext : KCode K n Unit := .perform (Op.setContext i)
def allocpid : KCode K n Int := .perform Op.allocpid
def setProc (p : Option (Fin n)) : KCode K n Unit := .perform (Op.setProc p)
def swtchTo : KCode K n Unit := .perform (Op.swtchTo i)
def swtch : KCode K n Unit := .perform Op.swtch
def act (a : K.Act) : KCode K n (K.Res a) := .perform (Op.act a)
def choose : KCode K n Bool := .perform Op.choose
def panic {α : Type} : KCode K n α := .op .panic Empty.elim

/-- The process of this CPU, where the code follows the pointer that `myproc` returns. -/
def self : KCode K n (Fin n) := do
  match ← myproc with
  | some p => pure p
  | none => panic

end

/-! ## `proc.c` -/

def sched : KCode K n Unit := do
  let p ← self
  if !(← holding (.proc p)) then
    -- sched p->lock
    panic
  else if (← noff) ≠ 1 then
    -- sched locks
    panic
  else if (← read p).state = .running then
    -- sched RUNNING
    panic
  else
    swtch

def yield : KCode K n Unit := do
  let p ← self
  acquire (.proc p)
  write p (.state .runnable)
  sched
  release (.proc p)

def sleep (chan : Option (Chan K n)) (lk : Lock K n) : KCode K n Unit := do
  let p ← self
  acquire (.proc p)
  release lk
  write p (.sleep chan)
  sched
  write p .awake
  release (.proc p)
  acquire lk

/-- One round of `wakeup`. -/
def wakeupOne (chan : Option (Chan K n)) (p : Fin n) : KCode K n Unit := do
  if some p ≠ (← myproc) then
    acquire (.proc p)
    let x ← read p
    if x.state = .sleeping ∧ x.chan = chan then
      write p (.state .runnable)
    release (.proc p)

def wakeup (chan : Option (Chan K n)) : KCode K n Unit :=
  (List.finRange n).forM (wakeupOne chan)

def kkillFrom (pid : Int) : List (Fin n) → KCode K n Int
  | [] => pure (-1)
  | p :: ps => do
    acquire (.proc p)
    let x ← read p
    if x.pid = pid then
      write p .killed
      if x.state = .sleeping then
        -- wake process from sleep()
        write p (.state .runnable)
      release (.proc p)
      pure 0
    else
      release (.proc p)
      kkillFrom pid ps

def kkill (pid : Int) : KCode K n Int := kkillFrom pid (List.finRange n)

def setkilled (p : Fin n) : KCode K n Unit := do
  acquire (.proc p)
  write p .killed
  release (.proc p)

def killed (p : Fin n) : KCode K n Bool := do
  acquire (.proc p)
  let x ← read p
  release (.proc p)
  pure x.killed

/-- `allocproc` after `found:`. It returns with `p->lock` held. -/
def allocprocFound (p : Fin n) : KCode K n (Option (Fin n)) := do
  let pid ← allocpid
  write p (.alloc pid)
  -- is there no page for the trapframe, or no page table?
  if ← choose then
    write p .free
    release (.proc p)
    pure none
  else if ← choose then
    write p .free
    release (.proc p)
    pure none
  else
    setContext p
    pure (some p)

def allocprocFrom : List (Fin n) → KCode K n (Option (Fin n))
  | [] => pure none
  | p :: ps => do
    acquire (.proc p)
    let x ← read p
    if x.state = .unused then
      allocprocFound p
    else
      release (.proc p)
      allocprocFrom ps

def allocproc : KCode K n (Option (Fin n)) := allocprocFrom (List.finRange n)

def kfork : KCode K n Int := do
  let p ← self
  match ← allocproc with
  | none => pure (-1)
  | some np =>
    -- does `uvmcopy` fail?
    if ← choose then
      write np .free
      release (.proc np)
      pure (-1)
    else
      let x ← read np
      release (.proc np)
      acquire .wait
      write np (.parent p)
      release .wait
      acquire (.proc np)
      write np (.state .runnable)
      release (.proc np)
      pure x.pid

section
variable [NeZero n]

def initproc : Fin n := 0

def reparentOne (p pp : Fin n) : KCode K n Unit := do
  let x ← read pp
  if x.parent = some p then
    write pp (.parent initproc)
    wakeup (some (.proc initproc))

def reparent (p : Fin n) : KCode K n Unit := (List.finRange n).forM (reparentOne p)

/-- `kexit`, after it has closed the files of the process. It does not return. -/
def kexit {α : Type} (status : Int) : KCode K n α := do
  let p ← self
  if p = initproc then
    -- init exiting
    panic
  else
    acquire .wait
    reparent p
    let x ← read p
    wakeup (x.parent.map .proc)
    acquire (.proc p)
    write p (.exit status)
    release .wait
    sched
    -- zombie exit
    panic

end

/-- Does `addr != 0 && copyout(..) < 0` hold? -/
def copyoutFails (copy : Bool) : KCode K n Bool := if copy then choose else pure false

/-- `kwait` has found the zombie `pp`, and holds both locks. -/
def kwaitFound (copy : Bool) (pp : Fin n) (x : Slot K n) : KCode K n Int := do
  if ← copyoutFails copy then
    release (.proc pp)
    release .wait
    pure (-1)
  else
    write pp (.reap x.pid (if copy then some x.xstate else none))
    release (.proc pp)
    release .wait
    pure x.pid

/-- The scan of `kwait` over the table, with `wait_lock` held. It ends with `havekids`, or
with the result of `kwait`, and then the locks are released. -/
def kwaitScan (p : Fin n) (copy : Bool) : Bool → List (Fin n) → KCode K n (Bool ⊕ Int)
  | havekids, [] => pure (.inl havekids)
  | havekids, pp :: ps => do
    let x ← read pp
    if x.parent = some p then
      -- make sure the child isn't still in exit() or swtch()
      acquire (.proc pp)
      let y ← read pp
      if y.state = .zombie then
        pure (.inr (← kwaitFound copy pp y))
      else
        release (.proc pp)
        kwaitScan p copy true ps
    else
      kwaitScan p copy havekids ps

/-- `!havekids || killed(p)` -/
def kwaitHopeless (havekids : Bool) (p : Fin n) : KCode K n Bool :=
  if havekids then killed p else pure true

/-- One round of the `for(;;)` of `kwait`: the result, or none if it has to go on. -/
def kwaitRound (copy : Bool) : KCode K n (Option Int) := do
  let p ← self
  match ← kwaitScan p copy false (List.finRange n) with
  | .inr pid => pure (some pid)
  | .inl havekids =>
    if ← kwaitHopeless havekids p then
      release .wait
      pure (some (-1))
    else
      sleep (some (.proc p)) .wait
      pure none

def schedulerOne (p : Fin n) : KCode K n Unit := do
  acquire (.proc p)
  let x ← read p
  if x.state = .runnable then
    write p (.state .running)
    setProc (some p)
    swtchTo p
    setProc none
  release (.proc p)

/-- One pass of the `for(;;)` of `scheduler` over the table. -/
def schedulerPass : KCode K n Unit := (List.finRange n).forM schedulerOne

/-- `forkret`, up to the return to user space. -/
def forkret : KCode K n Unit := do
  let p ← self
  release (.proc p)

/-! ## The rest of the kernel -/

/-- What other kernel code may do, apart from `kwait`. -/
inductive Req (K : Sig) (n : Nat)
  | acquire (l : K.Lk)
  | release (l : K.Lk)
  | act (a : K.Act)
  | choose
  | myproc
  | sleep (ch : K.Ch) (l : K.Lk)
  | wakeup (ch : K.Ch)
  | yield
  | kkill (pid : Int)
  | setkilled
  | killed
  | kfork
  | kexit (status : Int)

@[reducible] def Req.Res : Req K n → Type
  | .act a => K.Res a
  | .choose => Bool
  | .myproc => Option (Fin n)
  | .kkill _ => Int
  | .killed => Bool
  | .kfork => Int
  | .kexit _ => Empty
  | _ => Unit

abbrev Script (K : Sig) (n : Nat) := Code (Req K n) Req.Res

namespace Script

def acquire (l : K.Lk) : Script K n Unit := .perform (Req.acquire l)
def release (l : K.Lk) : Script K n Unit := .perform (Req.release l)
def act (a : K.Act) : Script K n (K.Res a) := .perform (Req.act a)
def sleep (ch : K.Ch) (l : K.Lk) : Script K n Unit := .perform (Req.sleep ch l)
def wakeup (ch : K.Ch) : Script K n Unit := .perform (Req.wakeup ch)
def killed : Script K n Bool := .perform Req.killed
def setkilled : Script K n Unit := .perform Req.setkilled
def kkill (pid : Int) : Script K n Int := .perform (Req.kkill pid)
def kfork : Script K n Int := .perform Req.kfork
def kexit {α : Type} (status : Int) : Script K n α := .op (.kexit status) Empty.elim

end Script

def Req.code [NeZero n] : (q : Req K n) → KCode K n q.Res
  | .acquire l => Sched.acquire (.client l)
  | .release l => Sched.release (.client l)
  | .act a => Sched.act a
  | .choose => Sched.choose
  | .myproc => Sched.myproc
  | .sleep ch l => Sched.sleep (some (.client ch)) (.client l)
  | .wakeup ch => Sched.wakeup (some (.client ch))
  | .yield => Sched.yield
  | .kkill pid => Sched.kkill pid
  | .setkilled => do Sched.setkilled (← self)
  | .killed => do Sched.killed (← self)
  | .kfork => Sched.kfork
  | .kexit status => Sched.kexit status

/-- What an interrupt handler does under its lock. -/
inductive Signal (K : Sig)
  | act (a : K.Act)
  | wakeup (ch : K.Ch)

@[reducible] def Signal.Res : Signal K → Type
  | .act a => K.Res a
  | .wakeup _ => Unit

def Signal.code : (q : Signal K) → KCode K n q.Res
  | .act a => Sched.act a
  | .wakeup ch => Sched.wakeup (some (.client ch))

/-- Device interrupts: the lock that the handler takes, and what it does then. -/
structure Handler (K : Sig) where
  lk : K.Lk
  body : Code (Signal K) Signal.Res Unit

def Handler.code (h : Handler K) : KCode K n Unit := do
  acquire (.client h.lk)
  h.body.expand Signal.code
  release (.client h.lk)

/-- Where a process can be between two pieces of code: at a point of the client (in user
space, or at the head of a loop of a system call), or in `kwait`. -/
inductive Goto (κ : Type)
  | client (k : κ)
  | kwait (copy : Bool) (k : Int → κ)

/-- The code of the rest of the kernel. A process at a point `k` goes on with the code that
`k` has for some input. -/
structure Client (K : Sig) (n : Nat) where
  Ctl : Type
  Input : Type
  Intr : Type
  start : Ctl
  code : Ctl → Input → Script K n (Goto Ctl)
  handler : Intr → Handler K

variable {P : Client K n}

/-- All points between two pieces of code. -/
inductive Point (κ : Type)
  | client (k : κ)
  | kwait (copy : Bool) (k : Int → κ)
  | kwaitLoop (copy : Bool) (k : Int → κ)
  | scheduler

def Goto.point {κ : Type} : Goto κ → Point κ
  | .client k => .client k
  | .kwait copy k => .kwait copy k

/-- The code that follows a point of the client. -/
def enter [NeZero n] (P : Client K n) (k : P.Ctl) (input : P.Input) : KCode K n (Point P.Ctl) := do
  let g ← (P.code k input).expand Req.code
  pure g.point

/-- The code that follows the other points. -/
def resume {κ : Type} : Point κ → Option (KCode K n (Point κ))
  | .client _ => none
  | .kwait copy k => some do
    acquire .wait
    pure (.kwaitLoop copy k)
  | .kwaitLoop copy k => some do
    match ← kwaitRound copy with
    | some pid => pure (.client (k pid))
    | none => pure (.kwaitLoop copy k)
  | .scheduler => some do
    schedulerPass
    pure .scheduler

/-- A process that `forkret` has started. -/
def started (P : Client K n) : KCode K n (Point P.Ctl) := do
  forkret
  pure (.client P.start)

/-! ## States -/

structure Cpu (n : Nat) where
  proc : Option (Fin n)
  noff : Nat
  /-- The process whose kernel stack, or whose user code, the CPU executes. If there is none,
  it executes its scheduler. -/
  stack : Option (Fin n)

structure Shared (K : Sig) (n m : Nat) where
  slot : Fin n → Slot K n
  cpu : Fin m → Cpu n
  /-- The CPU that holds a lock. -/
  lock : Lock K n → Option (Fin m)
  data : K.Data
  nextpid : Int

/-- Kernel threads: one for each process and one for the scheduler of each CPU. -/
abbrev Tid (n m : Nat) := Fin n ⊕ Fin m

structure Machine (P : Client K n) (m : Nat) where
  shared : Shared K n m
  code : Tid n m → KCode K n (Point P.Ctl)

namespace Shared

/-- The thread that a CPU executes. -/
def tid (s : Shared K n m) (c : Fin m) : Tid n m :=
  match (s.cpu c).stack with
  | some p => .inl p
  | none => .inr c

def setCpu (s : Shared K n m) (c : Fin m) (x : Cpu n) : Shared K n m :=
  { s with cpu := Function.update s.cpu c x }

def setSlot (s : Shared K n m) (i : Fin n) (x : Slot K n) : Shared K n m :=
  { s with slot := Function.update s.slot i x }

def setLock (s : Shared K n m) (l : Lock K n) (holder : Option (Fin m)) : Shared K n m :=
  { s with lock := Function.update s.lock l holder }

section
variable (s : Shared K n m) (c : Fin m) (x : Cpu n) (i : Fin n) (y : Slot K n) (l : Lock K n)
  (holder : Option (Fin m))

@[simp] theorem setCpu_slot : (s.setCpu c x).slot = s.slot := rfl
@[simp] theorem setCpu_lock : (s.setCpu c x).lock = s.lock := rfl
@[simp] theorem setCpu_data : (s.setCpu c x).data = s.data := rfl
@[simp] theorem setCpu_self : (s.setCpu c x).cpu c = x := Function.update_self ..
theorem setCpu_ne {c' : Fin m} (h : c' ≠ c) : (s.setCpu c x).cpu c' = s.cpu c' :=
  Function.update_of_ne h ..
@[simp] theorem setSlot_cpu : (s.setSlot i y).cpu = s.cpu := rfl
@[simp] theorem setSlot_lock : (s.setSlot i y).lock = s.lock := rfl
@[simp] theorem setSlot_data : (s.setSlot i y).data = s.data := rfl
@[simp] theorem setSlot_tid : (s.setSlot i y).tid = s.tid := rfl
@[simp] theorem setSlot_self : (s.setSlot i y).slot i = y := Function.update_self ..
theorem setSlot_ne {j : Fin n} (h : j ≠ i) : (s.setSlot i y).slot j = s.slot j :=
  Function.update_of_ne h ..
@[simp] theorem setLock_slot : (s.setLock l holder).slot = s.slot := rfl
@[simp] theorem setLock_cpu : (s.setLock l holder).cpu = s.cpu := rfl
@[simp] theorem setLock_data : (s.setLock l holder).data = s.data := rfl
@[simp] theorem setLock_self : (s.setLock l holder).lock l = holder := Function.update_self ..
theorem setLock_ne {l' : Lock K n} (h : l' ≠ l) : (s.setLock l holder).lock l' = s.lock l' :=
  Function.update_of_ne h ..

end

/-- One operation on CPU `c`. A CPU that spins on a lock, or that has panicked, takes no
step. -/
def exec (s : Shared K n m) (c : Fin m) (choice : Bool) :
    (o : Op K n) → Option (o.Res × Shared K n m)
  | .acquire l =>
    if s.lock l = none then
      some ((), (s.setLock l (some c)).setCpu c { s.cpu c with noff := (s.cpu c).noff + 1 })
    else none
  | .release l =>
    if s.lock l = some c then
      some ((), (s.setLock l none).setCpu c { s.cpu c with noff := (s.cpu c).noff - 1 })
    else none
  | .holding l => some (decide (s.lock l = some c), s)
  | .noff => some ((s.cpu c).noff, s)
  | .myproc => some ((s.cpu c).proc, s)
  | .read i => some (s.slot i, s)
  | .write i w => some ((), s.setSlot i (w.apply (s.slot i)))
  | .setContext _ => some ((), s)
  | .allocpid => some (s.nextpid, { s with nextpid := incInt s.nextpid })
  | .setProc p => some ((), s.setCpu c { s.cpu c with proc := p })
  | .swtchTo p => some ((), s.setCpu c { s.cpu c with stack := some p })
  | .swtch => some ((), s.setCpu c { s.cpu c with stack := none })
  | .act a => some ((K.act a s.data).1, { s with data := (K.act a s.data).2 })
  | .choose => some (choice, s)
  | .panic => none

section
variable {s s' : Shared K n m} {c d : Fin m} {choice : Bool} {o : Op K n} {r : o.Res}

/-- Only writes change slots. -/
theorem exec_slot (h : s.exec c choice o = some (r, s')) (ho : ∀ i w, o ≠ .write i w) :
    s'.slot = s.slot := by
  cases o with
  | write i w => exact absurd rfl (ho i w)
  | panic => cases h
  | acquire l | release l =>
    simp only [exec] at h
    split at h
    · cases h
      rfl
    · cases h
  | _ =>
    cases h
    rfl

/-- Only accesses of the client change its data. -/
theorem exec_data (h : s.exec c choice o = some (r, s')) (ho : ∀ a, o ≠ .act a) :
    s'.data = s.data := by
  cases o with
  | act a => exact absurd rfl (ho a)
  | panic => cases h
  | acquire l | release l =>
    simp only [exec] at h
    split at h
    · cases h
      rfl
    · cases h
  | _ =>
    cases h
    rfl

/-- Locks change only when they are taken or released. -/
theorem exec_lock (h : s.exec c choice o = some (r, s')) {l : Lock K n} (hacquire : o ≠ .acquire l)
    (hrelease : o ≠ .release l) : s'.lock l = s.lock l := by
  cases o with
  | panic => cases h
  | acquire l' | release l' =>
    simp only [exec] at h
    split at h
    · cases h
      exact setLock_ne _ _ _ fun heq => by simp [heq] at *
    · cases h
  | _ =>
    cases h
    rfl

/-- An operation concerns the CPU that does it. -/
theorem exec_cpu (h : s.exec c choice o = some (r, s')) (hd : d ≠ c) : s'.cpu d = s.cpu d := by
  cases o with
  | panic => cases h
  | acquire l | release l =>
    simp only [exec] at h
    split at h
    · cases h
      exact setCpu_ne _ _ _ hd
    · cases h
  | setProc p | swtchTo p | swtch =>
    cases h
    exact setCpu_ne _ _ _ hd
  | _ =>
    cases h
    rfl

end

end Shared

/-- What happens on a CPU. -/
inductive Label (P : Client K n)
  /-- The next operation of the code. -/
  | op (choice : Bool)
  /-- The next piece of code. -/
  | enter (input : P.Input)
  | resume
  /-- Interrupts. -/
  | timer
  | device (h : P.Intr)

/-- `k` operations on CPU `c` in which nothing fails. -/
def ops (c : Fin m) (k : Nat) : List (Fin m × Label P) := List.replicate k (c, .op false)

namespace Machine

def setCode (M : Machine P m) (t : Tid n m) (x : KCode K n (Point P.Ctl)) : Machine P m :=
  { M with code := Function.update M.code t x }

@[simp] theorem setCode_shared (M : Machine P m) (t : Tid n m) (x : KCode K n (Point P.Ctl)) :
    (M.setCode t x).shared = M.shared := rfl

@[simp] theorem setCode_self (M : Machine P m) (t : Tid n m) (x : KCode K n (Point P.Ctl)) :
    (M.setCode t x).code t = x := Function.update_self ..

theorem setCode_ne (M : Machine P m) {t u : Tid n m} (x : KCode K n (Point P.Ctl)) (h : u ≠ t) :
    (M.setCode t x).code u = M.code u := Function.update_of_ne h ..

/-- `setContext` is the only operation that changes the code of another thread. -/
def afterOp (M : Machine P m) : Op K n → Machine P m
  | .setContext i => M.setCode (.inl i) (started P)
  | _ => M

@[simp] theorem afterOp_shared (M : Machine P m) (o : Op K n) : (M.afterOp o).shared = M.shared := by
  cases o <;> rfl

variable [NeZero n]

/-- One step of CPU `c`. -/
def next (M : Machine P m) : Fin m × Label P → Option (Machine P m)
  | (c, .op choice) =>
    match M.code (M.shared.tid c) with
    | .ret _ => none
    | .op o k =>
      (M.shared.exec c choice o).map fun x =>
        ({ M with shared := x.2 }.afterOp o).setCode (M.shared.tid c) (k x.1)
  | (c, .enter input) =>
    match M.code (M.shared.tid c) with
    | .ret (.client k) => some (M.setCode (M.shared.tid c) (enter P k input))
    | _ => none
  | (c, .resume) =>
    match M.code (M.shared.tid c) with
    | .ret p => (resume p).map (M.setCode (M.shared.tid c))
    | _ => none
  | (c, .timer) =>
    -- `kerneltrap` and `usertrap` yield if there is a process
    if (M.shared.cpu c).noff = 0 ∧ (M.shared.cpu c).proc ≠ none then
      some (M.setCode (M.shared.tid c) (yield >>= fun _ => M.code (M.shared.tid c)))
    else none
  | (c, .device h) =>
    if (M.shared.cpu c).noff = 0 then
      some (M.setCode (M.shared.tid c) ((P.handler h).code >>= fun _ => M.code (M.shared.tid c)))
    else none

def Step (M : Machine P m) (a : Fin m × Label P) (M' : Machine P m) : Prop := M.next a = some M'

end Machine

/-- The first process after `userinit`. -/
def initSlot : Slot K n := { Slot.empty with state := .runnable, pid := 1 }

/-- The state after `main` on every CPU, when the schedulers start. -/
def boot [NeZero n] (P : Client K n) (m : Nat) (data : K.Data) : Machine P m where
  shared := {
    slot := Function.update (fun _ => Slot.empty) initproc initSlot
    cpu := fun _ => ⟨none, 0, none⟩
    lock := fun _ => none
    data := data
    nextpid := 2 }
  code
    | .inl i => if i = initproc then started P else panic
    | .inr _ => .ret .scheduler

/-- The code that is there in the beginning. -/
theorem boot_code [NeZero n] {P : Client K n} {data : K.Data} {C : Tid n m → KCode K n (Point P.Ctl) → Prop}
    (hinit : C (.inl initproc) (started P)) (hnone : ∀ i, C (.inl i) panic)
    (hsched : ∀ c, C (.inr c) (.ret .scheduler)) (t : Tid n m) : C t ((boot P m data).code t) := by
  rcases t with i | c
  · by_cases hi : i = initproc
    · have hcode : (boot P m data).code (.inl i) = started P := if_pos hi
      rw [hcode, hi]
      exact hinit
    · have hcode : (boot P m data).code (.inl i) = panic := if_neg hi
      rw [hcode]
      exact hnone i
  · exact hsched c

end Xv6.Sched
