-- SUMMARY: `kernel/spinlock.c` with `scheduler`, `sched` and interrupts: threads on several CPUs.
import Xv6.Base.Transition
import Mathlib.Data.Finset.Card
import Mathlib.Logic.Function.Basic

/-!
# Spinlocks and interrupts

Each CPU runs its scheduler or the kernel thread of a process. The thread that runs acquires and
releases spinlocks in any order, calls `push_off` and `pop_off`, and may be interrupted while
interrupts are on; the interrupt handler does the same things in its place, and also calls
`yield`. A step is what a thread does while nothing else can happen on its CPU: the rest of
`push_off` after it has turned interrupts off, or a switch to another thread.

`noff`, `intena` and the interrupt enable bit belong to the CPU. The fields `count`, `first` and
`held` of a thread are not in the source; they say what the thread has done.
-/

namespace Xv6.Cpu

/-- Spinlocks: `p->lock` of each process, and others. -/
inductive Lock (n : Nat) (L : Type)
  | proc (p : Fin n)
  | other (l : L)
  deriving DecidableEq

/-- A thread: the kernel thread of a process, or the scheduler of a CPU. -/
inductive Tid (n m : Nat)
  | proc (p : Fin n)
  | sched (c : Fin m)
  deriving DecidableEq

/-- `struct cpu`, and the interrupt enable bit of the CPU. -/
structure Core (n : Nat) where
  proc : Option (Fin n)
  noff : Int
  intena : Bool
  intr : Bool

structure Spinlock (m : Nat) where
  locked : Bool
  cpu : Option (Fin m)

inductive ProcState
  | sleeping
  | runnable
  | running
  deriving DecidableEq

inductive Panic
  | acquire
  | release
  | popOffInterruptible
  | popOff
  | schedLock
  | schedLocks
  | schedRunning
  | schedInterruptible
  deriving DecidableEq

/-- Where a thread stands in `push_off` and `acquire`. -/
inductive Op (n : Nat) (L : Type)
  | idle
  /-- `push_off` has done `old = intr_get()`, called by `acquire(lk)` or directly. -/
  | reading (old : Bool) (lk : Option (Lock n L))
  /-- `acquire` waits for the lock. -/
  | spinning (lk : Lock n L)
  deriving DecidableEq

structure Thread (n : Nat) (L : Type) where
  op : Op n L
  /-- What interrupt handlers have interrupted, the last one first. -/
  outer : List (Op n L)
  /-- The variable `intena` of `sched`, if the thread is in it. A process that has not run yet
  is not. -/
  intena : Option Bool
  /-- Calls of `push_off` that are not part of an `acquire`, and not popped. -/
  raw : Nat
  /-- Calls of `push_off` that are not popped. -/
  count : Nat
  /-- Were interrupts on at the first of them? -/
  first : Bool
  held : Finset (Lock n L)

structure State (n m : Nat) (L : Type) where
  core : Fin m → Core n
  lock : Lock n L → Spinlock m
  thread : Tid n m → Thread n L
  state : Fin n → ProcState

inductive Act (n : Nat) (L : Type)
  | intrOn
  | intrOff
  /-- An interrupt, and the return from its handler. -/
  | trap
  | trapRet
  /-- `push_off` is called, and goes on. -/
  | read (lk : Option (Lock n L))
  | push
  /-- `acquire` gets the lock. -/
  | take
  | release (lk : Lock n L)
  | pop
  /-- A process sets its state and calls `sched`. -/
  | sched (st : ProcState)
  /-- The scheduler switches to a process. -/
  | swtch (p : Fin n)
  /-- `wakeup` finds a process that sleeps. -/
  | wake (p : Fin n)

variable {n m : Nat} {L : Type} [DecidableEq L]

namespace State

/-- The thread that runs. -/
def current (s : State n m L) (c : Fin m) : Tid n m :=
  match (s.core c).proc with
  | some p => .proc p
  | none => .sched c

/-- The CPU and its thread change. -/
def set (s : State n m L) (c : Fin m) (u : Core n) (t : Thread n L) : State n m L := { s with
  core := Function.update s.core c u
  thread := Function.update s.thread (s.current c) t }

def setLock (s : State n m L) (lk : Lock n L) (x : Spinlock m) : State n m L :=
  { s with lock := Function.update s.lock lk x }

/-- `swtch` on CPU `c`, from thread `x` to thread `y`, with the state that process `p` gets. -/
def switch (s : State n m L) (c : Fin m) (u : Core n) (x : Tid n m) (t : Thread n L) (y : Tid n m)
    (t' : Thread n L) (p : Fin n) (st : ProcState) : State n m L := { s with
  core := Function.update s.core c u
  thread := Function.update (Function.update s.thread x t) y t'
  state := Function.update s.state p st }

/-- `holding(lk)` on CPU `c`. -/
def Holding (s : State n m L) (c : Fin m) (lk : Lock n L) : Prop :=
  (s.lock lk).locked = true ∧ (s.lock lk).cpu = some c

instance (s : State n m L) (c : Fin m) (lk : Lock n L) : Decidable (s.Holding c lk) :=
  inferInstanceAs (Decidable (_ ∧ _))

end State

/-- `push_off` after `intr_get`. -/
def Core.pushOff (u : Core n) (old : Bool) : Core n := { u with
  intr := false
  intena := if u.noff = 0 then old else u.intena
  noff := u.noff + 1 }

def Core.popOff (u : Core n) : Except Panic (Core n) :=
  if u.intr then
    .error .popOffInterruptible
  else if u.noff < 1 then
    .error .popOff
  else
    .ok { u with
      noff := u.noff - 1
      intr := if u.noff - 1 = 0 ∧ u.intena then true else u.intr }

/-- The thread has called `push_off` with interrupts as in `intr`. -/
def Thread.pushed (t : Thread n L) (intr : Bool) (op : Op n L) : Thread n L := { t with
  op := op
  count := t.count + 1
  first := if t.count = 0 then intr else t.first }

def Thread.popped (t : Thread n L) : Thread n L := { t with count := t.count - 1 }

namespace State

/-- What the running thread does on CPU `c`, if it can; `t` is the thread. -/
def step (s : State n m L) (c : Fin m) (u : Core n) (t : Thread n L) :
    Act n L → Op n L → Option (Except Panic (State n m L))
  -- `usertrap`, `prepare_return` and the head of the loop of `scheduler`
  | .intrOn, .idle =>
    if t.outer = [] ∧ t.count = 0 then some (.ok (s.set c { u with intr := true } t)) else none
  | .intrOff, .idle =>
    if t.outer = [] ∧ t.count = 0 then some (.ok (s.set c { u with intr := false } t)) else none
  | .trap, op =>
    if u.intr then
      some (.ok (s.set c { u with intr := false } { t with op := .idle, outer := op :: t.outer }))
    else none
  | .trapRet, .idle =>
    match t.outer with
    | [] => none
    | op :: rest =>
      -- the handler has released its locks
      if t.count = 0 then
        some (.ok (s.set c { u with intr := true } { t with op := op, outer := rest }))
      else none
  | .read lk, .idle => some (.ok (s.set c u { t with op := .reading u.intr lk }))
  | .push, .reading old lk => some <| .ok <|
    match lk with
    | none => s.set c (u.pushOff old) { t.pushed u.intr .idle with raw := t.raw + 1 }
    | some lk => s.set c (u.pushOff old) (t.pushed u.intr (.spinning lk))
  | .take, .spinning lk =>
    if s.Holding c lk then
      some (.error .acquire)
    else if (s.lock lk).locked then
      none
    else
      some (.ok ((s.set c u { t with op := .idle, held := insert lk t.held }).setLock lk ⟨true, some c⟩))
  | .release lk, .idle =>
    if s.Holding c lk then
      some <| u.popOff.map fun u =>
        (s.set c u { t.popped with held := t.held.erase lk }).setLock lk ⟨false, none⟩
    else
      some (.error .release)
  | .pop, .idle =>
    if 0 < t.raw then
      some <| u.popOff.map fun u => s.set c u { t.popped with raw := t.raw - 1 }
    else none
  | .sched st, .idle =>
    match u.proc with
    | none => none
    | some p => some <|
      if ¬ s.Holding c (.proc p) then
        .error .schedLock
      else if u.noff ≠ 1 then
        .error .schedLocks
      else if st = .running then
        .error .schedRunning
      else if u.intr then
        .error .schedInterruptible
      else
        -- the lock is the scheduler's now
        .ok (s.switch c { u with proc := none }
          (.proc p) { t with intena := some u.intena, held := ∅ }
          (.sched c) { s.thread (.sched c) with held := {.proc p} } p st)
  | .swtch p, .idle =>
    if u.proc = none ∧ t.outer = [] ∧ t.held = {.proc p} ∧ t.raw = 0 ∧ s.state p = .runnable then
      let t' := s.thread (.proc p)
      some <| .ok <| s.switch c { u with proc := some p, intena := t'.intena.getD u.intena }
        (.sched c) { t with held := ∅ }
        (.proc p) { t' with
          intena := none
          first := if t'.intena = none then u.intena else t'.first
          held := {.proc p} } p .running
    else none
  | .wake p, .idle =>
    if s.Holding c (.proc p) ∧ s.state p = .sleeping then
      some (.ok { s with state := Function.update s.state p .runnable })
    else none
  | _, _ => none

/-- Nothing has run yet. The process that runs first finds the lock held by the scheduler. -/
def init : State n m L where
  core _ := ⟨none, 0, false, false⟩
  lock _ := ⟨false, none⟩
  thread
    | .proc _ => ⟨.idle, [], none, 0, 1, false, ∅⟩
    | .sched _ => ⟨.idle, [], none, 0, 0, false, ∅⟩
  state _ := .runnable

end State

def next (s : State n m L) (c : Fin m) (a : Act n L) : Option (Except Panic (State n m L)) :=
  s.step c (s.core c) (s.thread (s.current c)) a (s.thread (s.current c)).op

def Step (s : State n m L) (e : Fin m × Act n L) (s' : State n m L) : Prop :=
  next s e.1 e.2 = some (.ok s')

end Xv6.Cpu
