-- SUMMARY: The process table of `kernel/proc.c`: fork, exit, wait, kill and faults as steps under the process locks.
import Xv6.Base.Transition
import Mathlib.Algebra.GroupWithZero.Nat
import Mathlib.Logic.Function.Basic

/-!
# Process table

Each slot of `proc[]` has a kernel thread. A step is what a thread does between taking
and releasing a `p->lock` (or `wait_lock`): one turn of a scan over the table, the
allocation of a slot, an exit. Threads of any number of CPUs interleave at these points.
Whether an allocation or a copy succeeds is part of the label of a step.
-/

namespace Xv6.Proc

/-- `enum procstate`. -/
inductive ProcState
  | unused
  | used
  | sleeping
  | runnable
  | running
  | zombie
  deriving DecidableEq

/-- What a process sleeps on: a process waits for its children on its own address, and
every other channel is outside this model. -/
inductive Chan (n : Nat)
  | proc (i : Fin n)
  | other
  deriving DecidableEq

/-- The fields of `struct proc` that `p->lock` and `wait_lock` protect. -/
structure Slot (n : Nat) where
  state : ProcState
  chan : Option (Chan n)
  killed : Bool
  xstate : Int
  pid : Int
  parent : Option (Fin n)

/-- How far the kernel thread of a slot has come in a system call. A scan is about to
look at slot `i`. -/
inductive Pc (n : Nat)
  | user
  | fork (i : Nat)
  | forked (np : Fin n)
  | parented (np : Fin n)
  | exit (status : Int)
  /-- About to take `wait_lock` in `kwait`. -/
  | waiting
  | wait (i : Nat) (havekids : Bool)
  | kill (pid : Int) (i : Nat)
  | dead
  deriving DecidableEq

structure Table (n : Nat) where
  slot : Fin n → Slot n
  thread : Fin n → Pc n
  nextpid : Int
  /-- Who holds `wait_lock`? Only `kwait` keeps it for longer than one step. -/
  waitLock : Option (Fin n)
  /-- Has `userinit` run? -/
  booted : Bool

/-- What the thread of a slot does, or what happens to it. -/
inductive Act (n : Nat)
  | userinit
  | sched
  | yield
  | sleep
  | wakeup
  /-- System calls. -/
  | callFork
  | callExit (status : Int)
  | callWait
  | callKill (pid : Int)
  /-- A scan passes a slot, or ends without a result. -/
  | skip
  | giveUp
  /-- `allocproc` takes slot `i`, and `kfork` copies the caller, or one of them fails. -/
  | alloc (i : Fin n)
  | allocFail (i : Fin n)
  | setParent
  | setRunnable
  | zombie
  | lock
  /-- `kwait` frees slot `i`, or cannot copy out the exit status. -/
  | reap (i : Fin n)
  | reapFail (i : Fin n)
  | waitSleep
  /-- `kkill` finds `pid` in slot `i`. -/
  | hit (i : Fin n) (pid : Int)
  /-- A fault: `setkilled`, and then `kexit(-1)`. -/
  | fault
  deriving DecidableEq

variable {n : Nat}

/-- The `int` that follows, with wraparound. -/
def incInt (x : Int) : Int := (x + 1).bmod (2 ^ 32)

def freeproc (_ : Slot n) : Slot n := ⟨.unused, none, false, 0, 0, none⟩

namespace Table

def setSlot (s : Table n) (i : Fin n) (x : Slot n) : Table n :=
  { s with slot := Function.update s.slot i x }

def setThread (s : Table n) (p : Fin n) (pc : Pc n) : Table n :=
  { s with thread := Function.update s.thread p pc }

def setWaitLock (s : Table n) (holder : Option (Fin n)) : Table n := { s with waitLock := holder }

/-- The `found:` part of `allocproc`. Nothing touches `killed`. -/
def allocproc (s : Table n) (i : Fin n) : Table n :=
  { s.setSlot i { s.slot i with pid := s.nextpid, state := .used } with
    nextpid := incInt s.nextpid }

/-- `wakeup(chan)`. -/
def wakeup (s : Table n) (chan : Option (Chan n)) : Table n :=
  { s with slot := fun i =>
      if (s.slot i).state = .sleeping ∧ (s.slot i).chan = chan ∧ chan ≠ none then
        { s.slot i with state := .runnable }
      else s.slot i }

/-- The children of `p` become children of `init`. -/
def passChildren (s : Table n) (p init : Fin n) : Table n :=
  { s with slot := fun i =>
      if (s.slot i).parent = some p then { s.slot i with parent := some init } else s.slot i }

/-- `reparent(p)`: abandoned children go to init, which is woken for them. -/
def reparent (s : Table n) (p init : Fin n) : Table n :=
  (if ∃ i, (s.slot i).parent = some p then s.wakeup (some (.proc init)) else s).passChildren p init

/-- The slot that a scan at `i` looks at. -/
def scanned (s : Table n) (i : Nat) : Option (Fin n × Slot n) :=
  if h : i < n then some (⟨i, h⟩, s.slot ⟨i, h⟩) else none

section
variable (s : Table n) (i : Fin n) (x : Slot n) (pc : Pc n) (holder : Option (Fin n))

@[simp] theorem setSlot_self : (s.setSlot i x).slot i = x := Function.update_self ..
theorem setSlot_ne {j : Fin n} (h : j ≠ i) : (s.setSlot i x).slot j = s.slot j :=
  Function.update_of_ne h ..
@[simp] theorem setThread_slot : (s.setThread i pc).slot = s.slot := rfl
@[simp] theorem setWaitLock_slot : (s.setWaitLock holder).slot = s.slot := rfl
@[simp] theorem allocproc_slot :
    (s.allocproc i).slot = (s.setSlot i { s.slot i with pid := s.nextpid, state := .used }).slot := rfl

@[simp] theorem reparent_thread (p init : Fin n) : (s.reparent p init).thread = s.thread := by
  unfold reparent
  split <;> rfl

@[simp] theorem reparent_booted (p init : Fin n) : (s.reparent p init).booted = s.booted := by
  unfold reparent
  split <;> rfl

end

end Table

/-- `procinit`, with the zeroed table it finds. -/
def init : Table n where
  slot := fun _ => ⟨.unused, none, false, 0, 0, none⟩
  thread := fun _ => .dead
  nextpid := 1
  waitLock := none
  booted := false

/-- `kfork` while `allocproc` looks at slot `i`. If the slot is free, the caller keeps its
lock until the child is complete, or freed again. -/
def forkStep (s : Table n) (p : Fin n) (i : Nat) (a : Act n) : Option (Table n) :=
  match s.scanned i, a with
  | none, .giveUp => some (s.setThread p .user)
  | some (_, x), .skip =>
    if x.state ≠ .unused then some (s.setThread p (.fork (i + 1))) else none
  | some (j, x), .alloc k =>
    if x.state = .unused ∧ k = j then some ((s.allocproc j).setThread p (.forked j)) else none
  | some (j, x), .allocFail k =>
    if x.state = .unused ∧ k = j then
      some (((s.allocproc j).setSlot j (freeproc ((s.allocproc j).slot j))).setThread p .user)
    else none
  | _, _ => none

/-- The end of `kexit`, under `wait_lock`. -/
def exitStep (s : Table n) (p : Fin n) (status : Int) : Option (Table n) :=
  -- `init exiting`
  if p.val = 0 ∨ s.waitLock ≠ none then none
  else
    let t := (s.reparent p ⟨0, p.pos⟩).wakeup ((s.slot p).parent.map .proc)
    some ((t.setSlot p { t.slot p with xstate := status, state := .zombie }).setThread p .dead)

/-- `kwait` while it looks at slot `i`, with `wait_lock` held. -/
def waitStep (s : Table n) (p : Fin n) (i : Nat) (havekids : Bool) (a : Act n) : Option (Table n) :=
  match s.scanned i, a with
  | none, .giveUp =>
    if !havekids || (s.slot p).killed then some ((s.setWaitLock none).setThread p .user) else none
  | none, .waitSleep =>
    if !havekids || (s.slot p).killed then none
    else some (((s.setSlot p { s.slot p with chan := some (.proc p), state := .sleeping }).setWaitLock
      none).setThread p .waiting)
  | some (_, x), .skip =>
    if x.parent ≠ some p then some (s.setThread p (.wait (i + 1) havekids))
    else if x.state ≠ .zombie then some (s.setThread p (.wait (i + 1) true))
    else none
  | some (j, x), .reap k =>
    if x.parent = some p ∧ x.state = .zombie ∧ k = j then
      some (((s.setSlot j (freeproc x)).setWaitLock none).setThread p .user)
    else none
  | some (j, x), .reapFail k =>
    if x.parent = some p ∧ x.state = .zombie ∧ k = j then
      some ((s.setWaitLock none).setThread p .user)
    else none
  | _, _ => none

/-- `kkill(pid)` while it looks at slot `i`. It does not look at the state. -/
def killStep (s : Table n) (p : Fin n) (pid : Int) (i : Nat) (a : Act n) : Option (Table n) :=
  match s.scanned i, a with
  | none, .giveUp => some (s.setThread p .user)
  | some (_, x), .skip => if x.pid ≠ pid then some (s.setThread p (.kill pid (i + 1))) else none
  | some (j, x), .hit k pid' =>
    if x.pid = pid ∧ k = j ∧ pid' = pid then
      some ((s.setSlot j { x with
        killed := true
        -- wake process from sleep()
        state := if x.state = .sleeping then .runnable else x.state }).setThread p .user)
    else none
  | _, _ => none

/-- One step of a thread that is in the kernel. -/
def threadStep (s : Table n) (p : Fin n) : Pc n → Act n → Option (Table n)
  | .user, .callFork => some (s.setThread p (.fork 0))
  | .user, .callExit status => some (s.setThread p (.exit status))
  | .user, .callWait => some (s.setThread p .waiting)
  | .user, .callKill pid => some (s.setThread p (.kill pid 0))
  | .user, .sleep => some (s.setSlot p { s.slot p with chan := some .other, state := .sleeping })
  | .user, .fault =>
    some ((s.setSlot p { s.slot p with killed := true }).setThread p (.exit (-1)))
  | .fork i, a => forkStep s p i a
  | .forked np, .setParent =>
    if s.waitLock = none then
      some ((s.setSlot np { s.slot np with parent := some p }).setThread p (.parented np))
    else none
  | .parented np, .setRunnable =>
    some (((s.setSlot np { s.slot np with state := .runnable }).setThread np .user).setThread p .user)
  -- `kexit` may sleep while it closes files
  | .exit _, .sleep => some (s.setSlot p { s.slot p with chan := some .other, state := .sleeping })
  | .exit status, .zombie => exitStep s p status
  | .waiting, .lock =>
    if s.waitLock = none then some ((s.setWaitLock (some p)).setThread p (.wait 0 false)) else none
  | .wait i havekids, a => waitStep s p i havekids a
  | .kill pid i, a => killStep s p pid i a
  | _, _ => none

/-- Some thread takes a step, or is given or loses a CPU. -/
def next (s : Table n) : Fin n × Act n → Option (Table n)
  | (p, .userinit) =>
    if p.val = 0 ∧ s.booted = false then
      let t := s.allocproc p
      some { (t.setSlot p { t.slot p with state := .runnable }).setThread p .user with booted := true }
    else none
  | (p, .sched) =>
    if (s.slot p).state = .runnable then
      some (s.setSlot p { s.slot p with state := .running, chan := none })
    else none
  | (p, .yield) =>
    if (s.slot p).state = .running then some (s.setSlot p { s.slot p with state := .runnable })
    else none
  | (p, .wakeup) =>
    if (s.slot p).state = .sleeping ∧ (s.slot p).chan = some .other then
      some (s.setSlot p { s.slot p with state := .runnable })
    else none
  | (p, a) => if (s.slot p).state = .running then threadStep s p (s.thread p) a else none

def Step (s : Table n) (a : Fin n × Act n) (s' : Table n) : Prop := next s a = some s'

/-! ## Inversion -/

theorem scanned_none {s : Table n} {i : Nat} (h : s.scanned i = none) : n ≤ i := by
  unfold Table.scanned at h
  split at h
  · cases h
  · omega

theorem scanned_some {s : Table n} {i : Nat} {j : Fin n} {x : Slot n}
    (h : s.scanned i = some (j, x)) : i = j ∧ x = s.slot j := by
  unfold Table.scanned at h
  split at h
  · cases h
    exact ⟨rfl, rfl⟩
  · cases h

/-- What a thread can do, by how far it has come. -/
inductive Local (s : Table n) (p : Fin n) : Pc n → Act n → Table n → Prop
  | callFork : Local s p .user .callFork (s.setThread p (.fork 0))
  | callExit {status : Int} : Local s p .user (.callExit status) (s.setThread p (.exit status))
  | callWait : Local s p .user .callWait (s.setThread p .waiting)
  | callKill {pid : Int} : Local s p .user (.callKill pid) (s.setThread p (.kill pid 0))
  | sleep : Local s p .user .sleep
      (s.setSlot p { s.slot p with chan := some .other, state := .sleeping })
  | fault : Local s p .user .fault
      ((s.setSlot p { s.slot p with killed := true }).setThread p (.exit (-1)))
  | forkFull {i : Nat} (hi : n ≤ i) : Local s p (.fork i) .giveUp (s.setThread p .user)
  | forkSkip {j : Fin n} (hj : (s.slot j).state ≠ .unused) :
      Local s p (.fork j) .skip (s.setThread p (.fork (j + 1)))
  | alloc {j : Fin n} (hj : (s.slot j).state = .unused) :
      Local s p (.fork j) (.alloc j) ((s.allocproc j).setThread p (.forked j))
  | allocFail {j : Fin n} (hj : (s.slot j).state = .unused) :
      Local s p (.fork j) (.allocFail j)
        (((s.allocproc j).setSlot j (freeproc ((s.allocproc j).slot j))).setThread p .user)
  | setParent {np : Fin n} (hfree : s.waitLock = none) : Local s p (.forked np) .setParent
      ((s.setSlot np { s.slot np with parent := some p }).setThread p (.parented np))
  | setRunnable {np : Fin n} : Local s p (.parented np) .setRunnable
      (((s.setSlot np { s.slot np with state := .runnable }).setThread np .user).setThread p .user)
  | exitSleep {status : Int} : Local s p (.exit status) .sleep
      (s.setSlot p { s.slot p with chan := some .other, state := .sleeping })
  | zombie {status : Int} {t : Table n} (hp : p.val ≠ 0) (hfree : s.waitLock = none)
      (ht : t = (s.reparent p ⟨0, p.pos⟩).wakeup ((s.slot p).parent.map .proc)) :
      Local s p (.exit status) .zombie
        ((t.setSlot p { t.slot p with xstate := status, state := .zombie }).setThread p .dead)
  | lock (hfree : s.waitLock = none) :
      Local s p .waiting .lock ((s.setWaitLock (some p)).setThread p (.wait 0 false))
  | waitFail {i : Nat} {havekids : Bool} (hi : n ≤ i) :
      Local s p (.wait i havekids) .giveUp ((s.setWaitLock none).setThread p .user)
  | waitSleep {i : Nat} (hi : n ≤ i) (hkilled : (s.slot p).killed = false) :
      Local s p (.wait i true) .waitSleep
        (((s.setSlot p { s.slot p with chan := some (.proc p), state := .sleeping }).setWaitLock
          none).setThread p .waiting)
  | waitOther {j : Fin n} {havekids : Bool} (hj : (s.slot j).parent ≠ some p) :
      Local s p (.wait j havekids) .skip (s.setThread p (.wait (j + 1) havekids))
  | waitChild {j : Fin n} {havekids : Bool} (hj : (s.slot j).state ≠ .zombie) :
      Local s p (.wait j havekids) .skip (s.setThread p (.wait (j + 1) true))
  | reap {j : Fin n} {havekids : Bool} (hparent : (s.slot j).parent = some p)
      (hj : (s.slot j).state = .zombie) : Local s p (.wait j havekids) (.reap j)
        (((s.setSlot j (freeproc (s.slot j))).setWaitLock none).setThread p .user)
  | reapFail {j : Fin n} {havekids : Bool} :
      Local s p (.wait j havekids) (.reapFail j) ((s.setWaitLock none).setThread p .user)
  | killNone {pid : Int} {i : Nat} (hi : n ≤ i) :
      Local s p (.kill pid i) .giveUp (s.setThread p .user)
  | killSkip {pid : Int} {j : Fin n} (hj : (s.slot j).pid ≠ pid) :
      Local s p (.kill pid j) .skip (s.setThread p (.kill pid (j + 1)))
  | hit {j : Fin n} : Local s p (.kill (s.slot j).pid j) (.hit j (s.slot j).pid)
      ((s.setSlot j { s.slot j with
        killed := true
        state := if (s.slot j).state = .sleeping then .runnable else (s.slot j).state }).setThread
          p .user)

section
variable {s s' : Table n} {p : Fin n} {a : Act n}

theorem forkStep_local {i : Nat} (h : forkStep s p i a = some s') : Local s p (.fork i) a s' := by
  unfold forkStep at h
  split at h
  · next hs =>
    cases h
    exact .forkFull (scanned_none hs)
  · next hs =>
    obtain ⟨rfl, rfl⟩ := scanned_some hs
    obtain ⟨hx, ⟨⟩⟩ := Option.ite_none_right_eq_some.mp h
    exact .forkSkip hx
  · next hs =>
    obtain ⟨rfl, rfl⟩ := scanned_some hs
    obtain ⟨⟨hx, rfl⟩, ⟨⟩⟩ := Option.ite_none_right_eq_some.mp h
    exact .alloc hx
  · next hs =>
    obtain ⟨rfl, rfl⟩ := scanned_some hs
    obtain ⟨⟨hx, rfl⟩, ⟨⟩⟩ := Option.ite_none_right_eq_some.mp h
    exact .allocFail hx
  · cases h

theorem exitStep_local {status : Int} (h : exitStep s p status = some s') :
    Local s p (.exit status) .zombie s' := by
  unfold exitStep at h
  split at h
  · cases h
  · next hok =>
    simp only [ne_eq, not_or, not_not] at hok
    cases h
    exact .zombie hok.1 hok.2 rfl

theorem waitStep_local {i : Nat} {havekids : Bool} (h : waitStep s p i havekids a = some s') :
    Local s p (.wait i havekids) a s' := by
  unfold waitStep at h
  split at h
  · next hs =>
    split at h
    · cases h
      exact .waitFail (scanned_none hs)
    · cases h
  · next hs =>
    split at h
    · cases h
    · next hok =>
      simp only [Bool.or_eq_true, Bool.not_eq_true', not_or, Bool.not_eq_false,
        Bool.not_eq_true] at hok
      obtain ⟨rfl, hkilled⟩ := hok
      cases h
      exact .waitSleep (scanned_none hs) hkilled
  · next hs =>
    obtain ⟨rfl, rfl⟩ := scanned_some hs
    split at h
    · next hparent =>
      cases h
      exact .waitOther hparent
    · split at h
      · next hx =>
        cases h
        exact .waitChild hx
      · cases h
  · next hs =>
    obtain ⟨rfl, rfl⟩ := scanned_some hs
    obtain ⟨⟨hparent, hx, rfl⟩, ⟨⟩⟩ := Option.ite_none_right_eq_some.mp h
    exact .reap hparent hx
  · next hs =>
    obtain ⟨rfl, rfl⟩ := scanned_some hs
    obtain ⟨⟨-, -, rfl⟩, ⟨⟩⟩ := Option.ite_none_right_eq_some.mp h
    exact .reapFail
  · cases h

theorem killStep_local {pid : Int} {i : Nat} (h : killStep s p pid i a = some s') :
    Local s p (.kill pid i) a s' := by
  unfold killStep at h
  split at h
  · next hs =>
    cases h
    exact .killNone (scanned_none hs)
  · next hs =>
    obtain ⟨rfl, rfl⟩ := scanned_some hs
    obtain ⟨hx, ⟨⟩⟩ := Option.ite_none_right_eq_some.mp h
    exact .killSkip hx
  · next hs =>
    obtain ⟨rfl, rfl⟩ := scanned_some hs
    obtain ⟨⟨rfl, rfl, rfl⟩, ⟨⟩⟩ := Option.ite_none_right_eq_some.mp h
    exact .hit
  · cases h

theorem threadStep_local {pc : Pc n} (h : threadStep s p pc a = some s') : Local s p pc a s' := by
  unfold threadStep at h
  split at h
  case h_7 => exact forkStep_local h
  case h_8 =>
    obtain ⟨hfree, ⟨⟩⟩ := Option.ite_none_right_eq_some.mp h
    exact .setParent hfree
  case h_11 => exact exitStep_local h
  case h_12 =>
    obtain ⟨hfree, ⟨⟩⟩ := Option.ite_none_right_eq_some.mp h
    exact .lock hfree
  case h_13 => exact waitStep_local h
  case h_14 => exact killStep_local h
  case h_15 => cases h
  all_goals
    cases h
    constructor

/-- The steps of the table. -/
inductive View (s : Table n) (p : Fin n) : Act n → Table n → Prop
  | userinit {t : Table n} (hp : p.val = 0) (hboot : s.booted = false) (ht : t = s.allocproc p) :
      View s p .userinit
        { (t.setSlot p { t.slot p with state := .runnable }).setThread p .user with booted := true }
  | sched (hp : (s.slot p).state = .runnable) :
      View s p .sched (s.setSlot p { s.slot p with state := .running, chan := none })
  | yield (hp : (s.slot p).state = .running) :
      View s p .yield (s.setSlot p { s.slot p with state := .runnable })
  | wakeup (hp : (s.slot p).state = .sleeping) :
      View s p .wakeup (s.setSlot p { s.slot p with state := .runnable })
  | thread {a : Act n} {s' : Table n} (hrun : (s.slot p).state = .running)
      (h : Local s p (s.thread p) a s') : View s p a s'

theorem Step.view (h : Step s (p, a) s') : View s p a s' := by
  unfold Step next at h
  split at h
  · next heq =>
    cases heq
    obtain ⟨hp, ⟨⟩⟩ := Option.ite_none_right_eq_some.mp h
    exact .userinit hp.1 hp.2 rfl
  · next heq =>
    cases heq
    obtain ⟨hp, ⟨⟩⟩ := Option.ite_none_right_eq_some.mp h
    exact .sched hp
  · next heq =>
    cases heq
    obtain ⟨hp, ⟨⟩⟩ := Option.ite_none_right_eq_some.mp h
    exact .yield hp
  · next heq =>
    cases heq
    obtain ⟨hp, ⟨⟩⟩ := Option.ite_none_right_eq_some.mp h
    exact .wakeup hp.1
  · next heq =>
    cases heq
    split at h
    · next hrun => exact .thread hrun (threadStep_local h)
    · cases h

end

end Xv6.Proc
