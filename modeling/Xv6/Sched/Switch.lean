-- SUMMARY: Ownership of processes through context switches: what kernel threads know about locks and process states.
import Xv6.Sched.Logic

/-!
# Context switches

`p->lock` is taken by one thread and released by another: the scheduler takes it and the
process releases it after `swtch`, and the other way around in `sched`. What makes this work
is that the lock belongs to the CPU, and that both threads agree on the state of the process
at the switch. Here is what each thread knows, and the rules for every operation.
-/

namespace Xv6.Sched

open Proc (ProcState)

variable {K : Sig} {n m : Nat} {P : Client K n}

/-- How far a thread is in giving a CPU away or taking it back. -/
inductive Phase (n : Nat)
  /-- A process that is `RUNNING`. -/
  | run
  /-- A process that has changed its state and is about to call `sched`. -/
  | left
  /-- A scheduler that runs no process. -/
  | idle
  /-- A scheduler that has made a process `RUNNING`; then it has set `c->proc`, too. -/
  | chosen (i : Fin n)
  | ready (i : Fin n)
  /-- A scheduler that a process has switched back to. -/
  | back (i : Fin n)
  deriving DecidableEq

/-- What a thread knows. -/
structure Know (K : Sig) (n : Nat) where
  /-- Its process, if it is not a scheduler. -/
  me : Option (Fin n)
  /-- The locks that its CPU holds. -/
  held : List (Lock K n)
  phase : Phase n
  /-- The state of a slot that it has read or written under its lock. -/
  known : Fin n → Option ProcState
  /-- The slot that it has allocated and not made `RUNNABLE` yet. -/
  child : Option (Fin n)

attribute [ext] Know

namespace Know

/-- The value of `c->proc`. -/
def proc (l : Know K n) : Option (Fin n) :=
  match l.phase with
  | .run | .left => l.me
  | .idle | .chosen _ => none
  | .ready i | .back i => some i

/-- The process whose state the thread answers for. -/
def target (l : Know K n) : Option (Fin n) :=
  match l.phase with
  | .run | .left => l.me
  | .idle => none
  | .chosen i | .ready i | .back i => some i

/-- The process whose lock goes through the switch. -/
def kept (l : Know K n) : Option (Fin n) :=
  match l.phase with
  | .run | .idle => none
  | .left => l.me
  | .chosen i | .ready i | .back i => some i

/-- Is the target `RUNNING`? -/
def active (l : Know K n) : Bool :=
  match l.phase with
  | .run | .chosen _ | .ready _ => true
  | .left | .idle | .back _ => false

def lock (l : Know K n) (lk : Lock K n) : Know K n := { l with held := lk :: l.held }

/-- A released lock protects nothing any more. -/
def unlock (l : Know K n) (lk : Lock K n) : Know K n := { l with
  held := l.held.erase lk
  known := fun i => if lk = .proc i then none else l.known i }

def see (l : Know K n) (i : Fin n) (x : ProcState) : Know K n :=
  { l with known := Function.update l.known i (some x) }

@[simp] theorem see_known_self (l : Know K n) (i : Fin n) (x : ProcState) :
    (l.see i x).known i = some x := Function.update_self ..

theorem see_known_ne (l : Know K n) {i j : Fin n} (x : ProcState) (h : j ≠ i) :
    (l.see i x).known j = l.known j := Function.update_of_ne h ..

/-- A thread that another one has switched to. -/
def enter (l : Know K n) (phase : Phase n) : Know K n :=
  { l with phase := phase, known := fun _ => none }

def canWrite (l : Know K n) (i : Fin n) : Write K n → Prop
  | .state .runnable => .proc i ∈ l.held ∧
      ((l.phase = .run ∧ l.me = some i) ∨ l.known i = some .sleeping ∨ l.child = some i)
  | .state .running => .proc i ∈ l.held ∧ l.phase = .idle ∧ l.known i = some .runnable
  | .state _ => False
  | .sleep _ => .proc i ∈ l.held ∧ l.phase = .run ∧ l.me = some i
  | .exit _ => .proc i ∈ l.held ∧ l.phase = .run ∧ l.me = some i ∧ l.child = none
  | .alloc _ => .proc i ∈ l.held ∧ l.phase = .run ∧ l.known i = some .unused ∧ l.child = none
  | .free => .proc i ∈ l.held ∧ l.child = some i
  | .reap _ _ => .proc i ∈ l.held ∧ l.target ≠ some i ∧ l.known i = some .zombie
  | .awake | .killed | .parent _ => True

/-- What is known about slot `i` after a write. -/
def wrote (l : Know K n) (i : Fin n) : Write K n → Know K n
  | .state .running => { l.see i .running with phase := .chosen i }
  | .state x =>
    if l.me = some i then { l.see i x with phase := .left }
    else if l.known i = some .sleeping then l.see i x
    else { l.see i x with child := none }
  | .sleep _ => { l.see i .sleeping with phase := .left }
  | .exit _ => { l.see i .zombie with phase := .left }
  | .alloc _ => { l.see i .used with child := some i }
  | .free => { l.see i .unused with child := none }
  | .reap _ _ => l.see i .unused
  | .awake | .killed | .parent _ => l

def can (l : Know K n) : Op K n → Prop
  | .release lk => ∀ i, l.kept = some i → lk ≠ .proc i
  | .write i w => l.canWrite i w
  | .setContext i => l.child = some i
  | .setProc p => (∃ i, l.phase = .chosen i ∧ p = some i) ∨ (∃ i, l.phase = .back i ∧ p = none)
  | .swtchTo p => l.phase = .ready p ∧ l.held = [.proc p] ∧ l.child = none
  | .swtch => l.phase = .left ∧ ∃ i, l.me = some i ∧ l.held = [.proc i]
  | _ => True

def may (l : Know K n) : (o : Op K n) → o.Res → Prop
  | .acquire lk, _ => lk ∉ l.held
  | .release lk, _ => lk ∈ l.held
  | .holding lk, r => r = decide (lk ∈ l.held)
  | .noff, r => r = l.held.length
  | .myproc, r => r = l.proc
  | .read i, x => (∀ st, l.known i = some st → x.state = st) ∧
      (l.phase = .run → l.me = some i → x.state = .running)
  | _, _ => True

def after (l : Know K n) : (o : Op K n) → o.Res → Know K n
  | .acquire lk, _ => l.lock lk
  | .release lk, _ => l.unlock lk
  | .read i, x => if .proc i ∈ l.held then l.see i x.state else l
  | .write i w, _ => l.wrote i w
  | .setProc _, _ => { l with
      phase := match l.phase with
        | .chosen i => .ready i
        | _ => .idle }
  | .swtchTo p, _ => l.enter (.back p)
  | .swtch, _ => l.enter .run
  | _, _ => l

end Know

/-- The rules of context switches. -/
def switching (K : Sig) (n : Nat) : Typestate (Op K n) Op.Res (Know K n) where
  can := Know.can
  may := Know.may
  after l o r l' := l' = l.after o r

/-! ## Operations -/

namespace Switching

open Typestate

section
variable {α : Type} {l : Know K n} {lk : Lock K n} {i : Fin n}

theorem wp_op {o : Op K n} {Q : o.Res → Know K n → Prop} :
    (switching K n).wp Q (.perform o) l ↔ l.can o ∧ ∀ r, l.may o r → Q r (l.after o r) := by
  rw [wp_perform]
  simp only [switching, exists_eq_left]

@[simp] theorem wp_panic {Q : α → Know K n → Prop} : (switching K n).wp Q panic l :=
  ⟨trivial, fun r => r.elim⟩

@[simp] theorem wp_acquire {Q : Unit → Know K n → Prop} :
    (switching K n).wp Q (acquire lk) l ↔ (lk ∉ l.held → Q () (l.lock lk)) :=
  (wp_op (o := .acquire lk)).trans ⟨fun h => h.2 (), fun h => ⟨trivial, fun _ => h⟩⟩

@[simp] theorem wp_release {Q : Unit → Know K n → Prop} :
    (switching K n).wp Q (release lk) l ↔ (∀ i, l.kept = some i → lk ≠ .proc i) ∧
      (lk ∈ l.held → Q () (l.unlock lk)) :=
  (wp_op (o := .release lk)).trans ⟨fun h => ⟨h.1, h.2 ()⟩, fun h => ⟨h.1, fun _ => h.2⟩⟩

@[simp] theorem wp_holding {Q : Bool → Know K n → Prop} :
    (switching K n).wp Q (holding lk) l ↔ Q (decide (lk ∈ l.held)) l :=
  (wp_op (o := .holding lk)).trans ⟨fun h => h.2 _ rfl, fun h => ⟨trivial, fun _ hr => hr ▸ h⟩⟩

@[simp] theorem wp_noff {Q : Nat → Know K n → Prop} :
    (switching K n).wp Q noff l ↔ Q l.held.length l :=
  (wp_op (o := .noff)).trans ⟨fun h => h.2 _ rfl, fun h => ⟨trivial, fun _ hr => hr ▸ h⟩⟩

@[simp] theorem wp_myproc {Q : Option (Fin n) → Know K n → Prop} :
    (switching K n).wp Q myproc l ↔ Q l.proc l :=
  (wp_op (o := .myproc)).trans ⟨fun h => h.2 _ rfl, fun h => ⟨trivial, fun _ hr => hr ▸ h⟩⟩

@[simp] theorem wp_read {Q : Slot K n → Know K n → Prop} :
    (switching K n).wp Q (read i) l ↔ ∀ x : Slot K n, (∀ st, l.known i = some st → x.state = st) →
      (l.phase = .run → l.me = some i → x.state = .running) →
      Q x (if .proc i ∈ l.held then l.see i x.state else l) :=
  (wp_op (o := .read i)).trans ⟨fun h x hst hrun => h.2 x ⟨hst, hrun⟩, fun h => ⟨trivial, fun x hx => h x hx.1 hx.2⟩⟩

@[simp] theorem wp_write {w : Write K n} {Q : Unit → Know K n → Prop} :
    (switching K n).wp Q (write i w) l ↔ l.canWrite i w ∧ Q () (l.wrote i w) :=
  (wp_op (o := .write i w)).trans ⟨fun h => ⟨h.1, h.2 () trivial⟩, fun h => ⟨h.1, fun _ _ => h.2⟩⟩

@[simp] theorem wp_setContext {Q : Unit → Know K n → Prop} :
    (switching K n).wp Q (setContext i) l ↔ l.child = some i ∧ Q () l :=
  (wp_op (o := .setContext i)).trans ⟨fun h => ⟨h.1, h.2 () trivial⟩, fun h => ⟨h.1, fun _ _ => h.2⟩⟩

@[simp] theorem wp_allocpid {Q : Int → Know K n → Prop} :
    (switching K n).wp Q allocpid l ↔ ∀ pid, Q pid l :=
  (wp_op (o := .allocpid)).trans ⟨fun h pid => h.2 pid trivial, fun h => ⟨trivial, fun pid _ => h pid⟩⟩

theorem wp_setProc {q : Option (Fin n)} {Q : Unit → Know K n → Prop} :
    (switching K n).wp Q (setProc q) l ↔
      ((∃ i, l.phase = .chosen i ∧ q = some i) ∨ (∃ i, l.phase = .back i ∧ q = none)) ∧
      Q () (l.after (.setProc q) ()) :=
  (wp_op (o := .setProc q)).trans ⟨fun h => ⟨h.1, h.2 () trivial⟩, fun h => ⟨h.1, fun _ _ => h.2⟩⟩

theorem wp_swtchTo {Q : Unit → Know K n → Prop} :
    (switching K n).wp Q (swtchTo i) l ↔
      (l.phase = .ready i ∧ l.held = [.proc i] ∧ l.child = none) ∧ Q () (l.enter (.back i)) :=
  (wp_op (o := .swtchTo i)).trans ⟨fun h => ⟨h.1, h.2 () trivial⟩, fun h => ⟨h.1, fun _ _ => h.2⟩⟩

@[simp] theorem wp_swtch {Q : Unit → Know K n → Prop} :
    (switching K n).wp Q swtch l ↔ (l.phase = .left ∧ ∃ i, l.me = some i ∧ l.held = [.proc i]) ∧
      Q () (l.enter .run) :=
  (wp_op (o := .swtch)).trans ⟨fun h => ⟨h.1, h.2 () trivial⟩, fun h => ⟨h.1, fun _ _ => h.2⟩⟩

@[simp] theorem wp_act {a : K.Act} {Q : K.Res a → Know K n → Prop} :
    (switching K n).wp Q (act a) l ↔ ∀ r, Q r l :=
  (wp_op (o := .act a)).trans ⟨fun h r => h.2 r trivial, fun h => ⟨trivial, fun r _ => h r⟩⟩

@[simp] theorem wp_choose {Q : Bool → Know K n → Prop} :
    (switching K n).wp Q choose l ↔ ∀ b, Q b l :=
  (wp_op (o := .choose)).trans ⟨fun h b => h.2 b trivial, fun h => ⟨trivial, fun b _ => h b⟩⟩

@[simp] theorem wp_self {Q : Fin n → Know K n → Prop} :
    (switching K n).wp Q self l ↔ ∀ p, l.proc = some p → Q p l := by
  rw [self, wp_bind, wp_myproc]
  cases l.proc with
  | none => simp
  | some p => simp

end

/-! ## Functions -/

/-- A thread outside the critical sections of `proc.c`. -/
structure Calm (l : Know K n) : Prop where
  phase : l.phase = .run ∨ l.phase = .idle ∧ l.me = none
  free : ∀ i, .proc i ∉ l.held
  known : l.known = fun _ => none

section
variable {l : Know K n} {lk : Lock K n} {p : Fin n} {x y : ProcState}

@[simp] theorem kept_lock : (l.lock lk).kept = l.kept := rfl
@[simp] theorem kept_unlock : (l.unlock lk).kept = l.kept := rfl
@[simp] theorem kept_see : (l.see p x).kept = l.kept := rfl
@[simp] theorem kept_enter_run : (l.enter .run).kept = none := rfl

@[simp] theorem see_see : (l.see p x).see p y = l.see p y := by
  rw [Know.see, Know.see, Function.update_idem]
  rfl

theorem Calm.kept (h : Calm l) : l.kept = none := by
  obtain hphase | ⟨hphase, -⟩ := h.phase <;> simp [Know.kept, hphase]

theorem Calm.run_of_proc (h : Calm l) (hp : l.proc = some p) : l.phase = .run ∧ l.me = some p := by
  obtain hphase | ⟨hphase, -⟩ := h.phase
  · simp only [Know.proc, hphase] at hp
    exact ⟨hphase, hp⟩
  · simp [Know.proc, hphase] at hp

theorem Calm.target_ne (h : Calm l) (hp : l.me ≠ some p) : l.target ≠ some p := by
  obtain hphase | ⟨hphase, -⟩ := h.phase
  · rwa [Know.target, hphase]
  · simp [Know.target, hphase]

theorem Calm.me_ne (h : Calm l) (hp : some p ≠ l.proc) : l.me ≠ some p := by
  obtain hphase | ⟨-, hme⟩ := h.phase
  · rw [Know.proc, hphase] at hp
    exact hp.symm
  · rw [hme]
    simp

/-- A process that is not `RUNNING` is another one. -/
theorem Calm.me_ne_of_state (h : Calm l) (hrun : l.phase = .run → l.me = some p → x = .running)
    (hx : x ≠ .running) : l.me ≠ some p := by
  intro hme
  obtain hphase | ⟨-, hnone⟩ := h.phase
  · exact hx (hrun hphase hme)
  · cases hnone.symm.trans hme

/-- A thread that has released the only lock of a slot knows nothing about slots. -/
theorem Calm.unlock_see (h : Calm l) : ((l.lock (.proc p)).see p x).unlock (.proc p) = l := by
  refine Know.ext rfl (List.erase_cons_head ..) rfl ?_ rfl
  funext i
  by_cases hi : i = p
  · simp [Know.unlock, hi, h.known]
  · simp [Know.unlock, Know.see, Know.lock, hi, Ne.symm hi]

theorem Calm.unlock_lock (h : Calm l) : (l.lock lk).unlock lk = l := by
  refine Know.ext rfl (List.erase_cons_head ..) rfl ?_ rfl
  funext i
  simp [Know.unlock, Know.lock, h.known]

/-- The begin and the end of a critical section on a slot. -/
theorem wp_lockRead {Q : Slot K n → Know K n → Prop}
    (hQ : ∀ x : Slot K n, (l.phase = .run → l.me = some p → x.state = .running) →
      Q x ((l.lock (.proc p)).see p x.state)) :
    (switching K n).wp (fun _ l' => (switching K n).wp Q (read p) l') (acquire (.proc p)) l := by
  refine wp_acquire.mpr fun _ => wp_read.mpr fun x _ hx => ?_
  have hmem : Lock.proc p ∈ (l.lock (.proc p)).held := List.mem_cons_self
  rw [if_pos hmem]
  exact hQ x hx

theorem wp_releaseSlot (h : Calm l) {Q : Unit → Know K n → Prop} (hQ : Q () l) :
    (switching K n).wp Q (release (.proc p)) ((l.lock (.proc p)).see p x) := by
  refine wp_release.mpr ⟨by simp [h.kept], fun _ => ?_⟩
  rw [h.unlock_see]
  exact hQ

/-- A sleeping process becomes `RUNNABLE`. -/
theorem canWrite_rouse : ((l.lock (.proc p)).see p .sleeping).canWrite p (.state .runnable) :=
  ⟨List.mem_cons_self, .inr (.inl (Know.see_known_self ..))⟩

theorem wrote_rouse (hp : l.me ≠ some p) :
    ((l.lock (.proc p)).see p .sleeping).wrote p (.state .runnable) =
      (l.lock (.proc p)).see p .runnable := by
  have hme : ((l.lock (.proc p)).see p .sleeping).me ≠ some p := hp
  simp only [Know.wrote]
  rw [if_neg hme, if_pos (Know.see_known_self ..), see_see]

theorem wp_rouse (h : Calm l) (hp : l.me ≠ some p) {Q : Unit → Know K n → Prop} (hQ : Q () l) :
    (switching K n).wp (fun _ l' => (switching K n).wp Q (release (.proc p)) l')
      (write p (.state .runnable)) ((l.lock (.proc p)).see p .sleeping) := by
  rw [wp_write, wrote_rouse hp]
  exact ⟨canWrite_rouse, wp_releaseSlot h hQ⟩

/-- `sched` gives the CPU away and comes back with `p->lock` held, and nothing else. -/
theorem wp_sched {Q : Unit → Know K n → Prop} (hphase : l.phase = .left) (hme : l.me = some p)
    (hQ : l.held = [.proc p] → Q () (l.enter .run)) :
    (switching K n).wp Q sched l := by
  have hproc : l.proc = some p := by rw [Know.proc, hphase, hme]
  rw [sched, wp_bind, wp_self]
  intro p' hp'
  obtain rfl : p = p' := by simpa [hproc] using hp'
  rw [wp_bind, wp_holding]
  by_cases hin : Lock.proc p ∈ l.held
  · simp only [hin, decide_true, Bool.not_true, Bool.false_eq_true, if_false, wp_bind, wp_noff]
    by_cases hone : l.held.length = 1
    · have hheld : l.held = [.proc p] := by
        obtain ⟨lk, hlk⟩ := List.length_eq_one_iff.mp hone
        rw [hlk, List.mem_singleton] at hin
        rw [hlk, hin]
      simp only [hone, ne_eq, not_true, if_false, wp_bind, wp_read, hin, if_true]
      intro x _ _
      rw [wp_ite]
      split
      · exact wp_panic
      · exact wp_swtch.mpr ⟨⟨hphase, p, hme, hheld⟩, hQ hheld⟩
    · simp [hone]
  · simp [hin]

theorem wp_yield (h : Calm l) : (switching K n).wp (fun _ l' => l' = l) yield l := by
  rw [yield, wp_bind, wp_self]
  intro p hp
  obtain ⟨hphase, hme⟩ := h.run_of_proc hp
  have hwrote : (l.lock (.proc p)).wrote p (.state .runnable) =
      { (l.lock (.proc p)).see p .runnable with phase := .left } := if_pos hme
  simp only [wp_bind, wp_acquire, wp_write, wp_release]
  intro _
  refine ⟨⟨List.mem_cons_self, .inl ⟨hphase, hme⟩⟩, ?_⟩
  rw [hwrote]
  refine wp_sched (p := p) rfl hme fun hheld => ?_
  refine ⟨by simp, fun _ => ?_⟩
  ext <;> simp [Know.unlock, Know.enter, Know.see, Know.lock, hphase, h.known]

theorem wp_wakeupOne (h : Calm l) {chan : Option (Chan K n)} :
    (switching K n).wp (fun _ l' => l' = l) (wakeupOne chan p) l := by
  rw [wakeupOne, wp_bind, wp_myproc]
  split
  · next hp =>
    simp only [wp_bind]
    refine wp_lockRead fun x _ => ?_
    rw [wp_ite]
    split
    · next hx =>
      rw [wp_bind, hx.1]
      exact wp_rouse h (h.me_ne hp) rfl
    · exact wp_releaseSlot h rfl
  · rfl

theorem wp_wakeup (h : Calm l) {chan : Option (Chan K n)} :
    (switching K n).wp (fun _ l' => l' = l) (wakeup chan) l :=
  wp_forM (I := fun _ l' => l' = l) (fun _ _ _ _ hl' => hl' ▸ wp_wakeupOne (hl' ▸ h)) rfl

theorem wp_kkillFrom (h : Calm l) {pid : Int} (ps : List (Fin n)) :
    (switching K n).wp (fun _ l' => l' = l) (kkillFrom pid ps) l := by
  induction ps with
  | nil => rfl
  | cons p ps ih =>
    rw [kkillFrom]
    simp only [wp_bind]
    refine wp_lockRead fun x hx => ?_
    rw [wp_ite]
    split
    · simp only [wp_bind, wp_write]
      refine ⟨trivial, ?_⟩
      rw [wp_ite]
      split
      · next hsleep =>
        have hme := h.me_ne_of_state hx (by simp [hsleep])
        simp only [wp_bind]
        rw [Know.wrote, hsleep]
        exact wp_rouse h hme rfl
      · rw [wp_bind]
        exact wp_releaseSlot h rfl
    · rw [wp_bind]
      exact wp_releaseSlot h ih

theorem wp_setkilled (h : Calm l) : (switching K n).wp (fun _ l' => l' = l) (setkilled p) l := by
  simp only [setkilled, wp_bind, wp_acquire, wp_write, wp_release]
  refine fun _ => ⟨trivial, by simp [Know.wrote, h.kept], fun _ => h.unlock_lock⟩

theorem wp_killed (h : Calm l) : (switching K n).wp (fun _ l' => l' = l) (killed p) l := by
  simp only [killed, wp_bind]
  exact wp_lockRead fun x _ => wp_releaseSlot h rfl

/-- A process that comes back from `sleep` is where it was. -/
theorem Calm.slept (h : Calm l) (hphase : l.phase = .run) (hlk : ∀ i, lk ≠ .proc i)
    {chan : Option (Chan K n)} (hin : lk ∈ (l.lock (.proc p)).held)
    (hheld : (((l.lock (.proc p)).unlock lk).wrote p (.sleep chan)).held = [.proc p]) :
    (((((l.lock (.proc p)).unlock lk).wrote p (.sleep chan)).enter .run).unlock (.proc p)).lock lk =
      l := by
  -- `sched` returns only if `lk` was the only lock
  have hone : l.held = [lk] := by
    have hin' : lk ∈ l.held := List.mem_of_ne_of_mem (hlk p) hin
    have herase : (Lock.proc p :: l.held).erase lk = [.proc p] := hheld
    rw [List.erase_cons_tail (by simpa using (hlk p).symm), List.cons.injEq] at herase
    have hperm := List.perm_cons_erase hin'
    rw [herase.2] at hperm
    exact List.perm_singleton.mp hperm
  refine Know.ext rfl ?_ hphase.symm ?_ rfl
  · have hnone : List.erase (((l.lock (.proc p)).unlock lk).wrote p (.sleep chan)).held (.proc p) = [] := by
      rw [hheld, List.erase_cons_head]
    exact (congrArg (lk :: ·) hnone).trans hone.symm
  · simp [Know.wrote, Know.unlock, Know.enter, Know.lock, h.known]

theorem wp_sleep (h : Calm l) (hlk : ∀ i, lk ≠ .proc i) {chan : Option (Chan K n)} :
    (switching K n).wp (fun _ l' => l' = l) (sleep chan lk) l := by
  rw [sleep, wp_bind, wp_self]
  intro p hp
  obtain ⟨hphase, hme⟩ := h.run_of_proc hp
  simp only [wp_bind, wp_acquire, wp_write, wp_release]
  refine fun _ => ⟨by simp [h.kept], fun hin => ⟨⟨?_, hphase, hme⟩, ?_⟩⟩
  · simp [Know.unlock, Know.lock, (hlk p).symm]
  refine wp_sched (p := p) rfl hme fun hheld => ⟨trivial, ⟨by simp [Know.wrote], fun _ _ => ?_⟩⟩
  exact h.slept hphase hlk hin hheld

/-- The slot that `allocproc` returns, and its caller has not made `RUNNABLE` yet. -/
def Know.withChild (l : Know K n) (np : Fin n) : Know K n := { l with child := some np }

theorem Calm.withChild (h : Calm l) : Calm (Know.withChild l p) := ⟨h.phase, h.free, h.known⟩

theorem wrote_free (hchild : l.child = none) :
    (((Know.withChild l p).lock (.proc p)).see p x).wrote p .free = (l.lock (.proc p)).see p .unused := by
  simp only [Know.wrote, see_see]
  exact Know.ext rfl rfl rfl rfl hchild.symm

/-- The child is still `USED`, because only its creator may change that. -/
theorem wrote_start (h : Calm l) (hchild : l.child = none) (hp : l.me ≠ some p) :
    ((Know.withChild l p).lock (.proc p)).wrote p (.state .runnable) =
      (l.lock (.proc p)).see p .runnable := by
  have hme : ((Know.withChild l p).lock (.proc p)).me ≠ some p := hp
  have hknown : ((Know.withChild l p).lock (.proc p)).known p ≠ some .sleeping := by
    simp [Know.withChild, Know.lock, h.known]
  simp only [Know.wrote]
  rw [if_neg hme, if_neg hknown]
  exact Know.ext rfl rfl rfl rfl hchild.symm

theorem wp_freeChild (h : Calm l) (hchild : l.child = none) {Q : Unit → Know K n → Prop}
    (hQ : Q () l) :
    (switching K n).wp (fun _ l' => (switching K n).wp Q (release (.proc p)) l') (write p .free)
      (((Know.withChild l p).lock (.proc p)).see p x) := by
  rw [wp_write, wrote_free hchild]
  exact ⟨⟨List.mem_cons_self, rfl⟩, wp_releaseSlot h hQ⟩

/-- What `allocproc` returns, and what is known then. -/
def Allocated (l : Know K n) : Option (Fin n) → Know K n → Prop
  | none, l' => l' = l
  | some np, l' => l.me ≠ some np ∧ l' = ((Know.withChild l np).lock (.proc np)).see np .used

theorem wp_allocprocFrom (h : Calm l) (hphase : l.phase = .run) (hchild : l.child = none)
    (ps : List (Fin n)) : (switching K n).wp (Allocated l) (allocprocFrom ps) l := by
  induction ps with
  | nil => rfl
  | cons p ps ih =>
    rw [allocprocFrom]
    simp only [wp_bind]
    refine wp_lockRead fun x hx => ?_
    rw [wp_ite]
    split
    · next hunused =>
      have hwrote {pid : Int} : ((l.lock (.proc p)).see p x.state).wrote p (.alloc pid) =
          ((Know.withChild l p).lock (.proc p)).see p .used := by
        simp only [Know.wrote, see_see]
        rfl
      have hknown : ((l.lock (.proc p)).see p x.state).known p = some .unused := by
        simp [Know.see, hunused]
      simp only [allocprocFound, wp_bind, wp_allocpid, wp_write, wp_choose, hwrote]
      refine fun pid => ⟨⟨List.mem_cons_self, hphase, hknown, hchild⟩, fun b => ?_⟩
      rw [wp_ite]
      split
      · simp only [wp_bind]
        exact wp_freeChild h hchild rfl
      · simp only [wp_bind, wp_choose]
        intro b'
        rw [wp_ite]
        split
        · simp only [wp_bind]
          exact wp_freeChild h hchild rfl
        · simp only [wp_bind, wp_setContext, wp_pure]
          refine ⟨rfl, fun hme => ?_, rfl⟩
          cases hunused.symm.trans (hx hphase hme)
    · rw [wp_bind]
      exact wp_releaseSlot h ih

theorem wp_kfork (h : Calm l) (hchild : l.child = none) :
    (switching K n).wp (fun _ l' => l' = l) kfork l := by
  rw [kfork, wp_bind, wp_self]
  intro p hp
  obtain ⟨hphase, hme⟩ := h.run_of_proc hp
  rw [wp_bind]
  refine (wp_allocprocFrom h hphase hchild _).imp fun r l' hr => ?_
  cases r with
  | none => exact hr
  | some np =>
    obtain ⟨hnp, rfl⟩ := hr
    simp only [wp_bind, wp_choose]
    intro b
    rw [wp_ite]
    split
    · simp only [wp_bind]
      exact wp_freeChild h hchild rfl
    · simp only [wp_bind, wp_read]
      intro x hx _
      have hmem : Lock.proc np ∈ (((Know.withChild l np).lock (.proc np)).see np .used).held :=
        List.mem_cons_self
      rw [if_pos hmem, see_see]
      refine wp_releaseSlot h.withChild ?_
      simp only [wp_acquire, wp_write, wp_release]
      refine fun _ => ⟨trivial, by simp [Know.wrote, h.withChild.kept], fun _ _ => ?_⟩
      have hwait : (((Know.withChild l np).lock .wait).wrote np (.parent p)).unlock .wait =
          Know.withChild l np := h.withChild.unlock_lock
      rw [hwait, wrote_start h hchild hnp]
      refine ⟨⟨List.mem_cons_self, .inr (.inr rfl)⟩, by simp [h.kept], fun _ => h.unlock_see⟩

section
variable [NeZero n]

theorem wp_reparent (h : Calm l) : (switching K n).wp (fun _ l' => l' = l) (reparent p) l := by
  refine wp_forM (I := fun _ l' => l' = l) (fun pp _ l' _ hl' => ?_) rfl
  subst hl'
  simp only [reparentOne, wp_bind, wp_read]
  intro x _ _
  rw [if_neg (h.free pp), wp_ite]
  split
  · simp only [wp_bind, wp_write]
    exact ⟨trivial, wp_wakeup h⟩
  · rfl

theorem wp_kexit {α : Type} {Q : α → Know K n → Prop} (h : Calm l) (hchild : l.child = none)
    {status : Int} : (switching K n).wp Q (kexit status) l := by
  rw [kexit, wp_bind, wp_self]
  intro p hp
  obtain ⟨hphase, hme⟩ := h.run_of_proc hp
  rw [wp_ite]
  split
  · exact wp_panic
  simp only [wp_bind, wp_acquire]
  intro _
  have hlock : Calm (l.lock .wait) := ⟨h.phase, by simp [Know.lock, h.free], h.known⟩
  refine (wp_reparent hlock).imp fun _ l' hl' => ?_
  rw [hl', wp_read]
  intro x _ _
  rw [if_neg (hlock.free p)]
  refine (wp_wakeup hlock).imp fun _ l' hl' => ?_
  rw [hl']
  simp only [wp_write, wp_release]
  refine fun _ => ⟨⟨List.mem_cons_self, hphase, hme, hchild⟩, fun i _ => Lock.wait_ne i, fun _ => ?_⟩
  exact wp_sched (p := p) rfl hme fun _ => wp_panic

end

theorem wp_releaseWait {Q : Unit → Know K n → Prop} (hQ : Q () (l.unlock .wait)) :
    (switching K n).wp Q (release .wait) l :=
  wp_release.mpr ⟨fun i _ => Lock.wait_ne i, fun _ => hQ⟩

theorem wp_kwaitFound (h : Calm l) {copy : Bool} {x : Slot K n} (hx : x.state = .zombie)
    (hme : l.me ≠ some p) :
    (switching K n).wp (fun _ l' => l' = l.unlock .wait) (kwaitFound copy p x)
      ((l.lock (.proc p)).see p x.state) := by
  have hfails : (switching K n).wp (fun _ l' => l' = (l.lock (.proc p)).see p x.state)
      (copyoutFails copy) ((l.lock (.proc p)).see p x.state) := by
    rw [copyoutFails, wp_ite]
    split
    · exact wp_choose.mpr fun _ => rfl
    · rfl
  rw [kwaitFound, wp_bind]
  refine hfails.imp fun fails l' hl' => ?_
  rw [hl', wp_ite]
  split
  · simp only [wp_bind]
    exact wp_releaseSlot h (wp_releaseWait rfl)
  · simp only [wp_bind, wp_write]
    refine ⟨⟨List.mem_cons_self, h.target_ne hme, by simp [Know.see, hx]⟩, ?_⟩
    rw [Know.wrote, see_see]
    exact wp_releaseSlot h (wp_releaseWait rfl)

theorem wp_kwaitScan (h : Calm l) {copy : Bool} (havekids : Bool) (ps : List (Fin n)) :
    (switching K n).wp (fun r l' => match r with
      | .inl _ => l' = l
      | .inr _ => l' = l.unlock .wait) (kwaitScan p copy havekids ps) l := by
  induction ps generalizing havekids with
  | nil => rfl
  | cons pp ps ih =>
    rw [kwaitScan]
    simp only [wp_bind, wp_read]
    intro x _ _
    rw [if_neg (h.free pp), wp_ite]
    split
    · simp only [wp_bind]
      refine wp_lockRead fun y hy => ?_
      rw [wp_ite]
      split
      · next hzombie =>
        rw [wp_bind]
        exact wp_kwaitFound h hzombie (h.me_ne_of_state hy (by simp [hzombie]))
      · rw [wp_bind]
        exact wp_releaseSlot h (ih true)
    · exact ih havekids

theorem wp_kwaitRound (h : Calm l) {copy : Bool} :
    (switching K n).wp (fun r l' => match r with
      | some _ => l' = l.unlock .wait
      | none => l' = l) (kwaitRound copy) l := by
  rw [kwaitRound, wp_bind, wp_self]
  intro p hp
  rw [wp_bind]
  refine (wp_kwaitScan h false _).imp fun r l' hr => ?_
  cases r with
  | inr pid => exact hr
  | inl havekids =>
    subst hr
    have hdead : (switching K n).wp (fun _ l'' => l'' = l') (kwaitHopeless havekids p) l' := by
      rw [kwaitHopeless, wp_ite]
      split
      · exact wp_killed h
      · rfl
    simp only [wp_bind]
    refine hdead.imp fun dead l'' hl'' => ?_
    rw [hl'', wp_ite]
    split
    · rw [wp_bind]
      exact wp_releaseWait rfl
    · rw [wp_bind]
      exact wp_sleep h Lock.wait_ne

/-- The scheduler holds no lock between two slots. -/
theorem wp_schedulerOne (h : Calm l) (hheld : l.held = []) (hidle : l.phase = .idle)
    (hchild : l.child = none) : (switching K n).wp (fun _ l' => l' = l) (schedulerOne p) l := by
  simp only [schedulerOne, wp_bind]
  refine wp_lockRead fun x _ => ?_
  rw [wp_ite]
  split
  · next hrunnable =>
    simp only [wp_bind, wp_write]
    refine ⟨⟨List.mem_cons_self, hidle, by simp [Know.see, hrunnable]⟩, ?_⟩
    refine wp_setProc.mpr ⟨.inl ⟨p, rfl, rfl⟩, ?_⟩
    refine wp_swtchTo.mpr ⟨⟨rfl, congrArg (Lock.proc p :: ·) hheld, hchild⟩, ?_⟩
    refine wp_setProc.mpr ⟨.inr ⟨p, rfl, rfl⟩, ?_⟩
    refine wp_release.mpr ⟨fun i hi => ?_, fun _ => ?_⟩
    · cases hi
    refine Know.ext rfl (List.erase_cons_head ..) hidle.symm ?_ rfl
    simp [Know.unlock, Know.after, Know.enter, h.known]
  · exact wp_releaseSlot h rfl

theorem wp_schedulerPass (h : Calm l) (hheld : l.held = []) (hidle : l.phase = .idle)
    (hchild : l.child = none) : (switching K n).wp (fun _ l' => l' = l) schedulerPass l := by
  refine wp_forM (I := fun _ l' => l' = l) (fun p _ l' _ hl' => ?_) rfl
  subst hl'
  exact wp_schedulerOne h hheld hidle hchild

/-! ## Clients -/

/-- What a process knows at a point of its client: it is in user space, or in a system call
and holds no lock of a slot. -/
structure AtClient (l : Know K n) : Prop where
  calm : Calm l
  run : l.phase = .run
  child : l.child = none

theorem AtClient.lock (h : AtClient l) (hlk : ∀ i, lk ≠ .proc i) : AtClient (l.lock lk) where
  calm := ⟨h.calm.phase, fun i hi => by
    obtain hi | hi := List.mem_cons.mp hi
    · exact hlk i hi.symm
    · exact h.calm.free i hi, h.calm.known⟩
  run := h.run
  child := h.child

theorem AtClient.unlock (h : AtClient l) : AtClient (l.unlock lk) where
  calm := ⟨h.calm.phase, fun i hi => h.calm.free i (List.mem_of_mem_erase hi), by
    simp [Know.unlock, h.calm.known]⟩
  run := h.run
  child := h.child

/-- Whatever a client asks for is within the rules. -/
theorem wp_req [NeZero n] (h : AtClient l) (q : Req K n) :
    (switching K n).wp (fun _ l' => AtClient l') q.code l := by
  have hsame {α : Type} {x : KCode K n α} (hx : (switching K n).wp (fun _ l' => l' = l) x l) :
      (switching K n).wp (fun _ l' => AtClient l') x l := hx.imp fun _ _ hl => hl ▸ h
  cases q with
  | acquire lk => exact wp_acquire.mpr fun _ => h.lock (Lock.client_ne lk)
  | release lk => exact wp_release.mpr ⟨fun i _ => Lock.client_ne lk i, fun _ => h.unlock⟩
  | act a => exact wp_act.mpr fun _ => h
  | choose => exact wp_choose.mpr fun _ => h
  | myproc => exact wp_myproc.mpr h
  | sleep ch lk =>
    exact hsame (wp_sleep h.calm (Lock.client_ne lk))
  | wakeup ch => exact hsame (wp_wakeup h.calm)
  | yield => exact hsame (wp_yield h.calm)
  | kkill pid => exact hsame (wp_kkillFrom h.calm _)
  | setkilled =>
    refine wp_bind.mpr (wp_self.mpr fun p _ => hsame (wp_setkilled h.calm))
  | killed =>
    refine wp_bind.mpr (wp_self.mpr fun p _ => hsame (wp_killed h.calm))
  | kfork => exact hsame (wp_kfork h.calm h.child)
  | kexit status => exact wp_kexit h.calm h.child

theorem wp_enter [NeZero n] (h : AtClient l) (k : P.Ctl) (input : P.Input) :
    (switching K n).wp (fun p l' => p ≠ .scheduler ∧ AtClient l') (enter P k input) l := by
  rw [enter, wp_bind]
  refine (wp_expand (fun q _ hl => wp_req hl q) h (P.code k input)).imp fun g l' hl' => ⟨?_, hl'⟩
  cases g <;> simp [Goto.point]

theorem wp_handler (h : Calm l) (x : Handler K) :
    (switching K n).wp (fun _ l' => l' = l) x.code l := by
  simp only [Handler.code, wp_bind, wp_acquire, wp_release]
  intro _
  have hlock : Calm (l.lock (.client x.lk)) := ⟨h.phase, by simp [Know.lock, h.free], h.known⟩
  have hbody : (switching K n).wp (fun _ l' => l' = l.lock (.client x.lk)) (x.body.expand Signal.code)
      (l.lock (.client x.lk)) := by
    refine wp_expand (I := fun l' => l' = l.lock (.client x.lk)) (fun q l' hl' => ?_) rfl x.body
    subst hl'
    cases q with
    | act a => exact wp_act.mpr fun _ => rfl
    | wakeup ch => exact wp_wakeup hlock
  refine hbody.imp fun _ l' hl' => ⟨fun i _ => Lock.client_ne x.lk i, fun _ => ?_⟩
  rw [hl', h.unlock_lock]

end

end Switching

end Xv6.Sched
