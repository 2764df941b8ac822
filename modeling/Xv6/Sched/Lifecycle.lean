-- SUMMARY: The life of a slot of `proc[]`, which the process table and the machine have in common.
import Xv6.Proc.Kill
import Xv6.Sched.Exit
import Mathlib.Logic.Relation

/-!
# The life of a process

There are two models of `proc.c`. A step of the process table is all that happens under a lock.
On the machine every assignment is a step of its own, and other CPUs come in between. For a slot
of `proc[]` both are the same: its fields are assigned to one after the other, and the state of
the process says which assignments there can be.
-/

namespace Xv6.Proc

variable {n : Nat}

/-- The assignments of `proc.c` to the fields of a slot. -/
inductive Assign (x : Slot n) : Slot n → Prop
  /-- `allocproc` -/
  | alloc (pid : Int) (h : x.state = .unused) : Assign x { x with pid := pid, state := .used }
  /-- `yield`; `wakeup` and `kkill`; `kfork` and `userinit` -/
  | runnable (h : x.state = .running ∨ x.state = .sleeping ∨ x.state = .used) :
      Assign x { x with state := .runnable }
  /-- `scheduler` -/
  | running (h : x.state = .runnable) : Assign x { x with state := .running }
  | sleep (chan : Option (Chan n)) (h : x.state = .running) :
      Assign x { x with chan := chan, state := .sleeping }
  | exit (status : Int) (h : x.state = .running) :
      Assign x { x with xstate := status, state := .zombie }
  /-- `freeproc`, for a process that `kfork` gives up or that `kwait` has found -/
  | free (h : x.state = .used ∨ x.state = .zombie) : Assign x (freeproc x)
  | awake : Assign x { x with chan := none }
  | killed : Assign x { x with killed := true }
  | parent (q : Fin n) : Assign x { x with parent := some q }

/-- From one content of a slot to another by assignments. -/
abbrev Lives : Slot n → Slot n → Prop := Relation.ReflTransGen Assign

/-- What `allocproc` relies on. -/
structure Clean (x : Slot n) : Prop where
  pid : x.state = .unused → x.pid = 0
  chan : x.state = .unused ∨ x.state = .used → x.chan = none
  xstate : x.state ≠ .zombie → x.xstate = 0

theorem Lives.clean {x y : Slot n} (h : Lives x y) (hx : Clean x) : Clean y := by
  induction h with
  | refl => exact hx
  | tail _ hassign ih =>
    obtain ⟨hpid, hchan, hxstate⟩ := ih
    cases hassign with
    | runnable h => exact ⟨(by simp), (by simp), fun _ => hxstate (by obtain h | h | h := h <;> simp [h])⟩
    | alloc | running | sleep | exit => constructor <;> simp_all
    | free => exact ⟨fun _ => rfl, fun _ => rfl, fun _ => rfl⟩
    | awake => exact ⟨hpid, fun _ => rfl, hxstate⟩
    | killed | parent => exact ⟨hpid, hchan, hxstate⟩

/-! ## The process table -/

section
variable {s s' : Table n} {p : Fin n} {a : Act n}

theorem Lives.setSlot {x : Slot n} (h : Lives (s.slot p) x) (i : Fin n) :
    Lives (s.slot i) ((s.setSlot p x).slot i) := by
  by_cases hi : i = p
  · subst hi
    rwa [Table.setSlot_self]
  · rw [Table.setSlot_ne _ _ _ hi]

theorem Assign.setSlot {x : Slot n} (h : Assign (s.slot p) x) (i : Fin n) :
    Lives (s.slot i) ((s.setSlot p x).slot i) := Lives.setSlot (.single h) i

theorem Lives.wakeup (s : Table n) (chan : Option (Chan n)) (i : Fin n) :
    Lives (s.slot i) ((s.wakeup chan).slot i) := by
  unfold Table.wakeup
  dsimp only
  split
  · next h => exact .single (.runnable (.inr (.inl h.1)))
  · rfl

theorem Lives.reparent (s : Table n) (p init i : Fin n) :
    Lives (s.slot i) ((s.reparent p init).slot i) := by
  have hpass (t : Table n) : Lives (t.slot i) ((t.passChildren p init).slot i) := by
    unfold Table.passChildren
    dsimp only
    split
    · exact .single (.parent init)
    · rfl
  unfold Table.reparent
  split
  · exact (Lives.wakeup ..).trans (hpass _)
  · exact hpass s

/-- Neither `wakeup` nor `reparent` stops a process. -/
theorem running_woken {q init : Fin n} {chan : Option (Chan n)} (h : (s.slot p).state = .running) :
    (((s.reparent q init).wakeup chan).slot p).state = .running := by
  have hreparent : ((s.reparent q init).slot p).state = .running := by
    unfold Table.reparent Table.passChildren
    dsimp only
    split <;> split <;> simp [Table.wakeup, h]
  simp [Table.wakeup, hreparent]

theorem Local.lives (hinv : Inv s) (hrun : (s.slot p).state = .running)
    (h : Local s p (s.thread p) a s') (i : Fin n) : Lives (s.slot i) (s'.slot i) := by
  generalize hpc : s.thread p = pc at h
  cases h with
  | sleep | exitSleep | waitSleep => exact Assign.setSlot (s := s) (.sleep _ hrun) i
  | fault => exact Assign.setSlot (s := s) .killed i
  | alloc hj => exact Assign.setSlot (s := s) (.alloc _ hj) i
  | @allocFail j hj =>
    have halloc := Assign.setSlot (s := s) (.alloc s.nextpid hj) i
    refine halloc.trans (Assign.setSlot (s := s.allocproc j) (.free (.inl ?_)) i)
    rw [Table.allocproc_slot, Table.setSlot_self]
  | setParent => exact Assign.setSlot (s := s) (.parent p) i
  | setRunnable =>
    have hused := hinv.used p _ (.inr hpc)
    exact Assign.setSlot (s := s) (.runnable (.inr (.inr hused))) i
  | @zombie status t hp hfree ht =>
    have hwoken : Lives (s.slot i) (t.slot i) := by
      rw [ht]
      exact (Lives.reparent ..).trans (Lives.wakeup ..)
    refine hwoken.trans (Assign.setSlot (s := t) (.exit status ?_) i)
    rw [ht]
    exact running_woken hrun
  | reap hparent hj => exact Assign.setSlot (s := s) (.free (.inr hj)) i
  | @hit j =>
    refine Lives.setSlot (s := s) (.head .killed ?_) i
    split
    · next hasleep => exact .single (.runnable (.inr (.inl hasleep)))
    · rfl
  | _ => rfl

/-- A step of the table is a sequence of assignments, for every slot. -/
theorem Step.lives (hinv : Inv s) (h : Step s (p, a) s') (i : Fin n) :
    Lives (s.slot i) (s'.slot i) := by
  cases h.view with
  | @userinit t hp hboot ht =>
    subst ht
    have halloc := Assign.setSlot (s := s) (.alloc s.nextpid (hinv.boot hboot p)) i
    refine halloc.trans (Assign.setSlot (s := s.allocproc p) (.runnable (.inr (.inr ?_))) i)
    rw [Table.allocproc_slot, Table.setSlot_self]
  | sched hp => exact Lives.setSlot (s := s) (.tail (.single (.running hp)) .awake) i
  | yield hp => exact Assign.setSlot (s := s) (.runnable (.inl hp)) i
  | wakeup hp => exact Assign.setSlot (s := s) (.runnable (.inr (.inl hp))) i
  | thread hrun hlocal => exact hlocal.lives hinv hrun i

theorem Table.lives {as : List (Fin n × Act n)} (hrun : Sys.Run Step (init : Table n) as s) (i : Fin n) :
    Lives ((init : Table n).slot i) (s.slot i) := by
  refine (hrun.invariant (I := fun t => Inv t ∧ Lives _ (t.slot i)) ?_ ⟨inv_init, .refl⟩).2
  rintro t ⟨p, a⟩ u ⟨hinv, hlives⟩ hst
  exact ⟨hst.inv hinv, hlives.trans (hst.lives hinv i)⟩

end

end Xv6.Proc

/-! ## The machine -/

namespace Xv6.Sched

open Proc (Assign Lives)

variable {K : Sig} {n m : Nat} {P : Client K n}

def Chan.abs : Chan K n → Proc.Chan n
  | .proc i => .proc i
  | .client _ => .other

/-- A slot as the process table has it. -/
def Slot.abs (x : Slot K n) : Proc.Slot n :=
  ⟨x.state, x.chan.map Chan.abs, x.killed, x.xstate, x.pid, x.parent⟩

theorem Write.From.assign {w : Write K n} {x : Slot K n} (h : w.From x.state) :
    Assign x.abs (w.apply x).abs := by
  cases w with
  | state st =>
    cases st with
    | runnable => exact .runnable h
    | running => exact .running h
    | _ => exact h.elim
  | sleep chan => exact .sleep (chan.map Chan.abs) h
  | awake => exact .awake
  | killed => exact .killed
  | parent q => exact .parent q
  | alloc pid => exact .alloc pid h
  | exit status => exact .exit status h
  | free => exact .free (.inl h)
  | reap pid status => exact .free (.inr h)

section
variable [NeZero n]

/-- A step of the machine is at most one assignment, to one slot. -/
theorem Machine.Step.assign {M M' : Machine P m} {a : Fin m × Label P}
    (h : (switchDiscipline P m).Inv M) (hstep : M.Step a M') :
    M'.shared.slot = M.shared.slot ∨
    ∃ i y, Assign (M.shared.slot i).abs y.abs ∧ M'.shared.slot = Function.update M.shared.slot i y := by
  obtain ⟨X, hagree, hcode⟩ := h
  obtain ⟨-, hsame⟩ | ⟨choice, o, r, -, habout, hexec⟩ := Machine.next_shared hstep
  · exact .inl (by rw [hsame])
  by_cases ho : ∃ i w, o = .write i w
  · obtain ⟨i, w, rfl⟩ := ho
    have hfrom := hagree.from_of_can (can_of_about hcode habout)
    obtain ⟨-, hshared⟩ := Prod.mk.inj (Option.some.inj hexec)
    exact .inr ⟨i, _, hfrom.assign, by rw [← hshared]; rfl⟩
  · exact .inl (Shared.exec_slot hexec fun i w heq => ho ⟨i, w, heq⟩)

theorem Machine.Step.lives {M M' : Machine P m} {a : Fin m × Label P}
    (h : (switchDiscipline P m).Inv M) (hstep : M.Step a M') (i : Fin n) :
    Lives (M.shared.slot i).abs (M'.shared.slot i).abs := by
  obtain hsame | ⟨j, y, hassign, hslot⟩ := hstep.assign h
  · rw [hsame]
  · by_cases hij : i = j
    · subst hij
      rw [hslot, Function.update_self]
      exact .single hassign
    · rw [hslot, Function.update_of_ne hij]

/-- The machine starts after `userinit`. -/
theorem boot_lives (P : Client K n) (data : K.Data) (i : Fin n) :
    Lives ((Proc.init : Proc.Table n).slot i) ((boot P m data).shared.slot i).abs := by
  by_cases hi : i = initproc
  · subst hi
    have halloc : Lives ((Proc.init : Proc.Table n).slot initproc) _ := .single (.alloc 1 rfl)
    have hboot : (boot P m data).shared.slot initproc = initSlot := by simp [boot]
    rw [hboot]
    exact halloc.tail (.runnable (.inr (.inr rfl)))
  · have hboot : (boot P m data).shared.slot i = .empty := by simp [boot, hi]
    rw [hboot]
    exact .refl

/-- Whatever the rest of the kernel does, in every interleaving on any number of CPUs: the slots of
`proc[]` go through the life that they have in the process table. What is in a slot has come about,
from what `procinit` finds there, by assignments that the state of the process allows, and a step of
the machine is at most one such assignment, to one slot. So a free slot has no `pid` and no channel,
and there is no exit status outside of a `ZOMBIE`. -/
theorem slots_live_as_in_table (P : Client K n) {data : K.Data} {M : Machine P m}
    {as : List (Fin m × Label P)} (hrun : Sys.Run Machine.Step (boot P m data) as M) :
    (∀ i, Lives ((Proc.init : Proc.Table n).slot i) (M.shared.slot i).abs ∧
      Proc.Clean (M.shared.slot i).abs) ∧
    ∀ a M', M.Step a M' → M'.shared.slot = M.shared.slot ∨
      ∃ i y, Assign (M.shared.slot i).abs y.abs ∧
        M'.shared.slot = Function.update M.shared.slot i y := by
  have hlives (i : Fin n) : Lives ((Proc.init : Proc.Table n).slot i) (M.shared.slot i).abs := by
    refine (hrun.invariant (I := fun M => (switchDiscipline P m).Inv M ∧ Lives _ (M.shared.slot i).abs)
      (fun M a M' h hst => ?_) ⟨switchDiscipline_boot P data, boot_lives P data i⟩).2
    exact ⟨h.1.step (fun _ _ _ => trivial) hst, h.2.trans (hst.lives h.1 i)⟩
  refine ⟨fun i => ⟨hlives i, (hlives i).clean ?_⟩, fun a M' hstep => ?_⟩
  · exact ⟨fun _ => rfl, fun _ => rfl, fun _ => rfl⟩
  · exact hstep.assign ((switchDiscipline_boot P data).ofRun hrun)

end

/-- Init has forked a child, which exits with status 7 and is not waited for yet. -/
theorem slots_live_as_in_table_zombie : ∃ M : Machine (calls 2) 1,
    Sys.Run Machine.Step (boot (calls 2) 1 ()) ((forkWait 0).take 82) M ∧
    ((M.shared.slot 1).state = .zombie ∧ (M.shared.slot 1).xstate = 7) ∧
    Lives ((Proc.init : Proc.Table 2).slot 1) (M.shared.slot 1).abs := by
  have hexec : (Sys.exec Machine.next (boot (calls 2) 1 ()) ((forkWait 0).take 82)).any (fun M =>
      decide ((M.shared.slot 1).state = .zombie ∧ (M.shared.slot 1).xstate = 7)) = true := by
    decide +kernel
  obtain ⟨M, hM, hzombie⟩ := Sys.exists_of_any hexec
  have hrun : Sys.Run Machine.Step (boot (calls 2) 1 ()) ((forkWait 0).take 82) M := Sys.exec_run hM
  exact ⟨M, hrun, of_decide_eq_true hzombie, ((slots_live_as_in_table (calls 2) hrun).1 1).1⟩

end Xv6.Sched
