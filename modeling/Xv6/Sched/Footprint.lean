-- SUMMARY: Which operations the functions of `proc.c` consist of.
import Xv6.Sched.Machine

/-!
# Footprints

Most of what a thread knows is not touched by most functions of `proc.c`. The footprint of a
function is a property that all its operations have. Every function takes and releases locks
of processes, looks at slots and wakes up processes; these operations are `Inner`, and those of
them that write to no slot are `Plain`. The others are named one by one.
-/

namespace Xv6.Sched

open Code

variable {K : Sig} {n : Nat} {P : Op K n → Prop}

/-- Operations that every function may use. -/
def Op.Inner : Op K n → Prop
  | .acquire (.proc _) | .release (.proc _) => True
  | .acquire _ | .release _ | .act _ => False
  | .write _ (.state _) | .write _ .awake | .write _ .killed => True
  | .write _ _ | .swtchTo _ => False
  | _ => True

/-- Operations of these that leave slots alone. -/
def Op.Plain : Op K n → Prop
  | .acquire (.proc _) | .release (.proc _) => True
  | .acquire _ | .release _ | .act _ | .write _ _ | .swtchTo _ => False
  | _ => True

theorem Op.Plain.inner {o : Op K n} (h : o.Plain) : o.Inner := by
  cases o with
  | acquire lk | release lk => cases lk <;> trivial
  | act a => exact h.elim
  | write i w => exact h.elim
  | swtchTo p => exact h.elim
  | _ => trivial

theorem all_allocprocFrom (hP : ∀ o, o.Plain → P o) (halloc : ∀ p pid, P (.write p (.alloc pid)))
    (hfree : ∀ p, P (.write p .free)) (ps : List (Fin n)) :
    (allocprocFrom ps : KCode K n (Option (Fin n))).All P := by
  have hrelease {p : Fin n} {x : KCode K n (Option (Fin n))} (hx : x.All P) :
      (release (.proc p) >>= fun _ => x).All P :=
    (all_perform (hP (.release (.proc p)) trivial)).bind fun _ => hx
  have hundo (p : Fin n) : (do
      write p .free
      release (.proc p)
      pure none : KCode K n (Option (Fin n))).All P :=
    (all_perform (hfree p)).bind fun _ => hrelease (all_pure _)
  induction ps with
  | nil => exact all_pure _
  | cons p ps ih =>
    refine (all_perform (hP (.acquire (.proc p)) trivial)).bind fun _ => ?_
    refine (all_perform (hP (.read p) trivial)).bind fun x => all_ite ?_ (hrelease ih)
    refine (all_perform (hP .allocpid trivial)).bind fun pid => (all_perform (halloc p pid)).bind fun _ => ?_
    refine (all_perform (hP .choose trivial)).bind fun b => all_ite (hundo p) ?_
    refine (all_perform (hP .choose trivial)).bind fun b => all_ite (hundo p) ?_
    exact (all_perform (hP (.setContext p) trivial)).bind fun _ => all_pure _

section
variable (hP : ∀ o, o.Inner → P o)

include hP

theorem all_panic {α : Type} : (panic : KCode K n α).All P := ⟨hP _ trivial, fun r => r.elim⟩

theorem all_self : (self : KCode K n (Fin n)).All P := by
  refine (all_perform (hP .myproc trivial)).bind fun p => ?_
  cases p with
  | none => exact all_panic hP
  | some p => exact all_pure p

theorem all_sched : (sched : KCode K n Unit).All P := by
  refine (all_self hP).bind fun p => (all_perform (hP (.holding _) trivial)).bind fun b => ?_
  refine all_ite (all_panic hP) ((all_perform (hP .noff trivial)).bind fun k => ?_)
  refine all_ite (all_panic hP) ((all_perform (hP (.read p) trivial)).bind fun x => ?_)
  exact all_ite (all_panic hP) (all_perform (hP .swtch trivial))

/-- The begin and the end of a critical section on a slot. -/
theorem all_lockRead {α : Type} {p : Fin n} {f : Slot K n → KCode K n α} (hf : ∀ x, (f x).All P) :
    (acquire (.proc p) >>= fun _ => read p >>= f).All P :=
  (all_perform (hP (.acquire (.proc p)) trivial)).bind fun _ =>
    (all_perform (hP (.read p) trivial)).bind hf

theorem all_releaseSlot {p : Fin n} : (release (.proc p) : KCode K n Unit).All P :=
  all_perform (hP (.release (.proc p)) trivial)

theorem all_setState {p : Fin n} (x : Proc.ProcState) : (write p (.state x) : KCode K n Unit).All P :=
  all_perform (hP (.write p (.state x)) trivial)

theorem all_awake {p : Fin n} : (write p .awake : KCode K n Unit).All P :=
  all_perform (hP (.write p .awake) trivial)

theorem all_markKilled {p : Fin n} : (write p .killed : KCode K n Unit).All P :=
  all_perform (hP (.write p .killed) trivial)

theorem all_yield : (yield : KCode K n Unit).All P :=
  (all_self hP).bind fun p => (all_perform (hP (.acquire (.proc p)) trivial)).bind fun _ =>
    (all_setState hP _).bind fun _ => (all_sched hP).bind fun _ => all_releaseSlot hP

theorem all_sleep {chan : Option (Chan K n)} {lk : Lock K n} (hacquire : P (.acquire lk))
    (hrelease : P (.release lk)) (hsleep : ∀ p, P (.write p (.sleep chan))) :
    (sleep chan lk).All P :=
  (all_self hP).bind fun p => (all_perform (hP (.acquire (.proc p)) trivial)).bind fun _ =>
    (all_perform hrelease).bind fun _ => (all_perform (hsleep p)).bind fun _ =>
    (all_sched hP).bind fun _ => (all_awake hP).bind fun _ =>
    (all_releaseSlot hP).bind fun _ => all_perform hacquire

theorem all_wakeup {chan : Option (Chan K n)} : (wakeup chan).All P := by
  refine all_forM fun p _ => (all_perform (hP .myproc trivial)).bind fun q => ?_
  refine all_ite (all_lockRead hP fun x => ?_) (all_pure _)
  exact all_ite ((all_setState hP _).bind fun _ => all_releaseSlot hP) (all_releaseSlot hP)

theorem all_kkillFrom {pid : Int} (ps : List (Fin n)) :
    (kkillFrom pid ps : KCode K n Int).All P := by
  induction ps with
  | nil => exact all_pure _
  | cons p ps ih =>
    refine all_lockRead hP fun x => all_ite ((all_markKilled hP).bind fun _ => ?_) ?_
    · refine all_ite ((all_setState hP _).bind fun _ => ?_) ?_
      all_goals exact (all_releaseSlot hP).bind fun _ => all_pure _
    · exact (all_releaseSlot hP).bind fun _ => ih

theorem all_setkilled {p : Fin n} : (setkilled p : KCode K n Unit).All P :=
  (all_perform (hP (.acquire (.proc p)) trivial)).bind fun _ =>
    (all_markKilled hP).bind fun _ => all_releaseSlot hP

theorem all_killed {p : Fin n} : (killed p : KCode K n Bool).All P :=
  all_lockRead hP fun _ => (all_releaseSlot hP).bind fun _ => all_pure _

theorem all_kfork (halloc : ∀ p pid, P (.write p (.alloc pid))) (hfree : ∀ p, P (.write p .free))
    (hparent : ∀ p q, P (.write p (.parent q))) (hacquire : P (.acquire .wait))
    (hrelease : P (.release .wait)) : (kfork : KCode K n Int).All P := by
  refine (all_self hP).bind fun p => (all_allocprocFrom (fun o ho => hP o ho.inner) halloc hfree _).bind fun np => ?_
  cases np with
  | none => exact all_pure _
  | some np =>
    refine (all_perform (hP .choose trivial)).bind fun b => all_ite ?_ ?_
    · exact (all_perform (hfree np)).bind fun _ => (all_releaseSlot hP).bind fun _ => all_pure _
    · refine (all_perform (hP (.read np) trivial)).bind fun x => (all_releaseSlot hP).bind fun _ => ?_
      refine (all_perform hacquire).bind fun _ => (all_perform (hparent np p)).bind fun _ => ?_
      refine (all_perform hrelease).bind fun _ => (all_perform (hP (.acquire (.proc np)) trivial)).bind
        fun _ => ?_
      exact (all_setState hP _).bind fun _ => (all_releaseSlot hP).bind fun _ => all_pure _

theorem all_kexit [NeZero n] {α : Type} {status : Int} (hparent : ∀ p q, P (.write p (.parent q)))
    (hexit : ∀ p, P (.write p (.exit status))) (hacquire : P (.acquire .wait))
    (hrelease : P (.release .wait)) : (kexit status : KCode K n α).All P := by
  refine (all_self hP).bind fun p => all_ite (all_panic hP) ?_
  refine (all_perform hacquire).bind fun _ => (all_forM fun pp _ => ?_).bind fun _ => ?_
  · refine (all_perform (hP (.read pp) trivial)).bind fun x => all_ite ?_ (all_pure _)
    exact (all_perform (hparent pp _)).bind fun _ => all_wakeup hP
  · refine (all_perform (hP (.read p) trivial)).bind fun x => (all_wakeup hP).bind fun _ => ?_
    refine (all_perform (hP (.acquire (.proc p)) trivial)).bind fun _ => ?_
    exact (all_perform (hexit p)).bind fun _ => (all_perform hrelease).bind fun _ =>
      (all_sched hP).bind fun _ => all_panic hP

theorem all_kwaitScan {p : Fin n} {copy : Bool} (hreap : ∀ p pid status, P (.write p (.reap pid status)))
    (hrelease : P (.release .wait)) (havekids : Bool) (ps : List (Fin n)) :
    (kwaitScan p copy havekids ps : KCode K n (Bool ⊕ Int)).All P := by
  induction ps generalizing havekids with
  | nil => exact all_pure _
  | cons pp ps ih =>
    refine (all_perform (hP (.read pp) trivial)).bind fun x => all_ite ?_ (ih havekids)
    refine all_lockRead hP fun y => all_ite ?_ ((all_releaseSlot hP).bind fun _ => ih true)
    have hfails : (copyoutFails copy : KCode K n Bool).All P :=
      all_ite (all_perform (hP .choose trivial)) (all_pure _)
    refine All.bind (hfails.bind fun b => all_ite ?_ ?_) fun _ => all_pure _
    · exact (all_releaseSlot hP).bind fun _ => (all_perform hrelease).bind fun _ => all_pure _
    · exact (all_perform (hreap ..)).bind fun _ => (all_releaseSlot hP).bind fun _ =>
        (all_perform hrelease).bind fun _ => all_pure _

theorem all_kwaitRound {copy : Bool} (hreap : ∀ p pid status, P (.write p (.reap pid status)))
    (hacquire : P (.acquire .wait)) (hrelease : P (.release .wait))
    (hsleep : ∀ p q, P (.write p (.sleep (some (.proc q))))) :
    (kwaitRound copy : KCode K n (Option Int)).All P := by
  refine (all_self hP).bind fun p => (all_kwaitScan hP hreap hrelease false _).bind fun r => ?_
  cases r with
  | inr pid => exact all_pure _
  | inl havekids =>
    refine All.bind (all_ite (all_killed hP) (all_pure _)) fun b => all_ite ?_ ?_
    · exact (all_perform hrelease).bind fun _ => all_pure _
    · exact (all_sleep hP hacquire hrelease fun q => hsleep q p).bind fun _ => all_pure _

theorem all_schedulerPass (hswtchTo : ∀ p, P (.swtchTo p)) : (schedulerPass : KCode K n Unit).All P := by
  refine all_forM fun p _ => all_lockRead hP fun x => all_ite ?_ (all_releaseSlot hP)
  exact (all_setState hP _).bind fun _ => (all_perform (hP (.setProc _) trivial)).bind fun _ =>
    (all_perform (hswtchTo p)).bind fun _ =>
    (all_perform (hP (.setProc _) trivial)).bind fun _ => all_releaseSlot hP

theorem all_forkret : (forkret : KCode K n Unit).All P :=
  (all_self hP).bind fun _ => all_releaseSlot hP

end

end Xv6.Sched
