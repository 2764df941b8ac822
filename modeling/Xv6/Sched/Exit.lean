-- SUMMARY: Exit statuses are delivered exactly once: the process table refines an abstract register of children.
import Xv6.Sched.Wait

/-!
# Exit statuses

What `kfork`, `kexit`, `reparent` and `kwait` are for: a register of children, each with its parent
and, once it has exited, its `pid` and status. A child enters the register with a parent, may be
handed over to init, exits once, and leaves the register when its parent of that moment collects
its status. Every run of the machine, whatever the rest of the kernel does, is a run of the
register.
-/

namespace Xv6.Sched

variable {K : Sig} {n m : Nat} {P : Client K n}

/-! ## The register -/

/-- A process with a parent; `dead` is its `pid` and status if it has exited. -/
structure Ward (n : Nat) where
  parent : Fin n
  dead : Option (Int × Int)

abbrev Register (n : Nat) := Fin n → Option (Ward n)

inductive Event (n : Nat)
  | adopted (i q : Fin n)
  | exited (i : Fin n) (pid status : Int)
  /-- A `kwait` of `q` returns `pid`, and has copied out `status` unless its argument was 0. -/
  | waited (q i : Fin n) (pid : Int) (status : Option Int)
  deriving DecidableEq

inductive Register.Step [NeZero n] : Register n → Event n → Register n → Prop
  | fork {N : Register n} {i q : Fin n} (h : N i = none) :
      Step N (.adopted i q) (Function.update N i (some ⟨q, none⟩))
  | reparent {N : Register n} {i : Fin n} {w : Ward n} (h : N i = some w) :
      Step N (.adopted i initproc) (Function.update N i (some { w with parent := initproc }))
  | exit {N : Register n} {i q : Fin n} {pid status : Int} (h : N i = some ⟨q, none⟩) :
      Step N (.exited i pid status) (Function.update N i (some ⟨q, some (pid, status)⟩))
  | wait {N : Register n} {i q : Fin n} {pid xstate : Int} {status : Option Int}
      (h : N i = some ⟨q, some (pid, xstate)⟩) (hstatus : status = none ∨ status = some xstate) :
      Step N (.waited q i pid status) (Function.update N i none)

/-! ## The table -/

/-- The register that a slot of the table stands for. -/
def Slot.ward (x : Slot K n) : Option (Ward n) :=
  x.parent.map fun q => ⟨q, if x.state = .zombie then some (x.pid, x.xstate) else none⟩

def Shared.register (s : Shared K n m) : Register n := fun i => (s.slot i).ward

/-- The event that an operation of CPU `c` is. -/
def Shared.event (s : Shared K n m) (c : Fin m) : Op K n → Option (Event n)
  | .write i (.parent q) => some (.adopted i q)
  | .write i (.exit status) => some (.exited i (s.slot i).pid status)
  | .write i (.reap pid status) => (s.cpu c).proc.map fun q => .waited q i pid status
  | _ => none

def Machine.event (M : Machine P m) : Fin m × Label P → Option (Event n)
  | (c, .op _) =>
    match M.code (M.shared.tid c) with
    | .op o _ => M.shared.event c o
    | .ret _ => none
  | _ => none

section
variable {s : Shared K n m} {i : Fin n} {w : Write K n}

theorem register_setSlot (y : Slot K n) :
    (s.setSlot i y).register = Function.update s.register i y.ward := by
  funext j
  by_cases hj : j = i
  · subst hj
    simp [Shared.register]
  · simp [Shared.register, Shared.setSlot_ne, hj]

/-- A slot with the same ward. -/
theorem register_same {y : Slot K n} (h : y.ward = (s.slot i).ward) :
    (s.setSlot i y).register = s.register := by
  rw [register_setSlot, h]
  exact Function.update_eq_self i s.register

variable [NeZero n]

/-- Zombies have a parent. -/
theorem Family.parent_of_zombie (h : Family s) (hi : (s.slot i).state = .zombie) :
    (s.slot i).parent ≠ none := by
  refine h.started i ?_ (by simp [Started, hi])
  rintro rfl
  obtain halive | halive | halive := h.init <;> cases hi.symm.trans halive

end

namespace KinOk

variable [NeZero n] {q : Fin n} {s s' : Shared K n m} {X : Tid n m → (Know K n × Kin n) × Mark n}
  {c : Fin m} {choice : Bool} {o : Op K n} {r : o.Res} {i : Fin n} {w : Write K n}

/-- Writes that are no events. -/
theorem register_silent (h : KinOk q s X) (hcan : (Kin.rules q m).can (X (s.tid c)) (.write i w))
    (hevent : s.event c (.write i w) = none) :
    (s.setSlot i (w.apply (s.slot i))).register = s.register := by
  obtain ⟨⟨hcan17, hkin⟩, -⟩ := hcan
  have hfrom := h.switch.from_of_can hcan17
  refine register_same ?_
  cases w with
  | parent | exit => cases hevent
  | state x =>
    cases x with
    | runnable => obtain hx | hx | hx := hfrom <;> simp [Slot.ward, Write.apply, hx]
    | running => simp [Slot.ward, Write.apply, show (s.slot i).state = .runnable from hfrom]
    | _ => exact hcan17.elim
  | sleep chan => simp [Slot.ward, Write.apply, show (s.slot i).state = .running from hfrom]
  | awake | killed => rfl
  | alloc pid => simp [Slot.ward, Write.apply, h.kin.family.unused i hfrom]
  | free => simp [Slot.ward, Write.apply, Slot.empty, h.kin.unborn_of_free hcan17.2 hkin]
  | reap pid status =>
    -- a scheduler reaps nobody
    obtain ⟨⟨p, hp, hparent⟩, -⟩ := hkin
    have hparent := hparent _ (h.kin.fam _ p hp)
    rw [← (h.switch.cpu c).proc] at hparent
    have hproc : (s.cpu c).proc = none := by simpa [Shared.event] using hevent
    exact absurd (hparent.trans hproc) (h.kin.family.parent_of_zombie hfrom)

theorem register_adopted {p : Fin n} (h : KinOk q s X)
    (hcan : (Kin.rules q m).can (X (s.tid c)) (.write i (.parent p))) :
    s.register.Step (.adopted i p) (s.setSlot i ((Write.parent p).apply (s.slot i))).register := by
  obtain ⟨⟨-, f, hf, hkin⟩, -⟩ := hcan
  rw [register_setSlot]
  obtain ⟨hchild, hborn, -⟩ | ⟨rfl, hsome⟩ := hkin
  · have hused := h.switch.child _ i hchild
    have hnone : (s.slot i).parent = none := h.kin.unborn _ i hchild hborn
    have hward : ((Write.parent p).apply (s.slot i)).ward = some ⟨p, none⟩ := by
      simp [Slot.ward, Write.apply, show (s.slot i).state = .used from hused]
    rw [hward]
    exact .fork (by simp [Shared.register, Slot.ward, hnone])
  · obtain ⟨p', hp'⟩ := Option.ne_none_iff_exists'.mp (hsome _ (h.kin.fam _ f hf))
    have hp' : (s.slot i).parent = some p' := hp'
    have hold : s.register i = some ⟨p', if (s.slot i).state = .zombie then
        some ((s.slot i).pid, (s.slot i).xstate) else none⟩ := by
      simp [Shared.register, Slot.ward, hp']
    exact .reparent hold

theorem register_exited {status : Int} (h : KinOk q s X)
    (hcan : (Kin.rules q m).can (X (s.tid c)) (.write i (.exit status))) :
    s.register.Step (.exited i (s.slot i).pid status)
      (s.setSlot i ((Write.exit status).apply (s.slot i))).register := by
  obtain ⟨⟨hcan17, hi, -⟩, -⟩ := hcan
  have hrunning : (s.slot i).state = .running := h.switch.from_of_can (w := .exit status) hcan17
  obtain ⟨p, hp⟩ := Option.ne_none_iff_exists'.mp
    (h.kin.family.started i hi (by simp [Started, hrunning]))
  have hward : ((Write.exit status).apply (s.slot i)).ward = some ⟨p, some ((s.slot i).pid, status)⟩ := by
    simp [Slot.ward, Write.apply, hp]
  rw [register_setSlot, hward]
  exact .exit (by simp [Shared.register, Slot.ward, hp, hrunning])

theorem register_waited {pid : Int} {status : Option Int} {p : Fin n} (h : KinOk q s X)
    (hcan : (Kin.rules q m).can (X (s.tid c)) (.write i (.reap pid status)))
    (hp : (s.cpu c).proc = some p) : s.register.Step (.waited p i pid status)
      (s.setSlot i ((Write.reap pid status).apply (s.slot i))).register := by
  obtain ⟨⟨hcan17, ⟨f, hf, hparent⟩, xstate, hseen, hstatus⟩, -⟩ := hcan
  have hzombie : (s.slot i).state = .zombie := h.switch.from_of_can (w := .reap pid status) hcan17
  have hparent : (s.slot i).parent = some p :=
    (hparent _ (h.kin.fam _ f hf)).trans ((h.switch.cpu c).proc.symm.trans hp)
  obtain ⟨-, -, hpid, hxstate⟩ := h.kin.seen _ i pid xstate hseen
  have hward : s.register i = some ⟨p, some (pid, xstate)⟩ := by
    simp [Shared.register, Slot.ward, hparent, hzombie, hpid, hxstate]
  rw [register_setSlot]
  exact .wait hward hstatus

/-- An operation is a step of the register if it is an event, and otherwise leaves it. -/
theorem register_op (h : KinOk q s X) (hcan : (Kin.rules q m).can (X (s.tid c)) o)
    (hexec : s.exec c choice o = some (r, s')) :
    (s.event c o = none → s'.register = s.register) ∧
    ∀ e, s.event c o = some e → s.register.Step e s'.register := by
  by_cases ho : ∃ i w, o = .write i w
  · obtain ⟨i, w, rfl⟩ := ho
    cases hexec
    refine ⟨h.register_silent hcan, fun e he => ?_⟩
    cases w with
    | parent p =>
      cases he
      exact h.register_adopted hcan
    | exit status =>
      cases he
      exact h.register_exited hcan
    | reap pid status =>
      obtain ⟨p, hp, rfl⟩ := Option.map_eq_some_iff.mp he
      exact h.register_waited hcan hp
    | _ => cases he
  · have hslot := Shared.exec_slot hexec fun i w heq => ho ⟨i, w, heq⟩
    refine ⟨fun _ => funext fun i => by simp only [Shared.register, hslot], fun e he => ?_⟩
    cases o with
    | write i w => exact absurd ⟨i, w, rfl⟩ ho
    | _ => cases he

end KinOk

/-! ## Runs -/

section
variable [NeZero n]

theorem kin_boot (P : Client K n) (data : K.Data) (q : Fin n) :
    (Kin.discipline P m q).Inv (boot P m data) := by
  have hslot (i : Fin n) : ((boot P m data).shared.slot i).parent = none := by
    by_cases hi : i = initproc <;> simp [boot, hi, initSlot, Slot.empty]
  have hother (i : Fin n) (hi : i ≠ initproc) : ((boot P m data).shared.slot i).state = .unused := by
    simp [boot, hi, Slot.empty]
  have hwait (t : Tid n m) : (Lock.wait : Lock K n) ∉ (knowAtBoot t : Know K n).held := not_mem_boot Lock.wait_ne t
  have hchild (t : Tid n m) : (knowAtBoot t : Know K n).child = none := by cases t <;> rfl
  refine ⟨fun t => ((knowAtBoot t, .empty), .out), ⟨.boot P data, ?_, ?_⟩, ?_⟩
  · refine ⟨⟨fun i p hp => ?_, ?_, fun i hi hst => ?_, fun i _ => hslot i⟩,
      fun t => ⟨fun hfam => ?_, fun hin => absurd hin (hwait t)⟩, fun t p hp => ?_,
      fun t i hi => ?_, fun t i hi => ?_, fun t i pid xstate hseen => ?_⟩
    · cases (hslot i).symm.trans hp
    · exact .inr (.inl (by simp [boot, initSlot]))
    · exact absurd (hother i hi) hst.1
    · obtain ⟨p, hp⟩ := hfam
      cases hp
    · cases hp
    · cases hi
    · cases (hchild t).symm.trans hi
    · cases hseen
  · refine ⟨fun t => ⟨(by simp), fun hin => absurd hin (hwait t)⟩, (by simp), (by simp), (by simp), fun _ _ i hi => ?_⟩
    obtain hi | hi := hi
    · exact boot_awake P data i hi.1
    · cases hi
  · refine boot_code (C := fun t x => (Kin.rules q m).wp _ x ((knowAtBoot t, .empty), .out))
      (Kin.wp_started rfl ⟨rfl, rfl, rfl⟩ rfl) (fun _ => Layered.wp_panic Kin.quiet_of_inner rfl) fun c => ?_
    exact ⟨_, ⟨⟨.inr ⟨rfl, rfl⟩, fun _ => List.not_mem_nil, rfl⟩, rfl, rfl, rfl⟩, rfl⟩

variable {q : Fin n}

/-- One step of the machine. -/
theorem register_step {M M' : Machine P m} {a : Fin m × Label P} (h : (Kin.discipline P m q).Inv M)
    (hstep : M.next a = some M') :
    (M.event a = none → M'.shared.register = M.shared.register) ∧
    ∀ e, M.event a = some e → M.shared.register.Step e M'.shared.register := by
  obtain ⟨X, hagree, hcode⟩ := h
  obtain ⟨c, label⟩ := a
  obtain ⟨hlabel, hsame⟩ | ⟨choice, o, r, rfl, habout, hexec⟩ := Machine.next_shared hstep
  · rw [hsame]
    cases label with
    | op choice => exact absurd rfl (hlabel choice)
    | _ => exact ⟨fun _ => rfl, fun e he => by cases he⟩
  · have hop := KinOk.register_op hagree (can_of_about hcode habout) hexec
    obtain ⟨k, hk⟩ := habout
    simpa only [Machine.event, hk] using hop

theorem register_run (P : Client K n) {data : K.Data} {M : Machine P m} {as : List (Fin m × Label P)}
    (hrun : Sys.Run Machine.Step (boot P m data) as M) :
    Sys.Run Register.Step (fun _ => none) (Sys.emitted Machine.next Machine.event (boot P m data) as)
      M.shared.register := by
  have hempty : (boot P m data).shared.register = fun _ => none := by
    funext i
    by_cases hi : i = initproc <;> simp [Shared.register, Slot.ward, boot, hi, initSlot, Slot.empty]
  rw [← hempty]
  refine Sys.Run.refines (f := fun M : Machine P m => M.shared.register)
    (I := (Kin.discipline P m initproc).Inv) (fun _ _ _ h hst => h.step (fun _ _ _ => trivial) hst)
    (fun _ _ _ h hst => (register_step h hst).1) (fun _ _ _ e h hst => (register_step h hst).2 e)
    (kin_boot P data initproc) hrun

/-- Exit statuses are delivered exactly once, in every interleaving of any number of processes on
any number of CPUs. Every process but init that `kfork` has completed has a parent, and a parent
is neither `UNUSED` nor `ZOMBIE`. The table goes through the steps of the register: an exited
process stays `ZOMBIE` with its `pid` and status until one `kwait` of its parent, which is then
init if the process has been handed over, returns that `pid` with that status. While `wait_lock`
is free, no process is asleep in `kwait` that has a `ZOMBIE` child. -/
theorem exit_status_delivered_once (P : Client K n) {data : K.Data} {M : Machine P m}
    {as : List (Fin m × Label P)} (hrun : Sys.Run Machine.Step (boot P m data) as M) :
    (∀ i, i ≠ initproc → Started (M.shared.slot i).state → (M.shared.slot i).parent ≠ none) ∧
    (∀ i q, (M.shared.slot i).parent = some q →
      (M.shared.slot q).state ≠ .unused ∧ (M.shared.slot q).state ≠ .zombie) ∧
    Sys.Run Register.Step (fun _ => none) (Sys.emitted Machine.next Machine.event (boot P m data) as)
      M.shared.register ∧
    (M.shared.lock .wait = none → ∀ i q, (M.shared.slot i).parent = some q →
      (M.shared.slot i).state = .zombie →
      ¬ ((M.shared.slot q).state = .sleeping ∧ (M.shared.slot q).chan = some (.proc q))) := by
  have hfamily : Family M.shared := by
    obtain ⟨X, h, -⟩ := (kin_boot P data initproc).ofRun hrun
    exact h.kin.family
  refine ⟨hfamily.started, fun i q hq => ?_, register_run P hrun, fun hfree i q hq hzombie hasleep => ?_⟩
  · obtain hst | hst | hst := hfamily.alive i q hq <;> simp [hst]
  · obtain ⟨X, h, -⟩ := (kin_boot P data q).ofRun hrun
    exact h.watch.free hfree ⟨i, hq, hzombie⟩ q (.inl hasleep)

end

/-- Init forks and goes to sleep in `wait`; the child exits with status 7, and init gets it. -/
def forkWait (c : Fin m) : List (Fin m × Label (calls 2)) :=
  List.flatten [(c, .resume) :: ops c 7, (c, .enter .fork) :: ops c 20, [(c, .enter (.wait true))],
    (c, .resume) :: ops c 1, (c, .resume) :: ops c 27, (c, .enter (.exit 7)) :: ops c 21,
    (c, .resume) :: ops c 8, (c, .resume) :: ops c 9]

theorem exit_status_delivered_once_forkWait : ∃ M : Machine (calls 2) 1,
    Sys.Run Machine.Step (boot (calls 2) 1 ()) (forkWait 0) M ∧
    Sys.Run Register.Step (fun _ => none) [.adopted 1 0, .exited 1 2 7, .waited 0 1 2 (some 7)]
      M.shared.register := by
  have hexec : (Sys.exec Machine.next (boot (calls 2) 1 ()) (forkWait 0)).any (fun _ => true) = true := by
    decide +kernel
  obtain ⟨M, hM, -⟩ := Sys.exists_of_any hexec
  have hrun : Sys.Run Machine.Step (boot (calls 2) 1 ()) (forkWait 0) M := Sys.exec_run hM
  have hevents : Sys.emitted Machine.next Machine.event (boot (calls 2) 1 ()) (forkWait 0) =
      [.adopted 1 0, .exited 1 2 7, .waited 0 1 2 (some 7)] := by decide +kernel
  obtain ⟨-, -, hregister, -⟩ := exit_status_delivered_once (calls 2) hrun
  exact ⟨M, hrun, hevents ▸ hregister⟩

end Xv6.Sched
