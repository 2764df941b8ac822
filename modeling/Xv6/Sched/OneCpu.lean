-- SUMMARY: No process is executed by two CPUs, and none is started or reaped before its CPU has left it.
import Xv6.Sched.Agreement

/-!
# One CPU for each process

All code of the machine is within the rules of context switches, whatever the rest of the
kernel does. So in every interleaving at most one CPU executes a process.
-/

namespace Xv6.Sched

open Switching Typestate

variable {K : Sig} {n m : Nat} {P : Client K n}

/-- What a scheduler knows between two passes. -/
structure AtScheduler (l : Know K n) : Prop where
  calm : Calm l
  held : l.held = []
  idle : l.phase = .idle
  child : l.child = none

def AtPoint {κ : Type} : Point κ → Know K n → Prop
  | .scheduler => AtScheduler
  | _ => AtClient

theorem wp_forkret {i : Fin n} {l : Know K n} (hme : l.me = some i) (hparked : Parked i l)
    (hchild : l.child = none) : (switching K n).wp (fun _ l' => AtClient l') forkret l := by
  simp only [forkret, wp_bind, wp_self, wp_release]
  intro p hp
  rw [Know.proc, hparked.phase, hme] at hp
  obtain rfl : i = p := Option.some.inj hp
  refine ⟨fun _ hk => ?_, fun _ => ⟨⟨.inl hparked.phase, fun j => ?_, ?_⟩, hparked.phase, hchild⟩⟩
  · rw [Know.kept, hparked.phase] at hk
    cases hk
  · simp [Know.unlock, hparked.held]
  · simp [Know.unlock, hparked.known]

theorem wp_started {i : Fin n} {l : Know K n} (hme : l.me = some i) (hparked : Parked i l)
    (hchild : l.child = none) : (switching K n).wp AtPoint (started P) l :=
  wp_bind.mpr (wp_forkret hme hparked hchild)

theorem wp_resume {l : Know K n} {p : Point P.Ctl} {x : KCode K n (Point P.Ctl)}
    (h : AtPoint p l) (hx : resume p = some x) : (switching K n).wp AtPoint x l := by
  cases p with
  | client k => cases hx
  | kwait copy k =>
    cases hx
    have hat : AtClient l := h
    rw [wp_bind]
    exact wp_acquire.mpr fun _ => hat.lock Lock.wait_ne
  | kwaitLoop copy k =>
    cases hx
    have hat : AtClient l := h
    rw [wp_bind]
    refine (wp_kwaitRound hat.calm).imp fun r l' hr => ?_
    cases r with
    | none => exact hr ▸ hat
    | some pid => exact hr ▸ hat.unlock
  | scheduler =>
    cases hx
    have hat : AtScheduler l := h
    rw [wp_bind]
    exact (wp_schedulerPass hat.calm hat.held hat.idle hat.child).imp fun _ l' hl' => hl' ▸ hat

/-- CPU `c` is about to do the operation `o`. -/
def About (M : Machine P m) (c : Fin m) (o : Op K n) : Prop :=
  ∃ k, M.code (M.shared.tid c) = .op o k

theorem can_of_about {L : Type} {S : Typestate (Op K n) Op.Res L}
    {Q : Point P.Ctl → L → Prop} {M : Machine P m} {X : Tid n m → L} {c : Fin m} {o : Op K n}
    (hcode : ∀ t, S.wp Q (M.code t) (X t)) (h : About M c o) : S.can (X (M.shared.tid c)) o := by
  obtain ⟨k, hk⟩ := h
  have hwp := hcode (M.shared.tid c)
  rw [hk] at hwp
  exact hwp.1

/-- Only operations change what the threads share. -/
theorem Machine.next_shared [NeZero n] {M M' : Machine P m} {c : Fin m} {label : Label P}
    (h : M.next (c, label) = some M') :
    (∀ choice, label ≠ .op choice) ∧ M'.shared = M.shared ∨
    ∃ choice o r, label = .op choice ∧ About M c o ∧ M.shared.exec c choice o = some (r, M'.shared) := by
  cases label with
  | op choice =>
    simp only [next] at h
    split at h
    · cases h
    · next o k hop =>
      obtain ⟨⟨r, s'⟩, hexec, rfl⟩ := Option.map_eq_some_iff.mp h
      refine .inr ⟨choice, o, r, rfl, ⟨k, hop⟩, ?_⟩
      rw [hexec, setCode_shared, afterOp_shared]
  | resume =>
    simp only [next] at h
    split at h
    · obtain ⟨x, -, rfl⟩ := Option.map_eq_some_iff.mp h
      exact .inl ⟨fun _ heq => (by cases heq), rfl⟩
    · cases h
  | enter | timer | device =>
    simp only [next] at h
    split at h
    · cases h
      exact .inl ⟨fun _ heq => (by cases heq), rfl⟩
    · cases h

namespace Agree

variable {s : Shared K n m} {X : Tid n m → Know K n} {c d : Fin m} {p : Fin n}

/-- Whoever answers for a process whose lock is free executes it. -/
theorem running_of_free (h : Agree s X) (hfree : s.lock (.proc p) = none)
    (htarget : (X (s.tid c)).target = some p) :
    (s.slot p).state = .running ∧ (s.cpu c).proc = some p := by
  have hkept : (X (s.tid c)).kept ≠ some p := by
    intro hkept
    cases hfree.symm.trans (h.lock_eq ((h.cpu c).kept p hkept))
  cases hactive : (X (s.tid c)).active with
  | false => exact absurd (Know.kept_of_inactive htarget hactive) hkept
  | true =>
    refine ⟨(h.cpu c).on p htarget hactive, (h.cpu c).proc.trans ?_⟩
    unfold Know.target at htarget
    unfold Know.kept at hkept
    unfold Know.proc
    cases hphase : (X (s.tid c)).phase <;> simp_all

theorem target_of_proc (h : Agree s X) (hp : (s.cpu c).proc = some p) :
    (X (s.tid c)).target = some p := Know.target_of_proc ((h.cpu c).proc.symm.trans hp)

/-- A process that is being created is not executed, and its thread is ready to start. -/
theorem newborn {t : Tid n m} (h : Agree s X) (hchild : (X t).child = some p) :
    (∀ d, (s.cpu d).stack ≠ some p) ∧ Parked p (X (.inl p)) ∧ (X (.inl p)).child = none := by
  have hused : (s.slot p).state = .used := h.child t p hchild
  have hoff (d : Fin m) : (s.cpu d).stack ≠ some p := by
    intro hd
    obtain hrun | hoff | hoff | hoff := h.state_of_target (h.target_of_stack hd)
    · cases hused.symm.trans hrun
    all_goals cases hused.symm.trans hoff
  exact ⟨hoff, h.parked p hoff, h.barren p (.inr (.inl hused))⟩

/-- No CPU is on a process that no CPU answers for. -/
theorem not_on (h : Agree s X) (hd : (X (s.tid d)).target ≠ some p) :
    (s.cpu d).stack ≠ some p ∧ (s.cpu d).proc ≠ some p :=
  ⟨fun hstack => hd (h.target_of_stack hstack), fun hproc => hd (h.target_of_proc hproc)⟩

end Agree

section
variable [NeZero n]

/-- The rules of context switches are right for every client. -/
def switchDiscipline (P : Client K n) (m : Nat) :
    Discipline P m (switching K n) (fun _ _ _ => True) where
  agree := Agree
  at_ := AtPoint
  op h hcan _ hexec := by
    obtain ⟨hmay, hagree⟩ := h.op hcan hexec
    exact ⟨hmay, fun l hl => hl ▸ hagree⟩
  start {s X c i} h hcan := by
    obtain ⟨hoff, hparked, hchild⟩ := h.newborn hcan
    exact ⟨fun htid => hoff c (Shared.tid_eq_inl.mp htid), wp_started (h.thread i).1 hparked hchild⟩
  enter {l k} input h := by
    refine (wp_enter h k input).imp fun p l' hl' => ?_
    cases p with
    | scheduler => exact absurd rfl hl'.1
    | _ => exact hl'.2
  resume h hx := wp_resume h hx
  timer h hnoff _ := wp_yield (h.calm hnoff)
  device x h hnoff := wp_handler (h.calm hnoff) _

/-- What the threads know at boot. -/
def knowAtBoot : Tid n m → Know K n
  | .inl i => ⟨some i, [.proc i], .run, fun _ => none, none⟩
  | .inr _ => ⟨none, [], .idle, fun _ => none, none⟩

omit [NeZero n] in
theorem not_mem_boot {l : Lock K n} (hl : ∀ i, l ≠ .proc i) (t : Tid n m) : l ∉ (knowAtBoot t : Know K n).held := by
  cases t with
  | inl i => exact fun hin => hl i (List.mem_singleton.mp hin)
  | inr c => exact List.not_mem_nil

theorem boot_awake (P : Client K n) (data : K.Data) (i : Fin n) :
    ((boot P m data).shared.slot i).state ≠ .sleeping := by
  by_cases hi : i = initproc <;> simp [boot, hi, initSlot, Slot.empty]

theorem CpuOk.boot (P : Client K n) (data : K.Data) (c : Fin m) :
    CpuOk (boot P m data).shared c (knowAtBoot (.inr c)) :=
  ⟨fun _ => ⟨nofun, nofun⟩, List.nodup_nil, rfl, rfl, nofun, nofun, nofun, nofun⟩

theorem Agree.boot (P : Client K n) (data : K.Data) : Agree (boot P m data).shared knowAtBoot := by
  have htid (c : Fin m) : (Sched.boot P m data).shared.tid c = .inr c := rfl
  have hslot (i : Fin n) : ((Sched.boot P m data).shared.slot i).state = .runnable ∨
      ((Sched.boot P m data).shared.slot i).state = .unused := by
    by_cases hi : i = initproc
    · subst hi
      exact .inl (by simp [Sched.boot, initSlot])
    · exact .inr (by simp [Sched.boot, hi, Slot.empty])
  refine ⟨fun i => ⟨rfl, rfl⟩, fun c => ⟨rfl, rfl⟩, fun c => ?_,
    fun c c' i h => (by cases h), fun i hi => ?_, fun i _ => ⟨rfl, rfl, rfl⟩,
    fun c p h => (by cases h), ?_, ?_, fun i _ => rfl⟩
  · rw [htid]
    exact CpuOk.boot P data c
  · obtain hs | hs := hslot i <;> cases hs.symm.trans hi
  · rintro (i | c) j hj <;> cases hj
  · rintro (i | c) t' j hj <;> cases hj

theorem switchDiscipline_boot (P : Client K n) (data : K.Data) :
    (switchDiscipline P m).Inv (boot P m data) := by
  refine ⟨knowAtBoot, .boot P data, boot_code (C := fun t x => (switching K n).wp _ x (knowAtBoot t))
    (wp_started rfl ⟨rfl, rfl, rfl⟩ rfl) (fun _ => wp_panic) fun c => ?_⟩
  exact ⟨⟨.inr ⟨rfl, rfl⟩, fun _ => List.not_mem_nil, rfl⟩, rfl, rfl, rfl⟩

/-- In every state that the machine can reach, at most one CPU executes a process. When
`p->lock` is free, `p` is `RUNNING` if and only if exactly one CPU has `c->proc = p`, and no CPU
executes `p` if it is `RUNNABLE`, `SLEEPING` or `ZOMBIE`. No CPU is still on the stack of a process
that another one starts or frees. -/
theorem one_cpu_per_process (P : Client K n) {data : K.Data} {M : Machine P m}
    {as : List (Fin m × Label P)} (hrun : Sys.Run Machine.Step (boot P m data) as M) :
    (∀ c c' p, (M.shared.cpu c).stack = some p → (M.shared.cpu c').stack = some p → c = c') ∧
    (∀ p, M.shared.lock (.proc p) = none →
      ((M.shared.slot p).state = .running ↔ ∃! c, (M.shared.cpu c).proc = some p) ∧
      (Off (M.shared.slot p).state → ∀ c, (M.shared.cpu c).stack ≠ some p)) ∧
    (∀ c p, About M c (.swtchTo p) → ∀ d, (M.shared.cpu d).stack ≠ some p ∧
      (d ≠ c → (M.shared.cpu d).proc ≠ some p)) ∧
    (∀ c p w, About M c (.write p w) → (w = .free ∨ ∃ pid status, w = .reap pid status) →
      ∀ d, (M.shared.cpu d).stack ≠ some p ∧ (M.shared.cpu d).proc ≠ some p) := by
  obtain ⟨X, h, hcode⟩ := (switchDiscipline_boot P data).ofRun hrun
  refine ⟨fun c c' p hc hc' => ?_, fun p hfree => ⟨⟨fun hstate => ?_, ?_⟩, fun hoff c hc => ?_⟩,
    fun c p habout d => ?_, fun c p w habout hw d => ?_⟩
  · exact h.unique c c' p (h.target_of_stack hc) (h.target_of_stack hc')
  · obtain ⟨c, htarget, -⟩ := h.running p hstate
    refine ⟨c, (h.running_of_free hfree htarget).2, fun d hd => ?_⟩
    exact h.unique d c p (h.target_of_proc hd) htarget
  · rintro ⟨c, hc, -⟩
    exact (h.running_of_free hfree (h.target_of_proc hc)).1
  · have hrunning := (h.running_of_free hfree (h.target_of_stack hc)).1
    obtain hoff | hoff | hoff := hoff <;> cases hrunning.symm.trans hoff
  · obtain ⟨hphase, -, -⟩ := can_of_about hcode habout
    have htarget : (X (M.shared.tid c)).target = some p := by rw [Know.target, hphase]
    refine ⟨fun hd => ?_, fun hdc hd => hdc (h.unique d c p (h.target_of_proc hd) htarget)⟩
    obtain rfl := h.unique d c p (h.target_of_stack hd) htarget
    have hthread := (h.thread p).2
    rw [← Shared.tid_eq_inl.mpr hd, hphase] at hthread
    cases hthread
  · have hcan := can_of_about hcode habout
    obtain rfl | ⟨pid, status, rfl⟩ := hw
    · have hused := h.child _ p hcan.2
      refine h.not_on fun htarget => ?_
      obtain hstate | hstate | hstate | hstate := h.state_of_target htarget
      all_goals cases hused.symm.trans hstate
    · obtain ⟨hheld, htarget, hknown⟩ := hcan
      have hzombie := h.state_of_known hknown
      by_cases hd : d = c
      · exact h.not_on (hd ▸ htarget)
      · exact h.not_on (h.target_ne (by simp [hzombie]) hheld hd)

end

/-! ## A kernel with nothing but process calls -/

def callSig : Sig where
  Lk := Empty
  Ch := Empty
  Data := Unit
  Act := Empty
  Res := nofun
  act := nofun

inductive Call
  | fork
  | exit (status : Int)
  | wait (copy : Bool)

def Call.script : Call → Script callSig n (Goto Unit)
  | .fork => do
    let _ ← Script.kfork
    pure (.client ())
  | .exit status => .kexit status
  | .wait copy => pure (.kwait copy fun _ => ())

/-- User space, from where processes fork, exit and wait. -/
def calls (n : Nat) : Client callSig n where
  Ctl := Unit
  Input := Call
  Intr := Empty
  start := ()
  code _ := Call.script
  handler := nofun

/-- CPU `c` starts init, which forks; CPU `d` starts the child. -/
def forkOnTwo (c d : Fin m) : List (Fin m × Label (calls 2)) :=
  List.flatten [(c, .resume) :: ops c 7, (c, .enter .fork) :: ops c 20, (d, .resume) :: ops d 10]

theorem one_cpu_per_process_forkOnTwo : ∃ M : Machine (calls 2) 2,
    Sys.Run Machine.Step (boot (calls 2) 2 ()) (forkOnTwo 0 1) M ∧
    ((M.shared.cpu 0).stack = some 0 ∧ (M.shared.cpu 1).stack = some 1) ∧
    ((M.shared.slot 1).state = .running ↔ ∃! c, (M.shared.cpu c).proc = some 1) := by
  have hexec : (Sys.exec Machine.next (boot (calls 2) 2 ()) (forkOnTwo 0 1)).any (fun M =>
      decide (((M.shared.cpu 0).stack = some 0 ∧ (M.shared.cpu 1).stack = some 1) ∧
        M.shared.lock (.proc 1) = none)) = true := by decide +kernel
  obtain ⟨M, hM, hcheck⟩ := Sys.exists_of_any hexec
  obtain ⟨hstacks, hfree⟩ := of_decide_eq_true hcheck
  have hrun := Sys.exec_run hM
  exact ⟨M, hrun, hstacks, ((one_cpu_per_process (calls 2) hrun).2.1 1 hfree).1⟩

end Xv6.Sched
