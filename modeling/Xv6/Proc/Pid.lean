-- SUMMARY: Pids of live processes are distinct and positive until the counter that hands them out wraps around.
import Xv6.Proc.Kill

/-!
# Process identifiers

`allocpid` counts, and looks at nothing else. As long as the counter has not passed the
largest `int`, every live process has a pid that was handed out once. After that the pids are
negative, and later on they are those of processes that may still live.
-/

namespace Xv6.Proc

variable {n : Nat} {s s' : Table n} {i j p : Fin n} {a : Act n}

/-- The step calls `allocpid`. -/
def TakesPid : Act n → Prop
  | .userinit | .alloc _ | .allocFail _ => True
  | _ => False

/-- `allocpid` is not called when `nextpid` has passed the largest `int`. -/
def InRange (s : Table n) : Fin n × Act n → Prop
  | (_, a) => TakesPid a → 0 < s.nextpid

instance decidableTakesPid (a : Act n) : Decidable (TakesPid a) := by
  cases a
  case userinit => exact isTrue trivial
  case alloc => exact isTrue trivial
  case allocFail => exact isTrue trivial
  all_goals exact isFalse id

instance decidableInRange (s : Table n) (b : Fin n × Act n) : Decidable (InRange s b) :=
  inferInstanceAs (Decidable (TakesPid b.2 → 0 < s.nextpid))

theorem incInt_cases {x : Int} (hpos : 0 < x) (hlt : x < 2 ^ 31) : incInt x = x + 1 ∨ incInt x < 0 := by
  unfold incInt
  rw [Int.bmod_def]
  split <;> omega

theorem incInt_lt (x : Int) : incInt x < 2 ^ 31 := Int.bmod_lt (by decide)

/-! ## What a step does to pids -/

theorem Local.nextpid {pc : Pc n} (h : Local s p pc a s') :
    TakesPid a ∧ s'.nextpid = incInt s.nextpid ∨ ¬ TakesPid a ∧ s'.nextpid = s.nextpid := by
  cases h with
  | alloc | allocFail => exact .inl ⟨trivial, rfl⟩
  | zombie hp hfree ht =>
    refine .inr ⟨id, ?_⟩
    subst ht
    unfold Table.reparent
    split <;> rfl
  | _ => exact .inr ⟨id, rfl⟩

theorem Step.nextpid (h : Step s (p, a) s') :
    TakesPid a ∧ s'.nextpid = incInt s.nextpid ∨ ¬ TakesPid a ∧ s'.nextpid = s.nextpid := by
  cases h.view with
  | userinit hp hboot ht =>
    subst ht
    exact .inl ⟨trivial, rfl⟩
  | sched | yield | wakeup => exact .inr ⟨id, rfl⟩
  | thread hrun h => exact h.nextpid

theorem Born.takesPid (h : Born i (p, a)) : TakesPid a := by
  cases a with
  | userinit | alloc => trivial
  | _ => exact h.elim

theorem Born.unique (hi : Born i (p, a)) (hj : Born j (p, a)) : i = j := by
  cases a with
  | userinit | alloc => exact hi.symm.trans hj
  | _ => exact hi.elim

theorem Local.born_pid {pc : Pc n} (h : Local s p pc a s') (hb : Born i (p, a)) :
    (s'.slot i).pid = s.nextpid := by
  cases h with
  | alloc =>
    cases hb
    simp
  | _ => exact hb.elim

/-- A new process gets the next pid. -/
theorem Step.born_pid (h : Step s (p, a) s') (hb : Born i (p, a)) : (s'.slot i).pid = s.nextpid := by
  cases h.view with
  | userinit hp hboot ht =>
    subst ht
    cases hb
    simp
  | sched | yield | wakeup => exact hb.elim
  | thread hrun h => exact h.born_pid hb

/-- A live process is new, or it was there before and has kept its pid. -/
theorem Step.live (hinv : Inv s) (h : Step s (p, a) s') (hlive : (s'.slot i).state ≠ .unused) :
    Born i (p, a) ∧ (s'.slot i).pid = s.nextpid ∨
      (s.slot i).state ≠ .unused ∧ (s'.slot i).pid = (s.slot i).pid := by
  cases h.change hinv i with
  | born hb => exact .inl ⟨hb, h.born_pid hb⟩
  | freed _ _ hy => exact absurd (congrArg Slot.state hy) hlive
  | killed _ _ _ hpid hy => exact .inr ⟨fun hx => hlive (hy.mpr hx), hpid⟩
  | ready _ hpc _ hpid =>
    have hused := hinv.used p i (.inr hpc)
    exact .inr ⟨by simp [hused], hpid⟩
  | same _ hxy => exact .inr ⟨fun hx => hlive (hxy.unused.mpr hx), hxy.pid⟩

/-! ## The invariant -/

/-- Pids are positive and distinct, and below the counter if that has not wrapped. -/
structure PidInv (s : Table n) : Prop where
  inv : Inv s
  range : s.nextpid < 2 ^ 31
  pos : ∀ i, (s.slot i).state ≠ .unused → 0 < (s.slot i).pid
  old : 0 < s.nextpid → ∀ i, (s.slot i).state ≠ .unused → (s.slot i).pid < s.nextpid
  distinct : ∀ i j, (s.slot i).state ≠ .unused → (s.slot j).state ≠ .unused →
    (s.slot i).pid = (s.slot j).pid → i = j

theorem pidInv_init : PidInv (init : Table n) where
  inv := inv_init
  range := (by decide : (1 : Int) < 2 ^ 31)
  pos i h := absurd rfl h
  old _ i h := absurd rfl h
  distinct i _ h := absurd rfl h

theorem Step.pidInv (h : PidInv s) (hc : InRange s (p, a)) (hstep : Step s (p, a) s') : PidInv s' where
  inv := hstep.inv h.inv
  range := by
    obtain ⟨-, hnext⟩ | ⟨-, hnext⟩ := hstep.nextpid
    · rw [hnext]
      exact incInt_lt s.nextpid
    · rw [hnext]
      exact h.range
  pos i hi := by
    obtain ⟨hb, hpid⟩ | ⟨hlive, hpid⟩ := hstep.live h.inv hi
    · rw [hpid]
      exact hc hb.takesPid
    · rw [hpid]
      exact h.pos i hlive
  old hpos i hi := by
    obtain ⟨htakes, hnext⟩ | ⟨hnot, hnext⟩ := hstep.nextpid
    · have hbefore := hc htakes
      have hsucc : s'.nextpid = s.nextpid + 1 := by
        obtain hinc | hwrap := incInt_cases hbefore h.range <;> omega
      obtain ⟨-, hpid⟩ | ⟨hlive, hpid⟩ := hstep.live h.inv hi
      · omega
      · have hlt := h.old hbefore i hlive
        omega
    · rw [hnext] at hpos ⊢
      obtain ⟨hb, -⟩ | ⟨hlive, hpid⟩ := hstep.live h.inv hi
      · exact absurd hb.takesPid hnot
      · rw [hpid]
        exact h.old hpos i hlive
  distinct i j hi hj heq := by
    have hfresh {k : Fin n} (hb : TakesPid a) (hk : (s.slot k).state ≠ .unused) :
        (s.slot k).pid ≠ s.nextpid := (h.old (hc hb) k hk).ne
    obtain ⟨hbi, hpi⟩ | ⟨hli, hpi⟩ := hstep.live h.inv hi <;>
      obtain ⟨hbj, hpj⟩ | ⟨hlj, hpj⟩ := hstep.live h.inv hj
    · exact hbi.unique hbj
    · exact absurd (hpj.symm.trans (heq.symm.trans hpi)) (hfresh hbi.takesPid hlj)
    · exact absurd (hpi.symm.trans (heq.trans hpj)) (hfresh hbj.takesPid hli)
    · exact h.distinct i j hli hlj (hpi.symm.trans (heq.trans hpj))

/-- In every run in which `allocpid` is not called beyond the largest `int`, live processes have
positive pids, and no two of them the same. -/
theorem live_pids_distinct {es : List (Fin n × Act n)} (h : Sys.RunWhere Step InRange init es s) :
    (∀ i, (s.slot i).state ≠ .unused → 0 < (s.slot i).pid) ∧
    ∀ i j, (s.slot i).state ≠ .unused → (s.slot j).state ≠ .unused →
      (s.slot i).pid = (s.slot j).pid → i = j := by
  have hinv : PidInv s := by
    refine h.invariant (fun t b u ht hc hstep => ?_) pidInv_init
    exact Step.pidInv ht hc hstep
  exact ⟨hinv.pos, hinv.distinct⟩

/-- The first process forks, and its child forks. -/
def forkTwice (i j k : Fin n) : List (Fin n × Act n) :=
  [(i, .userinit), (i, .sched), (i, .callFork), (i, .skip), (i, .alloc j), (i, .setParent),
    (i, .setRunnable), (j, .sched), (j, .callFork), (j, .skip), (j, .skip), (j, .alloc k)]

theorem live_pids_distinct_forkTwice :
    ∃ s : Table NPROC, Sys.RunWhere Step InRange init (forkTwice 0 1 2) s ∧
      (s.slot 1).state ≠ .unused ∧ (s.slot 2).state ≠ .unused ∧ (s.slot 1).pid ≠ (s.slot 2).pid := by
  have hexec : (Sys.exec (fun s b => if InRange s b then next s b else none) (init : Table NPROC)
      (forkTwice 0 1 2)).any
      (fun s => decide ((s.slot 1).state ≠ .unused ∧ (s.slot 2).state ≠ .unused)) = true := by
    decide +kernel
  obtain ⟨s, hs, hlive⟩ := Sys.exists_of_any hexec
  obtain ⟨hone, htwo⟩ := of_decide_eq_true hlive
  have hrun := Sys.exec_runWhere hs
  refine ⟨s, hrun, hone, htwo, fun heq => ?_⟩
  cases (live_pids_distinct hrun).2 1 2 hone htwo heq

/-! ## Beyond the largest int -/

/-- The first process runs user code, and the second slot is free. -/
structure Idle (s : Table NPROC) : Prop where
  running : (s.slot 0).state = .running
  pid : (s.slot 0).pid = 1
  user : s.thread 0 = .user
  free : (s.slot 1).state = .unused

/-- A fork for which there is no memory. -/
def failedFork : List (Fin NPROC × Act NPROC) := [(0, .callFork), (0, .skip), (0, .allocFail 1)]

def oneFork : List (Fin NPROC × Act NPROC) := [(0, .callFork), (0, .skip), (0, .alloc 1)]

theorem scanned_of_lt (s : Table n) (i : Fin n) : s.scanned i = some (i, s.slot i) := dif_pos i.isLt

theorem setThread_idem (s : Table n) (i : Fin n) (pc pc' : Pc n) :
    (s.setThread i pc).setThread i pc' = s.setThread i pc' := by
  simp only [Table.setThread, Function.update_idem]

section
variable {s : Table NPROC}

/-- A step of the first process. -/
theorem Idle.step {pc : Pc NPROC} {a : Act NPROC} {t : Table NPROC} (h : Idle s)
    (hstep : next (s.setThread 0 pc) (0, a) =
      if (s.slot 0).state = .running then threadStep (s.setThread 0 pc) 0 pc a else none)
    (ht : threadStep (s.setThread 0 pc) 0 pc a = some t) : Step (s.setThread 0 pc) (0, a) t := by
  rw [Step, hstep, if_pos h.running, ht]

theorem Idle.setThread (h : Idle s) : s.setThread 0 .user = s := by
  simp only [Table.setThread, ← h.user, Function.update_eq_self]

/-- `allocproc` gets to the free slot. -/
theorem Idle.scan (h : Idle s) : Sys.Run Step s [(0, .callFork), (0, .skip)] (s.setThread 0 (.fork 1)) := by
  have hcall : Step (s.setThread 0 .user) (0, .callFork) (s.setThread 0 (.fork 0)) := by
    refine h.step ?_ ?_
    · simp only [next, Table.setThread, Function.update_self]
    · simp only [threadStep, setThread_idem]
  have hskip : Step (s.setThread 0 (.fork 0)) (0, .skip) (s.setThread 0 (.fork 1)) := by
    refine h.step ?_ ?_
    · simp only [next, Table.setThread, Function.update_self]
    · have hscan : (s.setThread 0 (.fork 0)).scanned 0 = some (0, s.slot 0) := scanned_of_lt _ 0
      have hused : (s.slot 0).state ≠ .unused := by simp [h.running]
      simp only [threadStep, forkStep, hscan, setThread_idem]
      exact if_pos hused
  rw [h.setThread] at hcall
  exact (Sys.Run.one hcall).snoc hskip

theorem Idle.alloc (h : Idle s) : Sys.Run Step s oneFork ((s.allocproc 1).setThread 0 (.forked 1)) := by
  refine h.scan.snoc (h.step ?_ ?_)
  · simp only [next, Table.setThread, Function.update_self]
  · have hscan : (s.setThread 0 (.fork 1)).scanned 1 = some (1, s.slot 1) := scanned_of_lt _ 1
    simp only [threadStep, forkStep, hscan]
    rw [if_pos ⟨h.free, trivial⟩]
    simp only [Table.setThread, Table.allocproc, Table.setSlot, Function.update_idem]

theorem Idle.fail (h : Idle s) : ∃ t, Sys.Run Step s failedFork t ∧ Idle t ∧ t.nextpid = incInt s.nextpid := by
  refine ⟨((s.allocproc 1).setSlot 1 (freeproc ((s.allocproc 1).slot 1))).setThread 0 .user,
    h.scan.snoc (h.step ?_ ?_), ⟨?_, ?_, ?_, ?_⟩, rfl⟩
  · simp only [next, Table.setThread, Function.update_self]
  · have hscan : (s.setThread 0 (.fork 1)).scanned 1 = some (1, s.slot 1) := scanned_of_lt _ 1
    simp only [threadStep, forkStep, hscan]
    rw [if_pos ⟨h.free, trivial⟩]
    simp only [Table.setThread, Table.allocproc, Table.setSlot, Function.update_idem]
  · exact h.running
  · exact h.pid
  · simp only [Table.setThread, Function.update_self]
  · exact congrArg Slot.state (Table.setSlot_self ..)

/-- The counter goes on, however often there is no memory. -/
theorem Idle.fails (h : Idle s) (m : Nat) : ∃ t,
    Sys.Run Step s (List.replicate m failedFork).flatten t ∧ Idle t ∧ t.nextpid = incInt^[m] s.nextpid := by
  induction m with
  | zero => exact ⟨s, .nil, h, rfl⟩
  | succ m ih =>
    obtain ⟨t, hrun, ht, hnext⟩ := ih
    obtain ⟨u, hfail, hu, hnext'⟩ := ht.fail
    refine ⟨u, ?_, hu, ?_⟩
    · rw [List.replicate_succ', List.flatten_append, List.flatten_singleton]
      exact hrun.trans hfail
    · rw [hnext', hnext, Function.iterate_succ_apply']

end

theorem incInt_iterate (m : Nat) (x : Int) (hx : -2 ^ 31 ≤ x) (hlt : x < 2 ^ 31) :
    incInt^[m] x = (x + m).bmod (2 ^ 32) := by
  induction m with
  | zero =>
    rw [Function.iterate_zero_apply, Nat.cast_zero, add_zero, Int.bmod_eq_of_le] <;> omega
  | succ m ih =>
    rw [Function.iterate_succ_apply', ih, incInt, Int.bmod_add_bmod]
    push_cast
    rw [add_assoc]

/-- After boot, the first process runs. -/
theorem idle_boot : ∃ s, Sys.Run Step (init : Table NPROC) [(0, .userinit), (0, .sched)] s ∧ Idle s ∧
    s.nextpid = 2 := by
  have hexec : (Sys.exec next (init : Table NPROC) [(0, .userinit), (0, .sched)]).any
      (fun s => decide ((s.slot 0).state = .running ∧ (s.slot 0).pid = 1 ∧ s.thread 0 = .user ∧
        (s.slot 1).state = .unused ∧ s.nextpid = 2)) = true := by decide +kernel
  obtain ⟨s, hs, hidle⟩ := Sys.exists_of_any hexec
  obtain ⟨hrun, hpid, huser, hfree, hnext⟩ := of_decide_eq_true hidle
  exact ⟨s, Sys.exec_run hs, ⟨hrun, hpid, huser, hfree⟩, hnext⟩

/-- The first process tries to fork `m` times without memory, and then forks. -/
def forkAfter (m : Nat) : List (Fin NPROC × Act NPROC) :=
  [(0, .userinit), (0, .sched)] ++ (List.replicate m failedFork).flatten ++ oneFork

theorem forkAfter_run (m : Nat) : ∃ s, Sys.Run Step init (forkAfter m) s ∧
    (s.slot 0).state = .running ∧ (s.slot 0).pid = 1 ∧ (s.slot 1).state = .used ∧
    (s.slot 1).pid = (2 + m : Int).bmod (2 ^ 32) := by
  obtain ⟨s, hboot, hidle, hnext⟩ := idle_boot
  obtain ⟨t, hfails, ht, hnext'⟩ := hidle.fails m
  refine ⟨_, (hboot.trans hfails).trans ht.alloc, ht.running, ht.pid, ?_, ?_⟩
  · exact congrArg Slot.state (Table.setSlot_self ..)
  · have hpid : ((t.allocproc 1).slot 1).pid = t.nextpid := congrArg Slot.pid (Table.setSlot_self ..)
    rw [Table.setThread_slot, hpid, hnext', hnext]
    exact incInt_iterate m 2 (by decide) (by decide)

/-- After `2^31 - 2` forks that failed, a child has a negative pid, which `fork` returns; after
`2^32 - 1` of them, it has the pid of the first process. -/
theorem pid_counter_wraps :
    (∃ s, Sys.Run Step init (forkAfter (2 ^ 31 - 2)) s ∧ (s.slot 1).state = .used ∧
      (s.slot 1).pid = -2 ^ 31) ∧
    ∃ s, Sys.Run Step init (forkAfter (2 ^ 32 - 1)) s ∧ (s.slot 0).state = .running ∧
      (s.slot 1).state = .used ∧ (s.slot 0).pid = (s.slot 1).pid := by
  refine ⟨?_, ?_⟩
  · obtain ⟨s, hrun, -, -, hused, hpid⟩ := forkAfter_run (2 ^ 31 - 2)
    exact ⟨s, hrun, hused, hpid.trans rfl⟩
  · obtain ⟨s, hrun, hrunning, hone, hused, hpid⟩ := forkAfter_run (2 ^ 32 - 1)
    exact ⟨s, hrun, hrunning, hused, hone.trans (Eq.trans rfl hpid.symm)⟩

end Xv6.Proc
