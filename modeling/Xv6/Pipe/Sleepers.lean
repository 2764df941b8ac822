-- SUMMARY: Who sleeps on a pipe is woken up, except when a writer is killed between putting in bytes and announcing them.
import Xv6.Pipe.Fifo

/-!
# Sleepers on a pipe

Readers sleep on `&pi->nread` and writers on `&pi->nwrite`. Every exit of `pipewrite`, `piperead`
and `pipeclose` has called the right `wakeup`, except one: a writer that has put in bytes and then
finds itself killed leaves its loop without `wakeup(&pi->nread)`.
-/

namespace Xv6.Pipe

open Sched

variable {nproc m : Nat}

/-! ## The condition -/

/-- No writer finds itself killed while it has bytes in the pipe that it has not announced. -/
def Spared [NeZero nproc] (M : Sched.Machine (client nproc) m) (a : Fin m × Label (client nproc)) : Prop :=
  Discipline.Cond ((monitor .nread).Spares fun pi => pi.unannounced = true) M a

instance (s : Shared sig nproc m) (c : Fin m) (o : Op sig nproc) :
    Decidable ((monitor .nread).Spares (fun pi => pi.unannounced = true) s c o) :=
  match o with
  | .read i => decidable_of_iff (s.lock (.client ()) = some c → (s.cpu c).proc = some i →
      s.data.unannounced = true → (s.slot i).killed = false)
      ⟨fun h _ heq => by cases heq; exact h, fun h => h i rfl⟩
  | .acquire _ | .release _ | .holding _ | .noff | .myproc | .write _ _ | .setContext _ | .allocpid
  | .setProc _ | .swtchTo _ | .swtch | .act _ | .choose | .panic => isTrue nofun

instance [NeZero nproc] (M : Sched.Machine (client nproc) m) (a : Fin m × Label (client nproc)) :
    Decidable (Spared M a) :=
  inferInstanceAs (Decidable (Discipline.Cond _ M a))

/-! ## Sleepers -/

/-- In a state in which `pi->lock` is free, no process sleeps on `&pi->nread` while there are bytes or
the write end is closed, and none sleeps on `&pi->nwrite` while there is room or the read end is
closed, provided that no writer found itself killed with bytes it had not announced. -/
theorem no_stranded_sleeper [NeZero nproc] {data : Fin PIPESIZE → UInt8} {c : UInt32}
    {M : Sched.Machine (client nproc) m} {as : List (Fin m × Label (client nproc))}
    (hrun : Sys.RunWhere Sched.Machine.Step Spared (Sched.boot (client nproc) m (opened data c)) as M)
    (hfree : M.shared.lock (.client ()) = none) (i : Fin nproc)
    (hasleep : (M.shared.slot i).state = .sleeping) :
    ((M.shared.slot i).chan = some (.client .nread) →
      M.shared.data.nread = M.shared.data.nwrite ∧ M.shared.data.writeopen = true) ∧
    ((M.shared.slot i).chan = some (.client .nwrite) →
      M.shared.data.full ∧ M.shared.data.readopen = true) := by
  constructor
  · intro hchan
    have hcond : ¬ cond .nread M.shared.data := fun hcond =>
      Monitor.not_asleep (obeys .nread fun _ _ => id) (fifo_opened data c) hrun hfree hcond i
        ⟨hasleep, hchan⟩
    simpa [cond] using hcond
  · intro hchan
    have hcond : ¬ cond .nwrite M.shared.data := fun hcond =>
      Monitor.not_asleep (obeys .nwrite (by simp)) (fifo_opened data c)
        (Monitor.runWhere_of_run hrun.run) hfree hcond i ⟨hasleep, hchan⟩
    simpa [cond] using hcond

/-- The first process forks and sleeps in `piperead`. -/
def forkRead (c : Fin m) : List (Fin m × Label (client 2)) :=
  List.flatten [(c, .resume) :: ops c 7, (c, .enter Call.fork.input) :: ops c 20,
    (c, .enter (Call.read 1).input) :: ops c 1, (c, .enter (Call.read 1).input) :: ops c 23]

theorem no_stranded_sleeper_forkRead : ∃ M : Sched.Machine (client 2) 1,
    Sys.RunWhere Sched.Machine.Step Spared (Sched.boot (client 2) 1 (opened (fun _ => 0) 0)) (forkRead 0) M ∧
    (M.shared.lock (.client ()) = none ∧ (M.shared.slot 0).state = .sleeping ∧
      (M.shared.slot 0).chan = some (.client .nread)) ∧
    M.shared.data.nread = M.shared.data.nwrite ∧ M.shared.data.writeopen = true := by
  have hexec : (Sys.exec (fun M a => if Spared M a then Sched.Machine.next M a else none)
      (Sched.boot (client 2) 1 (opened (fun _ => 0) 0)) (forkRead 0)).any (fun M =>
        decide (M.shared.lock (.client ()) = none ∧ (M.shared.slot 0).state = .sleeping ∧
          (M.shared.slot 0).chan = some (.client .nread))) = true := by
    decide +kernel
  obtain ⟨M, hM, hcheck⟩ := Sys.exists_of_any hexec
  have hcheck := of_decide_eq_true hcheck
  have hrun : Sys.RunWhere Sched.Machine.Step Spared (Sched.boot (client 2) 1 (opened (fun _ => 0) 0)) (forkRead 0) M :=
    Sys.exec_runWhere hM
  refine ⟨M, hrun, hcheck, ?_⟩
  exact (no_stranded_sleeper hrun hcheck.1 0 hcheck.2.1).1 hcheck.2.2

/-- The first process forks twice and sleeps in `piperead`. The second one puts in a byte; before
it looks at `killed` again, the third one, on the other CPU, kills it. -/
def killedWriter (c d : Fin m) : List (Fin m × Label (client 3)) :=
  List.flatten [(c, .resume) :: ops c 7, (c, .enter Call.fork.input) :: ops c 20,
    (c, .enter Call.fork.input) :: ops c 23, (c, .enter (Call.read 1).input) :: ops c 1,
    (c, .enter (Call.read 1).input) :: ops c 23, (d, .resume) :: ops d 13,
    (c, .enter (Call.write 2).input) :: ops c 1, (c, .enter (Call.write 2).input) :: ops c 7,
    (d, .enter (Call.kill 2).input) :: ops d 7, (c, .enter (Call.write 2).input) :: ops c 6]

/-- The writer returns, the lock is free, and the reader sleeps on although there is a byte. -/
theorem killed_writer_strands_reader : ∃ M : Sched.Machine (client 3) 2,
    Sys.Run Sched.Machine.Step (Sched.boot (client 3) 2 (opened (fun _ => 0) 0)) (killedWriter 0 1) M ∧
    M.shared.lock (.client ()) = none ∧ (M.shared.slot 0).state = .sleeping ∧
    (M.shared.slot 0).chan = some (.client .nread) ∧
    M.shared.data.nread ≠ M.shared.data.nwrite := by
  have hexec : (Sys.exec Sched.Machine.next (Sched.boot (client 3) 2 (opened (fun _ => 0) 0)) (killedWriter 0 1)).any
      (fun M => decide (M.shared.lock (.client ()) = none ∧ (M.shared.slot 0).state = .sleeping ∧
        (M.shared.slot 0).chan = some (.client .nread) ∧
        M.shared.data.nread ≠ M.shared.data.nwrite)) = true := by
    decide +kernel
  obtain ⟨M, hM, hcheck⟩ := Sys.exists_of_any hexec
  have hrun : Sys.Run Sched.Machine.Step (Sched.boot (client 3) 2 (opened (fun _ => 0) 0)) (killedWriter 0 1) M :=
    Sys.exec_run hM
  exact ⟨M, hrun, of_decide_eq_true hcheck⟩

end Xv6.Pipe
