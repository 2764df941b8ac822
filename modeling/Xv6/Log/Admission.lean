-- SUMMARY: Processes that share the log: admission to operations and group commit.
import Xv6.Log.Log
import Xv6.Base.Transition
import Xv6.Base.Total

/-!
# Admission and group commit

Any number of processes run `begin_op`, some `log_write`s and `end_op`. A step is
what one of them does under `log.lock`, or one turn of a loop of `commit`, which
runs without the lock. Only `struct log` is shared: what the processes do with
buffers does not matter here.
-/

namespace Xv6.Admission

/-! ## Processes -/

/-- Where a process stands. `ws` are the distinct blocks that its current operation
has logged so far. -/
inductive Pc
  | out
  | beginOp
  | sleeping
  | inOp (ws : List Nat)
  | commit
  | writeLog (tail : Nat)
  | writeHead
  | install (tail : Nat)
  | clear
  | erase
  | finish
  deriving DecidableEq

/-- What a step shows: `begin` is an admitted `begin_op`, `write` a `log_write`, and
`head` the header of a transaction on its way to the disk. -/
inductive Event
  | call
  | begin
  | sleep
  | wake
  | write (b : Nat)
  | endOp
  | head (lh : List Nat)
  | tick
  deriving DecidableEq

/-- One step of a process: the new log, where the process stands then, and whether it
calls `wakeup(&log)`. A panic is not a step. -/
def localStep (l : Log) : Pc → Event → Option (Log × Pc × Bool)
  | .out, .call => some (l, .beginOp, false)
  | .beginOp, .begin =>
    match l.beginOp with
    | some l' => some (l', .inOp [], false)
    | none => none
  | .beginOp, .sleep =>
    match l.beginOp with
    | some _ => none
    | none => some (l, .sleeping, false)
  -- a sleeping process may also be woken by a `kill`; it then tests again
  | .sleeping, .wake => some (l, .beginOp, false)
  | .inOp ws, .write b =>
    match l.logWrite b with
    | .ok (l', _) => some (l', .inOp (ws.insert b), false)
    | .error _ => none
  | .inOp _, .endOp =>
    match l.endOp with
    | .ok (l', true) => some (l', .commit, false)
    | .ok (l', false) => some (l', .out, true)
    | .error _ => none
  -- from here on `commit`, without the lock
  | .commit, .tick => some (l, if l.lh.length > 0 then .writeLog 0 else .finish, false)
  | .writeLog tail, .tick =>
    some (l, if tail < l.lh.length then .writeLog (tail + 1) else .writeHead, false)
  | .writeHead, .head lh => if lh = l.lh then some (l, .install 0, false) else none
  | .install tail, .tick =>
    some (l, if tail < l.lh.length then .install (tail + 1) else .clear, false)
  | .clear, .tick => some (l.setLh [], .erase, false)
  | .erase, .tick => some (l, .finish, false)
  | .finish, .tick => some (l.commitDone, .out, true)
  | _, _ => none

/-- What `localStep` can do. -/
inductive Local (l : Log) : Pc → Event → Log → Pc → Bool → Prop
  | call : Local l .out .call l .beginOp false
  | admitted {l' : Log} (h : l.beginOp = some l') : Local l .beginOp .begin l' (.inOp []) false
  | sleep : Local l .beginOp .sleep l .sleeping false
  | wake : Local l .sleeping .wake l .beginOp false
  | write {l' : Log} {b : Nat} {ws : List Nat} {isNew : Bool}
      (h : l.logWrite b = .ok (l', isNew)) :
      Local l (.inOp ws) (.write b) l' (.inOp (ws.insert b)) false
  | endOp {l' : Log} {ws : List Nat} (h : l.endOp = .ok (l', false)) :
      Local l (.inOp ws) .endOp l' .out true
  | endLast {l' : Log} {ws : List Nat} (h : l.endOp = .ok (l', true)) :
      Local l (.inOp ws) .endOp l' .commit false
  | check {x : Pc} (h : x = .writeLog 0 ∨ x = .finish) : Local l .commit .tick l x false
  | copyToLog {tail : Nat} {x : Pc} (h : x = .writeLog (tail + 1) ∨ x = .writeHead) :
      Local l (.writeLog tail) .tick l x false
  | writeHead : Local l .writeHead (.head l.lh) l (.install 0) false
  | copyHome {tail : Nat} {x : Pc} (h : x = .install (tail + 1) ∨ x = .clear) :
      Local l (.install tail) .tick l x false
  | clear : Local l .clear .tick (l.setLh []) .erase false
  | erase : Local l .erase .tick l .finish false
  | finish : Local l .finish .tick l.commitDone .out true

theorem localStep_cases {l l' : Log} {a x : Pc} {e : Event} {wakes : Bool}
    (h : localStep l a e = some (l', x, wakes)) : Local l a e l' x wakes := by
  unfold localStep at h
  split at h
  case h_2 =>
    split at h
    · next hb => cases h; exact .admitted hb
    · cases h
  case h_3 =>
    split at h
    · cases h
    · cases h; exact .sleep
  case h_5 =>
    split at h
    · next hw => cases h; exact .write hw
    · cases h
  case h_6 =>
    split at h
    · next he => cases h; exact .endLast he
    · next he => cases h; exact .endOp he
    · cases h
  case h_7 => cases h; exact .check (by split <;> simp)
  case h_8 => cases h; exact .copyToLog (by split <;> simp)
  case h_9 =>
    split at h
    · next hlh => subst hlh; cases h; exact .writeHead
    · cases h
  case h_10 => cases h; exact .copyHome (by split <;> simp)
  all_goals cases h
  all_goals constructor

/-- The log and `n` processes. -/
structure State (n : Nat) where
  log : Log
  pc : Fin n → Pc

variable {n : Nat}

/-- `initlog` has run, and every process is outside. -/
def init (start : Nat) : State n := ⟨⟨start, ROOTDEV, 0, false, []⟩, fun _ => .out⟩

/-- `wakeup(&log)`. -/
def Pc.woken : Pc → Pc
  | .sleeping => .beginOp
  | pc => pc

/-- Process `p` moves to `x`, and the log becomes `l`. -/
def State.move (s : State n) (p : Fin n) (l : Log) (x : Pc) (wakes : Bool) : State n :=
  ⟨l, Function.update (if wakes then fun q => (s.pc q).woken else s.pc) p x⟩

/-- Some process takes a step. -/
def next (s : State n) : Fin n × Event → Option (State n)
  | (p, e) => (localStep s.log (s.pc p) e).map fun (l, x, wakes) => s.move p l x wakes

def Step (s : State n) (a : Fin n × Event) (s' : State n) : Prop := next s a = some s'

theorem Step.cases {s s' : State n} {p : Fin n} {e : Event} (h : Step s (p, e) s') :
    ∃ l x wakes, Local s.log (s.pc p) e l x wakes ∧ s' = s.move p l x wakes := by
  obtain ⟨⟨l, x, wakes⟩, hlocal, rfl⟩ := Option.map_eq_some_iff.mp h
  exact ⟨l, x, wakes, localStep_cases hlocal, rfl⟩

namespace Pc

/-- The blocks logged by the operation the process is in. -/
def ops : Pc → Option (List Nat)
  | .inOp ws => Option.some ws
  | _ => none

/-- Is the process in the part of `end_op` that follows `log.committing = 1`? -/
def committing : Pc → Bool
  | .commit | .writeLog _ | .writeHead | .install _ | .clear | .erase | .finish => true
  | _ => false

/-- Is the header of the process's transaction on disk, and the log still full? -/
def installing : Pc → Bool
  | .install _ | .clear => true
  | _ => false

@[simp] theorem ops_woken (x : Pc) : x.woken.ops = x.ops := by cases x <;> rfl
@[simp] theorem committing_woken (x : Pc) : x.woken.committing = x.committing := by cases x <;> rfl
@[simp] theorem installing_woken (x : Pc) : x.woken.installing = x.installing := by cases x <;> rfl

theorem ops_of_committing {x : Pc} (h : x.committing = true) : x.ops = none := by
  cases x <;> first | rfl | cases h

theorem committing_of_installing {x : Pc} (h : x.installing = true) : x.committing = true := by
  cases x <;> first | rfl | cases h

end Pc

section
variable (s : State n) (p : Fin n) (l : Log) (x : Pc) (wakes : Bool)

@[simp] theorem State.move_log : (s.move p l x wakes).log = l := rfl

@[simp] theorem State.move_self : (s.move p l x wakes).pc p = x := Function.update_self ..

/-- Other processes are at most woken. -/
theorem State.move_other {β : Type} {f : Pc → β} (hf : ∀ x, f x.woken = f x) {q : Fin n}
    (hq : q ≠ p) : f ((s.move p l x wakes).pc q) = f (s.pc q) := by
  simp only [State.move, Function.update_of_ne hq]
  cases wakes with
  | true => exact hf _
  | false => rfl

theorem State.total_move {g : Pc → Int} (hg : ∀ x, g x.woken = g x) :
    Sys.total g (s.move p l x wakes).pc = Sys.total g s.pc - g (s.pc p) + g x := by
  unfold State.move
  cases wakes with
  | true =>
    have hsame : Sys.total g (fun q => (s.pc q).woken) = Sys.total g s.pc := by
      simp only [Sys.total, hg]
    rw [if_pos rfl, Sys.total_update, hsame, hg]
  | false => exact Sys.total_update ..

end

/-! ## Group commit -/

/-- One for a process inside an operation. -/
def running (x : Pc) : Int := if x.ops.isSome then 1 else 0

theorem running_nonneg (x : Pc) : 0 ≤ running x := by unfold running; split <;> decide

structure Inv (s : State n) : Prop where
  outstanding : s.log.outstanding = Sys.total running s.pc
  /-- A process commits only under the flag. -/
  flag : s.log.committing = false → ∀ p, (s.pc p).committing = false
  alone : s.log.committing = true → s.log.outstanding = 0
  single : ∀ p q, (s.pc p).committing = true → (s.pc q).committing = true → p = q

variable {s s' : State n} {p q : Fin n}

theorem inv_init (start : Nat) : Inv (init start : State n) where
  outstanding := by simp [init, Sys.total, running, Pc.ops]
  flag := fun _ _ => rfl
  alone := fun h => by cases h
  single := fun p q h => by cases h

/-- An operation in progress keeps everyone from committing. -/
theorem Inv.not_committing (h : Inv s) {ws : List Nat} (hp : (s.pc p).ops = some ws) :
    s.log.committing = false := by
  cases hc : s.log.committing with
  | false => rfl
  | true =>
    have hle := Sys.le_total (f := s.pc) running_nonneg p
    rw [← h.outstanding, h.alone hc] at hle
    simp [running, hp] at hle

section
variable {l : Log} {x : Pc} {wakes : Bool}

/-- A step of a process that neither commits nor starts to. -/
theorem Inv.move_free (h : Inv s)
    (hout : l.outstanding = s.log.outstanding - running (s.pc p) + running x)
    (hflag : l.committing = s.log.committing) (hx : x.committing = false)
    (halone : s.log.committing = true → l.outstanding = s.log.outstanding) :
    Inv (s.move p l x wakes) := by
  have hother : ∀ q, q ≠ p → ((s.move p l x wakes).pc q).committing = (s.pc q).committing :=
    fun q hq => State.move_other s p l x wakes Pc.committing_woken hq
  refine ⟨?_, fun hl q => ?_, fun hl => ?_, fun q r hq hr => ?_⟩
  · rw [State.total_move _ _ _ _ _ (by simp [running]), State.move_log, hout, h.outstanding]
  · by_cases hq : q = p
    · rw [hq, State.move_self, hx]
    · rw [hother q hq]
      exact h.flag (hflag ▸ hl) q
  · rw [State.move_log, hflag] at hl
    rw [State.move_log, halone hl]
    exact h.alone hl
  · have hne : ∀ q, ((s.move p l x wakes).pc q).committing = true → q ≠ p := by
      rintro q hq rfl
      rw [State.move_self, hx] at hq
      cases hq
    rw [hother q (hne q hq)] at hq
    rw [hother r (hne r hr)] at hr
    exact h.single q r hq hr

/-- The last operation ends, and its process starts to commit. -/
theorem Inv.move_start (h : Inv s) {ws : List Nat} (hp : (s.pc p).ops = some ws)
    (hlast : s.log.outstanding = 1) (hout : l.outstanding = 0) (hflag : l.committing = true)
    (hops : x.ops = none) : Inv (s.move p l x wakes) := by
  have hfree := h.flag (h.not_committing hp)
  have hother : ∀ q, ((s.move p l x wakes).pc q).committing = true → q = p := by
    intro q hq
    by_contra hne
    rw [State.move_other s p l x wakes Pc.committing_woken hne, hfree q] at hq
    cases hq
  refine ⟨?_, fun hl => ?_, fun _ => hout, fun q r hq hr => ?_⟩
  · rw [State.total_move _ _ _ _ _ (by simp [running]), State.move_log, hout, ← h.outstanding, hlast]
    simp [running, hp, hops]
  · rw [State.move_log, hflag] at hl
    cases hl
  · rw [hother q hq, hother r hr]

/-- The committing process goes on. -/
theorem Inv.move_commit (h : Inv s) (hp : (s.pc p).committing = true)
    (hout : l.outstanding = s.log.outstanding) (hflag : l.committing = s.log.committing)
    (hx : x.committing = true) : Inv (s.move p l x wakes) := by
  have hother : ∀ q, ((s.move p l x wakes).pc q).committing = (s.pc q).committing := by
    intro q
    by_cases hq : q = p
    · rw [hq, State.move_self, hx, hp]
    · exact State.move_other s p l x wakes Pc.committing_woken hq
  refine ⟨?_, fun hl q => ?_, fun hl => ?_, fun q r hq hr => ?_⟩
  · rw [State.total_move _ _ _ _ _ (by simp [running]), State.move_log, hout, h.outstanding]
    simp [running, Pc.ops_of_committing hp, Pc.ops_of_committing hx]
  · rw [hother q]
    exact h.flag (hflag ▸ hl) q
  · rw [State.move_log, hflag] at hl
    rw [State.move_log, hout]
    exact h.alone hl
  · rw [hother] at hq hr
    exact h.single q r hq hr

/-- The committing process lowers the flag. -/
theorem Inv.move_finish (h : Inv s) (hp : (s.pc p).committing = true)
    (hout : l.outstanding = s.log.outstanding) (hflag : l.committing = false)
    (hx : x.committing = false) (hops : x.ops = none) : Inv (s.move p l x wakes) := by
  have hnone : ∀ q, ((s.move p l x wakes).pc q).committing = false := by
    intro q
    by_cases hq : q = p
    · rw [hq, State.move_self, hx]
    · rw [State.move_other s p l x wakes Pc.committing_woken hq]
      by_contra hc
      exact hq (h.single q p (by simpa using hc) hp)
  refine ⟨?_, fun _ => hnone, fun hl => ?_, fun q r hq => ?_⟩
  · rw [State.total_move _ _ _ _ _ (by simp [running]), State.move_log, hout, h.outstanding]
    simp [running, Pc.ops_of_committing hp, hops]
  · rw [State.move_log, hflag] at hl
    cases hl
  · rw [hnone q] at hq
    cases hq

end

theorem inv_step {e : Event} (h : Inv s) (hstep : Step s (p, e) s') : Inv s' := by
  obtain ⟨l, x, wakes, hlocal, rfl⟩ := hstep.cases
  generalize hpc : s.pc p = a at hlocal
  cases hlocal with
  | call | sleep | wake => exact h.move_free (by simp [hpc, running, Pc.ops]) rfl rfl fun _ => rfl
  | admitted hb =>
    obtain ⟨hcom, -, rfl⟩ := Log.beginOp_some hb
    exact h.move_free (by simp [hpc, running, Pc.ops]) rfl rfl fun hc => by simp [hcom] at hc
  | write hw =>
    obtain ⟨-, -, ⟨-, rfl, -⟩ | ⟨-, rfl, -⟩⟩ := Log.logWrite_ok hw <;>
      exact h.move_free (by simp [hpc, running, Pc.ops]) rfl rfl fun _ => rfl
  | endOp he =>
    obtain ⟨hcom, ⟨hf, -⟩ | ⟨-, -, rfl⟩⟩ := Log.endOp_ok he
    · cases hf
    · exact h.move_free (by simp [hpc, running, Pc.ops]) rfl rfl fun hc => by simp [hcom] at hc
  | endLast he =>
    obtain ⟨-, ⟨-, hone, rfl⟩ | ⟨hf, -⟩⟩ := Log.endOp_ok he
    · exact h.move_start (by rw [hpc]; rfl) hone rfl rfl rfl
    · cases hf
  | check hx | copyToLog hx | copyHome hx =>
    rcases hx with rfl | rfl <;> exact h.move_commit (by rw [hpc]; rfl) rfl rfl rfl
  | writeHead | clear | erase => exact h.move_commit (by rw [hpc]; rfl) rfl rfl rfl
  | finish => exact h.move_finish (by rw [hpc]; rfl) rfl rfl rfl rfl

theorem inv_run {start : Nat} {es : List (Fin n × Event)}
    (h : Sys.Run Step (init start) es s) : Inv s :=
  h.invariant (fun _ _ _ hi hs => inv_step hi hs) (inv_init start)

/-! ## One operation, one transaction -/

/-- Only a process that is installing a transaction takes entries out of the header. -/
theorem step_lh {e : Event} (hstep : Step s (q, e) s') (hq : (s.pc q).installing = false) :
    ∀ b ∈ s.log.lh, b ∈ s'.log.lh := by
  obtain ⟨l, x, wakes, hlocal, rfl⟩ := hstep.cases
  generalize hpc : s.pc q = a at hlocal hq
  intro b hb
  cases hlocal with
  | admitted h => obtain ⟨-, -, rfl⟩ := Log.beginOp_some h; exact hb
  | write h =>
    obtain ⟨-, -, ⟨-, rfl, -⟩ | ⟨-, rfl, -⟩⟩ := Log.logWrite_ok h
    · exact hb
    · exact List.mem_append_left _ hb
  | endOp h | endLast h => obtain ⟨-, ⟨-, -, rfl⟩ | ⟨-, -, rfl⟩⟩ := Log.endOp_ok h <;> exact hb
  | clear => cases hq
  | _ => exact hb

theorem step_write {b : Nat} (hstep : Step s (q, .write b) s') : b ∈ s'.log.lh := by
  obtain ⟨l, x, wakes, hlocal, rfl⟩ := hstep.cases
  generalize hpc : s.pc q = a at hlocal
  cases hlocal with
  | write h =>
    obtain ⟨-, -, ⟨-, rfl, hmem⟩ | ⟨-, rfl, -⟩⟩ := Log.logWrite_ok h
    · exact hmem
    · exact List.mem_append_right _ (List.mem_singleton_self b)

theorem step_head {lh : List Nat} (hstep : Step s (q, .head lh) s') :
    (s.pc q).committing = true ∧ lh = s.log.lh := by
  obtain ⟨l, x, wakes, hlocal, rfl⟩ := hstep.cases
  generalize hpc : s.pc q = a at hlocal
  cases hlocal with
  | writeHead => exact ⟨rfl, rfl⟩

/-- A process stays in its operation until its `end_op`. -/
theorem step_ops {e : Event} {ws : List Nat} (hstep : Step s (q, e) s')
    (hp : (s.pc p).ops = some ws) (hne : (q, e) ≠ (p, .endOp)) :
    ∃ ws', (s'.pc p).ops = some ws' := by
  obtain ⟨l, x, wakes, hlocal, rfl⟩ := hstep.cases
  by_cases hqp : p = q
  · subst hqp
    rw [State.move_self]
    generalize hpc : s.pc p = a at hlocal hp
    cases hlocal with
    | write h => exact ⟨_, rfl⟩
    | endOp h | endLast h => exact absurd rfl hne
    | _ => cases hp
  · rw [State.move_other s q _ _ _ Pc.ops_woken hqp]
    exact ⟨ws, hp⟩

/-- A process starts to install when it has written its header. -/
theorem step_installing {e : Event} (hstep : Step s (q, e) s') (hne : ∀ lh, e ≠ .head lh)
    (h : ∀ r, (s.pc r).installing = false) : ∀ r, (s'.pc r).installing = false := by
  intro r
  obtain ⟨l, x, wakes, hlocal, rfl⟩ := hstep.cases
  by_cases hrq : r = q
  · subst hrq
    rw [State.move_self]
    have hr := h r
    generalize hpc : s.pc r = a at hlocal hr
    cases hlocal with
    | writeHead => exact absurd rfl (hne _)
    | copyHome => cases hr
    | check hx | copyToLog hx => rcases hx with rfl | rfl <;> rfl
    | _ => rfl
  · rw [State.move_other s q _ _ _ Pc.installing_woken hrq]
    exact h r

theorem Inv.not_installing (h : Inv s) {ws : List Nat} (hp : (s.pc p).ops = some ws) (r : Fin n) :
    (s.pc r).installing = false := by
  cases hr : (s.pc r).installing with
  | false => rfl
  | true => simpa [h.flag (h.not_committing hp) r] using Pc.committing_of_installing hr

/-- While `p` is in an operation no header is written, and what it logs stays logged. -/
theorem span_op {es : List (Fin n × Event)} {ws : List Nat} (h : Inv s)
    (hp : (s.pc p).ops = some ws) (hrun : Sys.Run Step s es s') (hend : (p, .endOp) ∉ es) :
    Inv s' ∧ (∃ ws', (s'.pc p).ops = some ws') ∧ (∀ b, (p, .write b) ∈ es → b ∈ s'.log.lh) ∧
      ∀ q lh, (q, .head lh) ∉ es := by
  induction hrun with
  | nil => exact ⟨h, ⟨ws, hp⟩, by simp, by simp⟩
  | @snoc es a t u _ hst ih =>
    obtain ⟨q, e⟩ := a
    simp only [List.mem_append, List.mem_singleton, not_or] at hend
    obtain ⟨hinv, ⟨ws', hops⟩, hwritten, hhead⟩ := ih hend.1
    refine ⟨inv_step hinv hst, step_ops hst hops (Ne.symm hend.2), fun b hb => ?_, fun r lh hmem => ?_⟩
    · rcases List.mem_append.mp hb with hb | hb
      · exact step_lh hst (hinv.not_installing hops q) b (hwritten b hb)
      · cases List.mem_singleton.mp hb
        exact step_write hst
    · rcases List.mem_append.mp hmem with hmem | hmem
      · exact hhead r lh hmem
      · cases List.mem_singleton.mp hmem
        simpa [hinv.flag (hinv.not_committing hops) q] using (step_head hst).1

/-- Until the next header is written, nothing leaves the log. -/
theorem span_commit {es : List (Fin n × Event)} {b : Nat}
    (h : ∀ r, (s.pc r).installing = false) (hb : b ∈ s.log.lh)
    (hrun : Sys.Run Step s es s') (hhead : ∀ q lh, (q, .head lh) ∉ es) :
    (∀ r, (s'.pc r).installing = false) ∧ b ∈ s'.log.lh := by
  induction hrun with
  | nil => exact ⟨h, hb⟩
  | @snoc es a t u _ hst ih =>
    obtain ⟨q, e⟩ := a
    obtain ⟨hinst, hmem⟩ := ih fun q lh hin => hhead q lh (List.mem_append_left _ hin)
    refine ⟨step_installing hst (fun lh heq => hhead q lh (by simp [heq])) hinst, ?_⟩
    exact step_lh hst (hinst q) b hmem

/-- Group commit isolates operations, in every interleaving. A process commits only
while no process is in an operation. No `begin_op` is admitted, and no `log_write`
happens, under `log.committing`, and the panic of `end_op` is unreachable. Hence no
header is written between the `begin_op` and the `end_op` of an operation, and the
next one lists every block that the operation logged. -/
theorem group_commit_isolation {start : Nat} {es : List (Fin n × Event)}
    (hrun : Sys.Run Step (init start) es s) :
    (∀ p q, (s.pc p).committing = true → (s.pc q).ops = none) ∧
    (∀ p s', Step s (p, .begin) s' → s.log.committing = false) ∧
    (∀ p b s', Step s (p, .write b) s' → s.log.committing = false) ∧
    (∀ p ws, s.pc p = .inOp ws → s.log.endOp ≠ .error .logCommitting) ∧
    ∀ p q lh pre mid mid' post, es = pre ++ (p, .begin) :: (mid ++ (p, .endOp) ::
        (mid' ++ (q, .head lh) :: post)) → (p, .endOp) ∉ mid → (∀ r lh, (r, .head lh) ∉ mid') →
      (∀ r lh, (r, .head lh) ∉ mid) ∧ ∀ b, (p, .write b) ∈ mid → b ∈ lh := by
  have hinv := inv_run hrun
  refine ⟨fun p q hp => ?_, fun p s' hst => ?_, fun p b s' hst => ?_, fun p ws hp => ?_, ?_⟩
  · cases hq : (s.pc q).ops with
    | none => rfl
    | some ws =>
      rw [hinv.flag (hinv.not_committing hq) p] at hp
      cases hp
  · obtain ⟨l, x, wakes, hlocal, rfl⟩ := hst.cases
    generalize hpc : s.pc p = a at hlocal
    cases hlocal with
    | admitted h => exact (Log.beginOp_some h).1
  · obtain ⟨l, x, wakes, hlocal, rfl⟩ := hst.cases
    generalize hpc : s.pc p = a at hlocal
    cases hlocal with
    | write h => exact hinv.not_committing (p := p) (by rw [hpc]; rfl)
  · have hfree : s.log.committing = false := hinv.not_committing (p := p) (by rw [hp]; rfl)
    simp only [Log.endOp, hfree, Bool.false_eq_true, if_false]
    split <;> simp
  · rintro p q lh pre mid mid' post rfl hend hhead
    obtain ⟨s₁, hrun₁, hrun⟩ := hrun.split
    obtain ⟨s₂, hbegin, hrun⟩ := hrun.split_cons
    obtain ⟨s₃, hmid, hrun⟩ := hrun.split
    obtain ⟨s₄, hlast, hrun⟩ := hrun.split_cons
    obtain ⟨s₅, hmid', hrun⟩ := hrun.split
    obtain ⟨s₆, hheader, -⟩ := hrun.split_cons
    have hops : (s₂.pc p).ops = some [] := by
      obtain ⟨l, x, wakes, hlocal, rfl⟩ := hbegin.cases
      rw [State.move_self]
      generalize hpc : s₁.pc p = a at hlocal
      cases hlocal with
      | admitted => rfl
    obtain ⟨hinv₃, ⟨ws, hops₃⟩, hwritten, hnone⟩ :=
      span_op (inv_step (inv_run hrun₁) hbegin) hops hmid hend
    refine ⟨hnone, fun b hb => ?_⟩
    -- nobody installs when `p` ends its operation, nor until the next header
    have hinst₄ := step_installing hlast (by simp) (hinv₃.not_installing hops₃)
    have hb₄ := step_lh hlast (hinv₃.not_installing hops₃ p) b (hwritten b hb)
    rw [(step_head hheader).2]
    exact (span_commit hinst₄ hb₄ hmid' hhead).2

/-- One operation, up to the header of its transaction. -/
def oneOp (p q : Fin n) : List (Fin n × Event) :=
  [(p, .call), (p, .begin), (q, .call), (p, .write 5), (p, .endOp), (q, .sleep), (p, .tick),
    (p, .tick), (p, .tick), (p, .head [5])]

/-- Process 1 has to wait while process 0 commits its operation. -/
theorem group_commit_isolation_oneOp :
    ∃ s : State 2, Sys.Run Step (init 2) (oneOp 0 1) s ∧ (s.pc 0).committing = true ∧
      (∀ q, (s.pc q).ops = none) ∧ ∀ p b s', Step s (p, .write b) s' → s.log.committing = false := by
  have hcheck : (Sys.exec next (init 2 : State 2) (oneOp 0 1)).any (fun s => (s.pc 0).committing) = true := by
    decide +kernel
  obtain ⟨s, hexec, hs⟩ := Sys.exists_of_any hcheck
  obtain ⟨hops, -, hwrite, -, -⟩ := group_commit_isolation (Sys.exec_run hexec)
  exact ⟨s, Sys.exec_run hexec, hs, fun q => hops 0 q hs, hwrite⟩

end Xv6.Admission
