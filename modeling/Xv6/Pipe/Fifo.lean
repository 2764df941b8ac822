-- SUMMARY: A pipe is a bounded queue of bytes, for any number of readers and writers and across the wrap of its counters.
import Xv6.Pipe.Pipe

/-!
# Pipes are queues

The bytes between the two counters are a queue, and every access with `pi->lock` held is an
operation of the queue: a byte is put in only after the pipe was found not full, and taken out
only after it was found not empty. The lock is held from the check to the access.
-/

namespace Xv6.Pipe

open Sched Typestate

/-! ## The queue -/

/-- The bytes that were put in and not taken out are in the buffer, in their order. -/
def Fifo (pi : Pipe) : Prop :=
  ∃ queue, pi.put = pi.taken ++ queue ∧ Ring.Holds pi.data pi.nread pi.nwrite queue

variable {pi : Pipe}

theorem Fifo.distance (h : Fifo pi) : (pi.nwrite - pi.nread).toNat ≤ PIPESIZE := by
  obtain ⟨queue, -, hring⟩ := h
  rw [hring.distance (by decide)]
  exact hring.fits

theorem Fifo.inOrder (h : Fifo pi) : pi.taken <+: pi.put := by
  obtain ⟨queue, hput, -⟩ := h
  exact hput ▸ List.prefix_append ..

theorem Fifo.length (h : Fifo pi) :
    pi.put.length = pi.taken.length + (pi.nwrite - pi.nread).toNat := by
  obtain ⟨queue, hput, hring⟩ := h
  rw [hring.distance (by decide), hput, List.length_append]

theorem Fifo.pushed (h : Fifo pi) (hfull : ¬ pi.full) (ch : UInt8) : Fifo (pi.pushed ch) := by
  obtain ⟨queue, hput, hring⟩ := h
  have hroom : queue.length < PIPESIZE :=
    Nat.lt_of_le_of_ne hring.fits fun heq => hfull ((hring.full_iff (by decide)).mpr heq)
  refine ⟨queue ++ [ch], ?_, hring.push (by decide) hroom ch⟩
  rw [Pipe.pushed, hput, List.append_assoc]

theorem Fifo.popped (h : Fifo pi) (hempty : pi.nread ≠ pi.nwrite) : Fifo pi.popped := by
  obtain ⟨queue, hput, hring⟩ := h
  cases queue with
  | nil => exact absurd ((hring.empty_iff (by decide)).mpr rfl) hempty
  | cons ch queue =>
    obtain ⟨hch, hrest⟩ := hring.pop
    refine ⟨queue, ?_, hrest⟩
    rw [Pipe.popped, hput, hch, List.append_assoc, List.singleton_append]

/-! ## The protocol of the lock -/

/-- What the processes that sleep on a channel wait for. -/
def cond : Ch → Pipe → Prop
  | .nread, pi => pi.nread ≠ pi.nwrite ∨ pi.writeopen = false
  | .nwrite, pi => ¬ pi.full ∨ pi.readopen = false

/-- The pipe is accessed only with `pi->lock` held. -/
def monitor (ch : Ch) : Monitor sig where
  lk := ()
  ch := ch
  cond := cond ch
  inv := Fifo
  free pi pi' := pi' = pi
  free_inv h heq := heq ▸ h
  free_cond _ heq h := heq ▸ h

/-- Why a process in a loop need not have called `wakeup` on the channel: a writer that puts in
bytes will do so unless it finds itself killed, and a reader will do so at the end. -/
def Excused (ch : Ch) (k : Ctl) (p : Pipe → Prop) : Prop :=
  match ch, k with
  | .nread, .writing _ _ => ∀ pi, p pi → pi.unannounced = true ∧ pi.readopen = true
  | .nwrite, .reading _ _ => True
  | _, _ => False

/-- What processes know at their points. -/
def At (ch : Ch) : Ctl → Monitor.Mode sig → Prop
  | .user _, x => x = .out
  | k, x => ∃ ok woken p, x = .held ok woken p ∧ ((ok ∨ woken) ∨ Excused ch k p)

section
variable {ch : Ch} {nproc : Nat} {G : Pipe → Prop} {β : Type} {Q : β → Monitor.Mode sig → Prop}
  {ok woken : Prop} {p : Pipe → Prop} {i : Nat} {n : Int}

theorem stable (p : Pipe → Prop) : (monitor ch).Stable p := fun _ _ _ hp heq => heq ▸ hp

theorem obeys_look {f : Pipe → Script sig nproc β} (h : ∀ pi, Fifo pi → p pi →
      ((monitor ch).protocol G nproc).wp Q (f pi) (.held ok woken (· = pi))) :
    ((monitor ch).protocol G nproc).wp Q (access .look >>= f) (.held ok woken p) := by
  refine Monitor.Protocol.act (fun _ hpi _ => hpi) fun pi hpi hp => ?_
  exact ⟨ok, (· = pi), fun hok => ⟨hok, fun _ _ _ => id⟩, ⟨stable _, fun _ _ _ heq => heq⟩, h pi hpi hp⟩

theorem obeys_announce {f : Unit → Script sig nproc β} {q : Pipe → Prop}
    (hq : ∀ pi, p pi → q { pi with unannounced := false })
    (h : ((monitor ch).protocol G nproc).wp Q (f ()) (.held ok woken q)) :
    ((monitor ch).protocol G nproc).wp Q (access .announce >>= f) (.held ok woken p) := by
  refine Monitor.Protocol.act (fun _ hpi _ => hpi) fun pi hpi hp => ?_
  refine ⟨ok, q, fun hok => ⟨hok, fun _ _ _ hcond => ?_⟩, ⟨stable _, fun pi _ hp _ => hq pi hp⟩, h⟩
  cases ch <;> exact hcond

theorem obeys_release {ret : Int} (hdone : ok ∨ woken) :
    ((monitor ch).protocol G nproc).wp (Monitor.AtEnd (At ch)) (do
      Script.release ()
      pure (.client (.user ret))) (.held ok woken p) :=
  Monitor.Protocol.release (V := monitor ch) hdone rfl

/-- Another channel, or that of the monitor. -/
theorem obeys_wakeup {f : Unit → Script sig nproc β} {c : Ch}
    (h : ((monitor ch).protocol G nproc).wp Q (f ()) (.held ok (woken ∨ c = ch) p)) :
    ((monitor ch).protocol G nproc).wp Q (Script.wakeup c >>= f) (.held ok woken p) := by
  by_cases hc : c = ch
  · subst hc
    refine Monitor.Protocol.wakeup (V := monitor c) ?_
    rwa [eq_true (Or.inr rfl : woken ∨ c = c)] at h
  · refine Monitor.Protocol.wakeupOther (V := monitor ch) hc ?_
    rwa [eq_false hc, or_false] at h

theorem obeys_writeDone (hdone : ch = .nwrite → ok ∨ woken) :
    ((monitor ch).protocol G nproc).wp (Monitor.AtEnd (At ch)) (pipewriteDone i) (.held ok woken p) := by
  refine obeys_wakeup (obeys_announce (q := fun _ => True) (fun _ _ => trivial) (obeys_release ?_))
  cases ch with
  | nread => exact .inr (.inr rfl)
  | nwrite => exact (hdone rfl).imp_right .inl

theorem obeys_readDone (hdone : ch = .nread → ok ∨ woken) :
    ((monitor ch).protocol G nproc).wp (Monitor.AtEnd (At ch)) (pipereadDone i) (.held ok woken p) := by
  refine obeys_wakeup (obeys_release ?_)
  cases ch with
  | nread => exact (hdone rfl).imp_right .inl
  | nwrite => exact .inr (.inr rfl)

/-- An end is closed: those who sleep on `c` may have to be woken up. -/
theorem obeys_closed {a : Act} {f : sig.Res a → Script sig nproc β} (c : Ch)
    (hfifo : ∀ pi, Fifo pi → Fifo (sig.act a pi).2)
    (hcalm : c ≠ ch → ∀ pi, cond ch (sig.act a pi).2 → cond ch pi)
    (h : ∀ r, ((monitor ch).protocol G nproc).wp Q (f r) (.held (c ≠ ch) False fun _ => True)) :
    ((monitor ch).protocol G nproc).wp Q (access a >>= f) .fresh := by
  refine Monitor.Protocol.act (fun pi hpi _ => hfifo pi hpi) fun pi _ _ => ?_
  refine ⟨c ≠ ch, fun _ => True, fun hc => ⟨trivial, fun pi _ _ => hcalm hc pi⟩, ?_, h _⟩
  exact ⟨stable _, fun _ _ _ _ => trivial⟩

theorem obeys_close (writable : Bool) :
    ((monitor ch).protocol G nproc).wp (Monitor.AtEnd (At ch)) (pipeclose writable) .out := by
  have hend (c : Ch) : ((monitor ch).protocol G nproc).wp (Monitor.AtEnd (At ch)) (do
      Script.wakeup c
      let pi ← access .look
      if pi.readopen = false ∧ pi.writeopen = false then
        Script.release ()
      else
        Script.release ()
      pure (.client (.user 0))) (.held (c ≠ ch) False fun _ => True) := by
    have hdone : c ≠ ch ∨ False ∨ c = ch := (Decidable.em (c = ch)).symm.imp_right .inr
    refine obeys_wakeup (obeys_look fun pi _ _ => ?_)
    split <;> exact obeys_release hdone
  refine Monitor.Protocol.acquire (V := monitor ch) ?_
  cases writable with
  | true =>
    refine obeys_closed .nread (fun _ => id) (fun hc pi hcond => ?_) fun _ => hend .nread
    cases ch with
    | nread => exact absurd rfl hc
    | nwrite => exact hcond
  | false =>
    refine obeys_closed .nwrite (fun _ => id) (fun hc pi hcond => ?_) fun _ => hend .nwrite
    cases ch with
    | nread => exact hcond
    | nwrite => exact absurd rfl hc

theorem obeys_writeCopy {pi : Pipe} (hopen : pi.readopen = true) (hroom : ¬ pi.full)
    (hdone : ch = .nwrite → ok ∨ woken) (byte : Option UInt8) :
    ((monitor ch).protocol G nproc).wp (Monitor.AtEnd (At ch)) (pipewriteCopy i n byte)
      (.held ok woken (· = pi)) := by
  cases byte with
  | none => exact obeys_writeDone hdone
  | some c =>
    refine Monitor.Protocol.step (stable _) fun hpi => ⟨hpi.pushed hroom c, _, _, _, rfl, ?_⟩
    cases ch with
    | nread =>
      refine .inr ?_
      rintro _ rfl
      exact ⟨rfl, hopen⟩
    | nwrite => exact .inl ((hdone rfl).imp_left fun hok => ⟨hok, fun _ => .inl hroom⟩)

theorem obeys_writeRound (hG : ch = .nread → ∀ pi, pi.unannounced = true → G pi) {byte : Option UInt8}
    (hdone : (ok ∨ woken) ∨ Excused ch (.writing i n) p) :
    ((monitor ch).protocol G nproc).wp (Monitor.AtEnd (At ch)) (pipewriteRound i n byte) (.held ok woken p) := by
  have hwriter (h : ch = .nwrite) : ok ∨ woken := by
    subst h
    exact hdone.resolve_right id
  rw [pipewriteRound, wp_ite]
  split
  · refine obeys_look fun pi _ hp => ?_
    rw [wp_ite]
    split
    · -- an excused writer has seen that the other end is open
      next hclosed =>
      refine obeys_release (hdone.resolve_right fun hexcused => ?_)
      cases ch with
      | nread => cases hclosed.symm.trans (hexcused pi hp).2
      | nwrite => exact hexcused
    next hopen =>
    refine Monitor.Protocol.killed (V := monitor ch) fun dead hdead => ?_
    rw [wp_ite]
    split
    · next hkilled =>
      refine obeys_release (hdone.resolve_right fun hexcused => ?_)
      cases ch with
      | nread =>
        have hspared := hdead fun pi' _ heq => hG rfl pi' (heq ▸ (hexcused pi hp).1)
        cases hspared.symm.trans hkilled
      | nwrite => exact hexcused
    refine obeys_look ?_
    rintro _ _ rfl
    rw [wp_ite]
    split
    · next hfull =>
      have hfresh : Monitor.AtEnd (At ch) (.client (.writing i n)) .fresh := ⟨_, _, _, rfl, .inl (.inl trivial)⟩
      refine obeys_wakeup (obeys_announce (q := fun pi' => pi'.full ∧ pi'.readopen = true) ?_ ?_)
      · rintro _ rfl
        exact ⟨hfull, by simpa using hopen⟩
      cases ch with
      | nread =>
        exact Monitor.Protocol.sleepOther (V := monitor .nread) (by simp [monitor]) (.inr (.inr rfl)) hfresh
      | nwrite =>
        refine Monitor.Protocol.sleep (V := monitor .nwrite) ((hwriter rfl).imp_right .inl) ?_ hfresh
        intro pi' _ hpi' hcond
        simp [cond, monitor, hpi'] at hcond
    · next hroom => exact obeys_writeCopy (by simpa using hopen) hroom hwriter byte
  · exact obeys_writeDone hwriter

theorem obeys_readWait (hdone : ok ∨ woken) :
    ((monitor ch).protocol G nproc).wp (Monitor.AtEnd (At ch)) (pipereadWait n) (.held ok woken p) := by
  refine obeys_look fun pi _ _ => ?_
  rw [wp_ite]
  split
  · next hempty =>
    refine Monitor.Protocol.killed (V := monitor ch) fun dead _ => ?_
    rw [wp_ite]
    split
    · exact obeys_release hdone
    · have hfresh : Monitor.AtEnd (At ch) (.client (.waiting n)) .fresh := ⟨_, _, _, rfl, .inl (.inl trivial)⟩
      cases ch with
      | nread =>
        refine Monitor.Protocol.sleep (V := monitor .nread) hdone ?_ hfresh
        rintro _ _ rfl hcond
        simp [cond, monitor, hempty] at hcond
      | nwrite => exact Monitor.Protocol.sleepOther (V := monitor .nwrite) (by simp [monitor]) hdone hfresh
  · exact ⟨_, _, _, rfl, .inl hdone⟩

theorem obeys_readRound (hdone : (ok ∨ woken) ∨ Excused ch (.reading i n) p) {fails : Bool} :
    ((monitor ch).protocol G nproc).wp (Monitor.AtEnd (At ch)) (pipereadRound i n fails) (.held ok woken p) := by
  have hreader (h : ch = .nread) : ok ∨ woken := by
    subst h
    exact hdone.resolve_right id
  rw [pipereadRound, wp_ite]
  split
  · refine obeys_look fun pi _ _ => ?_
    rw [wp_ite]
    split
    · exact obeys_readDone hreader
    next hempty =>
    -- a reader that takes a byte does not make the pipe readable
    have hreader' (h : ch = .nread) :
        (ok ∧ (cond ch pi.popped → cond ch pi)) ∨ woken := by
      subst h
      exact (hreader rfl).imp_left fun hok => ⟨hok, fun _ => .inl hempty⟩
    refine Monitor.Protocol.step (stable _) fun hpi => ⟨hpi.popped hempty, ?_⟩
    rw [wp_ite]
    split
    · exact obeys_readDone hreader'
    · refine ⟨_, _, _, rfl, ?_⟩
      cases ch with
      | nread => exact .inl (hreader' rfl)
      | nwrite => exact .inr trivial
  · exact obeys_readDone hreader

theorem obeys_call (call : Call) :
    ((monitor ch).protocol G nproc).wp (Monitor.AtEnd (At ch)) call.script .out := by
  have hfresh : (Monitor.Mode.fresh : Monitor.Mode sig) = .held True False fun _ => True := rfl
  cases call with
  | write n => exact Monitor.Protocol.acquire (V := monitor ch) ⟨_, _, _, hfresh, .inl (.inl trivial)⟩
  | read n => exact Monitor.Protocol.acquire (V := monitor ch) ⟨_, _, _, hfresh, .inl (.inl trivial)⟩
  | close writable => exact obeys_close writable
  | exit status => exact ⟨trivial, (by simp)⟩
  | wait copy => exact fun _ => rfl
  | fork => exact ⟨trivial, fun _ _ => ⟨.out, rfl, rfl⟩⟩
  | kill pid => exact ⟨trivial, fun _ _ => ⟨.out, rfl, rfl⟩⟩
  | fault => exact ⟨trivial, fun _ _ => ⟨.out, rfl, rfl⟩⟩

/-- All processes keep to the protocol of both channels, if no writer finds itself killed before it
has announced its bytes. -/
theorem obeys (ch : Ch) (hG : ch = .nread → ∀ pi, pi.unannounced = true → G pi) :
    (monitor ch).ObeysIf G (client nproc) (At ch) where
  start := rfl
  code k x input hk := by
    cases k with
    | user ret =>
      obtain rfl : x = .out := hk
      exact obeys_call input.call
    | writing i n =>
      obtain ⟨ok, woken, p, rfl, hdone⟩ := hk
      exact obeys_writeRound hG hdone
    | waiting n =>
      obtain ⟨ok, woken, p, rfl, hdone⟩ := hk
      exact obeys_readWait (hdone.resolve_right (by cases ch <;> exact id))
    | reading i n =>
      obtain ⟨ok, woken, p, rfl, hdone⟩ := hk
      exact obeys_readRound hdone
  handler := nofun

end

/-! ## Runs -/

/-- A pipe with both ends open whose counters are equal, as `pipealloc` makes it with `c = 0`. -/
def opened (data : Fin PIPESIZE → UInt8) (c : UInt32) : Pipe where
  data := data
  nread := c
  nwrite := c
  readopen := true
  writeopen := true
  put := []
  taken := []
  unannounced := false

theorem fifo_opened (data : Fin PIPESIZE → UInt8) (c : UInt32) : Fifo (opened data c) :=
  ⟨[], rfl, Ring.Holds.nil data c⟩

/-- Whatever the readers and writers of a pipe do, and whatever the counters were at the
beginning, the pipe holds at most `PIPESIZE` bytes, and the bytes taken out are the first ones of
those put in, in the same order. -/
theorem pipe_is_queue {nproc m : Nat} [NeZero nproc] {data : Fin PIPESIZE → UInt8} {c : UInt32}
    {M : Sched.Machine (client nproc) m} {as : List (Fin m × Label (client nproc))}
    (hrun : Sys.Run Sched.Machine.Step (Sched.boot (client nproc) m (opened data c)) as M) :
    (M.shared.data.nwrite - M.shared.data.nread).toNat ≤ PIPESIZE ∧
    M.shared.data.taken <+: M.shared.data.put ∧
    M.shared.data.put.length =
      M.shared.data.taken.length + (M.shared.data.nwrite - M.shared.data.nread).toNat := by
  have hfifo : Fifo M.shared.data := Monitor.inv_of_run (obeys .nwrite (by simp))
    (fifo_opened data c) (Monitor.runWhere_of_run hrun)
  exact ⟨hfifo.distance, hfifo.inOrder, hfifo.length⟩

/-- A call, and a byte for its copies. -/
def Call.input (call : Call) : Input := ⟨call, some 7, false⟩

/-- The first process writes two bytes and reads one. -/
def writeRead (c : Fin m) : List (Fin m × Label (client 1)) :=
  List.flatten [(c, .resume) :: ops c 7, (c, .enter (Call.write 2).input) :: ops c 1,
    (c, .enter (Call.write 2).input) :: ops c 7, (c, .enter (Call.write 2).input) :: ops c 7,
    (c, .enter (Call.write 2).input) :: ops c 3, (c, .enter (Call.read 1).input) :: ops c 1,
    (c, .enter (Call.read 1).input) :: ops c 1, (c, .enter (Call.read 1).input) :: ops c 2]

theorem pipe_is_queue_writeRead : ∃ M : Sched.Machine (client 1) 1,
    Sys.Run Sched.Machine.Step (Sched.boot (client 1) 1 (opened (fun _ => 0) 0xffffffff)) (writeRead 0) M ∧
    (M.shared.data.put = [7, 7] ∧ M.shared.data.taken = [7] ∧ M.shared.data.nwrite = 1) ∧
    M.shared.data.taken <+: M.shared.data.put := by
  have hexec : (Sys.exec Sched.Machine.next (Sched.boot (client 1) 1 (opened (fun _ => 0) 0xffffffff)) (writeRead 0)).any
      (fun M => decide (M.shared.data.put = [7, 7] ∧ M.shared.data.taken = [7] ∧
        M.shared.data.nwrite = 1)) = true := by
    decide +kernel
  obtain ⟨M, hM, hcheck⟩ := Sys.exists_of_any hexec
  have hrun : Sys.Run Sched.Machine.Step (Sched.boot (client 1) 1 (opened (fun _ => 0) 0xffffffff)) (writeRead 0) M :=
    Sys.exec_run hM
  exact ⟨M, hrun, of_decide_eq_true hcheck, (pipe_is_queue hrun).2.1⟩

end Xv6.Pipe
