-- SUMMARY: The console as a queue of lines: readers and interrupts in any order refine a line discipline.
import Xv6.Console.Intr
import Xv6.Base.Transition
import Xv6.Kernel.Param

/-!
# The line discipline

Any number of processes call `consoleread`, and characters arrive at any time that `cons.lock`
is free. A reader has the lock from one sleep to the next. The specification has no buffer: a
character changes the line that is edited or completes it, and a reader takes the bytes that are
ready one after the other.
-/

namespace Xv6.Console

abbrev Tid : Type := Nat

/-- What a process does at the console: nothing, it waits for the lock or sleeps, or it has the lock. -/
inductive Thread (C : Type)
  | outside
  | waiting (call : C)
  | running (call : C)

/-- Why a call returns. -/
inductive Reason
  /-- The bytes that were asked for are there. -/
  | count
  | newline
  | eof
  | killed
deriving DecidableEq

structure Return where
  tid : Tid
  asked : Int32
  ret : Int32
  why : Reason
  got : List UInt8

inductive Label
  | intr (c : UInt8)
  | call (t : Tid) (n : Int32)
  | acquire (t : Tid)
  /-- A turn of the loop, and what `killed` says if the reader finds nothing. -/
  | turn (t : Tid) (killed : Bool)

/-! ## The console -/

/-- The variables of a call, and the bytes that were copied to the user. -/
structure Call where
  target : UInt32
  n : Int32
  got : List UInt8

structure State where
  cons : Cons
  locked : Bool
  thread : Tid → Thread Call
  returns : List Return
  echo : List UInt8

def State.set (s : State) (t : Tid) (thread : Thread Call) : State :=
  { s with thread := Function.update s.thread t thread }

/-- The lock is released, and the call returns. -/
def State.ret (s : State) (t : Tid) (call : Call) (ret : Int32) (why : Reason) : State :=
  { s with
    locked := false
    thread := Function.update s.thread t .outside
    returns := s.returns ++ [⟨t, call.target.toInt32, ret, why, call.got⟩] }

/-- A turn of the loop of `consoleread`. -/
def turn (s : State) (t : Tid) (call : Call) (killed : Bool) : State :=
  if call.n > 0 then
    if s.cons.r = s.cons.w then
      if killed then s.ret t call (-1) .killed
      -- `sleep` releases the lock
      else { s with locked := false, thread := Function.update s.thread t (.waiting call) }
    else
      let c := s.cons.buf (Ring.slot s.cons.r)
      let s := { s with cons := { s.cons with r := s.cons.r + 1 } }
      if c = CtrlD then
        let s :=
          if call.n.toUInt32 < call.target then { s with cons := { s.cons with r := s.cons.r - 1 } } else s
        s.ret t call (consumed call.target call.n) .eof
      else
        let call : Call := ⟨call.target, call.n - 1, call.got ++ [c]⟩
        if c = newline then s.ret t call (consumed call.target call.n) .newline
        else s.set t (.running call)
  else s.ret t call (consumed call.target call.n) .count

def step (s : State) : Label → Option State
  | .intr c =>
    if s.locked then none
    else some { s with cons := (consoleintr c s.cons).2, echo := s.echo ++ (consoleintr c s.cons).1 }
  | .call t n =>
    match s.thread t with
    | .outside => some (s.set t (.waiting ⟨n.toUInt32, n, []⟩))
    | _ => none
  | .acquire t =>
    match s.thread t with
    | .waiting call =>
      if s.locked then none
      else some { s with locked := true, thread := Function.update s.thread t (.running call) }
    | _ => none
  | .turn t killed =>
    match s.thread t with
    | .running call => some (turn s t call killed)
    | _ => none

/-- Nobody has typed or read yet. -/
structure Initial (s : State) : Prop where
  w_eq : s.cons.w = s.cons.r
  e_eq : s.cons.e = s.cons.r
  locked : s.locked = false
  thread : ∀ t, s.thread t = .outside
  returns : s.returns = []

/-! ## The specification -/

namespace Spec

structure Request where
  asked : Int32
  got : List UInt8

structure State where
  line : Line
  locked : Bool
  thread : Tid → Thread Request
  returns : List Return
  /-- The bytes that were taken, and who has taken them. -/
  received : List (Tid × UInt8)

def State.ret (s : State) (t : Tid) (call : Request) (ret : Int32) (why : Reason) : State :=
  { s with
    locked := false
    thread := Function.update s.thread t .outside
    returns := s.returns ++ [⟨t, call.asked, ret, why, call.got⟩] }

/-- The first byte that is ready is taken. -/
def State.take (s : State) (t : Tid) (c : UInt8) : State :=
  { s with
    line := { s.line with committed := s.line.committed.tail }
    received := s.received ++ [(t, c)] }

/-- A reader that may go on takes a byte. A control-D ends the call, and is only taken if it is the first
byte of the call; so does a newline, behind it. -/
def turn (s : State) (t : Tid) (call : Request) (killed : Bool) : State :=
  if call.got.length < call.asked.toInt.toNat then
    match s.line.committed.head? with
    | none =>
      if killed then s.ret t call (-1) .killed
      else { s with locked := false, thread := Function.update s.thread t (.waiting call) }
    | some c =>
      if c = CtrlD then
        (if call.got = [] then s.take t c else s).ret t call (Int32.ofNat call.got.length) .eof
      else
        let call : Request := ⟨call.asked, call.got ++ [c]⟩
        if c = newline then (s.take t c).ret t call (Int32.ofNat call.got.length) .newline
        else { s.take t c with thread := Function.update s.thread t (.running call) }
  else s.ret t call (Int32.ofNat call.got.length) .count

def step (s : State) : Label → Option State
  | .intr c => if s.locked then none else some { s with line := s.line.input c }
  | .call t n =>
    match s.thread t with
    | .outside => some { s with thread := Function.update s.thread t (.waiting ⟨n, []⟩) }
    | _ => none
  | .acquire t =>
    match s.thread t with
    | .waiting call =>
      if s.locked then none
      else some { s with locked := true, thread := Function.update s.thread t (.running call) }
    | _ => none
  | .turn t killed =>
    match s.thread t with
    | .running call => some (turn s t call killed)
    | _ => none

def init : State := ⟨⟨[], [], []⟩, false, fun _ => .outside, [], []⟩

end Spec

/-! ## The refinement -/

/-- The variables of a call are those of a request. -/
structure Serves (call : Call) (req : Spec.Request) : Prop where
  target : call.target = req.asked.toUInt32
  got : call.got = req.got
  n_eq : call.n = req.asked - Int32.ofNat req.got.length
  length_le : req.got.length ≤ req.asked.toInt.toNat

inductive Threads : Thread Call → Thread Spec.Request → Prop
  | outside : Threads .outside .outside
  | waiting {call : Call} {req : Spec.Request} : Serves call req → Threads (.waiting call) (.waiting req)
  | running {call : Call} {req : Spec.Request} : Serves call req → Threads (.running call) (.running req)

structure Refines (s : State) (a : Spec.State) : Prop where
  line : Shows s.cons a.line
  locked : s.locked = a.locked
  thread : ∀ t, Threads (s.thread t) (a.thread t)
  returns : s.returns = a.returns

section
variable {s s' : State} {a : Spec.State} {call : Call} {req : Spec.Request} {t : Tid} {killed : Bool} {c : UInt8}

theorem Serves.toInt_n (h : Serves call req) : call.n.toInt = req.asked.toInt - req.got.length := by
  have hle := h.length_le
  have hlow := req.asked.le_toInt
  have hhigh := req.asked.toInt_lt
  have hgot : (Int32.ofNat req.got.length).toInt = req.got.length := Int32.toInt_ofNat_of_lt (by omega)
  have hmin : -(2 ^ 32 / 2 : Nat) ≤ req.asked.toInt - req.got.length := by omega
  have hmax : req.asked.toInt - req.got.length < ((2 ^ 32 + 1) / 2 : Nat) := by omega
  rw [h.n_eq, Int32.toInt_sub, hgot]
  exact Int.bmod_eq_of_le hmin hmax

theorem Serves.running (h : Serves call req) : call.n > 0 ↔ req.got.length < req.asked.toInt.toNat := by
  have hn := h.toInt_n
  rw [gt_iff_lt, Int32.lt_iff_toInt_lt, Int32.toInt_zero]
  omega

theorem Serves.toNat_n (h : Serves call req) (hn : call.n > 0) :
    call.n.toUInt32.toNat + req.got.length = call.target.toNat := by
  have hint := h.toInt_n
  have hlt := h.running.mp hn
  have hcount := toNat_toUInt32 call.n
  have htarget := toNat_toUInt32 req.asked
  rw [h.target]
  split at hcount <;> split at htarget <;> omega

/-- `target - n` is the number of bytes that were copied. -/
theorem Serves.consumed (h : Serves call req) :
    Console.consumed call.target call.n = Int32.ofNat req.got.length := by
  have hsub : req.asked.toUInt32 - (req.asked.toUInt32 - UInt32.ofNat req.got.length) =
      UInt32.ofNat req.got.length := by
    rw [UInt32.sub_eq_add_neg req.asked.toUInt32 (_ - _), UInt32.neg_sub, UInt32.add_comm, UInt32.sub_add_cancel]
  have hn : call.n.toUInt32 = req.asked.toUInt32 - UInt32.ofNat req.got.length := by
    rw [h.n_eq]
    rfl
  rw [Console.consumed, h.target, hn, hsub]
  rfl

theorem Serves.first (h : Serves call req) (hn : call.n > 0) : call.n.toUInt32 < call.target ↔ req.got ≠ [] := by
  have hcount := h.toNat_n hn
  rw [UInt32.lt_iff_toNat_lt, ← List.length_pos_iff]
  omega

theorem Serves.next (h : Serves call req) (hn : call.n > 0) :
    Serves ⟨call.target, call.n - 1, call.got ++ [c]⟩ ⟨req.asked, req.got ++ [c]⟩ := by
  have hlt := h.running.mp hn
  have hlen : (req.got ++ [c]).length = req.got.length + 1 := List.length_append
  have hsucc : Int32.ofNat (req.got.length + 1) = Int32.ofNat req.got.length + 1 :=
    congrArg UInt32.toInt32 (UInt32.ofNat_add req.got.length 1)
  refine ⟨h.target, by rw [h.got], ?_, hlen ▸ hlt⟩
  simp only [hlen, hsucc, h.n_eq, Int32.sub_sub]

theorem Threads.update {f : Tid → Thread Call} {g : Tid → Thread Spec.Request} {x : Thread Call}
    {y : Thread Spec.Request} (h : ∀ i, Threads (f i) (g i)) (hxy : Threads x y) (i : Tid) :
    Threads (Function.update f t x i) (Function.update g t y i) := by
  rw [Function.update_apply, Function.update_apply]
  split
  · exact hxy
  · exact h i

theorem Refines.ret {why : Reason} {v : Int32} (h : Refines s a) (hs : Serves call req) :
    Refines (s.ret t call v why) (a.ret t req v why) := by
  refine ⟨h.line, rfl, Threads.update h.thread .outside, ?_⟩
  have hasked : call.target.toInt32 = req.asked := by rw [hs.target]; rfl
  simp only [State.ret, Spec.State.ret, h.returns, hasked, hs.got]

/-- The reader finds nothing just if nothing is ready. -/
theorem Shows.ready {cons : Cons} {l : Line} (h : Shows cons l) : cons.r = cons.w ↔ l.committed = [] := by
  have hle := h.length_le
  have hinj := Ring.add_ofNat_inj cons.r (i := 0) (j := l.committed.length) (by decide) (by omega)
  rw [h.w_eq, ← List.length_eq_zero_iff, eq_comm (a := l.committed.length), ← hinj]
  exact Eq.congr (UInt32.add_zero _).symm rfl

/-- The byte that the reader takes. -/
theorem Shows.take {cons : Cons} {l : Line} {rest : List UInt8} (h : Shows cons l)
    (hcons : l.committed = c :: rest) :
    cons.buf (Ring.slot cons.r) = c ∧
      Shows { cons with r := cons.r + 1 } { l with committed := l.committed.tail } := by
  have hle := h.length_le
  have hholds := h.holds
  have hw := h.w_eq
  rw [hcons] at hle hholds hw
  obtain ⟨hfirst, hrest⟩ := hholds.pop
  refine ⟨hfirst, ?_, ?_, h.edited, fun hfull => ?_⟩
  · simp only [hcons, List.tail_cons]
    exact hrest
  · simp only [hcons, List.tail_cons]
    rw [hw, List.length_cons, UInt32.ofNat_add, UInt32.add_assoc, UInt32.add_comm 1]
    rfl
  · simp only [hcons, List.tail_cons, List.length_append, List.length_cons, INPUT_BUF_SIZE] at hfull hle
    omega

theorem Refines.take {rest : List UInt8} (h : Refines s a) (hcons : a.line.committed = c :: rest) :
    Refines { s with cons := { s.cons with r := s.cons.r + 1 } } (a.take t c) :=
  ⟨(h.line.take hcons).2, h.locked, h.thread, h.returns⟩

theorem Refines.turn (h : Refines s a) (hs : Serves call req) :
    Refines (Console.turn s t call killed) (Spec.turn a t req killed) := by
  rw [Console.turn, Spec.turn]
  by_cases hn : call.n > 0
  · rw [if_pos hn, if_pos (hs.running.mp hn)]
    cases hcons : a.line.committed with
    | nil =>
      rw [if_pos (h.line.ready.mpr hcons)]
      change Refines _ (if killed = true then _ else _)
      split
      · exact h.ret hs
      · exact ⟨h.line, rfl, Threads.update h.thread (.waiting hs), h.returns⟩
    | cons c rest =>
      have hfirst := (h.line.take hcons).1
      have hready : s.cons.r ≠ s.cons.w := fun heq => by
        rw [h.line.ready.mp heq] at hcons
        cases hcons
      rw [if_neg hready]
      simp only [List.head?_cons, hfirst]
      by_cases heof : c = CtrlD
      · rw [if_pos heof, if_pos heof, hs.consumed]
        by_cases hgot : req.got = []
        · rw [if_neg fun hlt => (hs.first hn).mp hlt hgot, if_pos hgot]
          exact (h.take hcons).ret hs
        · -- the counter goes back to where it was
          rw [if_pos ((hs.first hn).mpr hgot), if_neg hgot]
          simp only [UInt32.add_sub_cancel]
          exact h.ret hs
      · rw [if_neg heof, if_neg heof]
        have hnext := hs.next (c := c) hn
        by_cases hline : c = newline
        · rw [if_pos hline, if_pos hline, hnext.consumed]
          exact (h.take hcons).ret hnext
        · rw [if_neg hline, if_neg hline]
          exact ⟨(h.line.take hcons).2, h.locked, Threads.update h.thread (.running hnext), h.returns⟩
  · rw [if_neg hn, if_neg (mt hs.running.mpr hn), hs.consumed]
    exact h.ret hs

/-- Every step of the console is one of the specification. -/
theorem Refines.step {l : Label} (h : Refines s a) (hstep : Console.step s l = some s') :
    ∃ a', Spec.step a l = some a' ∧ Refines s' a' := by
  cases l with
  | intr c =>
    rw [Console.step] at hstep
    rw [Spec.step]
    split at hstep
    · cases hstep
    · next hfree =>
      obtain rfl := Option.some.inj hstep
      rw [if_neg (h.locked ▸ hfree)]
      exact ⟨_, rfl, h.line.consoleintr, h.locked, h.thread, h.returns⟩
  | call t n =>
    have hth := h.thread t
    rw [Console.step] at hstep
    rw [Spec.step]
    generalize s.thread t = x at hstep hth
    generalize a.thread t = y at hth
    cases hth with
    | outside =>
      obtain rfl := Option.some.inj hstep
      have hserves : Serves ⟨n.toUInt32, n, []⟩ ⟨n, []⟩ := ⟨rfl, rfl, (Int32.sub_zero n).symm, Nat.zero_le _⟩
      exact ⟨_, rfl, h.line, h.locked, Threads.update h.thread (.waiting hserves), h.returns⟩
    | waiting _ => cases hstep
    | running _ => cases hstep
  | acquire t =>
    have hth := h.thread t
    rw [Console.step] at hstep
    rw [Spec.step]
    generalize s.thread t = x at hstep hth
    generalize a.thread t = y at hth
    cases hth with
    | outside => cases hstep
    | waiting hs =>
      simp only at hstep ⊢
      split at hstep
      · cases hstep
      · next hfree =>
        obtain rfl := Option.some.inj hstep
        rw [if_neg (h.locked ▸ hfree)]
        exact ⟨_, rfl, h.line, rfl, Threads.update h.thread (.running hs), h.returns⟩
    | running _ => cases hstep
  | turn t killed =>
    have hth := h.thread t
    rw [Console.step] at hstep
    rw [Spec.step]
    generalize s.thread t = x at hstep hth
    generalize a.thread t = y at hth
    cases hth with
    | outside => cases hstep
    | waiting _ => cases hstep
    | running hs =>
      obtain rfl := Option.some.inj hstep
      exact ⟨_, rfl, h.turn hs⟩

theorem Initial.refines (h : Initial s) : Refines s Spec.init := by
  refine ⟨⟨?_, ?_, List.not_mem_nil, fun _ => rfl⟩, h.locked, fun t => ?_, h.returns⟩
  · rw [h.e_eq]
    exact Ring.Holds.nil s.cons.buf s.cons.r
  · rw [h.w_eq]
    exact (UInt32.add_zero _).symm
  · rw [h.thread t]
    exact .outside

theorem Refines.run {ls : List Label} {s₀ : State} (h : Initial s₀)
    (hrun : Sys.Run (fun s l s' => Console.step s l = some s') s₀ ls s) :
    ∃ a, Sys.Run (fun a l a' => Spec.step a l = some a') Spec.init ls a ∧ Refines s a := by
  induction hrun with
  | nil => exact ⟨_, .nil, h.refines⟩
  | snoc _ hstep ih =>
    obtain ⟨a, harun, href⟩ := ih
    obtain ⟨a', hastep, href'⟩ := href.step hstep
    exact ⟨a', harun.snoc hastep, href'⟩

end

/-! ## What the specification promises -/

namespace Spec

/-- A call that has not returned. -/
structure Request.Open (req : Request) : Prop where
  length_le : req.got.length ≤ req.asked.toInt.toNat
  line : newline ∉ req.got
  eof : CtrlD ∉ req.got

end Spec

/-- The call returned what it should. -/
structure Return.Right (r : Return) : Prop where
  ret : r.ret = if r.why = .killed then -1 else Int32.ofNat r.got.length
  length_le : r.got.length ≤ r.asked.toInt.toNat
  count : r.why = .count → r.got.length = r.asked.toInt.toNat
  line : r.why = .newline ↔ newline ∈ r.got
  last : newline ∉ r.got.dropLast
  eof : CtrlD ∉ r.got

/-- The call that a process has under way. -/
def Thread.call {C : Type} : Thread C → Option C
  | .outside => none
  | .waiting call => some call
  | .running call => some call

/-- The bytes that a call under way has got. -/
def Thread.got (th : Thread Spec.Request) : List UInt8 := (th.call.map Spec.Request.got).getD []

namespace Spec

/-- The bytes that the calls of a process have got, those that have returned and the one under way. -/
def State.given (a : State) (t : Tid) : List UInt8 :=
  ((a.returns.filter (·.tid = t)).map Return.got).flatten ++ (a.thread t).got

/-- The bytes that a process has taken, but for control-D. -/
def State.taken (a : State) (t : Tid) : List UInt8 :=
  ((a.received.filter (·.1 = t)).map Prod.snd).filter (· ≠ CtrlD)

/-- A character that is kept in the buffer. -/
def Stored (c : UInt8) : Prop :=
  c ≠ 0 ∧ c ≠ CtrlP ∧ c ≠ CtrlU ∧ c ≠ CtrlH ∧ c ≠ delete ∧ c ≠ carriageReturn

instance : DecidablePred Stored := fun _ => inferInstanceAs (Decidable (_ ∧ _))

structure Kept (a : State) : Prop where
  /-- What is made ready is taken in order, all of it and once. -/
  entered : a.line.entered = a.received.map Prod.snd ++ a.line.committed
  /-- What a process has taken is what its calls have got. -/
  given : ∀ t, a.taken t = a.given t
  returns : ∀ r ∈ a.returns, r.Right
  stored : ∀ c ∈ a.line.committed ++ a.line.pending, Stored c

structure Promise (a : State) : Prop where
  kept : Kept a
  calls : ∀ t, ∀ req ∈ (a.thread t).call, req.Open

section
variable {a a' : State} {req : Request} {t : Tid} {c : UInt8}

theorem promise_init : Promise init :=
  ⟨⟨rfl, fun _ => rfl, fun _ hr => absurd hr List.not_mem_nil, fun _ hc => absurd hc List.not_mem_nil⟩,
    fun _ req hreq => absurd hreq (Option.not_mem_none req)⟩

/-! ### Characters -/

theorem entered_append (l : Line) : ∃ new, (l.append c).entered = l.entered ++ new ∧
    (l.append c).committed = l.committed ++ new := by
  rw [Line.append]
  split
  · dsimp only
    split
    · exact ⟨_, rfl, rfl⟩
    · exact ⟨[], (List.append_nil _).symm, (List.append_nil _).symm⟩
  · exact ⟨[], (List.append_nil _).symm, (List.append_nil _).symm⟩

theorem mem_append {l : Line} {x : UInt8} (hx : x ∈ (l.append c).committed ++ (l.append c).pending) :
    x ∈ l.committed ++ l.pending ∨ x = c := by
  rw [Line.append] at hx
  split at hx
  · dsimp only at hx
    have hx : x ∈ l.committed ++ (l.pending ++ [c]) := by
      split at hx
      · simpa only [Line.commit, List.append_nil] using hx
      · exact hx
    rw [← List.append_assoc, List.mem_append, List.mem_singleton] at hx
    exact hx
  · exact .inl hx

theorem entered_input (l : Line) (c : UInt8) : ∃ new, (l.input c).entered = l.entered ++ new ∧
    (l.input c).committed = l.committed ++ new := by
  have hsame : ∃ new, l.entered = l.entered ++ new ∧ l.committed = l.committed ++ new :=
    ⟨[], (List.append_nil _).symm, (List.append_nil _).symm⟩
  rw [Line.input]
  split
  · exact hsame
  split
  · exact hsame
  split
  · exact hsame
  · exact entered_append l

theorem stored_input {l : Line} (h : ∀ x ∈ l.committed ++ l.pending, Stored x) :
    ∀ x ∈ (l.input c).committed ++ (l.input c).pending, Stored x := by
  intro x hx
  rw [Line.input] at hx
  split at hx
  · exact h x hx
  split at hx
  · exact h x (List.mem_append_left _ (by simpa only [List.append_nil] using hx))
  split at hx
  · refine h x ?_
    rw [List.mem_append] at hx ⊢
    exact hx.imp_right List.mem_of_mem_dropLast
  · next hp hu herase =>
    rcases mem_append hx with hx | rfl
    · exact h x hx
    · rw [not_or] at hp herase
      split
      · decide
      · next hcr => exact ⟨hp.2, hp.1, hu, herase.1, herase.2, hcr⟩

theorem Promise.intr (h : Promise a) : Promise { a with line := a.line.input c } := by
  obtain ⟨new, hentered, hcommitted⟩ := entered_input a.line c
  refine ⟨⟨?_, h.kept.given, h.kept.returns, stored_input h.kept.stored⟩, h.calls⟩
  rw [hentered, hcommitted, h.kept.entered, List.append_assoc]

/-! ### Readers -/

theorem given_thread {th : Thread Request} (hgot : th.got = (a.thread t).got) (i : Tid) :
    State.given { a with thread := Function.update a.thread t th } i = a.given i := by
  rw [State.given, State.given]
  simp only [Function.update_apply]
  split
  · next heq => rw [hgot, heq]
  · rfl

theorem given_ret {why : Reason} {v : Int32} (hgot : req.got = (a.thread t).got) (i : Tid) :
    (a.ret t req v why).given i = a.given i := by
  rw [State.given, State.given, State.ret]
  simp only [Function.update_apply, List.filter_append, List.map_append, List.flatten_append]
  by_cases hi : i = t
  · subst hi
    rw [if_pos rfl, List.filter_cons_of_pos (by simp), ← hgot]
    simp [Thread.got, Thread.call]
  · rw [if_neg hi, List.filter_cons_of_neg (by simpa using Ne.symm hi)]
    simp

theorem Kept.thread {th : Thread Request} (h : Kept a) (hgot : th.got = (a.thread t).got) :
    Kept { a with thread := Function.update a.thread t th } :=
  ⟨h.entered, fun i => (h.given i).trans (given_thread hgot i).symm, h.returns, h.stored⟩

theorem Kept.ret {why : Reason} {v : Int32} (h : Kept a) (hgot : req.got = (a.thread t).got)
    (hright : Return.Right ⟨t, req.asked, v, why, req.got⟩) : Kept (a.ret t req v why) := by
  refine ⟨h.entered, fun i => (h.given i).trans (given_ret hgot i).symm, fun r hr => ?_, h.stored⟩
  rcases List.mem_append.mp hr with hr | hr
  · exact h.returns r hr
  · rw [List.mem_singleton.mp hr]
    exact hright

theorem entered_take {rest : List UInt8} (h : Kept a) (hcons : a.line.committed = c :: rest) :
    (a.take t c).line.entered = (a.take t c).received.map Prod.snd ++ (a.take t c).line.committed := by
  simp only [State.take, hcons, List.tail_cons, List.map_append, List.map_cons, List.map_nil, List.append_assoc,
    List.cons_append, List.nil_append]
  rw [h.entered, hcons]

theorem stored_take {rest : List UInt8} (h : Kept a) (hcons : a.line.committed = c :: rest) :
    ∀ x ∈ (a.take t c).line.committed ++ (a.take t c).line.pending, Stored x := by
  intro x hx
  simp only [State.take, hcons, List.tail_cons] at hx
  exact h.stored x (by rw [hcons]; exact List.mem_cons_of_mem c hx)

/-- A control-D is taken. -/
theorem Kept.take_eof {rest : List UInt8} (h : Kept a) (hcons : a.line.committed = c :: rest) (heof : c = CtrlD) :
    Kept (a.take t c) := by
  refine ⟨entered_take h hcons, fun i => ?_, h.returns, stored_take h hcons⟩
  have htaken : (a.take t c).taken i = a.taken i := by
    simp only [State.taken, State.take, List.filter_append, List.map_append]
    rw [List.filter_cons]
    split <;> simp [heof]
  rw [htaken]
  exact h.given i

/-- Another byte is taken for the call. -/
theorem Kept.take {rest : List UInt8} (h : Kept a) (req : Request) (hcons : a.line.committed = c :: rest) (heof : c ≠ CtrlD)
    (hgot : req.got = (a.thread t).got) :
    Kept { a.take t c with thread := Function.update a.thread t (.running ⟨req.asked, req.got ++ [c]⟩) } := by
  refine ⟨entered_take (t := t) h hcons, fun i => ?_, h.returns, stored_take (t := t) h hcons⟩
  have hgiven := h.given i
  simp only [State.taken, State.given, State.take, List.filter_append, List.map_append, Function.update_apply] at hgiven ⊢
  by_cases hi : i = t
  · subst hi
    rw [if_pos rfl, List.filter_cons_of_pos (by simp), hgiven, ← hgot, List.append_assoc]
    simp [Thread.got, Thread.call, heof]
  · rw [if_neg hi, List.filter_cons_of_neg (by simpa using Ne.symm hi), hgiven]
    simp

/-- The call returns with what it has just got. -/
theorem Kept.ret_running {why : Reason} {v : Int32}
    (h : Kept { a with thread := Function.update a.thread t (.running req) })
    (hright : Return.Right ⟨t, req.asked, v, why, req.got⟩) : Kept (a.ret t req v why) := by
  have hgot : req.got = (Function.update a.thread t (.running req) t).got := by
    rw [Function.update_self]
    rfl
  have hkept := h.ret hgot hright
  simp only [State.ret, Function.update_idem] at hkept ⊢
  exact hkept

theorem calls_update {th : Thread Request} {f : Tid → Thread Request} (h : ∀ t, ∀ req ∈ (f t).call, req.Open)
    (hth : ∀ req ∈ th.call, req.Open) (i : Tid) : ∀ req ∈ (Function.update f t th i).call, req.Open := by
  rw [Function.update_apply]
  split
  · exact hth
  · exact h i

theorem Promise.ret {why : Reason} {v : Int32} (h : Promise a) (hgot : req.got = (a.thread t).got)
    (hright : Return.Right ⟨t, req.asked, v, why, req.got⟩) : Promise (a.ret t req v why) :=
  ⟨h.kept.ret hgot hright, calls_update h.calls fun req hreq => absurd hreq (Option.not_mem_none req)⟩

/-- A call that ends without a newline. -/
theorem Request.Open.right {why : Reason} {v : Int32} (h : req.Open) (hwhy : why ≠ .newline)
    (hcount : why = .count → req.got.length = req.asked.toInt.toNat)
    (hret : v = if why = .killed then -1 else Int32.ofNat req.got.length) :
    Return.Right ⟨t, req.asked, v, why, req.got⟩ :=
  ⟨hret, h.length_le, hcount, ⟨fun heq => absurd heq hwhy, fun hmem => absurd hmem h.line⟩,
    fun hmem => h.line (List.mem_of_mem_dropLast hmem), h.eof⟩

/-- A call that ends with a newline. -/
theorem Request.Open.right_line (h : req.Open) (hlt : req.got.length < req.asked.toInt.toNat) :
    Return.Right ⟨t, req.asked, Int32.ofNat (req.got ++ [newline]).length, .newline, req.got ++ [newline]⟩ := by
  have hmem : newline ∈ req.got ++ [newline] := List.mem_append_right _ List.mem_cons_self
  refine ⟨rfl, ?_, ?_, ⟨fun _ => hmem, fun _ => rfl⟩, ?_, ?_⟩
  · rw [List.length_append]
    exact hlt
  · intro h
    cases h
  · rw [List.dropLast_concat]
    exact h.line
  · rw [List.mem_append, not_or]
    exact ⟨h.eof, by decide⟩

theorem Request.Open.next (h : req.Open) (hlt : req.got.length < req.asked.toInt.toNat) (hline : c ≠ newline)
    (heof : c ≠ CtrlD) : Request.Open ⟨req.asked, req.got ++ [c]⟩ := by
  refine ⟨?_, ?_, ?_⟩
  · rw [List.length_append]
    exact hlt
  · rw [List.mem_append, List.mem_singleton, not_or]
    exact ⟨h.line, Ne.symm hline⟩
  · rw [List.mem_append, List.mem_singleton, not_or]
    exact ⟨h.eof, Ne.symm heof⟩

theorem Promise.turn {killed : Bool} (h : Promise a) (hth : a.thread t = .running req) :
    Promise (turn a t req killed) := by
  have hopen : req.Open := h.calls t req (by rw [hth]; rfl)
  have hgot : req.got = (a.thread t).got := by rw [hth]; rfl
  rw [Spec.turn]
  split
  · next hlt =>
    cases hcons : a.line.committed with
    | nil =>
      change Promise (if killed = true then _ else _)
      split
      · exact h.ret hgot (hopen.right (by decide) (fun h => by cases h) rfl)
      · have hsleep : Promise { a with thread := Function.update a.thread t (.waiting req) } :=
          ⟨h.kept.thread hgot, calls_update h.calls fun r hr => Option.some.inj hr ▸ hopen⟩
        exact ⟨⟨hsleep.kept.entered, hsleep.kept.given, hsleep.kept.returns, hsleep.kept.stored⟩, hsleep.calls⟩
    | cons c rest =>
      simp only [List.head?_cons]
      by_cases heof : c = CtrlD
      · rw [if_pos heof]
        have hright : Return.Right ⟨t, req.asked, Int32.ofNat req.got.length, .eof, req.got⟩ :=
          hopen.right (by decide) (fun h => by cases h) rfl
        split
        · have htake : Promise (a.take t c) := ⟨h.kept.take_eof hcons heof, h.calls⟩
          exact htake.ret hgot hright
        · exact h.ret hgot hright
      · rw [if_neg heof]
        have htake := h.kept.take req hcons heof hgot
        by_cases hline : c = newline
        · rw [if_pos hline]
          subst hline
          exact ⟨htake.ret_running (hopen.right_line hlt),
            calls_update h.calls fun r hr => absurd hr (Option.not_mem_none r)⟩
        · rw [if_neg hline]
          refine ⟨htake, calls_update h.calls fun r hr => ?_⟩
          rw [← Option.some.inj hr]
          exact hopen.next hlt hline heof
  · next hle =>
    have hcount : req.got.length = req.asked.toInt.toNat := Nat.le_antisymm hopen.length_le (Nat.not_lt.mp hle)
    exact h.ret hgot (hopen.right (by decide) (fun _ => hcount) rfl)

theorem Promise.step {l : Label} (h : Promise a) (hstep : step a l = some a') : Promise a' := by
  cases l with
  | intr c =>
    rw [Spec.step] at hstep
    split at hstep
    · cases hstep
    · exact Option.some.inj hstep ▸ h.intr
  | call t n =>
    rw [Spec.step] at hstep
    split at hstep
    · next hth =>
      have hopen : Request.Open ⟨n, []⟩ := ⟨Nat.zero_le _, List.not_mem_nil, List.not_mem_nil⟩
      rw [← Option.some.inj hstep]
      exact ⟨h.kept.thread (by rw [hth]; rfl), calls_update h.calls fun r hr => Option.some.inj hr ▸ hopen⟩
    · cases hstep
  | acquire t =>
    rw [Spec.step] at hstep
    split at hstep
    · next req hth =>
      split at hstep
      · cases hstep
      · have hopen : req.Open := h.calls t req (by rw [hth]; rfl)
        have hrun : Kept { a with thread := Function.update a.thread t (.running req) } :=
          h.kept.thread (by rw [hth]; rfl)
        rw [← Option.some.inj hstep]
        exact ⟨⟨hrun.entered, hrun.given, hrun.returns, hrun.stored⟩,
          calls_update h.calls fun r hr => Option.some.inj hr ▸ hopen⟩
    · cases hstep
  | turn t killed =>
    rw [Spec.step] at hstep
    split at hstep
    · next req hth => exact Option.some.inj hstep ▸ h.turn hth
    · cases hstep

theorem Promise.run {ls : List Label} (hrun : Sys.Run (fun a l a' => Spec.step a l = some a') init ls a) :
    Promise a := by
  induction hrun with
  | nil => exact promise_init
  | snoc _ hstep ih => exact ih.step hstep

end

end Spec

/-! ## The console -/

/-- In every run, the console does what the specification does for the same characters and calls, the counters
are in order, and the edited line is empty if the buffer is full. -/
theorem console_discipline {s₀ s : State} {ls : List Label} (hinit : Initial s₀)
    (hrun : Sys.Run (fun s l s' => step s l = some s') s₀ ls s) :
    (∃ a, Sys.Run (fun a l a' => Spec.step a l = some a') Spec.init ls a ∧ Refines s a ∧ Spec.Promise a) ∧
    (s.cons.w - s.cons.r).toNat ≤ (s.cons.e - s.cons.r).toNat ∧ (s.cons.e - s.cons.r).toNat ≤ INPUT_BUF_SIZE ∧
    ((s.cons.e - s.cons.r).toNat = INPUT_BUF_SIZE → s.cons.w = s.cons.e) := by
  obtain ⟨a, harun, href⟩ := Refines.run hinit hrun
  have hle := href.line.length_le
  have hw : (s.cons.w - s.cons.r).toNat = a.line.committed.length := by
    rw [href.line.w_eq, UInt32.add_comm, UInt32.add_sub_cancel, UInt32.toNat_ofNat', Nat.mod_eq_of_lt (by omega)]
  refine ⟨⟨a, harun, href, Spec.Promise.run harun⟩, ?_, ?_, fun hfull => ?_⟩
  · rw [hw, href.line.distance]
    exact Nat.le_add_right _ _
  · rw [href.line.distance]
    exact hle
  · rw [href.line.distance, ← List.length_append] at hfull
    exact (href.line.pending_eq.mpr (href.line.full hfull)).symm

/-- The console before the first character, with counters that are about to wrap. -/
def newConsole : State :=
  ⟨⟨fun _ => 0, 4294967295, 4294967295, 4294967295⟩, false, fun _ => .outside, [], []⟩

/-- A reader waits, and somebody types `lx`, a backspace, `s` and a newline. -/
def readLine : List Label :=
  [.call 0 10, .acquire 0, .turn 0 false] ++ [108, 120, 127, 115, 10].map .intr ++
    [.acquire 0, .turn 0 false, .turn 0 false, .turn 0 false]

/-- It gets the line `ls`. -/
theorem console_discipline_readLine : ∃ s, Sys.Run (fun s l s' => step s l = some s') newConsole readLine s ∧
    s.returns.map Return.got = [[108, 115, 10]] ∧
    ∃ a, Sys.Run (fun a l a' => Spec.step a l = some a') Spec.init readLine a ∧ Refines s a ∧ Spec.Promise a := by
  have hcheck : (Sys.exec step newConsole readLine).any (fun s =>
      decide (s.returns.map Return.got = [[108, 115, 10]])) = true := by decide +kernel
  obtain ⟨s, hexec, hs⟩ := Sys.exists_of_any hcheck
  have hrun := Sys.exec_run hexec
  exact ⟨s, hrun, of_decide_eq_true hs, (console_discipline ⟨rfl, rfl, rfl, fun _ => rfl, rfl⟩ hrun).1⟩

end Xv6.Console
