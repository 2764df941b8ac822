-- SUMMARY: One call of `piperead` whose copies may fail: when it takes exactly the bytes that it reports.
import Xv6.Pipe.Pipe
import Xv6.Vm.Kmem

/-!
# One call of piperead

The call as its caller sees it: what it finds each time it has `pi->lock`, and the buffer in
user memory. A byte is taken out of the pipe before `copyout` is tried, so a byte that cannot be
copied is lost, and a call that copies nothing reports the end of the file.
-/

namespace Xv6.Pipe.Read

/-! ## The call -/

/-- What `piperead` finds when it holds the lock: the pipe, and whether the caller was killed. -/
structure Look where
  pi : Pipe
  killed : Bool

/-- How the first loop ends, with the pipe as it is then. -/
inductive Waited
  | killed (pi : Pipe)
  | ready (pi : Pipe)

/-- The loop that waits for bytes; every further look follows a sleep. While the caller sleeps
there is no result. -/
def waitLoop : List Look → Option Waited
  | [] => none
  | look :: rest =>
    if look.pi.nread = look.pi.nwrite ∧ look.pi.writeopen = true then
      if look.killed then some (.killed look.pi) else waitLoop rest
    else
      some (.ready look.pi)

/-- The outcome of a call: what it returns, the pipe, and user memory. -/
structure Outcome where
  ret : Int
  pi : Pipe
  mem : Nat → UInt8

/-- The loop that copies, with `k` turns left; `fails i` says whether `copyout` of byte number
`i` fails. -/
def copyLoop (fails : Nat → Bool) (addr : Nat) : Nat → Nat → Pipe → (Nat → UInt8) → Outcome
  | 0, i, pi, mem => ⟨i, pi, mem⟩
  | k + 1, i, pi, mem =>
    if pi.nread = pi.nwrite then
      ⟨i, pi, mem⟩
    else
      let ch := pi.data (Ring.slot pi.nread)
      if fails i then
        ⟨i, pi.popped, mem⟩
      else
        copyLoop fails addr k (i + 1) pi.popped (Function.update mem ((addr + i) % UINT64) ch)

/-- `piperead(pi, addr, n)` -/
def piperead (looks : List Look) (fails : Nat → Bool) (addr : Nat) (n : Int)
    (mem : Nat → UInt8) : Option Outcome :=
  (waitLoop looks).map fun
    | .killed pi => ⟨-1, pi, mem⟩
    | .ready pi => copyLoop fails addr n.toNat 0 pi mem

/-- The number of bytes in the pipe. -/
def fill (pi : Pipe) : Nat := (pi.nwrite - pi.nread).toNat

/-- `m` bytes of the pipe are in memory from `addr` on, and the rest of memory is as before. -/
structure Stored (pi : Pipe) (mem : Nat → UInt8) (addr m : Nat) (mem' : Nat → UInt8) : Prop where
  bytes : ∀ j < m, mem' ((addr + j) % UINT64) = pi.data (Ring.slot (pi.nread + UInt32.ofNat j))
  others : ∀ a, (∀ j < m, a ≠ (addr + j) % UINT64) → mem' a = mem a

/-- The call took the bytes that it reports and stored them in order, and it reports none only at
the end of the file. -/
structure Exact (pi : Pipe) (mem : Nat → UInt8) (addr : Nat) (out : Outcome) : Prop where
  nread : out.pi.nread = pi.nread + UInt32.ofNat out.ret.toNat
  stored : Stored pi mem addr out.ret.toNat out.mem
  eof : out.ret = 0 → pi.nread = pi.nwrite ∧ pi.writeopen = false

/-! ## Counting bytes -/

variable {pi : Pipe} {mem mem' : Nat → UInt8} {fails : Nat → Bool} {addr i k m : Nat}

theorem fill_eq_zero : fill pi = 0 ↔ pi.nread = pi.nwrite := by
  rw [fill, ← UInt32.toNat_zero, UInt32.toNat_inj]
  constructor
  · intro h
    rw [← UInt32.sub_add_cancel pi.nwrite pi.nread, h, UInt32.zero_add]
  · intro h
    rw [h, UInt32.sub_self]

theorem fill_popped (h : pi.nread ≠ pi.nwrite) : fill pi = fill pi.popped + 1 := by
  have hr := pi.nread.toNat_lt
  have hw := pi.nwrite.toNat_lt
  rw [ne_eq, ← UInt32.toNat_inj] at h
  simp only [fill, popped, UInt32.toNat_sub, UInt32.toNat_add, UInt32.toNat_one]
  omega

theorem nread_succ (c : UInt32) (j : Nat) :
    c + 1 + UInt32.ofNat j = c + UInt32.ofNat (j + 1) := by
  rw [UInt32.add_assoc, UInt32.ofNat_add, UInt32.add_comm 1]
  rfl

theorem add_zeroth (c : UInt32) : c + UInt32.ofNat 0 = c := UInt32.add_zero c

theorem Stored.zero : Stored pi mem addr 0 mem :=
  ⟨fun _ hj => absurd hj (Nat.not_lt_zero _), fun _ _ => rfl⟩

theorem Stored.succ (hm : m < UINT64)
    (h : Stored pi.popped
      (Function.update mem (addr % UINT64) (pi.data (Ring.slot pi.nread))) (addr + 1) m mem') :
    Stored pi mem addr (m + 1) mem' := by
  refine ⟨fun j hj => ?_, fun a ha => ?_⟩
  · cases j with
    | zero =>
      -- the later bytes go to other addresses
      have hne : ∀ j < m, addr % UINT64 ≠ (addr + 1 + j) % UINT64 := by
        intro j hj
        simp only [UINT64] at hm ⊢
        omega
      rw [Nat.add_zero, h.others _ hne, Function.update_self, add_zeroth]
    | succ j =>
      have hbyte := h.bytes j (Nat.lt_of_succ_lt_succ hj)
      rw [popped, nread_succ] at hbyte
      rw [← hbyte, Nat.add_right_comm addr 1 j, Nat.add_assoc]
  · have hfirst : a ≠ addr % UINT64 := ha 0 (Nat.zero_lt_succ m)
    rw [h.others a, Function.update_of_ne hfirst]
    intro j hj
    rw [Nat.add_right_comm addr 1 j, Nat.add_assoc]
    exact ha (j + 1) (Nat.succ_lt_succ hj)

/-! ## The loop that copies -/

/-- How far the loop came: through all bytes that it was asked for and found, or up to a byte
that could not be copied, which is no longer in the pipe. -/
inductive Stopped (fails : Nat → Bool) (pi : Pipe) (i k m : Nat) (out : Outcome) : Prop
  | all (hm : m = min k (fill pi)) (hnread : out.pi.nread = pi.nread + UInt32.ofNat m)
  | lost (hm : m < min k (fill pi)) (hfails : fails (i + m) = true)
      (hnread : out.pi.nread = pi.nread + UInt32.ofNat (m + 1))

variable {out : Outcome}

theorem Stopped.le (h : Stopped fails pi i k m out) : m ≤ k := by
  cases h with
  | all hm _ => omega
  | lost hm _ _ => omega

theorem Stopped.succ (hne : pi.nread ≠ pi.nwrite)
    (h : Stopped fails pi.popped (i + 1) k m out) : Stopped fails pi i (k + 1) (m + 1) out := by
  have hfill := fill_popped hne
  cases h with
  | all hm hnread =>
    refine .all (by omega) ?_
    rw [hnread, popped, nread_succ]
  | lost hm hfails hnread =>
    refine .lost (by omega) ?_ ?_
    · rw [← hfails, Nat.add_right_comm, Nat.add_assoc]
    · rw [hnread, popped, nread_succ]

theorem copyLoop_spec (fails : Nat → Bool) (addr i : Nat) (pi : Pipe) (mem : Nat → UInt8)
    (hk : k < UINT64) :
    ∃ m, (copyLoop fails addr k i pi mem).ret = ((i + m : Nat) : Int) ∧
      (∀ j < m, fails (i + j) = false) ∧
      Stored pi mem (addr + i) m (copyLoop fails addr k i pi mem).mem ∧
      Stopped fails pi i k m (copyLoop fails addr k i pi mem) := by
  induction k generalizing i pi mem with
  | zero =>
    refine ⟨0, rfl, fun j hj => absurd hj (Nat.not_lt_zero j), .zero, .all ?_ ?_⟩
    · rw [Nat.zero_min]
    · rw [add_zeroth]
      rfl
  | succ k ih =>
    rw [copyLoop]
    by_cases hempty : pi.nread = pi.nwrite
    · rw [if_pos hempty]
      refine ⟨0, rfl, fun j hj => absurd hj (Nat.not_lt_zero j), .zero, .all ?_ ?_⟩
      · rw [fill_eq_zero.mpr hempty, Nat.min_zero]
      · rw [add_zeroth]
    · rw [if_neg hempty]
      have hfill := fill_popped hempty
      cases hfails : fails i with
      | true =>
        refine ⟨0, rfl, fun j hj => absurd hj (Nat.not_lt_zero j), .zero, .lost ?_ hfails ?_⟩
        · omega
        · rfl
      | false =>
        simp only [Bool.false_eq_true, if_false]
        obtain ⟨m, hret, hgood, hstored, hstopped⟩ := ih (i + 1) pi.popped
          (Function.update mem ((addr + i) % UINT64) (pi.data (Ring.slot pi.nread))) (by omega)
        have hle := hstopped.le
        refine ⟨m + 1, ?_, fun j hj => ?_, hstored.succ (by omega), hstopped.succ hempty⟩
        · rw [hret, Nat.add_right_comm, Nat.add_assoc]
        · cases j with
          | zero => exact hfails
          | succ j =>
            rw [← hgood j (Nat.lt_of_succ_lt_succ hj), Nat.add_right_comm i 1 j, Nat.add_assoc]

theorem waitLoop_ready {looks : List Look} (h : waitLoop looks = some (.ready pi)) :
    pi.nread = pi.nwrite → pi.writeopen = false := by
  induction looks with
  | nil => cases h
  | cons look rest ih =>
    rw [waitLoop] at h
    split at h
    · split at h
      · cases h
      · exact ih h
    · next hgoes =>
      cases h
      intro hempty
      exact Bool.eq_false_iff.mpr fun hopen => hgoes ⟨hempty, hopen⟩

/-! ## What a call takes -/

/-- A call that has found the pipe ready takes exactly the bytes that it reports if and only if
no copy fails among the bytes that it is asked for and finds. -/
theorem piperead_exact_iff {looks : List Look} {n : Int} (hpos : 0 < n) (hint : n < 2 ^ 31)
    (hready : waitLoop looks = some (.ready pi)) :
    ∃ out, piperead looks fails addr n mem = some out ∧ 0 ≤ out.ret ∧
      (Exact pi mem addr out ↔ ∀ i < min n.toNat (fill pi), fails i = false) := by
  have hk : n.toNat < UINT64 := by
    simp only [UINT64]
    omega
  obtain ⟨m, hret, hgood, hstored, hstopped⟩ := copyLoop_spec fails addr 0 pi mem hk
  rw [Nat.zero_add] at hret
  simp only [Nat.zero_add] at hgood
  refine ⟨copyLoop fails addr n.toNat 0 pi mem, by rw [piperead, hready]; rfl, by omega, ?_⟩
  have hm : (copyLoop fails addr n.toNat 0 pi mem).ret.toNat = m := by omega
  constructor
  · intro hexact
    cases hstopped with
    | all hall _ => exact fun i hi => hgood i (hall ▸ hi)
    | lost hlost hfails hnread =>
      have heq := hexact.nread
      rw [hm, hnread] at heq
      have := (Ring.add_ofNat_inj pi.nread (by omega) (by omega)).mp heq
      omega
  · intro hnofail
    cases hstopped with
    | all hall hnread =>
      refine ⟨by rw [hm, hnread], hm ▸ hstored, fun hzero => ?_⟩
      have hempty : pi.nread = pi.nwrite := fill_eq_zero.mp (by omega)
      exact ⟨hempty, waitLoop_ready hready hempty⟩
    | lost hlost hfails _ =>
      rw [Nat.zero_add, hnofail m hlost] at hfails
      cases hfails

/-- A pipe whose write end is open and which holds one byte. -/
def oneByte : Pipe where
  data _ := 7
  nread := 0
  nwrite := 1
  readopen := true
  writeopen := true
  put := [7]
  taken := []
  unannounced := false

/-- The copy of the byte fails: `piperead` reports the end of the file, and the byte is gone. -/
theorem piperead_loses_byte :
    waitLoop [⟨oneByte, false⟩] = some (.ready oneByte) ∧
    (piperead [⟨oneByte, false⟩] (fun _ => true) 0 1 fun _ => 0).map
      (fun out => (out.ret, out.pi.nread, out.pi.nwrite)) = some (0, 1, 1) ∧
    ∀ out, piperead [⟨oneByte, false⟩] (fun _ => true) 0 1 (fun _ => 0) = some out →
      ¬ Exact oneByte (fun _ => 0) 0 out := by
  refine ⟨rfl, rfl, ?_⟩
  rintro out hout hexact
  cases hout
  exact absurd hexact.nread (by decide)

theorem piperead_exact_iff_oneByte :
    ∃ out, piperead [⟨oneByte, false⟩] (fun _ => false) 0 1 (fun _ => 0) = some out ∧
      0 ≤ out.ret ∧ (Exact oneByte (fun _ => 0) 0 out ↔ ∀ i < min 1 (fill oneByte), false = false) :=
  piperead_exact_iff (by decide) (by decide) rfl

end Xv6.Pipe.Read
