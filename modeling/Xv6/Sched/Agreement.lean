-- SUMMARY: What kernel threads know about locks and process states stays true, whatever the CPUs do.
import Xv6.Sched.Switch

/-!
# Agreement

The rules of context switches are right for the machine: an invariant ties what the threads
know to the locks, the slots and the CPUs, and every operation that the rules allow keeps it.
Each process that has started is answered for by at most one CPU: the one that executes it, or
the one whose scheduler has chosen it or has just come back from it.
-/

namespace Xv6.Sched

open Proc (ProcState)

variable {K : Sig} {n m : Nat}

/-- The states of a process that has given its CPU away. -/
def Off (x : ProcState) : Prop := x = .runnable ∨ x = .sleeping ∨ x = .zombie

/-- The states of a slot without a process that could have started to fork. -/
def Barren (x : ProcState) : Prop := x = .unused ∨ x = .used ∨ x = .zombie

/-- CPU `c` is as the thread that it executes knows it to be. -/
structure CpuOk (s : Shared K n m) (c : Fin m) (l : Know K n) : Prop where
  locks : ∀ lk, s.lock lk = some c ↔ lk ∈ l.held
  nodup : l.held.Nodup
  noff : (s.cpu c).noff = l.held.length
  proc : (s.cpu c).proc = l.proc
  known : ∀ i x, l.known i = some x → .proc i ∈ l.held ∧ (s.slot i).state = x
  kept : ∀ i, l.kept = some i → .proc i ∈ l.held
  on : ∀ i, l.target = some i → l.active = true → (s.slot i).state = .running
  off : ∀ i, l.target = some i → l.active = false → Off (s.slot i).state

/-- A process that is not executed: its thread comes back from `swtch`. -/
structure Parked (i : Fin n) (l : Know K n) : Prop where
  held : l.held = [.proc i]
  phase : l.phase = .run
  known : l.known = fun _ => none

/-- The scheduler of a CPU that executes process `p`. -/
structure Away (p : Fin n) (l : Know K n) : Prop where
  held : l.held = [.proc p]
  phase : l.phase = .back p
  known : l.known = fun _ => none
  child : l.child = none

namespace Know

variable {l : Know K n} {i : Fin n}

theorem target_of_proc (h : l.proc = some i) : l.target = some i := by
  unfold proc at h
  unfold target
  cases hphase : l.phase <;> simp_all

theorem kept_of_inactive (h : l.target = some i) (hactive : l.active = false) :
    l.kept = some i := by
  unfold active at hactive
  unfold target at h
  unfold kept
  cases hphase : l.phase <;> simp_all

end Know

/-- Does the thread belong to a process? -/
def Phase.isThread : Phase n → Bool
  | .run | .left => true
  | _ => false

/-- The shared state is as all threads know it to be. -/
structure Agree (s : Shared K n m) (X : Tid n m → Know K n) : Prop where
  thread : ∀ i, (X (.inl i)).me = some i ∧ (X (.inl i)).phase.isThread = true
  scheduler : ∀ c, (X (.inr c)).me = none ∧ (X (.inr c)).phase.isThread = false
  cpu : ∀ c, CpuOk s c (X (s.tid c))
  unique : ∀ c c' i, (X (s.tid c)).target = some i → (X (s.tid c')).target = some i → c = c'
  running : ∀ i, (s.slot i).state = .running →
    ∃ c, (X (s.tid c)).target = some i ∧ (X (s.tid c)).active = true
  parked : ∀ i, (∀ c, (s.cpu c).stack ≠ some i) → Parked i (X (.inl i))
  away : ∀ c p, (s.cpu c).stack = some p → Away p (X (.inr c))
  child : ∀ t i, (X t).child = some i → (s.slot i).state = .used
  oneParent : ∀ t t' i, (X t).child = some i → (X t').child = some i → t = t'
  barren : ∀ i, Barren (s.slot i).state → (X (.inl i)).child = none

section
variable {s s' : Shared K n m} {X : Tid n m → Know K n} {c c' : Fin m} {i p : Fin n} {l l' : Know K n}

/-- What a new entry does not change. -/
theorem update_same {β : Type} (f : Know K n → β) {t t' : Tid n m} (h : f l = f (X t)) :
    f (Function.update X t l t') = f (X t') := by
  by_cases ht : t' = t
  · rw [ht, Function.update_self, h]
  · rw [Function.update_of_ne ht]

theorem Shared.tid_eq_inl : s.tid c = .inl p ↔ (s.cpu c).stack = some p := by
  unfold Shared.tid
  split
  · next q hq => simp [hq]
  · next hq => simp [hq]

theorem Shared.tid_eq_inr : s.tid c = .inr c' ↔ (s.cpu c).stack = none ∧ c = c' := by
  unfold Shared.tid
  split
  · next q hq => simp [hq]
  · next hq => simp [hq]

theorem Shared.tid_congr (h : (s'.cpu c).stack = (s.cpu c).stack) : s'.tid c = s.tid c := by
  unfold Shared.tid
  rw [h]

namespace Agree

theorem target_of_stack (h : Agree s X) (hp : (s.cpu c).stack = some p) :
    (X (s.tid c)).target = some p := by
  rw [Shared.tid_eq_inl.mpr hp]
  obtain ⟨hme, hphase⟩ := h.thread p
  unfold Know.target
  generalize (X (.inl p)).phase = phase at hphase
  cases phase <;> simp_all [Phase.isThread]

/-- Two CPUs do not execute the same thread. -/
theorem tid_inj (h : Agree s X) (heq : s.tid c = s.tid c') : c = c' := by
  cases hp : (s.cpu c).stack with
  | none =>
    have htid : s.tid c = .inr c := Shared.tid_eq_inr.mpr ⟨hp, rfl⟩
    exact (Shared.tid_eq_inr.mp (heq ▸ htid)).2.symm
  | some p =>
    have hp' : (s.cpu c').stack = some p := Shared.tid_eq_inl.mp (heq ▸ Shared.tid_eq_inl.mpr hp)
    exact h.unique c c' p (h.target_of_stack hp) (h.target_of_stack hp')

theorem lock_eq (h : Agree s X) {lk : Lock K n} (hlk : lk ∈ (X (s.tid c)).held) :
    s.lock lk = some c := ((h.cpu c).locks lk).mpr hlk

/-- Whoever holds the lock of a process that is not `RUNNING` has it alone. -/
theorem target_ne (h : Agree s X) (hi : (s.slot i).state ≠ .running)
    (hlock : .proc i ∈ (X (s.tid c)).held) (hc : c' ≠ c) : (X (s.tid c')).target ≠ some i := by
  intro htarget
  cases hactive : (X (s.tid c')).active with
  | true => exact hi ((h.cpu c').on i htarget hactive)
  | false =>
    have hheld := h.lock_eq ((h.cpu c').kept i (Know.kept_of_inactive htarget hactive))
    rw [h.lock_eq hlock] at hheld
    exact hc (Option.some.inj hheld).symm

/-- The thread on CPU `c` moves on, and stays on its CPU. -/
theorem move (h : Agree s X) (hstack : ∀ d, (s'.cpu d).stack = (s.cpu d).stack)
    (hme : l.me = (X (s.tid c)).me) (hkind : l.phase.isThread = (X (s.tid c)).phase.isThread)
    (hcpu : CpuOk s' c l) (hothers : ∀ d, d ≠ c → CpuOk s' d (X (s.tid d)))
    (htarget : ∀ i, l.target = some i → ∀ d, d ≠ c → (X (s.tid d)).target ≠ some i)
    (hrunning : ∀ i, (s'.slot i).state = .running → (l.target = some i ∧ l.active = true) ∨
      ∃ d, d ≠ c ∧ (X (s.tid d)).target = some i ∧ (X (s.tid d)).active = true)
    (hchild : ∀ i, l.child = some i →
      (s'.slot i).state = .used ∧ ∀ t, t ≠ s.tid c → (X t).child ≠ some i)
    (hchildren : ∀ t i, t ≠ s.tid c → (X t).child = some i → (s'.slot i).state = .used)
    (hbarren : ∀ i, Barren (s'.slot i).state →
      (Function.update X (s.tid c) l (.inl i)).child = none) :
    Agree s' (Function.update X (s.tid c) l) := by
  have htid (d : Fin m) : s'.tid d = s.tid d := Shared.tid_congr (hstack d)
  have hself : Function.update X (s.tid c) l (s'.tid c) = l := by rw [htid, Function.update_self]
  have hother {d : Fin m} (hd : d ≠ c) : Function.update X (s.tid c) l (s'.tid d) = X (s.tid d) := by
    rw [htid, Function.update_of_ne fun heq => hd (h.tid_inj heq)]
  constructor
  case thread =>
    intro i
    rw [update_same Know.me hme, update_same (fun l => l.phase.isThread) hkind]
    exact h.thread i
  case scheduler =>
    intro d
    rw [update_same Know.me hme, update_same (fun l => l.phase.isThread) hkind]
    exact h.scheduler d
  case cpu =>
    intro d
    by_cases hd : d = c
    · subst hd
      rw [hself]
      exact hcpu
    · rw [hother hd]
      exact hothers d hd
  case unique =>
    intro d d' i hd hd'
    by_cases hdc : d = c <;> by_cases hdc' : d' = c
    · rw [hdc, hdc']
    · subst hdc
      rw [hself] at hd
      rw [hother hdc'] at hd'
      exact absurd hd' (htarget i hd d' hdc')
    · subst hdc'
      rw [hself] at hd'
      rw [hother hdc] at hd
      exact absurd hd (htarget i hd' d hdc)
    · rw [hother hdc] at hd
      rw [hother hdc'] at hd'
      exact h.unique d d' i hd hd'
  case running =>
    intro i hi
    obtain hmine | ⟨d, hd, hrest⟩ := hrunning i hi
    · refine ⟨c, ?_⟩
      rwa [hself]
    · refine ⟨d, ?_⟩
      rwa [hother hd]
  case parked =>
    intro i hi
    have hne : Sum.inl i ≠ s.tid c := fun heq => hi c (by rw [hstack, Shared.tid_eq_inl.mp heq.symm])
    rw [Function.update_of_ne hne]
    exact h.parked i fun d => hstack d ▸ hi d
  case away =>
    intro d p hp
    rw [hstack] at hp
    have hne : Sum.inr d ≠ s.tid c := by
      intro heq
      obtain ⟨hnone, rfl⟩ := Shared.tid_eq_inr.mp heq.symm
      rw [hnone] at hp
      cases hp
    rw [Function.update_of_ne hne]
    exact h.away d p hp
  case child =>
    intro t i ht
    by_cases htc : t = s.tid c
    · rw [htc, Function.update_self] at ht
      exact (hchild i ht).1
    · rw [Function.update_of_ne htc] at ht
      exact hchildren t i htc ht
  case oneParent =>
    intro t t' i ht ht'
    by_cases htc : t = s.tid c <;> by_cases htc' : t' = s.tid c
    · rw [htc, htc']
    · rw [htc, Function.update_self] at ht
      rw [Function.update_of_ne htc'] at ht'
      exact absurd ht' ((hchild i ht).2 t' htc')
    · rw [htc', Function.update_self] at ht'
      rw [Function.update_of_ne htc] at ht
      exact absurd ht ((hchild i ht').2 t htc)
    · rw [Function.update_of_ne htc] at ht
      rw [Function.update_of_ne htc'] at ht'
      exact h.oneParent t t' i ht ht'
  case barren => exact hbarren

/-- The thread on CPU `c` learns something, or takes or releases a lock. -/
theorem moveSame (h : Agree s X) (hstack : ∀ d, (s'.cpu d).stack = (s.cpu d).stack)
    (hslot : ∀ i, (s'.slot i).state = (s.slot i).state)
    (hme : l.me = (X (s.tid c)).me) (hkind : l.phase.isThread = (X (s.tid c)).phase.isThread)
    (htarget : l.target = (X (s.tid c)).target) (hactive : l.active = (X (s.tid c)).active)
    (hchild : l.child = (X (s.tid c)).child) (hcpu : CpuOk s' c l)
    (hothers : ∀ d, d ≠ c → CpuOk s' d (X (s.tid d))) :
    Agree s' (Function.update X (s.tid c) l) := by
  refine h.move hstack hme hkind hcpu hothers ?_ ?_ ?_ ?_ ?_
  · intro i hi d hd htd
    exact hd (h.unique d c i htd (htarget ▸ hi))
  · intro i hi
    obtain ⟨d, htd, had⟩ := h.running i (hslot i ▸ hi)
    by_cases hd : d = c
    · subst hd
      exact .inl ⟨htarget ▸ htd, hactive ▸ had⟩
    · exact .inr ⟨d, hd, htd, had⟩
  · intro i hi
    rw [hchild] at hi
    rw [hslot]
    exact ⟨h.child _ i hi, fun t ht hti => ht (h.oneParent t _ i hti hi)⟩
  · intro t i _ hti
    rw [hslot]
    exact h.child t i hti
  · intro i hi
    rw [hslot] at hi
    exact (update_same Know.child hchild).trans (h.barren i hi)

end Agree

/-- A CPU does not notice what happens to the locks that it does not hold. -/
theorem CpuOk.frame (h : CpuOk s c l) (hcpu : s'.cpu c = s.cpu c) (hslot : ∀ i, (s'.slot i).state = (s.slot i).state)
    (hlock : ∀ lk, s'.lock lk = some c ↔ s.lock lk = some c) : CpuOk s' c l where
  locks lk := (hlock lk).trans (h.locks lk)
  nodup := h.nodup
  noff := by rw [hcpu, h.noff]
  proc := by rw [hcpu, h.proc]
  known i x hx := by
    rw [hslot]
    exact h.known i x hx
  kept := h.kept
  on i hi ha := by
    rw [hslot]
    exact h.on i hi ha
  off i hi ha := by
    rw [hslot]
    exact h.off i hi ha

/-- Nor what happens to a slot whose lock another CPU holds. -/
theorem CpuOk.setSlot (h : CpuOk s c l) {y : Slot K n} (hlock : s.lock (.proc i) = some c') (hc : c ≠ c')
    (htarget : l.target ≠ some i) : CpuOk (s.setSlot i y) c l := by
  have hne {j : Fin n} (hj : .proc j ∈ l.held) : j ≠ i := by
    rintro rfl
    have := (h.locks _).mpr hj
    rw [hlock] at this
    exact hc (Option.some.inj this).symm
  refine ⟨h.locks, h.nodup, h.noff, h.proc, fun j x hx => ?_, h.kept, fun j hj ha => ?_, fun j hj ha => ?_⟩
  · rw [Shared.setSlot_ne _ _ _ (hne (h.known j x hx).1)]
    exact h.known j x hx
  · have hji : j ≠ i := fun heq => htarget (heq ▸ hj)
    rw [Shared.setSlot_ne _ _ _ hji]
    exact h.on j hj ha
  · have hji : j ≠ i := fun heq => htarget (heq ▸ hj)
    rw [Shared.setSlot_ne _ _ _ hji]
    exact h.off j hj ha

/-- The thread that a CPU goes on with has the lock of the process, and knows nothing more. -/
theorem CpuOk.pass {stack : Option (Fin n)} (h : CpuOk s c l) (hheld : l.held = [.proc p])
    (hheld' : l'.held = [.proc p]) (hknown : l'.known = fun _ => none) (hproc : l.proc = l'.proc)
    (hkept : ∀ i, l'.kept = some i → p = i) (htarget : l'.target = l.target) (hactive : l'.active = l.active) :
    CpuOk (s.setCpu c { s.cpu c with stack := stack }) c l' := by
  refine ⟨?_, ?_, ?_, ?_, ?_, ?_, ?_, ?_⟩
  · rw [hheld', ← hheld]
    exact h.locks
  · rw [hheld']
    exact List.nodup_singleton _
  · rw [Shared.setCpu_self, hheld', ← hheld]
    exact h.noff
  · rw [Shared.setCpu_self, ← hproc]
    exact h.proc
  · rw [hknown]
    simp
  · intro i hi
    rw [hheld', hkept i hi]
    exact List.mem_singleton_self _
  · rw [htarget, hactive]
    exact h.on
  · rw [htarget, hactive]
    exact h.off

/-! ## Locks -/

theorem setCpu_stack {x : Cpu n} (hx : x.stack = (s.cpu c).stack) (d : Fin m) :
    ((s.setCpu c x).cpu d).stack = (s.cpu d).stack := by
  by_cases hd : d = c
  · rw [hd, Shared.setCpu_self, hx]
  · rw [Shared.setCpu_ne _ _ _ hd]

theorem Agree.acquire {lk : Lock K n} (h : Agree s X) (hfree : s.lock lk = none) :
    Agree ((s.setLock lk (some c)).setCpu c { s.cpu c with noff := (s.cpu c).noff + 1 })
      (Function.update X (s.tid c) ((X (s.tid c)).lock lk)) := by
  have hcpu := h.cpu c
  have hlk : lk ∉ (X (s.tid c)).held := fun hin => by
    rw [h.lock_eq hin] at hfree
    cases hfree
  refine h.moveSame (setCpu_stack rfl) (fun _ => rfl) rfl rfl rfl rfl rfl ?_ fun d hd => ?_
  · constructor
    · intro lk'
      rw [Shared.setCpu_lock, Know.lock, List.mem_cons]
      by_cases heq : lk' = lk
      · simp [heq]
      · rw [Shared.setLock_ne _ _ _ heq, hcpu.locks]
        simp [heq]
    · exact List.nodup_cons.mpr ⟨hlk, hcpu.nodup⟩
    · rw [Shared.setCpu_self, Know.lock, List.length_cons, hcpu.noff]
    · rw [Shared.setCpu_self]
      exact hcpu.proc
    · exact fun i x hx => ⟨List.mem_cons_of_mem _ (hcpu.known i x hx).1, (hcpu.known i x hx).2⟩
    · exact fun i hi => List.mem_cons_of_mem _ (hcpu.kept i hi)
    · exact hcpu.on
    · exact hcpu.off
  · refine (h.cpu d).frame (Shared.setCpu_ne _ _ _ hd) (fun _ => rfl) fun lk' => ?_
    rw [Shared.setCpu_lock]
    by_cases heq : lk' = lk
    · simp [heq, hfree, hd.symm]
    · rw [Shared.setLock_ne _ _ _ heq]

theorem Agree.release {lk : Lock K n} (h : Agree s X) (hheld : s.lock lk = some c)
    (hkept : ∀ i, (X (s.tid c)).kept = some i → lk ≠ .proc i) :
    Agree ((s.setLock lk none).setCpu c { s.cpu c with noff := (s.cpu c).noff - 1 })
      (Function.update X (s.tid c) ((X (s.tid c)).unlock lk)) := by
  have hcpu := h.cpu c
  have hin : lk ∈ (X (s.tid c)).held := (hcpu.locks lk).mp hheld
  refine h.moveSame (setCpu_stack rfl) (fun _ => rfl) rfl rfl rfl rfl rfl ?_ fun d hd => ?_
  · constructor
    · intro lk'
      rw [Shared.setCpu_lock, Know.unlock]
      by_cases heq : lk' = lk
      · simp [heq, hcpu.nodup.not_mem_erase]
      · rw [Shared.setLock_ne _ _ _ heq, hcpu.locks, List.mem_erase_of_ne heq]
    · exact hcpu.nodup.erase lk
    · rw [Shared.setCpu_self, Know.unlock, List.length_erase_of_mem hin, hcpu.noff]
    · rw [Shared.setCpu_self]
      exact hcpu.proc
    · intro i x hx
      simp only [Know.unlock] at hx ⊢
      split at hx
      · cases hx
      · next hne =>
        exact ⟨(List.mem_erase_of_ne (Ne.symm hne)).mpr (hcpu.known i x hx).1, (hcpu.known i x hx).2⟩
    · exact fun i hi => (List.mem_erase_of_ne (hkept i hi).symm).mpr (hcpu.kept i hi)
    · exact hcpu.on
    · exact hcpu.off
  · refine (h.cpu d).frame (Shared.setCpu_ne _ _ _ hd) (fun _ => rfl) fun lk' => ?_
    rw [Shared.setCpu_lock]
    by_cases heq : lk' = lk
    · simp [heq, hheld, hd.symm]
    · rw [Shared.setLock_ne _ _ _ heq]

/-- A thread reads a slot whose lock it holds. -/
theorem Agree.see (h : Agree s X) (hheld : .proc i ∈ (X (s.tid c)).held) :
    Agree s (Function.update X (s.tid c) ((X (s.tid c)).see i (s.slot i).state)) := by
  have hcpu := h.cpu c
  refine h.moveSame (fun _ => rfl) (fun _ => rfl) rfl rfl rfl rfl rfl ?_ fun d _ => h.cpu d
  refine ⟨hcpu.locks, hcpu.nodup, hcpu.noff, hcpu.proc, fun j x hx => ?_, hcpu.kept, hcpu.on, hcpu.off⟩
  by_cases hj : j = i
  · subst hj
    rw [Know.see_known_self] at hx
    exact ⟨hheld, Option.some.inj hx⟩
  · rw [Know.see_known_ne _ _ hj] at hx
    exact hcpu.known j x hx

/-- Nothing changes that the threads know about. -/
theorem Agree.same (h : Agree s X) (hcpu : s'.cpu = s.cpu) (hlock : s'.lock = s.lock)
    (hslot : ∀ i, (s'.slot i).state = (s.slot i).state) :
    Agree s' (Function.update X (s.tid c) (X (s.tid c))) := by
  have hframe (d : Fin m) : CpuOk s' d (X (s.tid d)) :=
    (h.cpu d).frame (by rw [hcpu]) hslot fun lk => by rw [hlock]
  exact h.moveSame (fun _ => by rw [hcpu]) hslot rfl rfl rfl rfl rfl (hframe c) fun d _ => hframe d

/-! ## States of processes -/

/-- The thread on CPU `c` writes slot `i`, whose lock it holds; no other CPU answers for the
state of that process. What the thread knew of other processes it knows after that. -/
structure SlotWrite (s : Shared K n m) (X : Tid n m → Know K n) (c : Fin m) (i : Fin n) (y : Slot K n)
    (l : Know K n) : Prop where
  locked : .proc i ∈ (X (s.tid c)).held
  alone : ∀ d, d ≠ c → (X (s.tid d)).target ≠ some i
  me : l.me = (X (s.tid c)).me
  kind : l.phase.isThread = (X (s.tid c)).phase.isThread
  held : l.held = (X (s.tid c)).held
  known : l.known = Function.update (X (s.tid c)).known i (some y.state)
  proc : l.proc = (X (s.tid c)).proc
  kept : ∀ j, l.kept = some j → .proc j ∈ l.held
  target : ∀ j, j ≠ i → (l.target = some j ↔ (X (s.tid c)).target = some j)
  active : ∀ j, j ≠ i → l.target = some j → l.active = (X (s.tid c)).active
  on : l.target = some i → l.active = true → y.state = .running
  off : l.target = some i → l.active = false → Off y.state
  running : y.state = .running → l.target = some i ∧ l.active = true

theorem Agree.moveSlot (h : Agree s X) {y : Slot K n} (hw : SlotWrite s X c i y l)
    (hchild : ∀ j, l.child = some j →
      ((s.setSlot i y).slot j).state = .used ∧ ∀ t, t ≠ s.tid c → (X t).child ≠ some j)
    (hchildren : ∀ t, t ≠ s.tid c → (X t).child ≠ some i)
    (hbarren : ∀ j, Barren ((s.setSlot i y).slot j).state →
      (Function.update X (s.tid c) l (.inl j)).child = none) :
    Agree (s.setSlot i y) (Function.update X (s.tid c) l) := by
  have hcpu := h.cpu c
  refine h.move (fun _ => rfl) hw.me hw.kind ?_ ?_ ?_ ?_ hchild ?_ hbarren
  · constructor
    · rw [hw.held]
      exact hcpu.locks
    · rw [hw.held]
      exact hcpu.nodup
    · rw [hw.held]
      exact hcpu.noff
    · rw [hw.proc]
      exact hcpu.proc
    · intro j x hx
      rw [hw.held]
      rw [hw.known] at hx
      by_cases hj : j = i
      · subst hj
        rw [Function.update_self] at hx
        exact ⟨hw.locked, by rw [Shared.setSlot_self]; exact Option.some.inj hx⟩
      · rw [Function.update_of_ne hj] at hx
        rw [Shared.setSlot_ne _ _ _ hj]
        exact hcpu.known j x hx
    · exact hw.kept
    · intro j hj ha
      by_cases hji : j = i
      · subst hji
        rw [Shared.setSlot_self]
        exact hw.on hj ha
      · rw [Shared.setSlot_ne _ _ _ hji]
        exact hcpu.on j ((hw.target j hji).mp hj) (hw.active j hji hj ▸ ha)
    · intro j hj ha
      by_cases hji : j = i
      · subst hji
        rw [Shared.setSlot_self]
        exact hw.off hj ha
      · rw [Shared.setSlot_ne _ _ _ hji]
        exact hcpu.off j ((hw.target j hji).mp hj) (hw.active j hji hj ▸ ha)
  · exact fun d hd => (h.cpu d).setSlot (h.lock_eq hw.locked) hd (hw.alone d hd)
  · intro j hj d hd htd
    by_cases hji : j = i
    · exact hw.alone d hd (hji ▸ htd)
    · exact hd (h.unique d c j htd ((hw.target j hji).mp hj))
  · intro j hj
    by_cases hji : j = i
    · subst hji
      rw [Shared.setSlot_self] at hj
      exact .inl (hw.running hj)
    · rw [Shared.setSlot_ne _ _ _ hji] at hj
      obtain ⟨d, htd, had⟩ := h.running j hj
      by_cases hd : d = c
      · subst hd
        have hl := (hw.target j hji).mpr htd
        exact .inl ⟨hl, hw.active j hji hl ▸ had⟩
      · exact .inr ⟨d, hd, htd, had⟩
  · intro t j ht htj
    have hji : j ≠ i := fun heq => hchildren t ht (heq ▸ htj)
    rw [Shared.setSlot_ne _ _ _ hji]
    exact h.child t j htj

namespace Agree

theorem state_of_known (h : Agree s X) {x : ProcState} (hx : (X (s.tid c)).known i = some x) :
    (s.slot i).state = x := ((h.cpu c).known i x hx).2

/-- A thread with a process is on the stack of that process. -/
theorem tid_of_me (h : Agree s X) (hme : (X (s.tid c)).me = some i) : s.tid c = .inl i := by
  cases htid : s.tid c with
  | inl j =>
    rw [htid, (h.thread j).1] at hme
    rw [Option.some.inj hme]
  | inr d =>
    rw [htid, (h.scheduler d).1] at hme
    cases hme

theorem target_of_me (h : Agree s X) (hme : (X (s.tid c)).me = some i) :
    (X (s.tid c)).target = some i := h.target_of_stack (Shared.tid_eq_inl.mp (h.tid_of_me hme))

/-- A thread answers only for a process that has started. -/
theorem state_of_target (h : Agree s X) (hi : (X (s.tid c)).target = some i) :
    (s.slot i).state = .running ∨ Off (s.slot i).state := by
  cases hactive : (X (s.tid c)).active with
  | true => exact .inl ((h.cpu c).on i hi hactive)
  | false => exact .inr ((h.cpu c).off i hi hactive)

/-- A write to a slot that is not a child of some `kfork`. -/
theorem moveState (h : Agree s X) {y : Slot K n} (hw : SlotWrite s X c i y l) (hused : (s.slot i).state ≠ .used)
    (hchild : l.child = (X (s.tid c)).child) (hbarren : Barren y.state → (X (.inl i)).child = none) :
    Agree (s.setSlot i y) (Function.update X (s.tid c) l) := by
  have hnone (t : Tid n m) : (X t).child ≠ some i := fun ht => hused (h.child t i ht)
  refine h.moveSlot hw ?_ (fun t _ => hnone t) ?_
  · intro j hj
    rw [hchild] at hj
    have hji : j ≠ i := fun heq => hnone _ (heq ▸ hj)
    rw [Shared.setSlot_ne _ _ _ hji]
    exact ⟨h.child _ j hj, fun t ht htj => ht (h.oneParent t _ j htj hj)⟩
  · intro j hj
    rw [update_same Know.child hchild]
    by_cases hji : j = i
    · subst hji
      rw [Shared.setSlot_self] at hj
      exact hbarren hj
    · rw [Shared.setSlot_ne _ _ _ hji] at hj
      exact h.barren j hj

/-- A process leaves its CPU. -/
theorem leave (h : Agree s X) {y : Slot K n} (hheld : .proc i ∈ (X (s.tid c)).held)
    (hme : (X (s.tid c)).me = some i) (hy : Off y.state)
    (hchild : y.state = .zombie → (X (s.tid c)).child = none) :
    Agree (s.setSlot i y)
      (Function.update X (s.tid c) { (X (s.tid c)).see i y.state with phase := .left }) := by
  have htid := h.tid_of_me hme
  have htarget := h.target_of_me hme
  have hthread : (X (s.tid c)).phase.isThread = true := htid ▸ (h.thread i).2
  have hproc : (X (s.tid c)).proc = some i := by
    unfold Know.proc
    generalize (X (s.tid c)).phase = phase at hthread
    cases phase <;> simp_all [Phase.isThread]
  have hnew : ({ (X (s.tid c)).see i y.state with phase := .left } : Know K n).target = some i := hme
  refine h.moveState ⟨hheld, ?_, rfl, hthread.symm, rfl, rfl, hme.trans hproc.symm, ?_, ?_, ?_, ?_, ?_, ?_⟩ ?_ rfl ?_
  · exact fun d hd htd => hd (h.unique d c i htd htarget)
  · intro j hj
    obtain rfl : i = j := Option.some.inj (hme.symm.trans hj)
    exact hheld
  · intro j hj
    rw [hnew, htarget]
  · intro j hj hj'
    exact absurd (Option.some.inj (hj'.symm.trans hnew)) hj
  · exact fun _ ha => by cases ha
  · exact fun _ _ => hy
  · intro hrun
    obtain hy | hy | hy := hy <;> cases hy.symm.trans hrun
  · intro hused
    obtain hrun | hoff | hoff | hoff := h.state_of_target htarget
    · cases hused.symm.trans hrun
    all_goals cases hused.symm.trans hoff
  · intro hbarren
    rw [← htid]
    obtain hy | hy | hy := hy
    · obtain hb | hb | hb := hbarren <;> cases hy.symm.trans hb
    · obtain hb | hb | hb := hbarren <;> cases hy.symm.trans hb
    · exact hchild hy

/-- A write to the slot of a process that nobody executes. The writer goes on as before. -/
theorem moveOther (h : Agree s X) {y : Slot K n} (hheld : .proc i ∈ (X (s.tid c)).held)
    (hstate : (s.slot i).state ≠ .running) (hused : (s.slot i).state ≠ .used)
    (htarget : (X (s.tid c)).target = some i → Off y.state) (hy : y.state ≠ .running)
    (hbarren : Barren y.state → (X (.inl i)).child = none) :
    Agree (s.setSlot i y) (Function.update X (s.tid c) ((X (s.tid c)).see i y.state)) := by
  refine h.moveState ⟨hheld, fun d hd => h.target_ne hstate hheld hd, rfl, rfl, rfl, rfl, rfl,
    (h.cpu c).kept, fun _ _ => Iff.rfl, fun _ _ _ => rfl, ?_, fun hi _ => htarget hi,
    fun hrun => absurd hrun hy⟩ hused rfl hbarren
  exact fun hi ha => absurd ((h.cpu c).on i hi ha) hstate

/-- The scheduler starts a process. -/
theorem choose (h : Agree s X) {y : Slot K n} (hheld : .proc i ∈ (X (s.tid c)).held)
    (hidle : (X (s.tid c)).phase = .idle) (hstate : (s.slot i).state = .runnable)
    (hy : y.state = .running) :
    Agree (s.setSlot i y)
      (Function.update X (s.tid c) { (X (s.tid c)).see i y.state with phase := .chosen i }) := by
  have hnone : (X (s.tid c)).target = none := by rw [Know.target, hidle]
  refine h.moveState ⟨hheld, fun d hd => h.target_ne (by simp [hstate]) hheld hd, rfl, (by rw [hidle]; rfl),
    rfl, rfl, (by simp [Know.proc, hidle]), ?_, ?_, ?_, fun _ _ => hy, fun _ ha => (by cases ha),
    fun _ => ⟨rfl, rfl⟩⟩ (by simp [hstate]) rfl ?_
  · intro j hj
    obtain rfl : i = j := Option.some.inj hj
    exact hheld
  · intro j hj
    rw [hnone]
    exact ⟨fun hj' => absurd (Option.some.inj hj').symm hj, (by simp)⟩
  · intro j hj hj'
    exact absurd (Option.some.inj hj').symm hj
  · intro hbarren
    obtain hb | hb | hb := hbarren <;> cases hy.symm.trans hb

/-- A write to a slot that has no process, by its creator. -/
theorem moveChild (h : Agree s X) {y : Slot K n} {child : Option (Fin n)}
    (hheld : .proc i ∈ (X (s.tid c)).held)
    (hstate : ¬ ((s.slot i).state = .running ∨ Off (s.slot i).state)) (hy : y.state ≠ .running)
    (hchild : ∀ j, child = some j → j = i ∧ y.state = .used ∧ (X (s.tid c)).phase = .run)
    (hmine : ∀ t, t ≠ s.tid c → (X t).child ≠ some i)
    (hbarren : Barren y.state → (X (.inl i)).child = none) :
    Agree (s.setSlot i y)
      (Function.update X (s.tid c) { (X (s.tid c)).see i y.state with child := child }) := by
  have htarget : (X (s.tid c)).target ≠ some i := fun hi => hstate (h.state_of_target hi)
  refine h.moveSlot ⟨hheld, fun d _ hd => hstate (h.state_of_target hd), rfl, rfl, rfl, rfl, rfl,
    (h.cpu c).kept, fun _ _ => Iff.rfl, fun _ _ _ => rfl, fun hi => absurd hi htarget,
    fun hi => absurd hi htarget, fun hrun => absurd hrun hy⟩ ?_ hmine ?_
  · intro j hj
    obtain ⟨rfl, hused, -⟩ := hchild j hj
    rw [Shared.setSlot_self]
    exact ⟨hused, hmine⟩
  · intro j hj
    by_cases htid : Sum.inl j = s.tid c
    · rw [htid, Function.update_self]
      -- the creator itself is `RUNNING`
      have hme : (X (s.tid c)).me = some j := htid ▸ (h.thread j).1
      have hji : j ≠ i := fun heq => htarget (heq ▸ h.target_of_me hme)
      rw [Shared.setSlot_ne _ _ _ hji] at hj
      refine Option.eq_none_iff_forall_ne_some.mpr fun k hk => ?_
      have hactive : (X (s.tid c)).active = true := by rw [Know.active, (hchild k hk).2.2]
      have hrun := (h.cpu c).on j (h.target_of_me hme) hactive
      obtain hb | hb | hb := hj <;> cases hrun.symm.trans hb
    · rw [Function.update_of_ne htid]
      by_cases hji : j = i
      · subst hji
        rw [Shared.setSlot_self] at hj
        exact hbarren hj
      · rw [Shared.setSlot_ne _ _ _ hji] at hj
        exact h.barren j hj

/-- A process becomes `RUNNABLE`: it yields, it is woken up, or it has been forked. -/
theorem writeRunnable (h : Agree s X) (hcan : (X (s.tid c)).canWrite i (.state .runnable)) :
    Agree (s.setSlot i { s.slot i with state := .runnable })
      (Function.update X (s.tid c) ((X (s.tid c)).wrote i (.state .runnable))) := by
  obtain ⟨hheld, hwhy⟩ := hcan
  simp only [Know.wrote]
  split
  · next hme =>
    exact h.leave (y := { s.slot i with state := .runnable }) hheld hme (.inl rfl) (by simp)
  next hme =>
  split
  · next hknown =>
    have hstate := h.state_of_known hknown
    exact h.moveOther (y := { s.slot i with state := .runnable }) hheld (by simp [hstate]) (by simp [hstate])
      (fun _ => .inl rfl) (by simp) (by simp [Barren])
  · next hknown =>
    have hchild : (X (s.tid c)).child = some i := by
      obtain ⟨-, hme'⟩ | hknown' | hchild := hwhy
      · exact absurd hme' hme
      · exact absurd hknown' hknown
      · exact hchild
    have hstate := h.child _ i hchild
    refine h.moveChild (y := { s.slot i with state := .runnable }) hheld ?_ (by simp) (by simp) ?_ ?_
    · simp [hstate, Off]
    · exact fun t ht hti => ht (h.oneParent t _ i hti hchild)
    · simp [Barren]

/-- Every write that the rules allow. -/
theorem write (h : Agree s X) {w : Write K n} (hcan : (X (s.tid c)).canWrite i w) :
    Agree (s.setSlot i (w.apply (s.slot i)))
      (Function.update X (s.tid c) ((X (s.tid c)).wrote i w)) := by
  have hneutral {y : Slot K n} (hy : y.state = (s.slot i).state) :
      Agree (s.setSlot i y) (Function.update X (s.tid c) (X (s.tid c))) := by
    refine h.same rfl rfl fun j => ?_
    by_cases hj : j = i
    · rw [hj, Shared.setSlot_self, hy]
    · rw [Shared.setSlot_ne _ _ _ hj]
  cases w with
  | awake => exact hneutral rfl
  | killed => exact hneutral rfl
  | parent q => exact hneutral rfl
  | sleep chan =>
    obtain ⟨hheld, hphase, hme⟩ := hcan
    exact h.leave (y := { s.slot i with chan := chan, state := .sleeping }) hheld hme (.inr (.inl rfl)) (by simp)
  | exit status =>
    obtain ⟨hheld, hphase, hme, hchild⟩ := hcan
    exact h.leave (y := { s.slot i with xstate := status, state := .zombie }) hheld hme (.inr (.inr rfl))
      fun _ => hchild
  | alloc pid =>
    obtain ⟨hheld, hphase, hknown, hchild⟩ := hcan
    have hstate := h.state_of_known hknown
    refine h.moveChild (y := { s.slot i with pid := pid, state := .used }) hheld ?_ (by simp) ?_ ?_ ?_
    · simp [hstate, Off]
    · exact fun j hj => ⟨(Option.some.inj hj).symm, rfl, hphase⟩
    · exact fun t _ ht => by cases hstate.symm.trans (h.child t i ht)
    · exact fun _ => h.barren i (.inl hstate)
  | free =>
    obtain ⟨hheld, hchild⟩ := hcan
    have hstate := h.child _ i hchild
    refine h.moveChild (y := Slot.empty) hheld ?_ (by simp [Slot.empty]) (by simp [Slot.empty]) ?_ ?_
    · simp [hstate, Off]
    · exact fun t ht hti => ht (h.oneParent t _ i hti hchild)
    · exact fun _ => h.barren i (.inr (.inl hstate))
  | reap pid status =>
    obtain ⟨hheld, htarget, hknown⟩ := hcan
    have hstate := h.state_of_known hknown
    exact h.moveOther (y := Slot.empty) hheld (by simp [hstate]) (by simp [hstate])
      (fun hi => absurd hi htarget) (by simp [Slot.empty]) fun _ => h.barren i (.inr (.inr hstate))
  | state x =>
    cases x with
    | runnable => exact h.writeRunnable hcan
    | running =>
      obtain ⟨hheld, hidle, hknown⟩ := hcan
      exact h.choose (y := { s.slot i with state := .running }) hheld hidle (h.state_of_known hknown) rfl
    | _ => exact hcan.elim

/-! ## Switches -/

theorem setProc (h : Agree s X) {q : Option (Fin n)} (hcan : (X (s.tid c)).can (.setProc q)) :
    Agree (s.setCpu c { s.cpu c with proc := q })
      (Function.update X (s.tid c) ((X (s.tid c)).after (.setProc q) ())) := by
  have hcpu := h.cpu c
  have hothers (d : Fin m) (hd : d ≠ c) :
      CpuOk (s.setCpu c { s.cpu c with proc := q }) d (X (s.tid d)) :=
    (h.cpu d).frame (Shared.setCpu_ne _ _ _ hd) (fun _ => rfl) fun _ => Iff.rfl
  obtain ⟨i, hphase, rfl⟩ | ⟨i, hphase, rfl⟩ := hcan
  · have hl : (X (s.tid c)).after (.setProc (some i)) () = { X (s.tid c) with phase := .ready i } := by
      simp only [Know.after, hphase]
    have htarget : (X (s.tid c)).target = some i := by rw [Know.target, hphase]
    have hactive : (X (s.tid c)).active = true := by rw [Know.active, hphase]
    rw [hl]
    refine h.moveSame (setCpu_stack rfl) (fun _ => rfl) rfl (by rw [hphase]; rfl) htarget.symm
      hactive.symm rfl ?_ hothers
    refine ⟨hcpu.locks, hcpu.nodup, ?_, ?_, hcpu.known, ?_, ?_, fun _ _ ha => by cases ha⟩
    · rw [Shared.setCpu_self]
      exact hcpu.noff
    · rw [Shared.setCpu_self]
      rfl
    · exact fun j hj => hcpu.kept j (by rw [Know.kept, hphase]; exact hj)
    · exact fun j hj _ => hcpu.on j (htarget.trans hj) hactive
  · have hl : (X (s.tid c)).after (.setProc none) () = { X (s.tid c) with phase := .idle } := by
      simp only [Know.after, hphase]
    have htarget : (X (s.tid c)).target = some i := by rw [Know.target, hphase]
    have hactive : (X (s.tid c)).active = false := by rw [Know.active, hphase]
    rw [hl]
    refine h.move (setCpu_stack rfl) rfl (by rw [hphase]; rfl) ?_ hothers
      (fun i hi => by cases hi) ?_ ?_ ?_ ?_
    · refine ⟨hcpu.locks, hcpu.nodup, ?_, ?_, hcpu.known, (fun i hi => by cases hi),
        (fun i hi => by cases hi), (fun i hi => by cases hi)⟩
      · rw [Shared.setCpu_self]
        exact hcpu.noff
      · rw [Shared.setCpu_self]
        rfl
    · intro j hj
      obtain ⟨d, htd, had⟩ := h.running j hj
      refine .inr ⟨d, fun hd => ?_, htd, had⟩
      rw [hd, hactive] at had
      cases had
    · exact fun j hj => ⟨h.child _ j hj, fun t ht htj => ht (h.oneParent t _ j htj hj)⟩
    · exact fun t j _ htj => h.child t j htj
    · intro j hj
      refine (update_same Know.child ?_).trans (h.barren j hj)
      rfl

/-- CPU `c` goes on with another thread, which answers for the same process. -/
theorem switch (h : Agree s X) {x : Cpu n} (hme : l.me = (X (s.tid c)).me)
    (hkind : l.phase.isThread = (X (s.tid c)).phase.isThread) (hchild : l.child = (X (s.tid c)).child)
    (hnew : (s.setCpu c x).tid c ≠ s.tid c)
    (hcpu : CpuOk (s.setCpu c x) c (X ((s.setCpu c x).tid c)))
    (htarget : (X ((s.setCpu c x).tid c)).target = (X (s.tid c)).target)
    (hactive : (X ((s.setCpu c x).tid c)).active = (X (s.tid c)).active)
    (hparked : ∀ i, s.tid c = .inl i → Parked i l)
    (haway : ∀ p, x.stack = some p → s.tid c = .inr c ∧ Away p l) :
    Agree (s.setCpu c x) (Function.update X (s.tid c) l) := by
  have hstack {d : Fin m} (hd : d ≠ c) : ((s.setCpu c x).cpu d).stack = (s.cpu d).stack := by
    rw [Shared.setCpu_ne _ _ _ hd]
  have hself : Function.update X (s.tid c) l ((s.setCpu c x).tid c) = X ((s.setCpu c x).tid c) :=
    Function.update_of_ne hnew ..
  have hother {d : Fin m} (hd : d ≠ c) :
      Function.update X (s.tid c) l ((s.setCpu c x).tid d) = X (s.tid d) := by
    rw [Shared.tid_congr (hstack hd), Function.update_of_ne fun heq => hd (h.tid_inj heq)]
  have hchildren (t : Tid n m) : (Function.update X (s.tid c) l t).child = (X t).child :=
    update_same Know.child hchild
  -- what the CPUs answer for does not change
  have htargets (d : Fin m) :
      (Function.update X (s.tid c) l ((s.setCpu c x).tid d)).target = (X (s.tid d)).target ∧
      (Function.update X (s.tid c) l ((s.setCpu c x).tid d)).active = (X (s.tid d)).active := by
    by_cases hd : d = c
    · subst hd
      rw [hself]
      exact ⟨htarget, hactive⟩
    · rw [hother hd]
      exact ⟨rfl, rfl⟩
  constructor
  case thread =>
    intro i
    rw [update_same Know.me hme, update_same (fun l => l.phase.isThread) hkind]
    exact h.thread i
  case scheduler =>
    intro d
    rw [update_same Know.me hme, update_same (fun l => l.phase.isThread) hkind]
    exact h.scheduler d
  case cpu =>
    intro d
    by_cases hd : d = c
    · subst hd
      rw [hself]
      exact hcpu
    · rw [hother hd]
      exact (h.cpu d).frame (Shared.setCpu_ne _ _ _ hd) (fun _ => rfl) fun _ => Iff.rfl
  case unique =>
    intro d d' i hd hd'
    rw [(htargets d).1] at hd
    rw [(htargets d').1] at hd'
    exact h.unique d d' i hd hd'
  case running =>
    intro i hi
    obtain ⟨d, htd, had⟩ := h.running i hi
    exact ⟨d, (htargets d).1.trans htd, (htargets d).2.trans had⟩
  case parked =>
    intro i hi
    by_cases htid : Sum.inl i = s.tid c
    · rw [htid, Function.update_self]
      exact hparked i htid.symm
    · rw [Function.update_of_ne htid]
      refine h.parked i fun d hd => ?_
      by_cases hdc : d = c
      · exact htid (hdc ▸ (Shared.tid_eq_inl.mpr hd).symm)
      · exact hi d ((hstack hdc).trans hd)
  case away =>
    intro d p hp
    by_cases hdc : d = c
    · subst hdc
      rw [Shared.setCpu_self] at hp
      obtain ⟨htid, hl⟩ := haway p hp
      rw [htid, Function.update_self]
      exact hl
    · have hne : Sum.inr d ≠ s.tid c := fun heq => hdc (Shared.tid_eq_inr.mp heq.symm).2.symm
      rw [Function.update_of_ne hne]
      exact h.away d p ((hstack hdc).symm.trans hp)
  case child =>
    intro t i ht
    rw [hchildren] at ht
    exact h.child t i ht
  case oneParent =>
    intro t t' i ht ht'
    rw [hchildren] at ht ht'
    exact h.oneParent t t' i ht ht'
  case barren =>
    intro i hi
    rw [hchildren]
    exact h.barren i hi

theorem swtch (h : Agree s X) (hcan : (X (s.tid c)).can .swtch) :
    Agree (s.setCpu c { s.cpu c with stack := none })
      (Function.update X (s.tid c) ((X (s.tid c)).enter .run)) := by
  obtain ⟨hphase, p, hme, hheld⟩ := hcan
  have htid := h.tid_of_me hme
  have htarget := h.target_of_me hme
  have hactive : (X (s.tid c)).active = false := by rw [Know.active, hphase]
  have hnew : (s.setCpu c { s.cpu c with stack := none }).tid c = .inr c :=
    Shared.tid_eq_inr.mpr ⟨by rw [Shared.setCpu_self], rfl⟩
  have haway := h.away c p (Shared.tid_eq_inl.mp htid)
  have htarget' : (X (.inr c)).target = some p := by rw [Know.target, haway.phase]
  have hactive' : (X (.inr c)).active = false := by rw [Know.active, haway.phase]
  refine h.switch rfl (by rw [hphase]; rfl) rfl ?_ ?_ ?_ ?_ ?_ (by simp)
  · rw [hnew, htid]
    simp
  · rw [hnew]
    refine (h.cpu c).pass hheld haway.held haway.known ?_ (fun i hi => ?_) (htarget'.trans htarget.symm)
      (hactive'.trans hactive.symm)
    · rw [Know.proc, Know.proc, hphase, haway.phase, hme]
    · rw [Know.kept, haway.phase] at hi
      exact Option.some.inj hi
  · rw [hnew, htarget', htarget]
  · rw [hnew, hactive', hactive]
  · intro i hi
    obtain rfl : p = i := Sum.inl.inj (htid.symm.trans hi)
    exact ⟨hheld, rfl, rfl⟩

theorem swtchTo (h : Agree s X) (hcan : (X (s.tid c)).can (.swtchTo p)) :
    Agree (s.setCpu c { s.cpu c with stack := some p })
      (Function.update X (s.tid c) ((X (s.tid c)).enter (.back p))) := by
  obtain ⟨hphase, hheld, hchild⟩ := hcan
  have htarget : (X (s.tid c)).target = some p := by rw [Know.target, hphase]
  have hactive : (X (s.tid c)).active = true := by rw [Know.active, hphase]
  have htid : s.tid c = .inr c := by
    cases htid : s.tid c with
    | inl i =>
      have hthread := (h.thread i).2
      rw [← htid, hphase] at hthread
      cases hthread
    | inr d => rw [(Shared.tid_eq_inr.mp htid).2]
  have hnew : (s.setCpu c { s.cpu c with stack := some p }).tid c = .inl p :=
    Shared.tid_eq_inl.mpr (by rw [Shared.setCpu_self])
  have hparked : Parked p (X (.inl p)) := by
    refine h.parked p fun d hd => ?_
    obtain rfl := h.unique d c p (h.target_of_stack hd) htarget
    rw [(Shared.tid_eq_inr.mp htid).1] at hd
    cases hd
  have hme := (h.thread p).1
  have htarget' : (X (.inl p)).target = some p := by rw [Know.target, hparked.phase, hme]
  have hactive' : (X (.inl p)).active = true := by rw [Know.active, hparked.phase]
  refine h.switch rfl (by rw [hphase]; rfl) rfl ?_ ?_ ?_ ?_ ?_ ?_
  · rw [hnew, htid]
    simp
  · rw [hnew]
    refine (h.cpu c).pass hheld hparked.held hparked.known ?_ (fun i hi => ?_) (htarget'.trans htarget.symm)
      (hactive'.trans hactive.symm)
    · rw [Know.proc, Know.proc, hphase, hparked.phase, hme]
    · rw [Know.kept, hparked.phase] at hi
      cases hi
  · rw [hnew, htarget', htarget]
  · rw [hnew, hactive', hactive]
  · intro i hi
    rw [htid] at hi
    cases hi
  · intro q hq
    obtain rfl : p = q := Option.some.inj hq
    exact ⟨htid, hheld, rfl, rfl, hchild⟩

/-- Every operation that the rules allow. -/
theorem op (h : Agree s X) {o : Op K n} {r : o.Res} {choice : Bool} (hcan : (X (s.tid c)).can o)
    (hexec : s.exec c choice o = some (r, s')) : (X (s.tid c)).may o r ∧
      Agree s' (Function.update X (s.tid c) ((X (s.tid c)).after o r)) := by
  have hcpu := h.cpu c
  cases o with
  | acquire lk =>
    simp only [Shared.exec] at hexec
    split at hexec
    · next hfree =>
      cases hexec
      refine ⟨fun hin => ?_, h.acquire hfree⟩
      cases hfree.symm.trans (h.lock_eq hin)
    · cases hexec
  | release lk =>
    simp only [Shared.exec] at hexec
    split at hexec
    · next hheld =>
      cases hexec
      exact ⟨(hcpu.locks lk).mp hheld, h.release hheld hcan⟩
    · cases hexec
  | holding lk =>
    cases hexec
    exact ⟨decide_eq_decide.mpr (hcpu.locks lk), h.same rfl rfl fun _ => rfl⟩
  | noff =>
    cases hexec
    exact ⟨hcpu.noff, h.same rfl rfl fun _ => rfl⟩
  | myproc =>
    cases hexec
    exact ⟨hcpu.proc, h.same rfl rfl fun _ => rfl⟩
  | read i =>
    cases hexec
    refine ⟨⟨fun x hx => h.state_of_known hx, fun hphase hme => ?_⟩, ?_⟩
    · exact hcpu.on i (h.target_of_me hme) (by rw [Know.active, hphase])
    · simp only [Know.after]
      split
      · next hheld => exact h.see hheld
      · exact h.same rfl rfl fun _ => rfl
  | write i w =>
    cases hexec
    exact ⟨trivial, h.write hcan⟩
  | setContext i =>
    cases hexec
    exact ⟨trivial, h.same rfl rfl fun _ => rfl⟩
  | allocpid =>
    cases hexec
    exact ⟨trivial, h.same rfl rfl fun _ => rfl⟩
  | setProc q =>
    cases hexec
    exact ⟨trivial, h.setProc hcan⟩
  | swtchTo p =>
    cases hexec
    exact ⟨trivial, h.swtchTo hcan⟩
  | swtch =>
    cases hexec
    exact ⟨trivial, h.swtch hcan⟩
  | act a =>
    cases hexec
    exact ⟨trivial, h.same rfl rfl fun _ => rfl⟩
  | choose =>
    cases hexec
    exact ⟨trivial, h.same rfl rfl fun _ => rfl⟩
  | panic => cases hexec

/-- An interrupt comes only outside the critical sections. -/
theorem calm (h : Agree s X) (hnoff : (s.cpu c).noff = 0) : Switching.Calm (X (s.tid c)) := by
  have hcpu := h.cpu c
  have hheld : (X (s.tid c)).held = [] := List.eq_nil_of_length_eq_zero (hcpu.noff ▸ hnoff)
  have hkept : (X (s.tid c)).kept = none := by
    refine Option.eq_none_iff_forall_ne_some.mpr fun i hi => ?_
    have hin := hcpu.kept i hi
    rw [hheld] at hin
    cases hin
  refine ⟨?_, fun i => by rw [hheld]; exact List.not_mem_nil, ?_⟩
  · cases htid : s.tid c with
    | inl i =>
      have hthread := h.thread i
      rw [htid] at hkept
      unfold Know.kept at hkept
      generalize (X (.inl i)).phase = phase at *
      cases phase <;> simp_all [Phase.isThread]
    | inr d =>
      have hsched := h.scheduler d
      rw [htid] at hkept
      unfold Know.kept at hkept
      generalize (X (.inr d)).phase = phase at *
      cases phase <;> simp_all [Phase.isThread]
  · funext i
    refine Option.eq_none_iff_forall_ne_some.mpr fun x hx => ?_
    have hin := (hcpu.known i x hx).1
    rw [hheld] at hin
    cases hin

end Agree

end

end Xv6.Sched
