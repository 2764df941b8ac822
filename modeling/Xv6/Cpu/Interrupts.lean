-- SUMMARY: The interrupt state follows the thread: `noff` and `intena` in every run of `spinlock.c` and `sched`.
import Xv6.Cpu.Spinlock

/-!
# The interrupt state follows the thread

A thread that is not running has called `push_off` once and not popped it, for `p->lock`, and so
has the scheduler that switches to it. This is why a CPU's `noff` is right for either of them.
`intena` is kept by `sched` in a variable of the thread.
-/

namespace Xv6.Cpu

variable {n m : Nat} {L : Type} {u u' : Core n} {t t' : Thread n L}

def Op.spins : Op n L → Nat
  | .spinning _ => 1
  | _ => 0

/-- An operation that an interrupt may find. -/
def Op.Interruptible (op : Op n L) : Prop := op = .idle ∨ ∃ lk, op = .reading true lk

/-! ## A thread and its CPU -/

/-- What holds of a thread and the CPU that it runs on. -/
structure Runs (u : Core n) (t : Thread n L) : Prop where
  noff : u.noff = t.count
  off : 0 < t.count → u.intr = false
  /-- The scheduler finds the `intena` of a process after the switch. -/
  intena : u.proc ≠ none ∨ t.outer ≠ [] → 0 < t.count → u.intena = t.first
  count : t.count = t.held.card + t.raw + t.op.spins
  reading : ∀ old lk, t.op = .reading old lk → u.intr = old
  handler : t.outer ≠ [] → u.intr = false ∧ (0 < t.count → t.first = false)
  outer : t.outer.length ≤ 1 ∧ ∀ op ∈ t.outer, op.Interruptible

/-- What holds of a thread that does not run. -/
structure Away (t : Thread n L) : Prop where
  op : t.op = .idle
  count : t.count = 1
  raw : t.raw = 0
  held : t.held = ∅
  intena : ∀ b, t.intena = some b → b = t.first
  fresh : t.intena = none → t.outer = []
  handler : t.outer ≠ [] → t.first = false
  outer : t.outer.length ≤ 1 ∧ ∀ op ∈ t.outer, op.Interruptible

namespace Runs

theorem intr (h : Runs u t) (hop : t.op = .idle) (hcount : t.count = 0) (houter : t.outer = [])
    (b : Bool) : Runs { u with intr := b } t where
  noff := h.noff
  off hpos := by omega
  intena _ hpos := by omega
  count := h.count
  reading old lk hread := by
    rw [hop] at hread
    cases hread
  handler hne := absurd houter hne
  outer := h.outer

theorem trap (h : Runs u t) (hintr : u.intr = true) :
    Runs { u with intr := false } { t with op := .idle, outer := t.op :: t.outer } := by
  have hcount : t.count = 0 := by
    by_contra hpos
    rw [h.off (Nat.pos_of_ne_zero hpos)] at hintr
    cases hintr
  have houter : t.outer = [] := by
    by_contra hne
    rw [(h.handler hne).1] at hintr
    cases hintr
  have hop : t.op.Interruptible := by
    cases hop : t.op with
    | idle => exact .inl rfl
    | reading old lk =>
      rw [h.reading old lk hop] at hintr
      exact .inr ⟨lk, by rw [hintr]⟩
    | spinning lk =>
      have hspins := h.count
      rw [hop, hcount] at hspins
      simp only [Op.spins] at hspins
      omega
  refine ⟨h.noff, fun _ => rfl, fun _ hpos => ?_, ?_, fun old lk hread => ?_, fun _ => ⟨rfl, ?_⟩, ?_, ?_⟩
  · exact absurd hcount (Nat.ne_of_gt hpos)
  · have := h.count
    simp only [Op.spins] at *
    omega
  · cases hread
  · exact fun hpos => absurd hcount (Nat.ne_of_gt hpos)
  · simp [houter]
  · simpa [houter] using hop

theorem trapRet (h : Runs u t) (hop : t.op = .idle) (hcount : t.count = 0) {op : Op n L}
    {rest : List (Op n L)} (houter : t.outer = op :: rest) :
    Runs { u with intr := true } { t with op := op, outer := rest } := by
  obtain ⟨hlen, hmem⟩ := h.outer
  rw [houter] at hlen hmem
  have hrest : rest = [] := by
    rw [List.length_cons] at hlen
    exact List.eq_nil_of_length_eq_zero (by omega)
  have hinter : op.Interruptible := hmem op List.mem_cons_self
  refine ⟨h.noff, fun hpos => ?_, fun _ hpos => ?_, ?_, fun old lk hread => ?_, fun hne => ?_, ?_, ?_⟩
  · exact absurd hcount (Nat.ne_of_gt hpos)
  · exact absurd hcount (Nat.ne_of_gt hpos)
  · have hold := h.count
    rw [hop] at hold
    rcases hinter with rfl | ⟨lk, rfl⟩
    · exact hold
    · exact hold
  · rcases hinter with rfl | ⟨lk', rfl⟩
    · cases hread
    · cases hread
      rfl
  · exact absurd hrest hne
  · simp [hrest]
  · simp [hrest]

theorem read (h : Runs u t) (hop : t.op = .idle) (lk : Option (Lock n L)) :
    Runs u { t with op := .reading u.intr lk } where
  noff := h.noff
  off := h.off
  intena := h.intena
  count := by
    have hold := h.count
    rwa [hop] at hold
  reading old lk hread := by
    cases hread
    rfl
  handler := h.handler
  outer := h.outer

/-- `push_off` goes on: it has read the state that interrupts still have. -/
theorem push (h : Runs u t) {old : Bool} {lk : Option (Lock n L)} (hop : t.op = .reading old lk)
    {op : Op n L} {raw : Nat} (hraw : raw + op.spins = t.raw + 1) (hnew : ∀ old lk, op ≠ .reading old lk) :
    Runs (u.pushOff old) { t.pushed u.intr op with raw := raw } := by
  have hold := h.reading old lk hop
  have hnoff := h.noff
  refine ⟨?_, fun _ => rfl, fun hwho _ => ?_, ?_, fun old lk hread => ?_, fun hne => ⟨rfl, fun _ => ?_⟩, h.outer⟩
  · simp only [Core.pushOff, Thread.pushed]
    omega
  · simp only [Core.pushOff, Thread.pushed]
    by_cases hzero : t.count = 0
    · rw [if_pos hzero, if_pos (by omega), hold]
    · rw [if_neg hzero, if_neg (by omega)]
      exact h.intena hwho (Nat.pos_of_ne_zero hzero)
  · have hcount := h.count
    rw [hop] at hcount
    simp only [Op.spins, Thread.pushed] at *
    omega
  · exact absurd hread (hnew old lk)
  · simp only [Thread.pushed]
    obtain ⟨hintr, hfirst⟩ := h.handler hne
    by_cases hzero : t.count = 0
    · rw [if_pos hzero, hintr]
    · rw [if_neg hzero]
      exact hfirst (Nat.pos_of_ne_zero hzero)

/-- `pop_off` does not panic, and the last one restores the state of the first `push_off`. -/
theorem pop (h : Runs u t) (hop : t.op = .idle) (hpos : 0 < t.count) (raw : Nat) (held : Finset (Lock n L))
    (hless : t.count = held.card + raw + 1) :
    ∃ u', u.popOff = .ok u' ∧ u'.proc = u.proc ∧ Runs u' { t.popped with raw := raw, held := held } ∧
      (t.count = 1 → u.proc ≠ none → u'.intr = t.first) := by
  have hoff := h.off hpos
  have hnoff := h.noff
  have hone : ¬ u.noff < 1 := by omega
  have hpop : u.popOff = .ok { u with
      noff := u.noff - 1
      intr := if u.noff - 1 = 0 ∧ u.intena = true then true else false } := by
    rw [Core.popOff, hoff, if_neg hone]
    rfl
  refine ⟨_, hpop, rfl,
    ⟨?_, fun hmore => ?_, fun hwho _ => h.intena hwho hpos, ?_, fun old lk hread => ?_,
      fun hne => ?_, h.outer⟩, fun hlast hproc => ?_⟩
  · simp only [Thread.popped]
    omega
  · have hmore : 0 < t.count - 1 := hmore
    exact if_neg fun hlast => absurd hlast.1 (by omega)
  · simp only [Thread.popped, hop, Op.spins]
    omega
  · exact absurd (hop.symm.trans hread) (by simp)
  · have hfirst := (h.handler hne).2 hpos
    have hintena := h.intena (.inr hne) hpos
    refine ⟨if_neg fun hlast => ?_, fun _ => hfirst⟩
    rw [hintena, hfirst] at hlast
    exact absurd hlast.2 (by decide)
  · have hintena := h.intena (.inl hproc) hpos
    have hzero : u.noff - 1 = 0 := by omega
    simp only [hzero, true_and, hintena]
    cases t.first <;> rfl

end Runs

/-! ## All threads and CPUs -/

variable {s s' : State n m L} {c c' : Fin m} {p : Fin n}

structure Inv (s : State n m L) : Prop where
  runs : ∀ c, Runs (s.core c) (s.thread (s.current c))
  away : ∀ x, (∀ c, s.current c ≠ x) → Away (s.thread x)
  running : ∀ c p, (s.core c).proc = some p → s.state p = .running
  once : ∀ c c', s.current c = s.current c' → c = c'
  /-- `holding` is true of the locks that the running thread holds. -/
  holds : ∀ c lk, s.Holding c lk ↔ lk ∈ (s.thread (s.current c)).held
  /-- A scheduler is never in `sched`. -/
  sched : ∀ c, (s.thread (.sched c)).intena = none

theorem current_proc (h : (s.core c).proc = some p) : s.current c = .proc p := by
  rw [State.current, h]

theorem current_sched (h : (s.core c).proc = none) : s.current c = .sched c := by
  rw [State.current, h]

theorem proc_of_current (h : s.current c = .proc p) : (s.core c).proc = some p := by
  cases hproc : (s.core c).proc with
  | none =>
    rw [current_sched hproc] at h
    cases h
  | some p' =>
    rw [current_proc hproc] at h
    cases h
    rfl

theorem init_inv : Inv (State.init : State n m L) where
  runs c := by
    refine ⟨rfl, fun h => absurd h (Nat.lt_irrefl 0), fun _ h => absurd h (Nat.lt_irrefl 0), rfl,
      ?_, ?_, ?_⟩
    · rintro old lk h
      cases h
    · exact fun h => absurd rfl h
    · exact ⟨Nat.zero_le 1, by simp [State.init, State.current]⟩
  away x hx := by
    cases x with
    | proc p =>
      refine ⟨rfl, rfl, rfl, rfl, fun b h => ?_, fun _ => rfl, fun h => absurd rfl h, Nat.zero_le 1, ?_⟩
      · cases h
      · simp [State.init]
    | sched c => exact absurd rfl (hx c)
  running c p h := by cases h
  once c c' h := by
    cases h
    rfl
  holds c lk := by simp [State.Holding, State.init, State.current]
  sched c := rfl

/-- A step of one thread on its CPU does not change who runs where. -/
theorem current_set (hproc : u'.proc = (s.core c).proc) (t' : Thread n L) (c' : Fin m) :
    (s.set c u' t').current c' = s.current c' := by
  by_cases hc : c' = c
  · subst hc
    simp [State.current, State.set, hproc]
  · simp [State.current, State.set, hc]

/-- A step of one thread on its CPU, which may also acquire or release a lock. -/
theorem Inv.set (h : Inv s) (hproc : u'.proc = (s.core c).proc) (hruns : Runs u' t')
    (hintena : t'.intena = (s.thread (s.current c)).intena) {lock : Lock n L → Spinlock m}
    (hself : ∀ lk, (lock lk).locked = true ∧ (lock lk).cpu = some c ↔ lk ∈ t'.held)
    (hother : ∀ c' ≠ c, ∀ lk, (lock lk).locked = true ∧ (lock lk).cpu = some c' ↔ s.Holding c' lk) :
    Inv { s.set c u' t' with lock := lock } := by
  have hcur (c' : Fin m) : { s.set c u' t' with lock := lock }.current c' = s.current c' :=
    current_set hproc t' c'
  have hne {c' : Fin m} (hc : c' ≠ c) : s.current c' ≠ s.current c := fun heq => hc (h.once c' c heq)
  refine ⟨fun c' => ?_, fun x hx => ?_, fun c' p hp => ?_, fun c' c'' heq => ?_, fun c' lk => ?_,
    fun c' => ?_⟩
  · rw [hcur]
    by_cases hc : c' = c
    · subst hc
      simpa [State.set] using hruns
    · simpa [State.set, hc, hne hc] using h.runs c'
  · have hx (c' : Fin m) : s.current c' ≠ x := hcur c' ▸ hx c'
    simpa [State.set, (hx c).symm] using h.away x hx
  · have hp := current_proc hp
    rw [hcur] at hp
    exact h.running c' p (proc_of_current hp)
  · rw [hcur, hcur] at heq
    exact h.once c' c'' heq
  · rw [hcur]
    by_cases hc : c' = c
    · subst hc
      simpa [State.set, State.Holding] using hself lk
    · simp only [State.set, Function.update_of_ne (hne hc)]
      exact (hother c' hc lk).trans (h.holds c' lk)
  · by_cases hx : Tid.sched c' = s.current c
    · have hold := h.sched c'
      rw [hx] at hold ⊢
      simp only [State.set, Function.update_self, hintena, hold]
    · simp only [State.set, Function.update_of_ne hx, h.sched c']

/-- The same if no lock is acquired or released. -/
theorem Inv.set_same (h : Inv s) (hproc : u'.proc = (s.core c).proc) (hruns : Runs u' t')
    (hintena : t'.intena = (s.thread (s.current c)).intena)
    (hheld : t'.held = (s.thread (s.current c)).held) : Inv (s.set c u' t') :=
  h.set hproc hruns hintena (fun lk => hheld ▸ h.holds c lk) fun _ _ _ => Iff.rfl

variable [DecidableEq L]

theorem Inv.take (h : Inv s) {lk : Lock n L} (hop : (s.thread (s.current c)).op = .spinning lk)
    (hfree : (s.lock lk).locked = false) :
    Inv ((s.set c (s.core c) { s.thread (s.current c) with
      op := .idle, held := insert lk (s.thread (s.current c)).held }).setLock lk ⟨true, some c⟩) := by
  have hruns := h.runs c
  have hnot (c' : Fin m) : ¬ s.Holding c' lk := fun hold => by
    rw [State.Holding, hfree] at hold
    cases hold.1
  have hmem : lk ∉ (s.thread (s.current c)).held := fun hmem => hnot c ((h.holds c lk).mpr hmem)
  have hnew : Runs (s.core c) { s.thread (s.current c) with
      op := .idle, held := insert lk (s.thread (s.current c)).held } := by
    refine ⟨hruns.noff, hruns.off, hruns.intena, ?_, ?_, hruns.handler, hruns.outer⟩
    · have hcount := hruns.count
      rw [hop] at hcount
      simp only [Op.spins, Finset.card_insert_of_notMem hmem] at hcount ⊢
      omega
    · rintro old lk' hread
      cases hread
  refine h.set rfl hnew rfl ?_ ?_
  · intro lk'
    by_cases hlk : lk' = lk
    · subst hlk
      simp
    · simp only [State.set, Function.update_of_ne hlk, Finset.mem_insert, hlk, false_or]
      exact h.holds c lk'
  · intro c' hc lk'
    by_cases hlk : lk' = lk
    · subst hlk
      simp [hc.symm, hnot c']
    · simp only [State.set, Function.update_of_ne hlk]
      exact Iff.rfl

theorem Inv.release (h : Inv s) {lk : Lock n L} (hop : (s.thread (s.current c)).op = .idle)
    (hhold : s.Holding c lk) :
    ∃ u', (s.core c).popOff = .ok u' ∧
      Inv ((s.set c u' { (s.thread (s.current c)).popped with
        held := (s.thread (s.current c)).held.erase lk }).setLock lk ⟨false, none⟩) ∧
      ((s.thread (s.current c)).count = 1 → (s.core c).proc ≠ none →
        u'.intr = (s.thread (s.current c)).first) := by
  have hruns := h.runs c
  have hmem := (h.holds c lk).mp hhold
  have hcount := hruns.count
  have hcard := Finset.card_erase_add_one hmem
  rw [hop] at hcount
  simp only [Op.spins] at hcount
  obtain ⟨u', hpop, hproc, hnew, hlast⟩ := hruns.pop hop (by omega)
    (s.thread (s.current c)).raw ((s.thread (s.current c)).held.erase lk) (by omega)
  refine ⟨u', hpop, h.set hproc hnew rfl ?_ ?_, hlast⟩
  · intro lk'
    by_cases hlk : lk' = lk
    · subst hlk
      simp
    · simp only [State.set, Function.update_of_ne hlk, Finset.mem_erase, hlk, ne_eq, not_false_eq_true,
        true_and]
      exact h.holds c lk'
  · intro c' hc lk'
    by_cases hlk : lk' = lk
    · subst hlk
      simp [State.Holding, hhold.2, hc.symm]
    · simp only [State.set, Function.update_of_ne hlk]
      exact Iff.rfl

/-! ## Switches -/

omit [DecidableEq L] in
theorem current_switch_ne {x y : Tid n m} {st : ProcState} (hc : c' ≠ c) :
    (s.switch c u' x t y t' p st).current c' = s.current c' := by
  simp [State.current, State.switch, hc]

omit [DecidableEq L] in
/-- The CPU goes from the thread `x` to the thread `y`, which has not been running. -/
theorem Inv.switch (h : Inv s) {x y : Tid n m} {st : ProcState} (hx : s.current c = x)
    (hy : ∀ c', s.current c' ≠ y) (hcur : (s.switch c u' x t y t' p st).current c = y)
    (hruns : Runs u' t') (haway : Away t) (hheld : t'.held = (s.thread x).held)
    (hsched : ∀ c', ((s.switch c u' x t y t' p st).thread (.sched c')).intena = none)
    (hstate : ∀ c' p', ((s.switch c u' x t y t' p st).core c').proc = some p' →
      (s.switch c u' x t y t' p st).state p' = .running) :
    Inv (s.switch c u' x t y t' p st) := by
  have hne {c' : Fin m} (hc : c' ≠ c) : s.current c' ≠ x :=
    fun heq => hc (h.once c' c (heq.trans hx.symm))
  have hthread {c' : Fin m} (hc : c' ≠ c) : (s.switch c u' x t y t' p st).thread (s.current c') =
      s.thread (s.current c') := by
    simp only [State.switch, Function.update_of_ne (hy c'), Function.update_of_ne (hne hc)]
  have hself : (s.switch c u' x t y t' p st).thread y = t' := Function.update_self ..
  refine ⟨fun c' => ?_, fun z hz => ?_, hstate, fun c' c'' heq => ?_, fun c' lk => ?_, hsched⟩
  · by_cases hc : c' = c
    · subst hc
      rw [hcur, hself]
      simpa [State.switch] using hruns
    · rw [current_switch_ne hc, hthread hc]
      simpa [State.switch, hc] using h.runs c'
  · have hzy : z ≠ y := fun heq => hz c (hcur.trans heq.symm)
    by_cases hzx : z = x
    · subst hzx
      simpa [State.switch, hzy] using haway
    · have hold : ∀ c', s.current c' ≠ z := by
        intro c' heq
        by_cases hc : c' = c
        · exact hzx (heq ▸ hc ▸ hx)
        · exact hz c' ((current_switch_ne hc).trans heq)
      simpa [State.switch, hzy, hzx] using h.away z hold
  · by_cases hc : c' = c
    · by_cases hc' : c'' = c
      · rw [hc, hc']
      · rw [hc, hcur, current_switch_ne hc'] at heq
        exact absurd heq.symm (hy c'')
    · by_cases hc' : c'' = c
      · rw [hc', hcur, current_switch_ne hc] at heq
        exact absurd heq (hy c')
      · rw [current_switch_ne hc, current_switch_ne hc'] at heq
        exact h.once c' c'' heq
  · by_cases hc : c' = c
    · subst hc
      rw [hcur, hself, hheld, ← hx]
      exact h.holds c' lk
    · rw [current_switch_ne hc, hthread hc]
      exact h.holds c' lk

omit [DecidableEq L] in
/-- `sched` holds `p->lock` only. -/
theorem Inv.held_eq (h : Inv s) (hop : (s.thread (s.current c)).op = .idle)
    (hhold : s.Holding c (.proc p)) (hnoff : (s.core c).noff = 1) :
    (s.thread (s.current c)).held = {.proc p} ∧ (s.thread (s.current c)).raw = 0 ∧
      (s.thread (s.current c)).count = 1 := by
  have hruns := h.runs c
  have hmem := (h.holds c _).mp hhold
  have hcount := hruns.count
  have hnoff' := hruns.noff
  have hcard := Finset.card_pos.mpr ⟨_, hmem⟩
  rw [hop] at hcount
  simp only [Op.spins] at hcount
  have hone : (s.thread (s.current c)).held.card = 1 := by omega
  obtain ⟨lk, hlk⟩ := Finset.card_eq_one.mp hone
  rw [hlk, Finset.mem_singleton] at hmem
  exact ⟨by rw [hlk, hmem], by omega, by omega⟩

omit [DecidableEq L] in
/-- The scheduler of a CPU that runs a process does not run. -/
theorem sched_ne (hproc : (s.core c).proc = some p) (c' : Fin m) : s.current c' ≠ .sched c := by
  intro heq
  cases hproc' : (s.core c').proc with
  | none =>
    rw [current_sched hproc'] at heq
    cases heq
    rw [hproc'] at hproc
    cases hproc
  | some p' =>
    rw [current_proc hproc'] at heq
    cases heq

omit [DecidableEq L] in
/-- A process goes to the scheduler of its CPU. -/
theorem Inv.toSched (h : Inv s) (hproc : (s.core c).proc = some p)
    (hop : (s.thread (.proc p)).op = .idle) (hhold : s.Holding c (.proc p))
    (hnoff : (s.core c).noff = 1) (hintr : (s.core c).intr = false) {st : ProcState} :
    Inv (s.switch c { s.core c with proc := none }
      (.proc p) { s.thread (.proc p) with intena := some (s.core c).intena, held := ∅ }
      (.sched c) { s.thread (.sched c) with held := {.proc p} } p st) := by
  have hcurrent := current_proc hproc
  have hruns := h.runs c
  obtain ⟨hheld, hraw, hcount⟩ := h.held_eq (hcurrent ▸ hop) hhold hnoff
  rw [hcurrent] at hheld hraw hcount hruns
  have haway := h.away _ (sched_ne hproc)
  have houter := haway.fresh (h.sched c)
  have hpos : 0 < (s.thread (.proc p)).count := by omega
  have hwho : (s.core c).proc ≠ none := by rw [hproc]; simp
  refine h.switch hcurrent (sched_ne hproc) ?_ ?_ ?_ hheld.symm ?_ ?_
  · simp [State.current, State.switch]
  · refine ⟨?_, fun _ => hintr, fun hor => ?_, ?_, fun old lk hread => ?_, fun hne => ?_, haway.outer⟩
    · simp only [hnoff, haway.count]
      rfl
    · simp [houter] at hor
    · simp [haway.count, haway.raw, haway.op, Op.spins]
    · exact absurd (haway.op.symm.trans hread) (by simp)
    · exact absurd houter hne
  · refine ⟨hop, hcount, hraw, rfl, fun b hb => ?_, fun hb => ?_, fun hne => ?_, hruns.outer⟩
    · cases hb
      exact hruns.intena (.inl hwho) hpos
    · cases hb
    · exact (hruns.handler hne).2 hpos
  · intro c'
    by_cases hc : c' = c
    · simpa [State.switch, hc] using h.sched c
    · simpa [State.switch, hc] using h.sched c'
  · intro c' p' hp'
    by_cases hc : c' = c
    · simp [State.switch, hc] at hp'
    · simp only [State.switch, Function.update_of_ne hc] at hp'
      have hpp : p' ≠ p := by
        rintro rfl
        exact hc (h.once c' c ((current_proc hp').trans hcurrent.symm))
      simpa [State.switch, hpp] using h.running c' p' hp'

omit [DecidableEq L] in
/-- The scheduler of a CPU switches to a process. -/
theorem Inv.toProc (h : Inv s) (hproc : (s.core c).proc = none)
    (hop : (s.thread (.sched c)).op = .idle) (houter : (s.thread (.sched c)).outer = [])
    (hheld : (s.thread (.sched c)).held = {.proc p}) (hraw : (s.thread (.sched c)).raw = 0)
    (hstate : s.state p = .runnable) :
    Inv (s.switch c
      { s.core c with proc := some p, intena := (s.thread (.proc p)).intena.getD (s.core c).intena }
      (.sched c) { s.thread (.sched c) with held := ∅ }
      (.proc p) { s.thread (.proc p) with
        intena := none
        first := if (s.thread (.proc p)).intena = none then (s.core c).intena
          else (s.thread (.proc p)).first
        held := {.proc p} } p .running) := by
  have hcurrent := current_sched hproc
  have hruns := h.runs c
  rw [hcurrent] at hruns
  have hnot (c' : Fin m) : s.current c' ≠ .proc p := by
    intro heq
    have := h.running c' p (proc_of_current heq)
    rw [hstate] at this
    cases this
  have haway := h.away _ hnot
  have hcount : (s.thread (.sched c)).count = 1 := by
    rw [hruns.count, hheld, hraw, hop]
    rfl
  have hintr := hruns.off (by omega)
  have hnoff := hruns.noff
  refine h.switch hcurrent hnot ?_ ?_ ?_ hheld.symm ?_ ?_
  · simp [State.current, State.switch]
  · refine ⟨?_, fun _ => hintr, fun _ _ => ?_, ?_, fun old lk hread => ?_, fun hne => ⟨hintr, fun _ => ?_⟩,
      haway.outer⟩
    · simp only [hnoff, hcount, haway.count]
    · cases hintena : (s.thread (.proc p)).intena with
      | none => simp
      | some b => simpa using haway.intena b hintena
    · simp [haway.count, haway.raw, haway.op, Op.spins]
    · exact absurd (haway.op.symm.trans hread) (by simp)
    · have hsome : (s.thread (.proc p)).intena ≠ none := fun hnone => hne (haway.fresh hnone)
      simpa [hsome] using haway.handler hne
  · refine ⟨hop, hcount, hraw, rfl, fun b hb => ?_, fun _ => houter, fun hne => ?_, hruns.outer⟩
    · rw [h.sched c] at hb
      cases hb
    · exact absurd houter hne
  · intro c'
    by_cases hc : c' = c
    · simpa [State.switch, hc] using h.sched c
    · simpa [State.switch, hc] using h.sched c'
  · intro c' p' hp'
    by_cases hc : c' = c
    · simp only [State.switch, hc, Function.update_self, Option.some.injEq] at hp'
      simp [State.switch, hp']
    · simp only [State.switch, Function.update_of_ne hc] at hp'
      have hpp : p' ≠ p := fun heq => hnot c' (heq ▸ current_proc hp')
      simpa [State.switch, hpp] using h.running c' p' hp'

omit [DecidableEq L] in
theorem Inv.wake (h : Inv s) (hstate : s.state p = .sleeping) :
    Inv { s with state := Function.update s.state p .runnable } :=
  { h with
    running := fun c' p' hp' => by
      have hrunning := h.running c' p' hp'
      have hpp : p' ≠ p := fun heq => by
        rw [heq, hstate] at hrunning
        cases hrunning
      simpa [hpp] using hrunning }

/-! ## Runs -/

/-- What a step of CPU `c` may end with. If it pops the last `push_off` of a process, interrupts
are as they were at the first one. -/
inductive Ends (s : State n m L) (c : Fin m) : Except Panic (State n m L) → Prop
  | ok (s' : State n m L) (hinv : Inv s')
      (hlast : ∀ p, (s.core c).proc = some p → (s.thread (.proc p)).count = 1 →
        (s'.thread (.proc p)).count = 0 → (s'.core c).intr = (s.thread (.proc p)).first) :
      Ends s c (.ok s')
  | panic (e : Panic) (hpop : e ≠ .popOff) (hintr : e ≠ .popOffInterruptible) : Ends s c (.error e)

omit [DecidableEq L] in
/-- A step that pops nothing. -/
theorem Ends.of_count {s' : State n m L} (hinv : Inv s')
    (hcount : (s.thread (s.current c)).count ≤ (s'.thread (s.current c)).count) :
    Ends s c (.ok s') := by
  refine .ok s' hinv fun p hp hone hzero => ?_
  rw [current_proc hp] at hcount
  omega

omit [DecidableEq L] in
theorem thread_set (s : State n m L) (c : Fin m) (u : Core n) (t : Thread n L) :
    (s.set c u t).thread (s.current c) = t := Function.update_self ..

omit [DecidableEq L] in
/-- A step of one thread that pops nothing and keeps its locks. -/
theorem Inv.ends (h : Inv s) (hproc : u'.proc = (s.core c).proc) (hruns : Runs u' t')
    (hintena : t'.intena = (s.thread (s.current c)).intena)
    (hheld : t'.held = (s.thread (s.current c)).held)
    (hcount : (s.thread (s.current c)).count ≤ t'.count) : Ends s c (.ok (s.set c u' t')) :=
  .of_count (h.set_same hproc hruns hintena hheld) (by rwa [thread_set])

theorem Inv.pushEnds (h : Inv s) {old : Bool} {lk : Option (Lock n L)}
    {res : Except Panic (State n m L)} (hop : (s.thread (s.current c)).op = .reading old lk)
    (hnext : s.step c (s.core c) (s.thread (s.current c)) .push (.reading old lk) = some res) :
    Ends s c res := by
  have hruns := h.runs c
  cases lk with
  | none =>
    have hpush : Runs ((s.core c).pushOff old)
        { (s.thread (s.current c)).pushed (s.core c).intr .idle with
          raw := (s.thread (s.current c)).raw + 1 } := hruns.push hop rfl (by simp)
    cases hnext
    exact h.ends rfl hpush rfl rfl (Nat.le_succ _)
  | some lk =>
    have hpush : Runs ((s.core c).pushOff old)
        ((s.thread (s.current c)).pushed (s.core c).intr (.spinning lk)) := hruns.push hop rfl (by simp)
    cases hnext
    exact h.ends rfl hpush rfl rfl (Nat.le_succ _)

theorem Inv.takeEnds (h : Inv s) {lk : Lock n L} {res : Except Panic (State n m L)}
    (hop : (s.thread (s.current c)).op = .spinning lk)
    (hnext : s.step c (s.core c) (s.thread (s.current c)) .take (.spinning lk) = some res) :
    Ends s c res := by
  rw [State.step] at hnext
  split at hnext
  · cases hnext
    exact .panic _ (by decide) (by decide)
  · split at hnext
    · cases hnext
    · next hfree =>
      cases hnext
      refine .of_count (h.take hop (Bool.eq_false_iff.mpr hfree)) ?_
      simp [State.set, State.setLock]

theorem Inv.releaseEnds (h : Inv s) {lk : Lock n L} {res : Except Panic (State n m L)}
    (hop : (s.thread (s.current c)).op = .idle)
    (hnext : s.step c (s.core c) (s.thread (s.current c)) (.release lk) .idle = some res) :
    Ends s c res := by
  rw [State.step] at hnext
  split at hnext
  · next hhold =>
    obtain ⟨u', hpop, hinv, hlast⟩ := h.release hop hhold
    rw [hpop] at hnext
    cases hnext
    refine .ok _ hinv fun p hp hone _ => ?_
    rw [current_proc hp] at hlast
    have hintr := hlast hone (by rw [hp]; simp)
    simpa [State.set, State.setLock] using hintr
  · cases hnext
    exact .panic _ (by decide) (by decide)

theorem Inv.popEnds (h : Inv s) {res : Except Panic (State n m L)}
    (hop : (s.thread (s.current c)).op = .idle)
    (hnext : s.step c (s.core c) (s.thread (s.current c)) .pop .idle = some res) :
    Ends s c res := by
  obtain ⟨hraw, hres⟩ := Option.ite_none_right_eq_some.mp hnext
  have hruns := h.runs c
  have hcount := hruns.count
  rw [hop] at hcount
  simp only [Op.spins] at hcount
  obtain ⟨u', hpop, hproc, hnew, hlast⟩ := hruns.pop hop (by omega)
    ((s.thread (s.current c)).raw - 1) (s.thread (s.current c)).held (by omega)
  rw [hpop] at hres
  cases hres
  refine .ok _ (h.set_same hproc hnew rfl rfl) fun p hp hone _ => ?_
  rw [current_proc hp] at hlast
  have hintr := hlast hone (by rw [hp]; simp)
  simpa [State.set] using hintr

theorem Inv.schedEnds (h : Inv s) {st : ProcState} {res : Except Panic (State n m L)}
    (hop : (s.thread (s.current c)).op = .idle)
    (hnext : s.step c (s.core c) (s.thread (s.current c)) (.sched st) .idle = some res) :
    Ends s c res := by
  rw [State.step] at hnext
  split at hnext
  · cases hnext
  · next p hproc =>
    have hcurrent := current_proc hproc
    rw [hcurrent] at hop hnext
    cases hnext
    split
    · exact .panic _ (by decide) (by decide)
    · next hhold =>
      split
      · exact .panic _ (by decide) (by decide)
      · next hnoff =>
        split
        · exact .panic _ (by decide) (by decide)
        · split
          · exact .panic _ (by decide) (by decide)
          · next hintr =>
            refine .of_count (h.toSched hproc hop (not_not.mp hhold) (not_not.mp hnoff)
              (Bool.eq_false_iff.mpr hintr)) ?_
            rw [hcurrent]
            simp [State.switch]

theorem Inv.swtchEnds (h : Inv s) {res : Except Panic (State n m L)}
    (hop : (s.thread (s.current c)).op = .idle)
    (hnext : s.step c (s.core c) (s.thread (s.current c)) (.swtch p) .idle = some res) :
    Ends s c res := by
  obtain ⟨⟨hproc, houter, hheld, hraw, hstate⟩, hres⟩ := Option.ite_none_right_eq_some.mp hnext
  have hcurrent := current_sched hproc
  rw [hcurrent] at hop houter hheld hraw hres
  cases hres
  refine .ok _ (h.toProc hproc hop houter hheld hraw hstate) fun p hp => ?_
  rw [hproc] at hp
  cases hp

/-- Other steps than those in `push_off` and `acquire`, and interrupts, are taken outside of them. -/
theorem op_idle {a : Act n L} {op : Op n L} {res : Except Panic (State n m L)}
    (h : s.step c u t a op = some res) (htrap : a ≠ .trap) (hpush : a ≠ .push) (htake : a ≠ .take) :
    op = .idle := by
  cases op with
  | idle => rfl
  | reading old lk => cases a <;> contradiction
  | spinning lk => cases a <;> contradiction

/-- An interrupt can come anywhere. -/
theorem step_trap {op : Op n L} {res : Except Panic (State n m L)} (h : s.step c u t .trap op = some res) :
    (if u.intr then
      some (.ok (s.set c { u with intr := false } { t with op := .idle, outer := op :: t.outer }))
    else none) = some res := by
  cases op <;> exact h

/-- Every step keeps the invariant or panics, and `pop_off` does not. -/
theorem Inv.next (h : Inv s) {a : Act n L} {res : Except Panic (State n m L)}
    (hnext : next s c a = some res) : Ends s c res := by
  have hruns := h.runs c
  rw [Cpu.next] at hnext
  cases a with
  | trap =>
    obtain ⟨hintr, hres⟩ := Option.ite_none_right_eq_some.mp (step_trap hnext)
    cases hres
    exact h.ends rfl (hruns.trap hintr) rfl rfl (Nat.le_refl _)
  | push =>
    cases hop : (s.thread (s.current c)).op with
    | reading old lk => exact h.pushEnds hop (hop ▸ hnext)
    | idle => rw [hop] at hnext; cases hnext
    | spinning lk => rw [hop] at hnext; cases hnext
  | take =>
    cases hop : (s.thread (s.current c)).op with
    | spinning lk => exact h.takeEnds hop (hop ▸ hnext)
    | idle => rw [hop] at hnext; cases hnext
    | reading old lk => rw [hop] at hnext; cases hnext
  | intrOn =>
    have hop := op_idle hnext (by simp) (by simp) (by simp)
    rw [hop] at hnext
    obtain ⟨⟨houter, hcount⟩, hres⟩ := Option.ite_none_right_eq_some.mp hnext
    cases hres
    exact h.ends rfl (hruns.intr hop hcount houter true) rfl rfl (Nat.le_refl _)
  | intrOff =>
    have hop := op_idle hnext (by simp) (by simp) (by simp)
    rw [hop] at hnext
    obtain ⟨⟨houter, hcount⟩, hres⟩ := Option.ite_none_right_eq_some.mp hnext
    cases hres
    exact h.ends rfl (hruns.intr hop hcount houter false) rfl rfl (Nat.le_refl _)
  | trapRet =>
    have hop := op_idle hnext (by simp) (by simp) (by simp)
    rw [hop, State.step] at hnext
    split at hnext
    · cases hnext
    · next op rest houter =>
      obtain ⟨hcount, hres⟩ := Option.ite_none_right_eq_some.mp hnext
      cases hres
      exact h.ends rfl (hruns.trapRet hop hcount houter) rfl rfl (Nat.le_refl _)
  | read lk =>
    have hop := op_idle hnext (by simp) (by simp) (by simp)
    rw [hop] at hnext
    cases hnext
    exact h.ends rfl (hruns.read hop lk) rfl rfl (Nat.le_refl _)
  | release lk =>
    have hop := op_idle hnext (by simp) (by simp) (by simp)
    exact h.releaseEnds hop (hop ▸ hnext)
  | pop =>
    have hop := op_idle hnext (by simp) (by simp) (by simp)
    exact h.popEnds hop (hop ▸ hnext)
  | sched st =>
    have hop := op_idle hnext (by simp) (by simp) (by simp)
    exact h.schedEnds hop (hop ▸ hnext)
  | swtch p =>
    have hop := op_idle hnext (by simp) (by simp) (by simp)
    exact h.swtchEnds hop (hop ▸ hnext)
  | wake p =>
    have hop := op_idle hnext (by simp) (by simp) (by simp)
    rw [hop] at hnext
    obtain ⟨⟨_, hstate⟩, hres⟩ := Option.ite_none_right_eq_some.mp hnext
    cases hres
    exact .of_count (h.wake hstate) (Nat.le_refl _)

theorem run_inv {as : List (Fin m × Act n L)} (hrun : Sys.Run Step .init as s) : Inv s := by
  refine hrun.invariant (I := Inv) (fun t a u h hstep => ?_) init_inv
  cases h.next hstep with
  | ok _ hinv _ => exact hinv

/-- What the interrupt state of a CPU has to do with the thread that runs there. -/
structure Follows (s : State n m L) : Prop where
  off : ∀ c lk, lk ∈ (s.thread (s.current c)).held → (s.core c).intr = false
  noff : ∀ c, (s.core c).noff = (s.thread (s.current c)).count
  safe : ∀ c a e, next s c a = some (.error e) → e ≠ .popOff ∧ e ≠ .popOffInterruptible
  restored : ∀ c p a s', (s.core c).proc = some p → next s c a = some (.ok s') →
    (s.thread (.proc p)).count = 1 → (s'.thread (.proc p)).count = 0 →
    (s'.core c).intr = (s.thread (.proc p)).first

/-- In every run the interrupt state follows the thread. -/
theorem interrupt_state_follows {as : List (Fin m × Act n L)} (hrun : Sys.Run Step .init as s) :
    Follows s := by
  have h := run_inv hrun
  refine ⟨fun c lk hmem => ?_, fun c => (h.runs c).noff, fun c a e hnext => ?_,
    fun c p a s' hp hnext => ?_⟩
  · have hruns := h.runs c
    have hcard := Finset.card_pos.mpr ⟨lk, hmem⟩
    exact hruns.off (by rw [hruns.count]; omega)
  · cases h.next hnext with
    | panic _ hpop hintr => exact ⟨hpop, hintr⟩
  · cases h.next hnext with
    | ok _ _ hlast => exact hlast p hp

/-- The steps of `acquire`. -/
def acquire (c : Fin m) (lk : Lock n L) : List (Fin m × Act n L) :=
  [(c, .read (some lk)), (c, .push), (c, .take)]

/-- A process turns interrupts on, acquires a lock, sleeps on one CPU, and is woken up and resumed
on another one. -/
def migrates (c c' : Fin m) (p : Fin n) (l : L) : List (Fin m × Act n L) :=
  acquire c (.proc p) ++ [(c, .swtch p), (c, .release (.proc p)), (c, .intrOn)] ++
    acquire c (.other l) ++ acquire c (.proc p) ++
    [(c, .release (.other l)), (c, .sched .sleeping), (c, .release (.proc p))] ++
    acquire c' (.proc p) ++ [(c', .wake p), (c', .swtch p)]

theorem interrupt_state_follows_migrates :
    ∃ s : State 1 2 Unit, Follows s ∧ (s.core 1).proc = some 0 ∧ (s.core 1).noff = 1 ∧
      (s.core 1).intr = false ∧ (s.thread (.proc 0)).first = true := by
  have hexec : (Sys.exec (fun s (e : Fin 2 × Act 1 Unit) => (next s e.1 e.2).bind Except.toOption)
      State.init (migrates 0 1 0 ())).any (fun s => (s.core 1).proc = some 0 ∧ (s.core 1).noff = 1 ∧
        (s.core 1).intr = false ∧ (s.thread (.proc 0)).first = true) = true := by
    decide +kernel
  obtain ⟨s, hs, hP⟩ := Sys.exists_of_any hexec
  have hrun := (Sys.exec_run hs).mono fun s a t hstep => Sys.eq_ok_of_toOption hstep
  exact ⟨s, interrupt_state_follows hrun, of_decide_eq_true hP⟩

end Xv6.Cpu
