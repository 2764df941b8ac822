-- SUMMARY: Who sets the killed flag of a process, and how a kill can reach a process that does not exist yet.
import Xv6.Kernel.Param
import Xv6.Proc.Table

/-!
# The killed flag

Slots are recycled: `freeproc` clears `killed`, and `allocproc` relies on that. A step
can do one of four things to a slot, and the killed flag of a live process is followed
through them from the step in which the process was born.
-/

namespace Xv6.Proc

variable {n : Nat} {s s' : Table n} {i p : Fin n} {a : Act n}

/-- The step makes slot `i` a process. -/
def Born (i : Fin n) : Fin n × Act n → Prop
  | (p, .userinit) => p = i
  | (_, .alloc j) => j = i
  | _ => False

/-- The step sets the flag of slot `i`: a fault of its process, or a `kkill`. -/
def Kills (i : Fin n) (pid : Int) : Fin n × Act n → Prop
  | (p, .fault) => p = i
  | (_, .hit j pid') => j = i ∧ pid' = pid
  | _ => False

/-- A `kkill` that finds its pid finds it in a slot that is in use. -/
def HitsProcess (s : Table n) : Fin n × Act n → Prop
  | (_, .hit i _) => (s.slot i).state ≠ .unused
  | _ => True

instance (s : Table n) (b : Fin n × Act n) : Decidable (HitsProcess s b) := by
  unfold HitsProcess
  split <;> infer_instance

/-- The same process, or still none, with the same flag. -/
structure Same (x y : Slot n) : Prop where
  pid : y.pid = x.pid
  killed : y.killed = x.killed
  unused : y.state = .unused ↔ x.state = .unused
  used : y.state = .used ↔ x.state = .used

/-- What the step `(p, a)` from `s` can do to slot `i`. -/
inductive Change (s : Table n) (p : Fin n) (a : Act n) (i : Fin n) (y : Slot n) : Prop
  | born (hb : Born i (p, a)) (hx : (s.slot i).state = .unused) (hy : y.state ≠ .unused)
      (hk : y.killed = (s.slot i).killed)
  | freed (hb : ¬ Born i (p, a)) (hx : (s.slot i).state ≠ .used) (hy : y = freeproc (s.slot i))
  | killed (hb : ¬ Born i (p, a)) (hk : Kills i (s.slot i).pid (p, a))
      (hx : HitsProcess s (p, a) → (s.slot i).state ≠ .unused)
      (hpid : y.pid = (s.slot i).pid) (hy : y.state = .unused ↔ (s.slot i).state = .unused)
      (hused : (s.slot i).state = .used → y.state = .used)
  | ready (ha : a = .setRunnable) (hpc : s.thread p = .parented i) (hy : y.state ≠ .unused)
      (hpid : y.pid = (s.slot i).pid) (hk : y.killed = (s.slot i).killed)
  | same (hb : ¬ Born i (p, a)) (hxy : Same (s.slot i) y)

/-! ## Slots that a step keeps -/

theorem Same.refl (x : Slot n) : Same x x := ⟨rfl, rfl, Iff.rfl, Iff.rfl⟩

theorem Same.trans {x y z : Slot n} (h : Same x y) (h' : Same y z) : Same x z :=
  ⟨h'.pid.trans h.pid, h'.killed.trans h.killed, h'.unused.trans h.unused, h'.used.trans h.used⟩

theorem Same.setSlot {x : Slot n} (h : Same (s.slot p) x) (i : Fin n) :
    Same (s.slot i) ((s.setSlot p x).slot i) := by
  by_cases hi : i = p
  · subst hi
    rw [Table.setSlot_self]
    exact h
  · rw [Table.setSlot_ne _ _ _ hi]
    exact .refl _

theorem Same.wakeup (s : Table n) (chan : Option (Chan n)) (i : Fin n) :
    Same (s.slot i) ((s.wakeup chan).slot i) := by
  unfold Table.wakeup
  dsimp only
  split
  · next h => exact ⟨rfl, rfl, by simp [h.1], by simp [h.1]⟩
  · exact .refl _

theorem Same.passChildren (s : Table n) (p init i : Fin n) :
    Same (s.slot i) ((s.passChildren p init).slot i) := by
  unfold Table.passChildren
  dsimp only
  split
  · exact ⟨rfl, rfl, Iff.rfl, Iff.rfl⟩
  · exact .refl _

theorem Same.reparent (s : Table n) (p init i : Fin n) :
    Same (s.slot i) ((s.reparent p init).slot i) := by
  unfold Table.reparent
  split
  · exact (Same.wakeup ..).trans (.passChildren ..)
  · exact .passChildren ..

/-! ## What a step does to a slot -/

/-- A step that replaces one slot. -/
theorem Change.setSlot {x : Slot n} {j : Fin n} (hj : Change s p a j x)
    (hother : ∀ k, k ≠ j → ¬ Born k (p, a)) (i : Fin n) :
    Change s p a i ((s.setSlot j x).slot i) := by
  by_cases hij : i = j
  · subst hij
    rw [Table.setSlot_self]
    exact hj
  · rw [Table.setSlot_ne _ _ _ hij]
    exact .same (hother i hij) (.refl _)

/-- Scheduling: a process stays the same when its state goes from one that is neither
`UNUSED` nor `USED` to another. -/
theorem Same.state {x y : Slot n} (hpid : y.pid = x.pid) (hkilled : y.killed = x.killed)
    (hx : x.state ≠ .unused ∧ x.state ≠ .used) (hy : y.state ≠ .unused ∧ y.state ≠ .used) :
    Same x y :=
  ⟨hpid, hkilled, iff_of_false hy.1 hx.1, iff_of_false hy.2 hx.2⟩

theorem Local.change {pc : Pc n} (hpc : s.thread p = pc) (hrun : (s.slot p).state = .running)
    (h : Local s p pc a s') (i : Fin n) : Change s p a i (s'.slot i) := by
  cases h with
  | sleep | exitSleep | waitSleep =>
    refine .same id (Same.setSlot (s := s) ?_ i)
    exact .state rfl rfl (by simp [hrun]) ⟨(by simp), (by simp)⟩
  | fault =>
    refine Change.setSlot (s := s) ?_ (fun _ _ => id) i
    exact .killed id rfl (by simp [hrun]) rfl Iff.rfl id
  | alloc hj =>
    refine Change.setSlot (s := s) ?_ ?_ i
    · exact .born rfl hj (by simp) rfl
    · exact fun k hk hb => hk (Eq.symm hb)
  | @allocFail j hj =>
    -- nobody saw the child: its slot was locked all the time
    by_cases hij : i = j
    · subst hij
      exact .freed id (by simp [hj]) (Table.setSlot_self ..)
    · refine .same id ?_
      rw [Table.setThread_slot, Table.setSlot_ne _ _ _ hij, Table.allocproc_slot,
        Table.setSlot_ne _ _ _ hij]
      exact .refl _
  | setParent =>
    refine .same id (Same.setSlot (s := s) ?_ i)
    exact ⟨rfl, rfl, Iff.rfl, Iff.rfl⟩
  | setRunnable =>
    refine Change.setSlot (s := s) ?_ (fun _ _ => id) i
    exact .ready rfl hpc (by simp) rfl rfl
  | @zombie status t hp hfree ht =>
    have hwoken : ∀ k, Same (s.slot k) (t.slot k) := by
      intro k
      rw [ht]
      exact (Same.reparent ..).trans (.wakeup ..)
    refine .same id ((hwoken i).trans (Same.setSlot (s := t) ?_ i))
    exact .state rfl rfl (by simp [(hwoken p).unused, (hwoken p).used, hrun]) ⟨(by simp), (by simp)⟩
  | reap hparent hj =>
    refine Change.setSlot (s := s) ?_ (fun _ _ => id) i
    exact .freed id (by simp [hj]) rfl
  | @hit j =>
    refine Change.setSlot (s := s) ?_ (fun _ _ => id) i
    refine .killed id ⟨rfl, rfl⟩ id rfl ?_ ?_
    · dsimp only
      split
      · next hsleep => simp [hsleep]
      · exact Iff.rfl
    · intro hused
      simp [hused]
  | _ => exact .same id (.refl _)

/-! ## Children under construction -/

/-- `kfork` of thread `p` is past `allocproc`, with a child in slot `np`. -/
def Making (s : Table n) (p np : Fin n) : Prop :=
  s.thread p = .forked np ∨ s.thread p = .parented np

/-- A child under construction is `USED`, and one thread makes it. There are no processes
before `userinit`. -/
structure Inv (s : Table n) : Prop where
  boot : s.booted = false → ∀ i, (s.slot i).state = .unused
  used : ∀ p np, Making s p np → (s.slot np).state = .used
  unique : ∀ p q np, Making s p np → Making s q np → p = q

theorem inv_init : Inv (init : Table n) where
  boot := fun _ _ => rfl
  used := by rintro p np (h | h) <;> cases h
  unique := by rintro p q np (h | h) <;> cases h

theorem Step.change (hinv : Inv s) (h : Step s (p, a) s') (i : Fin n) :
    Change s p a i (s'.slot i) := by
  cases h.view with
  | userinit hp hboot ht =>
    subst ht
    by_cases hi : i = p
    · subst hi
      refine .born rfl (hinv.boot hboot i) ?_ ?_ <;> simp
    · refine .same (Ne.symm hi) ?_
      simp only [Table.setThread_slot, Table.setSlot_ne _ _ _ hi, Table.allocproc_slot]
      exact .refl _
  | sched hp | yield hp | wakeup hp =>
    refine .same id (Same.setSlot (s := s) ?_ i)
    exact .state rfl rfl (by simp [hp]) ⟨(by simp), (by simp)⟩
  | thread hrun h => exact h.change rfl hrun i

theorem making_setThread {t : Table n} {pc : Pc n} {q np : Fin n}
    (h : Making (t.setThread p pc) q np) (ht : t.thread = s.thread)
    (hpc : pc ≠ .forked np ∧ pc ≠ .parented np) : Making s q np ∧ q ≠ p := by
  unfold Making Table.setThread at h
  by_cases hq : q = p
  · subst hq
    simp only [Function.update_self] at h
    exact (h.elim hpc.1 hpc.2).elim
  · simp only [Function.update_of_ne hq, ht] at h
    exact ⟨h, hq⟩

theorem Local.making {pc : Pc n} (hpc : s.thread p = pc) (h : Local s p pc a s') {q np : Fin n}
    (hm : Making s' q np) :
    (Making s q np ∧ (q = p → a ≠ .setRunnable)) ∨
      (q = p ∧ (s.slot np).state = .unused ∧ (s'.slot np).state = .used) := by
  cases h with
  | sleep | exitSleep => exact .inl ⟨hm, fun _ => by simp⟩
  | @alloc j hj =>
    by_cases hq : q = p
    · subst hq
      have hnp : j = np := by simpa [Making, Table.setThread] using hm
      subst hnp
      exact .inr ⟨rfl, hj, by simp⟩
    · simp only [Making, Table.setThread, Function.update_of_ne hq] at hm
      exact .inl ⟨hm, fun h => absurd h hq⟩
  | @setParent j hfree =>
    by_cases hq : q = p
    · subst hq
      have hnp : j = np := by simpa [Making, Table.setThread] using hm
      subst hnp
      exact .inl ⟨.inl hpc, fun _ => by simp⟩
    · simp only [Making, Table.setThread, Function.update_of_ne hq] at hm
      exact .inl ⟨hm, fun h => absurd h hq⟩
  | setRunnable =>
    obtain ⟨hm, hq⟩ := making_setThread hm rfl ⟨(by simp), (by simp)⟩
    exact .inl ⟨(making_setThread hm rfl ⟨(by simp), (by simp)⟩).1, fun h => absurd h hq⟩
  | zombie hp hfree ht =>
    subst ht
    obtain ⟨hm, hq⟩ := making_setThread hm (Table.reparent_thread ..) ⟨(by simp), (by simp)⟩
    exact .inl ⟨hm, fun h => absurd h hq⟩
  | _ =>
    obtain ⟨hm, hq⟩ := making_setThread (s := s) hm rfl ⟨(by simp), (by simp)⟩
    exact .inl ⟨hm, fun h => absurd h hq⟩

/-- A thread changes only its own position, and that of the child it starts. -/
theorem Step.making (h : Step s (p, a) s') {q np : Fin n} (hm : Making s' q np) :
    (Making s q np ∧ (q = p → a ≠ .setRunnable)) ∨
      (q = p ∧ (s.slot np).state = .unused ∧ (s'.slot np).state = .used) := by
  cases h.view with
  | userinit hp hboot ht =>
    subst ht
    exact .inl ⟨(making_setThread (s := s) hm rfl ⟨(by simp), (by simp)⟩).1, fun _ => by simp⟩
  | sched | yield | wakeup => exact .inl ⟨hm, fun _ => by simp⟩
  | thread hrun h => exact h.making rfl hm

theorem Local.booted {pc : Pc n} (h : Local s p pc a s') : s'.booted = s.booted := by
  cases h with
  | zombie hp hfree ht =>
    subst ht
    exact Table.reparent_booted ..
  | _ => rfl

theorem Step.booted (hinv : Inv s) (h : Step s (p, a) s') : s'.booted = true := by
  have hbooted : (s.slot p).state ≠ .unused → s.booted = true := by
    intro hp
    by_contra hnot
    exact hp (hinv.boot (by simpa using hnot) p)
  cases h.view with
  | userinit => rfl
  | sched hp | yield hp | wakeup hp => exact hbooted (by simp [hp])
  | thread hrun h => rw [h.booted, hbooted (by simp [hrun])]

theorem Step.used (hinv : Inv s) (h : Step s (p, a) s') {q np : Fin n} (hm : Making s' q np) :
    (s'.slot np).state = .used := by
  rcases h.making hm with ⟨hm, hq⟩ | ⟨-, -, hused⟩
  · have hx := hinv.used q np hm
    cases h.change hinv np with
    | born _ hfree => rw [hx] at hfree; cases hfree
    | freed _ hnot => exact absurd hx hnot
    | killed _ _ _ _ _ hused => exact hused hx
    | ready ha hpc => exact absurd ha (hq (hinv.unique q p np hm (.inr hpc)))
    | same _ hxy => exact hxy.used.mpr hx
  · exact hused

theorem Step.inv (hinv : Inv s) (h : Step s (p, a) s') : Inv s' where
  boot := fun hb => by rw [h.booted hinv] at hb; cases hb
  used := fun _ _ hm => h.used hinv hm
  unique := by
    intro q r np hq hr
    rcases h.making hq with ⟨hq, -⟩ | ⟨rfl, hfree, -⟩ <;>
      rcases h.making hr with ⟨hr, -⟩ | ⟨rfl, hfree', -⟩
    · exact hinv.unique q r np hq hr
    · rw [hinv.used q np hq] at hfree'
      cases hfree'
    · rw [hinv.used r np hr] at hfree
      cases hfree
    · rfl

/-! ## The flag of a live process -/

/-- The steps since slot `i` became a process for the last time. -/
def Lifetime (i : Fin n) (es since : List (Fin n × Act n)) : Prop :=
  ∃ pre b, es = pre ++ b :: since ∧ Born i b ∧ ∀ e ∈ since, ¬ Born i e

section
variable {es since : List (Fin n × Act n)} {e : Fin n × Act n}

theorem Lifetime.born (es : List (Fin n × Act n)) (h : Born i e) : Lifetime i (es ++ [e]) [] :=
  ⟨es, e, rfl, h, (by simp)⟩

theorem Lifetime.snoc (h : Lifetime i es since) (he : ¬ Born i e) :
    Lifetime i (es ++ [e]) (since ++ [e]) := by
  obtain ⟨pre, b, rfl, hb, hsince⟩ := h
  refine ⟨pre, b, by simp, hb, ?_⟩
  intro e' he'
  rcases List.mem_append.mp he' with h | h
  · exact hsince e' h
  · rw [List.mem_singleton.mp h]
    exact he

/-- What the steps so far say about a slot: if it is free, its flag is clear; if it is a
process whose flag is set, then something in its lifetime did that. -/
structure Traced (es : List (Fin n × Act n)) (i : Fin n) (x : Slot n) : Prop where
  clear : x.state = .unused → x.killed = false
  live : x.state ≠ .unused → ∃ since, Lifetime i es since ∧
    (x.killed = true → ∃ e ∈ since, Kills i x.pid e)

theorem Traced.same {x y : Slot n} (h : Traced es i x) (he : ¬ Born i e)
    (hlive : y.state = .unused ↔ x.state = .unused) (hpid : y.pid = x.pid)
    (hk : y.killed = x.killed) : Traced (es ++ [e]) i y where
  clear := by
    intro hy
    rw [hk]
    exact h.clear (hlive.mp hy)
  live := by
    intro hy
    obtain ⟨since, hsince, hkills⟩ := h.live (fun hx => hy (hlive.mpr hx))
    refine ⟨since ++ [e], hsince.snoc he, ?_⟩
    intro hkilled
    obtain ⟨e', he', hkill⟩ := hkills (hk ▸ hkilled)
    exact ⟨e', List.mem_append_left _ he', hpid.symm ▸ hkill⟩

end

theorem Step.traced {es : List (Fin n × Act n)} (hinv : Inv s) (hi : Traced es i (s.slot i))
    (hhit : HitsProcess s (p, a)) (h : Step s (p, a) s') : Traced (es ++ [(p, a)]) i (s'.slot i) := by
  cases h.change hinv i with
  | born hb hx hy hk =>
    refine ⟨fun h => absurd h hy, fun _ => ⟨[], .born es hb, fun hkilled => ?_⟩⟩
    -- the flag of a free slot was clear
    rw [hk, hi.clear hx] at hkilled
    cases hkilled
  | freed hb hx hy =>
    rw [hy]
    exact ⟨fun _ => rfl, fun h => absurd rfl h⟩
  | killed hb hk hx hpid hy hused =>
    obtain ⟨since, hsince, -⟩ := hi.live (hx hhit)
    refine ⟨fun h => absurd (hy.mp h) (hx hhit), fun _ => ?_⟩
    refine ⟨since ++ [(p, a)], hsince.snoc hb, fun _ => ?_⟩
    exact ⟨(p, a), by simp, hpid.symm ▸ hk⟩
  | ready ha hpc hy hpid hk =>
    have hx := hinv.used p i (.inr hpc)
    subst ha
    exact hi.same id (iff_of_false hy (by simp [hx])) hpid hk
  | same hb hxy => exact hi.same hb hxy.unused hxy.pid hxy.killed

theorem run_traced {es : List (Fin n × Act n)} (h : Sys.RunWhere Step HitsProcess init es s) :
    Inv s ∧ ∀ i, Traced es i (s.slot i) := by
  induction h with
  | nil => exact ⟨inv_init, fun i => ⟨fun _ => rfl, fun h => absurd rfl h⟩⟩
  | @snoc es b t u _ hhit hstep ih =>
    obtain ⟨p, a⟩ := b
    exact ⟨hstep.inv ih.1, fun i => hstep.traced ih.1 (ih.2 i) hhit⟩

/-- Along every run in which no `kkill` matches a free slot, a new process is not killed,
and the flag of a process is set only in its lifetime: by a `kkill` with its own pid or
by a fault of its own. -/
theorem kill_reaches_only_victim {es : List (Fin n × Act n)}
    (h : Sys.RunWhere Step HitsProcess init es s) :
    (∀ b s' i, Step s b s' → Born i b → (s'.slot i).killed = false) ∧
    ∀ i, (s.slot i).state ≠ .unused → (s.slot i).killed = true →
      ∃ since, Lifetime i es since ∧ ∃ e ∈ since, Kills i (s.slot i).pid e := by
  obtain ⟨hinv, htraced⟩ := run_traced h
  constructor
  · rintro ⟨p, a⟩ s' i hstep hborn
    cases hstep.change hinv i with
    | born _ hx _ hk => rw [hk, (htraced i).clear hx]
    | freed hb | killed hb | same hb => exact absurd hborn hb
    | ready ha =>
      subst ha
      exact hborn.elim
  · intro i hlive hkilled
    obtain ⟨since, hsince, hkills⟩ := (htraced i).live hlive
    exact ⟨since, hsince, hkills hkilled⟩

/-- The first process kills itself by its pid. -/
def selfKill : List (Fin NPROC × Act NPROC) :=
  [(0, .userinit), (0, .sched), (0, .callKill 1), (0, .hit 0 1)]

theorem kill_reaches_only_victim_selfKill :
    ∃ s, Sys.RunWhere Step HitsProcess init selfKill s ∧ (s.slot 0).killed = true ∧
      ∃ since, Lifetime 0 selfKill since ∧ ∃ e ∈ since, Kills 0 (s.slot 0).pid e := by
  have hrun : (Sys.exec (fun s b => if HitsProcess s b then next s b else none) init selfKill).any
      (fun s => (s.slot 0).state ≠ .unused ∧ (s.slot 0).killed) = true := by decide +kernel
  obtain ⟨s, hs, hlive⟩ := Sys.exists_of_any hrun
  obtain ⟨hlive, hkilled⟩ := of_decide_eq_true hlive
  have hwhere := Sys.exec_runWhere hs
  exact ⟨s, hwhere, hkilled, (kill_reaches_only_victim hwhere).2 0 hlive hkilled⟩

/-- The first process calls `kill(0)`, and then forks. Free slots have pid 0. -/
def killZero : List (Fin NPROC × Act NPROC) :=
  [(0, .userinit), (0, .sched), (0, .callKill 0), (0, .skip), (0, .hit 1 0),
    (0, .callFork), (0, .skip), (0, .alloc 1)]

instance (pid : Int) (b : Fin n × Act n) : Decidable (Kills i pid b) := by
  unfold Kills
  split <;> infer_instance

/-- The child is born killed, though nobody ever killed its pid. -/
theorem kill_zero_kills_unborn :
    ∃ s, Sys.Run Step (init : Table NPROC) killZero s ∧ (s.slot 1).state = .used ∧
      (s.slot 1).killed = true ∧ ∀ e ∈ killZero, ¬ Kills 1 (s.slot 1).pid e := by
  have hrun : (Sys.exec next init killZero).any (fun s => (s.slot 1).state = .used ∧
      (s.slot 1).killed ∧ ∀ e ∈ killZero, ¬ Kills 1 (s.slot 1).pid e) = true := by decide +kernel
  obtain ⟨s, hs, hchild⟩ := Sys.exists_of_any hrun
  exact ⟨s, Sys.exec_run hs, of_decide_eq_true hchild⟩

end Xv6.Proc
