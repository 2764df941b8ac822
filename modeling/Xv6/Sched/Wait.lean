-- SUMMARY: `kfork`, `kexit`, `reparent` and `kwait` keep families in order, and no parent sleeps while it has a zombie child.
import Xv6.Sched.Family

/-!
# Waiting for children

A process sleeps in `kwait` until it has a zombie child, on the address of its own slot and with
`wait_lock`. For each process this is a watched sleep channel. Here are the specifications of the
functions that use `wait_lock`, for the channel of any process `q`; the rest of the kernel touches
neither the lock nor the channel.
-/

namespace Xv6.Sched

open Typestate

variable {K : Sig} {n m : Nat} {P : Client K n}

/-- `q` has a zombie child. -/
def View.Bereaved (q : Fin n) (F : View n) : Prop := ∃ i, F.parent i = some q ∧ F.zombie i

/-- `p` has no children but in `ps`. -/
def View.Orphans (p : Fin n) (ps : List (Fin n)) (F : View n) : Prop :=
  ∀ i, i ∈ ps ∨ F.parent i ≠ some p

/-- `p` has no zombie children but in `ps`. -/
def View.Spared (p : Fin n) (ps : List (Fin n)) (F : View n) : Prop :=
  ∀ i, i ∈ ps ∨ F.parent i ≠ some p ∨ ¬ F.zombie i

/-- Another slot is being created. -/
def Know.forChild (l : Know K n) (c : Option (Fin n)) : Know K n := { l with child := c }

namespace Kin

/-- Operations after which `q` has a zombie child only if it had one before. -/
def calm (q : Fin n) (b : Know K n × Kin n) : Op K n → Prop
  | .write i (.exit _) => ∀ p, b.2.fam = some p → ∀ F, p F → F.parent i ≠ some q
  | .write i (.parent q') => q' = q → b.1.child = some i
  | _ => True

def watch (q : Fin n) (m : Nat) : Watch K n m (Know K n × Kin n) where
  lk := .wait
  ch := .proc q
  cond s := s.view.Bereaved q
  know := Prod.fst
  calm := calm q
  off b := ∃ p, b.2.fam = some p ∧ ∀ F, p F → ¬ F.Bereaved q
  lk_ne := Lock.wait_ne

/-- All rules. -/
def rules [NeZero n] (q : Fin n) (m : Nat) :
    Typestate (Op K n) Op.Res ((Know K n × Kin n) × Mark n) := layered layer (watch q m)

/-! ## Code that does not touch families -/

/-- An operation that touches neither `wait_lock` nor parents and zombies, and neither allocates
nor frees a slot. -/
def Foreign : Op K n → Prop
  | .acquire lk | .release lk => lk ≠ .wait
  | .write _ (.state _) | .write _ .awake | .write _ .killed => True
  | .write _ (.sleep chan) => ∀ q, chan ≠ some (.proc q)
  | .write _ _ => False
  | _ => True

theorem foreign_of_inner (o : Op K n) (h : o.Inner) : Foreign o := by
  cases o with
  | acquire lk | release lk =>
    cases lk with
    | proc i => exact (Lock.wait_ne i).symm
    | _ => exact h.elim
  | act a => exact h.elim
  | write i w =>
    cases w with
    | state | awake | killed => trivial
    | _ => exact h.elim
  | _ => trivial

variable {q : Fin n} {l : Know K n} {o : Op K n} {w : Mark n} {α : Type}
  {fam : Option (View n → Prop)} {born : Option (Fin n)}

/-- Such an operation leaves what is known about families. -/
theorem afterFam_foreign (ho : Foreign o) (r : o.Res) : afterFam fam o r fam := by
  cases o with
  | acquire lk | release lk => exact .inr ⟨ho, rfl⟩
  | read i => exact .inl rfl
  | write i w =>
    cases fam with
    | none => exact .inl ⟨rfl, rfl⟩
    | some p =>
      refine .inr ⟨p, p, rfl, rfl, fun F hF => ?_⟩
      cases w with
      | state | awake | killed | sleep => exact hF
      | _ => exact ho.elim
  | _ => rfl

theorem afterSeen_none (r : o.Res) : afterSeen l none o r none := by
  cases o with
  | read i => exact .inl rfl
  | _ => rfl

theorem calm_foreign (ho : Foreign o) (b : Know K n × Kin n) : calm q b o := by
  cases o with
  | write i w =>
    cases w with
    | exit | parent => exact ho.elim
    | _ => trivial
  | _ => trivial

/-- A process makes itself or a sleeping one `RUNNABLE` if it creates none. -/
theorem rouse_of_can {i : Fin n} (hchild : l.child = none) (hcan : l.canWrite i (.state .runnable)) :
    l.me = some i ∨ l.known i = some .sleeping := by
  obtain ⟨-, ⟨-, hme⟩ | hknown | hi⟩ := hcan
  · exact .inl hme
  · exact .inr hknown
  · cases hchild.symm.trans hi

theorem child_foreign (ho : Foreign o) (hchild : l.child = none) (r : o.Res) :
    (l.after o r).child = none := by
  cases o with
  | read i =>
    simp only [Know.after]
    split <;> exact hchild
  | write i w =>
    cases w with
    | state x => cases x <;> simp [Know.after, Know.wrote, Know.see, apply_ite Know.child, hchild]
    | awake | killed | sleep => exact hchild
    | _ => exact ho.elim
  | _ => exact hchild

/-- Operations of interrupts. -/
def Brief (o : Op K n) : Prop := Foreign o ∧ ∀ i, o ≠ .swtchTo i

theorem brief_of_inner (o : Op K n) (h : o.Inner) : Brief o := by
  refine ⟨foreign_of_inner o h, ?_⟩
  rintro i rfl
  exact h

section
variable {c : Option (Fin n)}

theorem can_forChild (ho : Brief o) (hchild : l.child = none) (hcan : l.can o) :
    (l.forChild c).can o := by
  cases o with
  | write i w =>
    cases w with
    | state x =>
      cases x with
      | runnable =>
        obtain ⟨hheld, hrun | hknown | hi⟩ := hcan
        · exact ⟨hheld, .inl hrun⟩
        · exact ⟨hheld, .inr (.inl hknown)⟩
        · cases hchild.symm.trans hi
      | _ => exact hcan
    | awake | killed | sleep => exact hcan
    | _ => exact ho.1.elim
  | setContext i => cases hchild.symm.trans hcan
  | swtchTo i => exact absurd rfl (ho.2 i)
  | _ => exact hcan

theorem after_forChild (ho : Brief o) (hchild : l.child = none) (hcan : l.can o) (r : o.Res) :
    (l.forChild c).after o r = (l.after o r).forChild c := by
  cases o with
  | read i =>
    by_cases hin : .proc i ∈ l.held <;> simp [Know.after, Know.forChild, Know.see, hin]
  | write i w =>
    cases w with
    | state x =>
      cases x with
      | runnable =>
        simp only [Know.after, Know.wrote]
        obtain hme | hknown := rouse_of_can hchild hcan
        · rw [if_pos hme, if_pos (show (l.forChild c).me = some i from hme)]
          rfl
        · by_cases hme : l.me = some i
          · rw [if_pos hme, if_pos (show (l.forChild c).me = some i from hme)]
            rfl
          · rw [if_neg hme, if_neg (show (l.forChild c).me ≠ some i from hme), if_pos hknown,
              if_pos (show (l.forChild c).known i = some .sleeping from hknown)]
            rfl
      | running => rfl
      | _ => exact hcan.elim
    | awake | killed | sleep => rfl
    | _ => exact ho.1.elim
  | _ => rfl

end

theorem all_handler (x : Handler K) : (x.code : KCode K n Unit).All Brief := by
  refine (Code.all_perform ⟨by simp [Foreign], by simp⟩).bind fun _ =>
    Code.All.bind ?_ fun _ => Code.all_perform ⟨by simp [Foreign], by simp⟩
  induction x.body with
  | ret a => trivial
  | op o k ih =>
    refine Code.All.bind ?_ ih
    cases o with
    | act a => exact Code.all_perform ⟨trivial, (by simp)⟩
    | wakeup ch => exact all_wakeup brief_of_inner

variable [NeZero n]

theorem Foreign.quiet (o : Op K n) (ho : Foreign o) :
    Quiet layer (watch q m) (· = none) ⟨fam, none, none⟩ o where
  can l hchild hcan := by
    cases o with
    | write i w =>
      cases w with
      | state x =>
        cases x with
        | runnable => exact or_assoc.mp (.inl (rouse_of_can hchild hcan))
        | _ => trivial
      | awake | killed | sleep => trivial
      | _ => exact ho.elim
    | _ => trivial
  after l r _ _ := by
    refine ⟨afterFam_foreign ho r, ?_, afterSeen_none r⟩
    cases o with
    | write i w =>
      cases w with
      | state x =>
        cases x with
        | runnable => exact (ite_self none).symm
        | _ => rfl
      | parent => exact ho.elim
      | _ => rfl
    | _ => rfl
  keep l r hchild := child_foreign ho hchild r
  calm l := calm_foreign ho _
  ne_acquire := by
    rintro rfl
    exact ho rfl
  ne_release := by
    rintro rfl
    exact ho rfl
  ne_sleep i := by
    rintro rfl
    exact ho q rfl

theorem quiet_of_inner (o : Op K n) (ho : o.Inner) :
    Quiet layer (watch q m) (· = none) ⟨fam, none, none⟩ o := (foreign_of_inner o ho).quiet

/-- Operations that write to no slot are quiet for a process that creates another one, too. -/
theorem quiet_of_plain (o : Op K n) (ho : o.Plain) :
    Quiet layer (watch q m) (fun _ => True) ⟨fam, born, none⟩ o := by
  have hquiet : Quiet layer (watch q m) (· = none) ⟨fam, none, none⟩ o := quiet_of_inner o ho.inner
  have hwrite (i : Fin n) (w : Write K n) : o ≠ .write i w := by
    rintro rfl
    exact ho
  refine ⟨fun l _ _ => ?_, fun l r _ _ => ?_, fun _ _ _ => trivial, fun _ => calm_foreign (foreign_of_inner o ho.inner) _,
    hquiet.ne_acquire, hquiet.ne_release, hquiet.ne_sleep⟩
  · cases o with
    | write i w => exact absurd rfl (hwrite i w)
    | _ => trivial
  · exact ⟨afterFam_foreign (foreign_of_inner o ho.inner) r, (afterBorn_other hwrite).symm, afterSeen_none r⟩

/-- Slots are allocated and freed before they have a parent. -/
theorem quiet_alloc (i : Fin n) (pid : Int) :
    Quiet layer (watch q m) (fun _ => True) (K := K) .empty (.write i (.alloc pid)) :=
  ⟨fun _ _ _ => trivial, fun _ _ _ _ => ⟨.inl ⟨rfl, rfl⟩, rfl, rfl⟩, fun _ _ _ => trivial,
    fun _ => trivial, (by simp), (by simp), (by simp)⟩

theorem quiet_free (i : Fin n) : Quiet layer (watch q m) (fun _ => True) (K := K) .empty (.write i .free) :=
  ⟨fun _ _ _ h => (by cases h), fun _ _ _ _ => ⟨.inl ⟨rfl, rfl⟩, rfl, rfl⟩, fun _ _ _ => trivial,
    fun _ => trivial, (by simp), (by simp), (by simp)⟩

/-! ## Interrupts

Interrupts may come while a process creates another one. Their code does not notice. -/

section
variable {c : Option (Fin n)}

theorem wp_interrupt {x : KCode K n α} {R : α → Know K n → Prop}
    {Q : α → (Know K n × Kin n) × Mark n → Prop} (h : (switching K n).wp R x l)
    (hchild : l.child = none) (hx : x.All Brief) (hw : w ≠ .window)
    (hQ : ∀ a l', R a l' → Q a ((l'.forChild c, ⟨fam, born, none⟩), w)) :
    (rules q m).wp Q x ((l.forChild c, ⟨fam, born, none⟩), w) := by
  induction x generalizing l with
  | ret a => exact hQ a l h
  | op o k ih =>
    obtain ⟨ho, hrest⟩ := hx
    have hquiet : Quiet layer (watch q m) (· = none) ⟨fam, none, none⟩ o := ho.1.quiet
    have hcan : can (l.forChild c) ⟨fam, born, none⟩ o := by
      cases o with
      | write i w =>
        cases w with
        | state x =>
          cases x with
          | runnable => exact or_assoc.mp (.inl (rouse_of_can (l := l) hchild h.1))
          | _ => trivial
        | awake | killed | sleep => trivial
        | _ => exact ho.1.elim
      | _ => trivial
    have hborn : born = afterBorn (l.forChild c) born o := by
      cases o with
      | write i w =>
        cases w with
        | state x =>
          cases x with
          | runnable => exact (if_pos (rouse_of_can (l := l) hchild h.1)).symm
          | _ => rfl
        | parent => exact ho.1.elim
        | _ => rfl
      | _ => rfl
    refine ⟨⟨⟨can_forChild ho hchild h.1, hcan⟩, .inl (calm_foreign ho.1 _), ?_, ?_⟩, fun r hr => ?_⟩
    · exact fun heq => absurd heq hquiet.ne_release
    · exact fun i heq => absurd heq (hquiet.ne_sleep i)
    obtain ⟨l', rfl, hk⟩ := h.2 r hr.1.1
    refine ⟨(((l.after o r).forChild c, ⟨fam, born, none⟩), w), ⟨⟨?_, ?_⟩, ?_⟩, ?_⟩
    · exact (after_forChild ho hchild h.1 r).symm
    · exact ⟨afterFam_foreign ho.1 r, hborn, afterSeen_none r⟩
    · cases w with
      | window => exact absurd rfl hw
      | out => exact .inr ⟨hquiet.ne_acquire, rfl⟩
      | held ok clear =>
        exact .inr ⟨hquiet.ne_release, ok, clear, rfl, fun hok => ⟨hok, calm_foreign ho.1 _⟩,
          fun _ hj => .inl hj⟩
    · exact ih r hk (child_foreign ho.1 hchild r) (hrest r)

end

/-! ## `kfork` -/

theorem exchange {seen : Option (Fin n × Int × Int)} :
    Layered.Exchange (layer (K := K)) (watch q m) ⟨fam, born, seen⟩ ⟨none, born, none⟩
      ⟨some fun _ => True, born, none⟩ where
  release _ := ⟨trivial, fun _ => ⟨.inl ⟨rfl, rfl⟩, rfl, rfl⟩⟩
  acquire _ := ⟨trivial, fun _ => ⟨.inl ⟨rfl, rfl⟩, rfl, rfl⟩⟩
  calm_release _ := trivial
  calm_acquire _ := trivial

/-- `kfork` after `allocproc`, if memory suffices. -/
theorem wp_kforkChild {p np : Fin n} (hl : Switching.AtClient l) (hme : l.me = some p)
    (hnp : l.me ≠ some np) :
    (rules q m).wp (fun _ y => y = ((l, .empty), .out)) (do
      let x ← read np
      release (.proc np)
      acquire .wait
      write np (.parent p)
      release .wait
      acquire (.proc np)
      write np (.state .runnable)
      release (.proc np)
      pure x.pid) ((((Switching.Know.withChild l np).lock (.proc np)).see np .used, .empty), .out) := by
  have hchild := hl.calm.withChild (p := np)
  have hmem : Lock.proc np ∈ (((Switching.Know.withChild l np).lock (.proc np)).see np .used).held :=
    List.mem_cons_self
  simp only [wp_bind]
  refine Layered.wp_quiet (o := .read np) trivial (quiet_of_plain _ trivial) trivial Mark.out_ne fun x _ _ => ?_
  rw [Know.after, if_pos hmem, Switching.see_see]
  refine Layered.wp_quiet (o := .release (.proc np)) (by simp [Know.can, hchild.kept])
    (quiet_of_plain _ trivial) trivial Mark.out_ne fun _ _ _ => ?_
  rw [Know.after, hchild.unlock_see]
  refine Layered.wp_acquire (e := .empty) rfl exchange ?_
  -- the only write to `p->parent` that gives a parent to a slot without one
  refine ⟨⟨⟨trivial, _, rfl, .inl ⟨rfl, rfl, hl.run, hme⟩⟩, .inl fun _ => rfl, (by simp), (by simp)⟩, fun _ _ => ?_⟩
  refine ⟨(((Switching.Know.withChild l np).lock .wait, ⟨some fun _ => True, some np, none⟩),
    .held True fun i => (Switching.Know.withChild l np).me = some i ∧ l.phase = .run), ⟨⟨rfl, ?_⟩, ?_⟩, ?_⟩
  · exact ⟨.inr ⟨_, _, rfl, rfl, fun _ _ => trivial⟩, (if_pos rfl).symm, rfl⟩
  · exact .inr ⟨(by simp), _, _, rfl, fun h => ⟨h, fun _ => rfl⟩, fun _ h => .inl h⟩
  refine Layered.wp_release exchange (.inl trivial) ?_
  have hwait : ((Switching.Know.withChild l np).lock .wait).unlock (watch q m).lk =
      Switching.Know.withChild l np := hchild.unlock_lock
  rw [hwait]
  refine Layered.wp_quiet (o := .acquire (.proc np)) trivial (quiet_of_plain _ trivial) trivial Mark.out_ne
    fun _ _ _ => ?_
  have hother : ¬ (((Switching.Know.withChild l np).lock (.proc np)).me = some np ∨
      ((Switching.Know.withChild l np).lock (.proc np)).known np = some .sleeping) := by
    rintro (heq | heq)
    · exact hnp heq
    · simp [Switching.Know.withChild, Know.lock, hl.calm.known] at heq
  refine ⟨⟨⟨⟨List.mem_cons_self, .inr (.inr rfl)⟩, .inr (.inr rfl)⟩, .inl trivial, (by simp), (by simp)⟩, fun _ _ => ?_⟩
  refine ⟨(((l.lock (.proc np)).see np .runnable, .empty), .out), ⟨⟨?_, ?_⟩, .inr ⟨(by simp), rfl⟩⟩, ?_⟩
  · exact (Switching.wrote_start hl.calm hl.child hnp).symm
  · exact ⟨.inl ⟨rfl, rfl⟩, (if_neg hother).symm, rfl⟩
  exact Layered.wp_releaseSlot quiet_of_inner hl.calm hl.child Mark.out_ne rfl

theorem wp_kfork (hl : Switching.AtClient l) :
    (rules q m).wp (fun _ y => y = ((l, .empty), .out)) kfork ((l, .empty), .out) := by
  rw [kfork, wp_bind]
  refine Layered.wp_self quiet_of_inner hl.child Mark.out_ne fun p hp => ?_
  obtain ⟨hphase, hme⟩ := hl.calm.run_of_proc hp
  rw [wp_bind]
  refine Layered.wp_frame (Switching.wp_allocprocFrom hl.calm hphase hl.child _)
    (all_allocprocFrom quiet_of_plain quiet_alloc quiet_free _) trivial Mark.out_ne fun r l' hr => ?_
  cases r with
  | none =>
    obtain rfl : l' = l := hr
    rfl
  | some np =>
    obtain ⟨hnp, rfl⟩ := hr
    simp only []
    rw [wp_bind]
    refine Layered.wp_quiet (o := .choose) trivial (quiet_of_plain _ trivial) trivial Mark.out_ne
      fun fails _ _ => ?_
    simp only [Know.after]
    rw [wp_ite]
    split
    · simp only [wp_bind]
      refine Layered.wp_quiet (o := .write np .free) ⟨List.mem_cons_self, rfl⟩ (quiet_free np) trivial
        (by simp) fun _ _ _ => ?_
      rw [Know.after, Switching.wrote_free hl.child]
      exact Layered.wp_releaseSlot quiet_of_inner hl.calm hl.child Mark.out_ne rfl
    · exact wp_kforkChild hl hme hnp

/-! ## `kexit` -/

/-- A look at a slot, with `wait_lock`. -/
theorem wp_readFam {i : Fin n} {p : View n → Prop} {Q : Slot K n → (Know K n × Kin n) × Mark n → Prop}
    (hfree : .proc i ∉ l.held) (hw : w ≠ .window)
    (hQ : ∀ x : Slot K n, ∃ f : View n → Prop,
      (∀ F, p F → F.parent i = x.parent → (F.zombie i ↔ x.state = .zombie) → f F) ∧
      Q x ((l, ⟨some f, none, none⟩), w)) :
    (rules q m).wp Q (read i) ((l, ⟨some p, none, none⟩), w) := by
  have hquiet : Quiet (layer (K := K)) (watch q m) (· = none) ⟨some p, none, none⟩ (.read i) :=
    quiet_of_inner (.read i) trivial
  refine ⟨⟨⟨trivial, trivial⟩, Layered.can_quiet hquiet⟩, fun x _ => ?_⟩
  obtain ⟨f, hf, hQ⟩ := hQ x
  refine ⟨((l, ⟨some f, none, none⟩), w), ⟨⟨(if_neg hfree).symm, ?_⟩, ?_⟩, hQ⟩
  · exact ⟨.inr ⟨p, f, rfl, rfl, hf⟩, rfl, .inl rfl⟩
  · exact Layered.after_quiet hquiet hw x

section
variable {ok : Prop} {clear : Fin n → Prop} {p : Fin n}

/-- `wakeup` on any channel. -/
theorem wp_wakeup (hcalm : Switching.Calm l) (hchild : l.child = none)
    (hmine : ∀ i, l.proc = some i → clear i) (chan : Option (Chan K n)) :
    (rules q m).wp (fun _ y => ∃ clear', y = ((l, ⟨fam, none, none⟩), .held ok clear') ∧
      (∀ i, clear i → clear' i) ∧ (chan = some (.proc q) → ∀ i, clear' i))
      (wakeup chan) ((l, ⟨fam, none, none⟩), .held ok clear) := by
  by_cases hchan : chan = some (.proc q)
  · subst hchan
    refine (Layered.wp_wakeup (W := watch q m) quiet_of_inner rfl hcalm hchild hmine).imp fun _ y hy => ?_
    obtain ⟨clear', rfl, hall⟩ := hy
    exact ⟨clear', rfl, fun i _ => hall i, fun _ => hall⟩
  · refine Layered.wp_frame (Switching.wp_wakeup hcalm) (all_wakeup quiet_of_inner) hchild Mark.held_ne ?_
    rintro _ _ rfl
    exact ⟨clear, rfl, fun _ => id, fun heq => absurd heq hchan⟩

/-- `wait_lock` is held and may be released. -/
def Done (l : Know K n) (fam : Option (View n → Prop)) (y : (Know K n × Kin n) × Mark n) : Prop :=
  ∃ ok clear, y = ((l, ⟨fam, none, none⟩), .held ok clear) ∧ (ok ∨ ∀ i, clear i) ∧
    ∀ i, l.proc = some i → clear i

theorem wp_reparentOne {pp : Fin n} {ps : List (Fin n)} {y : (Know K n × Kin n) × Mark n}
    (hcalm : Switching.Calm l) (hchild : l.child = none) (hinit : p ≠ initproc)
    (hy : Done l (some (View.Orphans p (pp :: ps))) y) :
    (rules q m).wp (fun _ => Done l (some (View.Orphans p ps))) (reparentOne p pp) y := by
  obtain ⟨ok, clear, rfl, hdone, hmine⟩ := hy
  rw [reparentOne, wp_bind]
  refine wp_readFam (hcalm.free pp) Mark.held_ne fun x => ?_
  by_cases hx : x.parent = some p
  · refine ⟨fun F => View.Orphans p (pp :: ps) F ∧ F.parent pp = some p, ?_, ?_⟩
    · exact fun F hF hparent _ => ⟨hF, hparent.trans hx⟩
    rw [if_pos hx, wp_bind]
    refine ⟨⟨⟨trivial, _, rfl, .inr ⟨rfl, ?_⟩⟩, .inr ⟨_, _, rfl⟩, (by simp), (by simp)⟩, fun _ _ => ?_⟩
    · intro F hF
      rw [hF.2]
      simp
    -- if `q` is init, it may have got a zombie, and is woken up
    refine ⟨((l, ⟨some (View.Orphans p ps), none, none⟩), .held (ok ∧ initproc ≠ q) clear),
      ⟨⟨rfl, .inr ⟨_, _, rfl, rfl, ?_⟩, ?_, rfl⟩, .inr ?_⟩, ?_⟩
    · intro F hF i
      by_cases hi : i = pp
      · subst hi
        exact .inr (by simpa [View.wrote] using hinit.symm)
      · obtain hmem | hne := hF.1 i
        · exact .inl (List.mem_of_ne_of_mem hi hmem)
        · exact .inr (by simpa [View.wrote, hi] using hne)
    · exact (if_neg (by simp [hchild])).symm
    · exact ⟨(by simp), _, _, rfl, fun h => ⟨h.1, fun heq => absurd heq h.2⟩, fun _ h => .inl h⟩
    refine (wp_wakeup hcalm hchild hmine _).imp fun _ y hy => ?_
    obtain ⟨clear', rfl, hsub, hall⟩ := hy
    refine ⟨_, clear', rfl, ?_, fun i hi => hsub i (hmine i hi)⟩
    by_cases hq : initproc = q
    · exact .inr (hall (hq ▸ rfl))
    · exact hdone.imp (⟨·, hq⟩) fun h i => hsub i (h i)
  · refine ⟨View.Orphans p ps, fun F hF hparent _ i => ?_, ?_⟩
    · obtain hi | hi := hF i
      · obtain rfl | hi := List.mem_cons.mp hi
        · exact .inr (hparent ▸ hx)
        · exact .inl hi
      · exact .inr hi
    · rw [if_neg hx]
      exact ⟨ok, clear, rfl, hdone, hmine⟩

theorem wp_reparent {y : (Know K n × Kin n) × Mark n} (hcalm : Switching.Calm l)
    (hchild : l.child = none) (hinit : p ≠ initproc) (hy : Done l (some fun _ => True) y) :
    (rules q m).wp (fun _ => Done l (some (View.Orphans p []))) (reparent p) y := by
  refine wp_forM (I := fun ps => Done l (some (View.Orphans p ps)))
    (fun pp ps _ _ hy => wp_reparentOne hcalm hchild hinit hy) ?_
  have hall : View.Orphans p (List.finRange n) = fun _ => True :=
    funext fun F => eq_true fun i => .inl (List.mem_finRange i)
  rwa [hall]

theorem wp_kexit {Q : α → (Know K n × Kin n) × Mark n → Prop} (hl : Switching.AtClient l)
    {status : Int} : (rules q m).wp Q (kexit status) ((l, .empty), .out) := by
  rw [kexit, wp_bind]
  refine Layered.wp_self quiet_of_inner hl.child Mark.out_ne fun p hp => ?_
  obtain ⟨hphase, hme⟩ := hl.calm.run_of_proc hp
  rw [wp_ite]
  split
  · exact Layered.wp_panic quiet_of_inner hl.child
  next hinit =>
  have hlock : Switching.AtClient (l.lock .wait) := hl.lock Lock.wait_ne
  simp only [wp_bind]
  refine Layered.wp_acquire (e := .empty) rfl exchange ?_
  have hmine (i : Fin n) (hi : (l.lock .wait).proc = some i) : l.me = some i ∧ l.phase = .run :=
    (hl.calm.run_of_proc (p := i) hi).symm
  refine (wp_reparent hlock.calm hl.child hinit ⟨_, _, rfl, .inl trivial, hmine⟩).imp fun _ y hy => ?_
  obtain ⟨ok, clear, rfl, hdone, hmine⟩ := hy
  refine wp_readFam (hlock.calm.free p) Mark.held_ne fun x =>
    ⟨fun F => View.Orphans p [] F ∧ F.parent p = x.parent, fun F hF hparent _ => ⟨hF, hparent⟩, ?_⟩
  refine (wp_wakeup hlock.calm hl.child hmine _).imp fun _ y hy => ?_
  obtain ⟨clear', rfl, hsub, hall⟩ := hy
  refine Layered.wp_acquireSlot quiet_of_inner hl.child Mark.held_ne ?_
  -- `q` gets a zombie only if it is the parent, and then it has been woken up
  refine ⟨⟨⟨⟨List.mem_cons_self, hphase, hme, hl.child⟩, hinit, _, rfl, ?_⟩, .inr ⟨_, _, rfl⟩, (by simp), (by simp)⟩,
    fun _ _ => ?_⟩
  · exact fun F hF j => (hF.1 j).resolve_left List.not_mem_nil
  refine ⟨((((l.lock .wait).lock (.proc p)).wrote p (.exit status), ⟨some fun _ => True, none, none⟩),
    .held (ok ∧ x.parent ≠ some q) clear'), ⟨⟨rfl, .inr ⟨_, _, rfl, rfl, fun _ _ => trivial⟩, rfl, rfl⟩, .inr ?_⟩, ?_⟩
  · refine ⟨(by simp), _, _, rfl, fun h => ⟨h.1, ?_⟩, fun _ h => .inl h⟩
    rintro _ ⟨⟩ F hF
    rw [hF.2]
    exact h.2
  refine Layered.wp_release exchange ?_ ?_
  · by_cases hq : x.parent = some q
    · exact .inr (hall (by rw [hq]; rfl))
    · exact hdone.imp (⟨·, hq⟩) fun h i => hsub i (h i)
  refine Layered.wp_frame (R := fun _ l' => l'.child = none)
    (Switching.wp_sched (p := p) rfl hme fun _ => hl.child) (all_sched quiet_of_inner) hl.child Mark.out_ne ?_
  exact fun _ l' hl' => Layered.wp_panic quiet_of_inner hl'

/-! ## `kwait` -/

/-- A look at a slot with both locks. -/
theorem wp_readSeen {i : Fin n} {p : View n → Prop} {Q : Slot K n → (Know K n × Kin n) × Mark n → Prop}
    (hw : w ≠ .window)
    (hQ : ∀ x : Slot K n, (l.phase = .run → l.me = some i → x.state = .running) →
      ∃ f : View n → Prop, (∀ F, p F → (F.zombie i ↔ x.state = .zombie) → f F) ∧
      Q x (((l.lock (.proc i)).see i x.state, ⟨some f, none, some (i, x.pid, x.xstate)⟩), w)) :
    (rules q m).wp Q (read i) ((l.lock (.proc i), ⟨some p, none, none⟩), w) := by
  have hquiet : Quiet (layer (K := K)) (watch q m) (· = none) ⟨some p, none, none⟩ (.read i) :=
    quiet_of_inner (.read i) trivial
  refine ⟨⟨⟨trivial, trivial⟩, Layered.can_quiet hquiet⟩, fun x hx => ?_⟩
  obtain ⟨f, hf, hQ⟩ := hQ x hx.1.1.2
  refine ⟨(((l.lock (.proc i)).see i x.state, ⟨some f, none, some (i, x.pid, x.xstate)⟩), w), ⟨⟨?_, ?_⟩, ?_⟩, hQ⟩
  · exact (Layered.after_read x).symm
  · exact ⟨.inr ⟨p, f, rfl, rfl, fun F hF _ => hf F hF⟩, rfl, .inr ⟨List.mem_cons_self, rfl⟩⟩
  · exact Layered.after_quiet hquiet hw x

theorem wp_releaseSeen {i : Fin n} {x : Proc.ProcState} {seen : Option (Fin n × Int × Int)}
    {Q : Unit → (Know K n × Kin n) × Mark n → Prop} (hcalm : Switching.Calm l) (hw : w ≠ .window)
    (hQ : Q () ((l, ⟨fam, none, none⟩), w)) :
    (rules q m).wp Q (release (.proc i)) (((l.lock (.proc i)).see i x, ⟨fam, none, seen⟩), w) := by
  have hquiet : Quiet (layer (K := K)) (watch q m) (· = none) ⟨fam, none, none⟩ (.release (.proc i)) :=
    quiet_of_inner (.release (.proc i)) trivial
  refine ⟨⟨⟨by simp [switching, Know.can, hcalm.kept], trivial⟩, .inl trivial,
    fun heq => absurd (Op.release.inj heq).symm ((watch q m).lk_ne i), (by simp)⟩, fun r _ => ?_⟩
  refine ⟨((l, ⟨fam, none, none⟩), w), ⟨⟨hcalm.unlock_see.symm, .inr ⟨(by simp), rfl⟩, rfl, rfl⟩, ?_⟩, hQ⟩
  exact Layered.after_quiet hquiet hw r

theorem wp_releaseWait {Q : Unit → (Know K n × Kin n) × Mark n → Prop} (hdone : ok ∨ ∀ i, clear i)
    (hQ : Q () ((l.unlock .wait, .empty), .out)) :
    (rules q m).wp Q (release .wait) ((l, ⟨fam, none, none⟩), .held ok clear) :=
  Layered.wp_release exchange hdone hQ

theorem wp_kwaitFound {pp : Fin n} {copy : Bool} {y : Slot K n} {f : View n → Prop}
    (hcalm : Switching.Calm l) (hproc : l.proc = some p) (hy : y.state = .zombie) (hme : l.me ≠ some pp)
    (hf : ∀ F, f F → F.parent pp = some p) (hdone : ok ∨ ∀ i, clear i) :
    (rules q m).wp (fun _ z => z = ((l.unlock .wait, .empty), .out)) (kwaitFound copy pp y)
      (((l.lock (.proc pp)).see pp y.state, ⟨some f, none, some (pp, y.pid, y.xstate)⟩), .held ok clear) := by
  have hfails : (rules q m).wp (fun _ z => z = (((l.lock (.proc pp)).see pp y.state,
      ⟨some f, none, some (pp, y.pid, y.xstate)⟩), .held ok clear)) (copyoutFails copy)
      (((l.lock (.proc pp)).see pp y.state, ⟨some f, none, some (pp, y.pid, y.xstate)⟩), .held ok clear) := by
    rw [copyoutFails, wp_ite]
    split
    · refine ⟨⟨⟨trivial, trivial⟩, .inl trivial, (by simp), (by simp)⟩, fun r _ => ⟨_, ⟨⟨rfl, rfl, rfl, rfl⟩, ?_⟩, rfl⟩⟩
      exact .inr ⟨(by simp), ok, clear, rfl, fun h => ⟨h, trivial⟩, fun _ h => .inl h⟩
    · rfl
  rw [kwaitFound, wp_bind]
  refine hfails.imp fun fails z hz => ?_
  rw [hz, wp_ite]
  split
  · simp only [wp_bind]
    exact wp_releaseSeen hcalm Mark.held_ne (wp_releaseWait hdone rfl)
  · simp only [wp_bind]
    refine ⟨⟨⟨⟨List.mem_cons_self, hcalm.target_ne hme, by simp [Know.see, hy]⟩, ⟨f, rfl, ?_⟩, y.xstate, rfl, ?_⟩,
      .inl trivial, (by simp), (by simp)⟩, fun _ _ => ?_⟩
    · exact fun F hF => (hf F hF).trans hproc.symm
    · cases copy
      · exact .inl rfl
      · exact .inr rfl
    refine ⟨(((l.lock (.proc pp)).see pp .unused, ⟨some fun _ => True, none, none⟩), .held ok clear),
      ⟨⟨Switching.see_see.symm, .inr ⟨_, _, rfl, rfl, fun _ _ => trivial⟩, rfl, rfl⟩, .inr ?_⟩, ?_⟩
    · exact ⟨(by simp), ok, clear, rfl, fun h => ⟨h, trivial⟩, fun _ h => .inl h⟩
    · exact wp_releaseSeen hcalm Mark.held_ne (wp_releaseWait hdone rfl)

/-- What is known after the scan: no child is a zombie, or the locks are released. -/
def Scanned (l : Know K n) (p : Fin n) (w : Mark n) : Bool ⊕ Int → (Know K n × Kin n) × Mark n → Prop
  | .inl _, y => y = ((l, ⟨some (View.Spared p []), none, none⟩), w)
  | .inr _, y => y = ((l.unlock .wait, .empty), .out)

theorem wp_kwaitScan {copy : Bool} (hcalm : Switching.Calm l) (hchild : l.child = none)
    (hproc : l.proc = some p) (hdone : ok ∨ ∀ i, clear i) (havekids : Bool) (ps : List (Fin n)) :
    (rules q m).wp (Scanned l p (.held ok clear)) (kwaitScan p copy havekids ps)
      ((l, ⟨some (View.Spared p ps), none, none⟩), .held ok clear) := by
  induction ps generalizing havekids with
  | nil => rfl
  | cons pp ps ih =>
    have hspared {F : View n} (hF : View.Spared p (pp :: ps) F) (hpp : F.parent pp ≠ some p ∨ ¬ F.zombie pp) :
        View.Spared p ps F := fun i => by
      obtain hi | hi := hF i
      · obtain rfl | hi := List.mem_cons.mp hi
        · exact .inr hpp
        · exact .inl hi
      · exact .inr hi
    rw [kwaitScan, wp_bind]
    refine wp_readFam (hcalm.free pp) Mark.held_ne fun x => ?_
    by_cases hx : x.parent = some p
    · refine ⟨fun F => View.Spared p (pp :: ps) F ∧ F.parent pp = some p,
        fun F hF hparent _ => ⟨hF, hparent.trans hx⟩, ?_⟩
      rw [if_pos hx]
      simp only [wp_bind]
      refine Layered.wp_acquireSlot quiet_of_inner hchild Mark.held_ne (wp_readSeen Mark.held_ne fun y hy => ?_)
      by_cases hzombie : y.state = .zombie
      · refine ⟨_, fun F hF _ => hF, ?_⟩
        rw [if_pos hzombie, wp_bind]
        refine (wp_kwaitFound hcalm hproc hzombie ?_ (fun F hF => hF.2) hdone).imp fun _ z hz => hz
        exact hcalm.me_ne_of_state hy (by simp [hzombie])
      · refine ⟨View.Spared p ps, fun F hF hiff => hspared hF.1 (.inr fun h => hzombie (hiff.mp h)), ?_⟩
        rw [if_neg hzombie, wp_bind]
        exact wp_releaseSeen hcalm Mark.held_ne (ih true)
    · refine ⟨View.Spared p ps, fun F hF hparent _ => hspared hF (.inl (hparent ▸ hx)), ?_⟩
      rw [if_neg hx]
      exact ih havekids

/-- What is known in the `for(;;)` of `kwait`. -/
def InWait (l : Know K n) (y : (Know K n × Kin n) × Mark n) : Prop :=
  ∃ ok clear, y = ((l, ⟨some fun _ => True, none, none⟩), .held ok clear) ∧ (ok ∨ ∀ i, clear i)

def Waited (l : Know K n) : Option Int → (Know K n × Kin n) × Mark n → Prop
  | some _, y => y = ((l.unlock .wait, .empty), .out)
  | none, y => InWait l y

theorem wp_kwaitRound {copy : Bool} {y : (Know K n × Kin n) × Mark n} (hl : Switching.AtClient l)
    (hy : InWait l y) : (rules q m).wp (Waited l) (kwaitRound copy) y := by
  obtain ⟨ok, clear, rfl, hdone⟩ := hy
  rw [kwaitRound, wp_bind]
  refine Layered.wp_self quiet_of_inner hl.child Mark.held_ne fun p hp => ?_
  have hall : View.Spared p (List.finRange n) = fun _ => True :=
    funext fun F => eq_true fun i => .inl (List.mem_finRange i)
  rw [wp_bind, ← hall]
  refine (wp_kwaitScan hl.calm hl.child hp hdone false _).imp fun r y hy => ?_
  cases r with
  | inr pid => exact hy
  | inl havekids =>
    obtain rfl : y = ((l, ⟨some (View.Spared p []), none, none⟩), .held ok clear) := hy
    have hdead : (rules q m).wp (fun _ y => y = ((l, ⟨some (View.Spared p []), none, none⟩), .held ok clear))
        (kwaitHopeless havekids p) ((l, ⟨some (View.Spared p []), none, none⟩), .held ok clear) := by
      rw [kwaitHopeless, wp_ite]
      split
      · exact Layered.wp_frame (Switching.wp_killed hl.calm) (all_killed quiet_of_inner) hl.child Mark.held_ne
          fun _ _ hl' => by rw [hl']
      · rfl
    simp only [wp_bind]
    refine hdead.imp fun dead y hy => ?_
    rw [hy, wp_ite]
    split
    · rw [wp_bind]
      exact wp_releaseWait hdone rfl
    · rw [wp_bind]
      refine Typestate.wp.imp (Layered.wp_sleep (W := watch q m) rfl exchange quiet_of_inner quiet_of_inner hl.calm
        hl.child hdone (fun _ _ => ⟨trivial, fun _ => ⟨.inl ⟨rfl, rfl⟩, rfl, rfl⟩⟩) (fun _ _ => trivial) ?_) ?_
      · -- the process sleeps on its own channel, and has found no zombie
        rintro heq l'
        cases heq
        refine ⟨_, rfl, ?_⟩
        rintro F hF ⟨i, hparent, hzombie⟩
        obtain hi | hi | hi := hF i
        · cases hi
        · exact hi hparent
        · exact hi hzombie
      · rintro _ _ rfl
        exact ⟨_, _, rfl, .inl trivial⟩

end

/-! ## The rest of the kernel -/

theorem wp_req (hl : Switching.AtClient l) (r : Req K n) :
    (rules q m).wp (fun _ y => ∃ l', Switching.AtClient l' ∧ y = ((l', .empty), .out)) r.code
      ((l, .empty), .out) := by
  have hframe {α : Type} {x : KCode K n α} (hx : (switching K n).wp (fun _ => Switching.AtClient) x l)
      (hall : x.All Foreign) :
      (rules q m).wp (fun _ y => ∃ l', Switching.AtClient l' ∧ y = ((l', .empty), .out)) x ((l, .empty), .out) :=
    Layered.wp_frame hx (hall.mono fun _ ho => ho.quiet) hl.child Mark.out_ne fun _ l' hl' => ⟨l', hl', rfl⟩
  cases r with
  | acquire lk => exact hframe (Switching.wp_req hl (.acquire lk)) (Code.all_perform (by simp [Foreign]))
  | release lk => exact hframe (Switching.wp_req hl (.release lk)) (Code.all_perform (by simp [Foreign]))
  | act a => exact hframe (Switching.wp_req hl (.act a)) (Code.all_perform trivial)
  | choose => exact hframe (Switching.wp_req hl .choose) (Code.all_perform trivial)
  | myproc => exact hframe (Switching.wp_req hl .myproc) (Code.all_perform trivial)
  | sleep ch lk =>
    exact hframe (Switching.wp_req hl (.sleep ch lk))
      (all_sleep foreign_of_inner (by simp [Foreign]) (by simp [Foreign]) fun _ => by simp [Foreign])
  | wakeup ch => exact hframe (Switching.wp_req hl (.wakeup ch)) (all_wakeup foreign_of_inner)
  | yield => exact hframe (Switching.wp_req hl .yield) (all_yield foreign_of_inner)
  | kkill pid => exact hframe (Switching.wp_req hl (.kkill pid)) (all_kkillFrom foreign_of_inner _)
  | setkilled =>
    exact hframe (Switching.wp_req hl .setkilled)
      ((all_self foreign_of_inner).bind fun _ => all_setkilled foreign_of_inner)
  | killed =>
    exact hframe (Switching.wp_req hl .killed)
      ((all_self foreign_of_inner).bind fun _ => all_killed foreign_of_inner)
  | kfork => exact (wp_kfork hl).imp fun _ y hy => ⟨l, hl, hy⟩
  | kexit status => exact wp_kexit hl

end Kin

/-! ## Runs -/

/-- What the threads know about families, and about the sleepers on the channel of `q`, is true. -/
structure KinOk [NeZero n] (q : Fin n) (s : Shared K n m) (X : Tid n m → (Know K n × Kin n) × Mark n) :
    Prop where
  switch : Agree s fun t => (X t).1.1
  kin : Kin.Ok s (fun t => (X t).1.1) fun t => (X t).1.2
  watch : (Kin.watch q m).Agree s (fun t => (X t).1) fun t => (X t).2

namespace KinOk

variable [NeZero n] {q : Fin n} {s s' : Shared K n m} {X : Tid n m → (Know K n × Kin n) × Mark n}
  {c : Fin m} {choice : Bool} {o : Op K n} {r : o.Res} {t : Tid n m}

/-- A calm operation leaves `q` without a zombie child. -/
theorem calm (h : KinOk q s X) (hcan17 : (X (s.tid c)).1.1.can o)
    (hcan : Kin.can (X (s.tid c)).1.1 (X (s.tid c)).1.2 o) (hexec : s.exec c choice o = some (r, s'))
    (hcalm : Kin.calm q (X (s.tid c)).1 o) (hcond : s'.view.Bereaved q) : s.view.Bereaved q := by
  by_cases ho : ∃ i w, o = .write i w
  · obtain ⟨i, w, rfl⟩ := ho
    have hfrom := h.switch.from_of_can hcan17
    cases hexec
    have hview : (s.setSlot i (w.apply (s.slot i))).view = s.view.wrote i w := by
      refine view_write hfrom ?_
      rintro rfl
      exact h.kin.unborn_of_free hcan17.2 hcan
    rw [hview] at hcond
    obtain ⟨j, hparent, hzombie⟩ := hcond
    cases w with
    | exit status =>
      obtain ⟨-, p, hp, -⟩ := hcan
      obtain rfl | hzombie := hzombie
      · exact absurd hparent (hcalm p hp s.view (h.kin.fam _ p hp))
      · exact ⟨j, hparent, hzombie⟩
    | parent q' =>
      by_cases hj : j = i
      · subst hj
        have hq : q' = q := by simpa [View.wrote] using hparent
        have hused : (s.slot j).state = .used := h.switch.child _ j (hcalm hq)
        cases hused.symm.trans hzombie
      · exact ⟨j, by simpa [View.wrote, hj] using hparent, hzombie⟩
    | reap pid status =>
      obtain ⟨hj, hzombie⟩ := hzombie
      exact ⟨j, by simpa [View.wrote, hj] using hparent, hzombie⟩
    | _ => exact ⟨j, hparent, hzombie⟩
  · have hslot := Shared.exec_slot hexec fun i w heq => ho ⟨i, w, heq⟩
    rwa [Shared.view, hslot] at hcond

theorem op (h : KinOk q s X) (hcan : (Kin.rules q m).can (X (s.tid c)) o)
    (hexec : s.exec c choice o = some (r, s')) : (Kin.rules q m).may (X (s.tid c)) o r ∧
      ∀ x, (Kin.rules q m).after (X (s.tid c)) o r x → KinOk q s' (Function.update X (s.tid c) x) := by
  obtain ⟨⟨hcan17, hcanKin⟩, hcanWatch⟩ := hcan
  obtain ⟨hmay17, hagree⟩ := h.switch.op hcan17 hexec
  obtain ⟨hmay, hkin⟩ := h.kin.op h.switch hcan17 hcanKin hexec
  refine ⟨⟨⟨hmay17, hmay⟩, trivial⟩, ?_⟩
  rintro ⟨⟨l, k⟩, w⟩ ⟨⟨rfl, hafter⟩, hwatch⟩
  refine ⟨?_, ?_, ?_⟩
  · rw [update_proj X fun x => x.1.1]
    exact hagree
  · rw [update_proj X fun x => x.1.1, update_proj X fun x => x.1.2]
    exact hkin k hafter
  · rw [update_proj X Prod.fst, update_proj X Prod.snd]
    refine h.watch.op h.switch rfl hcan17 hcanWatch hexec (h.calm hcan17 hcanKin hexec) hmay17 ?_ hwatch
    rintro ⟨p, hp, hno⟩
    exact hno _ (h.kin.fam _ p hp)

/-- A thread that holds no lock but that of its process knows nothing but which slot it creates. -/
theorem out (h : KinOk q s X) (hwait : .wait ∉ (X t).1.1.held) (hseen : (X t).1.2.seen = none)
    (hw : (X t).2 ≠ .window) : X t = (((X t).1.1, ⟨none, (X t).1.2.born, none⟩), .out) := by
  have hfam : (X t).1.2.fam = none := by
    by_contra hsome
    obtain ⟨p, hp⟩ := Option.ne_none_iff_exists'.mp hsome
    exact hwait ((h.kin.holder t).mp ⟨p, hp⟩)
  have hmark : (X t).2 = .out := by
    cases hx : (X t).2 with
    | out => rfl
    | window => exact absurd hx hw
    | held ok clear => exact absurd ((h.watch.holder t).mp ⟨ok, clear, hx⟩) hwait
  have hkin : (X t).1.2 = ⟨none, (X t).1.2.born, none⟩ := by
    cases hx : (X t).1.2 with
    | mk fam born seen =>
      rw [hx] at hfam hseen
      obtain rfl : fam = none := hfam
      obtain rfl : seen = none := hseen
      rfl
  exact Prod.ext (Prod.ext rfl hkin) hmark

theorem out_of_noff (h : KinOk q s X) (hnoff : (s.cpu c).noff = 0) :
    X (s.tid c) = (((X (s.tid c)).1.1, ⟨none, (X (s.tid c)).1.2.born, none⟩), .out) := by
  have hheld : (X (s.tid c)).1.1.held = [] :=
    List.eq_nil_of_length_eq_zero ((h.switch.cpu c).noff.symm.trans hnoff)
  refine h.out (by simp [hheld]) ?_ fun hw => ?_
  · by_contra hsome
    obtain ⟨⟨i, pid, xstate⟩, hseen⟩ := Option.ne_none_iff_exists'.mp hsome
    have hi := (h.kin.seen _ i pid xstate hseen).2.1
    rw [hheld] at hi
    cases hi
  · obtain ⟨i, -, -, -, hi, -⟩ := h.watch.window _ hw
    have hi : .proc i ∈ (X (s.tid c)).1.1.held := hi
    rw [hheld] at hi
    cases hi

theorem idle (h : KinOk q s X) (hnoff : (s.cpu c).noff = 0) :
    Switching.Calm ((X (s.tid c)).1.1.forChild none) :=
  have hcalm := h.switch.calm hnoff
  ⟨hcalm.phase, hcalm.free, hcalm.known⟩

/-- A process that is being created knows nothing. -/
theorem out_of_newborn {i : Fin n} (h : KinOk q s X) (hchild : (X t).1.1.child = some i) :
    X (.inl i) = (((X (.inl i)).1.1, .empty), .out) := by
  obtain ⟨hoff, hparked, hbarren⟩ := h.switch.newborn hchild
  have hnot (c : Fin m) : s.tid c ≠ .inl i := fun htid => hoff c (Shared.tid_eq_inl.mp htid)
  have hborn : (X (.inl i)).1.2.born = none := by
    by_contra hsome
    obtain ⟨j, hj⟩ := Option.ne_none_iff_exists'.mp hsome
    cases hbarren.symm.trans (h.kin.born _ j hj).1
  have hout := h.out (t := .inl i) (by simp [hparked.held]) ?_ fun hw => ?_
  · rwa [hborn] at hout
  · by_contra hsome
    obtain ⟨⟨j, pid, xstate⟩, hseen⟩ := Option.ne_none_iff_exists'.mp hsome
    obtain ⟨⟨c, hc⟩, -⟩ := h.kin.seen _ j pid xstate hseen
    exact hnot c hc
  · obtain ⟨_, c, _, hc, -⟩ := h.watch.window _ hw
    exact hnot c hc

end KinOk

namespace Kin

/-- What a thread knows at a point. -/
def AtPoint {κ : Type} : Point κ → (Know K n × Kin n) × Mark n → Prop
  | .client _, y | .kwait _ _, y => ∃ l, Switching.AtClient l ∧ y = ((l, .empty), .out)
  | .kwaitLoop _ _, y => ∃ l, Switching.AtClient l ∧ InWait l y
  | .scheduler, y => ∃ l, AtScheduler l ∧ y = ((l, .empty), .out)

variable [NeZero n] {q : Fin n} {l : Know K n}

theorem wp_started {i : Fin n} (hme : l.me = some i) (hparked : Parked i l) (hchild : l.child = none) :
    (rules q m).wp AtPoint (started P) ((l, .empty), .out) := by
  rw [started, wp_bind]
  exact Layered.wp_frame (wp_forkret hme hparked hchild) (all_forkret quiet_of_inner) hchild Mark.out_ne
    fun _ l' hl' => ⟨l', hl', rfl⟩

theorem wp_resume {p : Point P.Ctl} {y : (Know K n × Kin n) × Mark n} {f : KCode K n (Point P.Ctl)}
    (h : AtPoint p y) (hf : resume p = some f) : (rules q m).wp AtPoint f y := by
  cases p with
  | client k => cases hf
  | kwait copy k =>
    cases hf
    obtain ⟨l, hl, rfl⟩ := h
    rw [wp_bind]
    refine Layered.wp_acquire (e := .empty) rfl exchange ?_
    exact ⟨_, hl.lock Lock.wait_ne, _, _, rfl, .inl trivial⟩
  | kwaitLoop copy k =>
    cases hf
    obtain ⟨l, hl, hy⟩ := h
    rw [wp_bind]
    refine (wp_kwaitRound hl hy).imp fun r y hr => ?_
    cases r with
    | none => exact ⟨l, hl, hr⟩
    | some pid => exact ⟨_, hl.unlock, hr⟩
  | scheduler =>
    cases hf
    obtain ⟨l, hl, rfl⟩ := h
    have hswtchTo (p : Fin n) : Quiet (layer (K := K)) (watch q m) (· = none) .empty (.swtchTo p) :=
      Foreign.quiet (.swtchTo p) trivial
    rw [wp_bind]
    refine Layered.wp_frame (Switching.wp_schedulerPass hl.calm hl.held hl.idle hl.child)
      (all_schedulerPass quiet_of_inner hswtchTo) hl.child Mark.out_ne fun _ l' hl' => ?_
    exact ⟨l', hl' ▸ hl, rfl⟩

/-- Code of interrupts, which may come while another slot is created. -/
theorem wp_interrupted {s : Shared K n m} {X : Tid n m → (Know K n × Kin n) × Mark n} {c : Fin m}
    {x : KCode K n Unit} (h : KinOk q s X) (hnoff : (s.cpu c).noff = 0)
    (hx : (switching K n).wp (fun _ l' => l' = (X (s.tid c)).1.1.forChild none) x
      ((X (s.tid c)).1.1.forChild none)) (hbrief : x.All Brief) :
    (rules q m).wp (fun _ y => y = X (s.tid c)) x (X (s.tid c)) := by
  rw [h.out_of_noff hnoff]
  exact wp_interrupt (l := (X (s.tid c)).1.1.forChild none) (c := (X (s.tid c)).1.1.child) hx rfl hbrief Mark.out_ne
    fun _ _ hl => by rw [hl]; rfl

/-- The rules of families, and of the channel of `q`, are right for every client. -/
def discipline (P : Client K n) (m : Nat) (q : Fin n) :
    Discipline P m (rules q m) (fun _ _ _ => True) where
  agree := KinOk q
  at_ := AtPoint
  op h hcan _ hexec := h.op hcan hexec
  start {s X c i} h hcan := by
    obtain ⟨hoff, hparked, hchild⟩ := h.switch.newborn hcan.1.1
    refine ⟨fun htid => hoff c (Shared.tid_eq_inl.mp htid), ?_⟩
    rw [h.out_of_newborn hcan.1.1]
    exact wp_started (h.switch.thread i).1 hparked hchild
  enter {y k} input h := by
    obtain ⟨l, hl, rfl⟩ := h
    rw [enter, wp_bind]
    refine (wp_expand (I := fun y => ∃ l, Switching.AtClient l ∧ y = ((l, Kin.empty), Mark.out)) ?_
      ⟨l, hl, rfl⟩ (P.code k input)).imp fun g y hy => ?_
    · rintro r _ ⟨l, hl, rfl⟩
      exact wp_req hl r
    · cases g <;> exact hy
  resume h hf := wp_resume h hf
  timer {s X c} h hnoff _ := by
    have hwp := Switching.wp_yield (KinOk.idle h hnoff)
    exact wp_interrupted h hnoff hwp (all_yield brief_of_inner)
  device {s X c} x h hnoff := by
    have hwp := Switching.wp_handler (KinOk.idle h hnoff) (P.handler x)
    exact wp_interrupted h hnoff hwp (all_handler _)

end Kin

end Xv6.Sched
