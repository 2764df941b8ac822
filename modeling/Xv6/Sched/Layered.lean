-- SUMMARY: Specifications of `proc.c` under the rules of context switches, some further knowledge, and a watched sleep channel.
import Xv6.Sched.Watch
import Xv6.Sched.Footprint

/-!
# Layered rules

What a thread knows about processes, something else that it knows, and what it knows about
the sleepers on a channel. Most operations are quiet: they touch neither the second nor the
third. So the specifications of the functions of `proc.c` carry over; only `sleep` and
`wakeup` on the channel have new ones.
-/

namespace Xv6.Sched

open Typestate

variable {K : Sig} {n m : Nat} {A : Type}

def layered (E : Layer (Op K n) Op.Res (Know K n) A) (W : Watch K n m (Know K n × A)) :
    Typestate (Op K n) Op.Res ((Know K n × A) × Mark n) :=
  ((switching K n).extend E).extend W.layer

/-- An operation that changes nothing for a thread that knows `e`, as long as the slot that it is
about to make a process, if any, is in `F`. -/
structure Quiet (E : Layer (Op K n) Op.Res (Know K n) A) (W : Watch K n m (Know K n × A))
    (F : Option (Fin n) → Prop) (e : A) (o : Op K n) : Prop where
  can : ∀ l, F l.child → l.can o → E.can l e o
  after : ∀ l r, F l.child → E.may l e o r → E.after l e o r e
  keep : ∀ (l : Know K n) r, F l.child → F (l.after o r).child
  calm : ∀ l, W.calm (l, e) o
  ne_acquire : o ≠ .acquire W.lk
  ne_release : o ≠ .release W.lk
  ne_sleep : ∀ i, o ≠ .write i (.sleep (some W.ch))

namespace Layered

variable {E : Layer (Op K n) Op.Res (Know K n) A} {W : Watch K n m (Know K n × A)}
  {F : Option (Fin n) → Prop} {l : Know K n} {e : A} {w : Mark n} {o : Op K n} {p : Fin n} {α : Type}
  {ok : Prop} {clear : Fin n → Prop}

/-! ## Quiet code -/

theorem can_quiet (ho : Quiet E W F e o) : W.can (l, e) w o :=
  ⟨.inl (ho.calm l), fun heq => absurd heq ho.ne_release, fun i heq => absurd heq (ho.ne_sleep i)⟩

theorem after_quiet (ho : Quiet E W F e o) (hw : w ≠ .window) (r : o.Res) :
    W.after (l, e) o r w w := by
  cases w with
  | window => exact absurd rfl hw
  | out => exact .inr ⟨ho.ne_acquire, rfl⟩
  | held ok clear =>
    exact .inr ⟨ho.ne_release, ok, clear, rfl, fun hok => ⟨hok, ho.calm l⟩, fun _ hj => .inl hj⟩

/-- One operation. -/
theorem wp_quiet {Q : o.Res → (Know K n × A) × Mark n → Prop} (hcan : l.can o)
    (ho : Quiet E W F e o) (hF : F l.child) (hw : w ≠ .window)
    (hQ : ∀ r, l.may o r → E.may l e o r → Q r ((l.after o r, e), w)) :
    (layered E W).wp Q (.perform o) ((l, e), w) := by
  refine ⟨⟨⟨hcan, ho.can l hF hcan⟩, can_quiet ho⟩, fun r hr => ⟨((l.after o r, e), w), ?_, ?_⟩⟩
  · exact ⟨⟨rfl, ho.after l r hF hr.1.2⟩, after_quiet ho hw r⟩
  · exact hQ r hr.1.1 hr.1.2

/-- One operation of the holder of the lock, which may show that a process is not asleep. -/
theorem wp_look {Q : o.Res → (Know K n × A) × Mark n → Prop} (hcan : l.can o)
    (ho : Quiet E W F e o) (hF : F l.child)
    (hQ : ∀ r, l.may o r → Q r ((l.after o r, e), .held ok fun j => clear j ∨ W.Clears (l, e) o r j)) :
    (layered E W).wp Q (.perform o) ((l, e), .held ok clear) := by
  refine ⟨⟨⟨hcan, ho.can l hF hcan⟩, can_quiet ho⟩, fun r hr => ⟨((l.after o r, e), _), ?_, hQ r hr.1.1⟩⟩
  refine ⟨⟨rfl, ho.after l r hF hr.1.2⟩, .inr ⟨ho.ne_release, ok, _, rfl, ?_, fun _ hj => hj⟩⟩
  exact fun hok => ⟨hok, ho.calm l⟩

/-- Code whose operations are quiet. -/
theorem wp_frame {x : KCode K n α} {R : α → Know K n → Prop} {Q : α → (Know K n × A) × Mark n → Prop}
    (h : (switching K n).wp R x l) (hx : x.All (Quiet E W F e)) (hF : F l.child) (hw : w ≠ .window)
    (hQ : ∀ a l', R a l' → Q a ((l', e), w)) : (layered E W).wp Q x ((l, e), w) := by
  induction x generalizing l with
  | ret a => exact hQ a l h
  | op o k ih =>
    refine ⟨⟨⟨h.1, hx.1.can l hF h.1⟩, can_quiet hx.1⟩, fun r hr => ⟨((l.after o r, e), w), ?_, ?_⟩⟩
    · exact ⟨⟨rfl, hx.1.after l r hF hr.1.2⟩, after_quiet hx.1 hw r⟩
    · obtain ⟨l', rfl, hk⟩ := h.2 r hr.1.1
      exact ih r hk (hx.2 r) (hx.1.keep l r hF)

/-! ## Functions -/

section
variable (hinner : ∀ o : Op K n, o.Inner → Quiet E W F e o)

include hinner

theorem wp_panic {Q : α → (Know K n × A) × Mark n → Prop} (hF : F l.child) :
    (layered E W).wp Q panic ((l, e), w) :=
  ⟨⟨⟨trivial, (hinner .panic trivial).can l hF trivial⟩, can_quiet (hinner .panic trivial)⟩, (by simp)⟩

theorem wp_myproc {Q : Option (Fin n) → (Know K n × A) × Mark n → Prop} (hF : F l.child)
    (hw : w ≠ .window) (hQ : Q l.proc ((l, e), w)) : (layered E W).wp Q myproc ((l, e), w) := by
  refine wp_quiet (o := .myproc) trivial (hinner _ trivial) hF hw fun r hr _ => ?_
  obtain rfl : r = l.proc := hr
  exact hQ

theorem wp_self {Q : Fin n → (Know K n × A) × Mark n → Prop} (hF : F l.child) (hw : w ≠ .window)
    (hQ : ∀ p, l.proc = some p → Q p ((l, e), w)) : (layered E W).wp Q self ((l, e), w) := by
  rw [self, wp_bind]
  refine wp_myproc hinner hF hw ?_
  cases hp : l.proc with
  | none => exact wp_panic hinner hF
  | some p => exact hQ p hp

theorem wp_acquireSlot {Q : Unit → (Know K n × A) × Mark n → Prop} (hF : F l.child) (hw : w ≠ .window)
    (hQ : Q () ((l.lock (.proc p), e), w)) :
    (layered E W).wp Q (acquire (.proc p)) ((l, e), w) :=
  wp_quiet (o := .acquire (.proc p)) trivial (hinner _ trivial) hF hw fun _ _ _ => hQ

theorem wp_releaseSlot {Q : Unit → (Know K n × A) × Mark n → Prop} {st : Proc.ProcState}
    (hcalm : Switching.Calm l) (hF : F l.child) (hw : w ≠ .window)
    (hQ : Q () ((l, e), w)) :
    (layered E W).wp Q (release (.proc p)) (((l.lock (.proc p)).see p st, e), w) := by
  refine wp_quiet (o := .release (.proc p)) (by simp [Know.can, hcalm.kept]) (hinner _ trivial) hF hw
    fun _ _ _ => ?_
  rw [Know.after, hcalm.unlock_see]
  exact hQ

omit hinner in
theorem after_read (y : Slot K n) :
    (l.lock (.proc p)).after (.read p) y = (l.lock (.proc p)).see p y.state :=
  if_pos List.mem_cons_self

theorem wp_wakeupOne (hknow : W.know = Prod.fst) (hcalm : Switching.Calm l) (hF : F l.child)
    (hmine : ∀ i, l.proc = some i → clear i) {Q : Unit → (Know K n × A) × Mark n → Prop}
    (hQ : ∀ clear', (∀ i, clear i → clear' i) → clear' p → Q () ((l, e), .held ok clear')) :
    (layered E W).wp Q (wakeupOne (some W.ch) p) ((l, e), .held ok clear) := by
  have hheld {l' : Know K n} (hmem : .proc p ∈ l'.held) : .proc p ∈ (W.know (l', e)).held := by
    rwa [hknow]
  have hmem : Lock.proc p ∈ (l.lock (.proc p)).held := List.mem_cons_self
  rw [wakeupOne, wp_bind]
  refine wp_myproc hinner hF Mark.held_ne ?_
  rw [wp_ite]
  split
  · next hp =>
    simp only [wp_bind]
    refine wp_acquireSlot hinner hF Mark.held_ne (wp_look (o := .read p) trivial (hinner _ trivial) hF fun x _ => ?_)
    rw [after_read, wp_ite]
    split
    · next hsleep =>
      rw [wp_bind, hsleep.1]
      refine wp_look (o := .write p (.state .runnable)) Switching.canWrite_rouse (hinner _ trivial) hF
        fun r _ => ?_
      rw [Know.after, Switching.wrote_rouse (hcalm.me_ne hp)]
      refine wp_releaseSlot hinner hcalm hF Mark.held_ne (hQ _ (fun _ hi => .inl (.inl hi)) (.inr ?_))
      exact ⟨rfl, hheld hmem, (by simp)⟩
    · next hsleep =>
      refine wp_releaseSlot hinner hcalm hF Mark.held_ne (hQ _ (fun _ hi => .inl hi) (.inr ?_))
      exact ⟨rfl, hheld hmem, hsleep⟩
  · next hp => exact hQ clear (fun _ => id) (hmine p (of_not_not hp).symm)

/-- After `wakeup` on the channel nobody is asleep. -/
theorem wp_wakeup (hknow : W.know = Prod.fst) (hcalm : Switching.Calm l) (hF : F l.child)
    (hmine : ∀ i, l.proc = some i → clear i) :
    (layered E W).wp (fun _ y => ∃ clear', y = ((l, e), .held ok clear') ∧ ∀ i, clear' i)
      (wakeup (some W.ch)) ((l, e), .held ok clear) := by
  -- the processes that the loop has passed are not asleep
  have hloop : (layered E W).wp (fun _ y => ∃ clear', y = ((l, e), Mark.held ok clear') ∧
      (∀ i, clear i → clear' i) ∧ ∀ i, i ∈ ([] : List (Fin n)) ∨ clear' i)
      (wakeup (some W.ch)) ((l, e), .held ok clear) := by
    refine wp_forM (I := fun ps y => ∃ clear', y = ((l, e), Mark.held ok clear') ∧
      (∀ i, clear i → clear' i) ∧ ∀ i, i ∈ ps ∨ clear' i) ?_
      ⟨clear, rfl, fun _ => id, fun i => .inl (List.mem_finRange i)⟩
    rintro q qs _ - ⟨clear', rfl, hsub, hrest⟩
    refine wp_wakeupOne hinner hknow hcalm hF (fun i hi => hsub i (hmine i hi)) fun clear'' hsub' hq => ?_
    refine ⟨clear'', rfl, fun i hi => hsub' i (hsub i hi), fun i => ?_⟩
    obtain hi | hi := hrest i
    · obtain rfl | hi := List.mem_cons.mp hi
      · exact .inr hq
      · exact .inl hi
    · exact .inr (hsub' i hi)
  refine hloop.imp fun _ y hy => ?_
  obtain ⟨clear', rfl, -, hall⟩ := hy
  exact ⟨clear', rfl, fun i => (hall i).resolve_left List.not_mem_nil⟩

end

/-! ## The lock of the channel -/

/-- What becomes of the further knowledge `e` when the lock is released, `e₀`, and of that when the
lock is taken again, `e₁`. -/
structure Exchange (E : Layer (Op K n) Op.Res (Know K n) A) (W : Watch K n m (Know K n × A))
    (e e₀ e₁ : A) : Prop where
  release : ∀ l, E.can l e (.release W.lk) ∧ ∀ r, E.after l e (.release W.lk) r e₀
  acquire : ∀ l, E.can l e₀ (.acquire W.lk) ∧ ∀ r, E.after l e₀ (.acquire W.lk) r e₁
  calm_release : ∀ l, W.calm (l, e) (.release W.lk)
  calm_acquire : ∀ l, W.calm (l, e₀) (.acquire W.lk)

section
variable {e₀ e₁ : A} (hknow : W.know = Prod.fst) (hlock : Exchange E W e e₀ e₁)

include hlock

include hknow in
/-- Whoever takes the lock is not asleep itself. -/
theorem wp_acquire {Q : Unit → (Know K n × A) × Mark n → Prop}
    (hQ : Q () ((l.lock W.lk, e₁), .held True fun i => l.me = some i ∧ l.phase = .run)) :
    (layered E W).wp Q (acquire W.lk) ((l, e₀), .out) := by
  have hmine : W.Mine (l, e₀) = fun i => l.me = some i ∧ l.phase = .run := by
    funext i
    rw [Watch.Mine, hknow]
  refine ⟨⟨⟨trivial, (hlock.acquire l).1⟩, .inl (hlock.calm_acquire l), (by simp), (by simp)⟩, fun r _ => ?_⟩
  refine ⟨((l.lock W.lk, e₁), .held True fun i => l.me = some i ∧ l.phase = .run), ?_, hQ⟩
  exact ⟨⟨rfl, (hlock.acquire l).2 r⟩, .inl ⟨rfl, hmine ▸ rfl⟩⟩

theorem wp_release {Q : Unit → (Know K n × A) × Mark n → Prop} (hdone : ok ∨ ∀ i, clear i)
    (hQ : Q () ((l.unlock W.lk, e₀), .out)) :
    (layered E W).wp Q (release W.lk) ((l, e), .held ok clear) := by
  refine ⟨⟨⟨fun i _ => W.lk_ne i, (hlock.release l).1⟩, .inl (hlock.calm_release l),
    fun _ => ⟨hlock.calm_release l, ?_⟩, (by simp)⟩, fun r _ => ?_⟩
  · rintro _ _ ⟨rfl, rfl⟩
    exact hdone
  · exact ⟨((l.unlock W.lk, e₀), .out), ⟨⟨rfl, (hlock.release l).2 r⟩, .inl ⟨rfl, .inl rfl⟩⟩, hQ⟩

variable {chan : Option (Chan K n)} (hinner₀ : ∀ o : Op K n, o.Inner → Quiet E W F e₀ o)

include hknow hinner₀ in
/-- `sleep` after it has released the lock. -/
theorem wp_slept (hcalm : Switching.Calm l) (hphase : l.phase = .run) (hme : l.me = some p)
    (hF : F l.child) (hin : W.lk ∈ (l.lock (.proc p)).held)
    (hsleep : ∀ l', E.can l' e₀ (.write p (.sleep chan)) ∧
      ∀ r, E.after l' e₀ (.write p (.sleep chan)) r e₀)
    (hcalmSleep : ∀ l', W.calm (l', e₀) (.write p (.sleep chan)))
    (hw : w = .window ∨ w = .out ∧ chan ≠ some W.ch) :
    (layered E W).wp
      (fun _ y => y = ((l, e₁), .held True fun i => l.me = some i ∧ l.phase = .run)) (do
      write p (.sleep chan)
      sched
      write p .awake
      release (.proc p)
      acquire W.lk) (((l.lock (.proc p)).unlock W.lk, e₀), w) := by
  let k := ((l.lock (.proc p)).unlock W.lk).wrote p (.sleep chan)
  have hwrite : (layered E W).wp (fun _ y => y = ((k, e₀), .out)) (write p (.sleep chan))
      (((l.lock (.proc p)).unlock W.lk, e₀), w) := by
    refine ⟨⟨⟨⟨?_, hphase, hme⟩, (hsleep _).1⟩, .inl (hcalmSleep _), (by simp), ?_⟩, fun r _ => ?_⟩
    · simp [Know.unlock, Know.lock, (W.lk_ne p).symm]
    · intro i heq
      cases heq
      exact hw.resolve_right fun h => h.2 rfl
    · refine ⟨((k, e₀), .out), ⟨⟨rfl, (hsleep _).2 r⟩, ?_⟩, rfl⟩
      obtain rfl | ⟨rfl, -⟩ := hw <;> exact .inr ⟨(by simp), rfl⟩
  have hsched : (switching K n).wp (fun _ l' => k.held = [.proc p] ∧ l' = k.enter .run) sched k :=
    Switching.wp_sched (p := p) rfl hme fun hheld => ⟨hheld, rfl⟩
  rw [wp_bind]
  refine hwrite.imp fun _ y hy => ?_
  rw [hy, wp_bind]
  refine wp_frame hsched (all_sched hinner₀) hF Mark.out_ne ?_
  rintro _ l' ⟨hheld, rfl⟩
  have hback : ((k.enter .run).unlock (.proc p)).lock W.lk = l :=
    hcalm.slept hphase W.lk_ne hin hheld
  simp only [wp_bind]
  refine wp_quiet (o := .write p .awake) trivial (hinner₀ _ trivial) hF Mark.out_ne fun _ _ _ => ?_
  refine wp_quiet (o := .release (.proc p)) (fun _ h => by cases h) (hinner₀ _ trivial) hF Mark.out_ne fun _ _ _ => ?_
  refine wp_acquire hknow hlock ?_
  rw [hphase]
  exact congrArg (fun k => ((k, e₁), Mark.held True fun i => l.me = some i ∧ Phase.run = Phase.run)) hback

include hknow hinner₀ in
/-- `sleep` on a channel, with the lock of the watched one: if it is the watched one, the condition
is false. -/
theorem wp_sleep (hinner : ∀ o : Op K n, o.Inner → Quiet E W F e o) (hcalm : Switching.Calm l)
    (hF : F l.child) (hdone : ok ∨ ∀ i, clear i)
    (hsleep : ∀ p l', E.can l' e₀ (.write p (.sleep chan)) ∧
      ∀ r, E.after l' e₀ (.write p (.sleep chan)) r e₀)
    (hcalmSleep : ∀ p l', W.calm (l', e₀) (.write p (.sleep chan)))
    (hoff : chan = some W.ch → ∀ l', W.off (l', e)) :
    (layered E W).wp
      (fun _ y => y = ((l, e₁), .held True fun i => l.me = some i ∧ l.phase = .run))
      (sleep chan W.lk) ((l, e), .held ok clear) := by
  rw [sleep, wp_bind]
  refine wp_self hinner hF Mark.held_ne fun p hp => ?_
  obtain ⟨hphase, hme⟩ := hcalm.run_of_proc hp
  rw [wp_bind]
  refine wp_acquireSlot hinner hF Mark.held_ne ?_
  rw [wp_bind]
  refine ⟨⟨⟨fun i _ => W.lk_ne i, (hlock.release _).1⟩, .inl (hlock.calm_release _),
    fun _ => ⟨hlock.calm_release _, ?_⟩, (by simp)⟩, fun r hr => ?_⟩
  · rintro _ _ ⟨rfl, rfl⟩
    exact hdone
  have hrest (w : Mark n) (hw : w = .window ∨ w = .out ∧ chan ≠ some W.ch) :=
    wp_slept hknow hlock hinner₀ hcalm hphase hme hF hr.1.1 (hsleep p) (hcalmSleep p) hw
  by_cases hch : chan = some W.ch
  · have hsleepy : W.Sleepy (l.lock (.proc p), e) := by
      rw [Watch.Sleepy, hknow]
      exact ⟨⟨p, hme, List.mem_cons_self⟩, hphase, hoff hch _⟩
    refine ⟨(((l.lock (.proc p)).unlock W.lk, e₀), .window), ⟨⟨rfl, (hlock.release _).2 r⟩, ?_⟩,
      hrest _ (.inl rfl)⟩
    exact .inl ⟨rfl, .inr ⟨rfl, hsleepy⟩⟩
  · refine ⟨(((l.lock (.proc p)).unlock W.lk, e₀), .out), ⟨⟨rfl, (hlock.release _).2 r⟩, ?_⟩,
      hrest _ (.inr ⟨rfl, hch⟩)⟩
    exact .inl ⟨rfl, .inl rfl⟩

end

end Layered

end Xv6.Sched
