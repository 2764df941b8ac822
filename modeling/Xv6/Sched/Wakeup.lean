-- SUMMARY: No lost wakeup: clients of a monitor that keep to its protocol never leave a process asleep while the condition holds.
import Xv6.Sched.Monitor

/-!
# No lost wakeup

The protocol of a monitor, for code of the client: take the lock, look at the data, sleep only
if the condition is false; make the condition true only with the lock held, and call `wakeup`
before releasing it. The code may be anything else otherwise: it may use other locks and
channels, fork, exit, wait and kill. As long as all processes and interrupt handlers keep to
the protocol, no process is asleep on the channel while the lock is free and the condition
holds.
-/

namespace Xv6.Sched

open Typestate

variable {K : Sig} {n m : Nat} {P : Client K n} {V : Monitor K} {G : K.Data → Prop}

namespace Monitor

/-! ## Code that does not touch the monitor -/

/-- An operation that touches neither the lock, nor the data, nor the channel. -/
def Foreign (V : Monitor K) : Op K n → Prop
  | .acquire lk | .release lk => lk ≠ .client V.lk
  | .act _ => False
  | .write _ (.sleep chan) => chan ≠ some (.client V.ch)
  | _ => True

theorem foreign_of_inner (o : Op K n) (h : o.Inner) : V.Foreign o := by
  cases o with
  | acquire lk | release lk =>
    cases lk with
    | proc i => exact (Lock.client_ne _ i).symm
    | _ => exact h.elim
  | act a => exact h.elim
  | write i w =>
    cases w with
    | sleep chan => exact h.elim
    | _ => trivial
  | _ => trivial

variable {l : Know K n} {e : Option (K.Data → Prop)} {w : Mark n} {o : Op K n} {α : Type}

theorem Foreign.quiet (o : Op K n) (ho : V.Foreign o) :
    Quiet (V.dataLayer G) (V.watch n m) (fun _ => True) e o where
  can l _ _ := by
    cases o with
    | act a => exact ho.elim
    | _ => trivial
  after l r _ _ := by
    cases o with
    | acquire lk | release lk => exact .inr ⟨ho, rfl⟩
    | act a => exact ho.elim
    | _ => rfl
  keep _ _ _ := trivial
  calm l := by
    rintro a rfl
    exact ho.elim
  ne_acquire := by
    rintro rfl
    exact ho rfl
  ne_release := by
    rintro rfl
    exact ho rfl
  ne_sleep i := by
    rintro rfl
    exact ho rfl

theorem quiet_of_inner (o : Op K n) (ho : o.Inner) :
    Quiet (V.dataLayer G) (V.watch n m) (fun _ => True) e o := (foreign_of_inner o ho).quiet

/-- Code whose operations are foreign. -/
theorem wp_frame {x : KCode K n α} {R : α → Know K n → Prop}
    {Q : α → (Know K n × Option (K.Data → Prop)) × Mark n → Prop} (h : (switching K n).wp R x l)
    (hx : x.All V.Foreign) (hw : w ≠ .window) (hQ : ∀ a l', R a l' → Q a ((l', e), w)) :
    (V.rules G n m).wp Q x ((l, e), w) :=
  Layered.wp_frame h (hx.mono fun _ ho => ho.quiet) trivial hw hQ

/-- One operation. -/
theorem wp_step {Q : o.Res → (Know K n × Option (K.Data → Prop)) × Mark n → Prop}
    (hcan : l.can o) (ho : V.Foreign o) (hw : w ≠ .window)
    (hQ : ∀ r, l.may o r → V.mayData G l e o r → Q r ((l.after o r, e), w)) :
    (V.rules G n m).wp Q (.perform o) ((l, e), w) :=
  Layered.wp_quiet hcan ho.quiet trivial hw hQ

theorem exchange : Layered.Exchange (V.dataLayer G (n := n)) (V.watch n m) e none
    (some fun _ => True) where
  release _ := ⟨trivial, fun _ => .inl ⟨rfl, rfl⟩⟩
  acquire _ := ⟨trivial, fun _ => .inl ⟨rfl, rfl⟩⟩
  calm_release _ := nofun
  calm_acquire _ := nofun

/-! ## The protocol -/

/-- What code of the client knows about the monitor. -/
inductive Mode (K : Sig)
  | out
  /-- It holds the lock and knows `p` about the data. Nobody is asleep if the condition holds
  and `ok`, and nobody at all if `woken`. -/
  | held (ok woken : Prop) (p : K.Data → Prop)

/-- The lock has just been taken. -/
def Mode.fresh : Mode K := .held True False fun _ => True

/-- The lock is held and may be released. -/
def Mode.Done : Mode K → Prop
  | .out => False
  | .held ok woken _ => ok ∨ woken

def Mode.wake : Mode K → Mode K
  | .out => .out
  | .held ok _ p => .held ok True p

/-- The condition is known to be false. -/
def Off (V : Monitor K) : Mode K → Prop
  | .out => False
  | .held _ _ p => ∀ d, V.inv d → p d → ¬ V.cond d

section
variable (V : Monitor K) (G : K.Data → Prop)

def canAct (a : K.Act) : Mode K → Prop
  | .out => ∀ d, V.inv d → V.free d (K.act a d).2
  | .held _ _ p => ∀ d, V.inv d → p d → V.inv (K.act a d).2

def mayAct (a : K.Act) (r : K.Res a) : Mode K → Prop
  | .out => True
  | .held _ _ p => ∃ d, V.inv d ∧ p d ∧ (K.act a d).1 = r

/-- An access that may make the condition true spoils `ok`. -/
def acted (a : K.Act) (r : K.Res a) : Mode K → Mode K → Prop
  | .out, x => x = .out
  | .held ok woken p, x => ∃ ok' q, x = .held ok' woken q ∧
      (ok' → ok ∧ V.calmAct a (some p)) ∧ V.afterAct a r p q

/-- A process that finds itself killed. -/
def mayKilled (r : Bool) : Mode K → Prop
  | .out => True
  | .held _ _ p => (∀ d, V.inv d → p d → G d) → r = false

/-- The protocol. -/
def protocol (n : Nat) : Typestate (Req K n) Req.Res (Mode K) where
  can x
    | .acquire lk => lk = V.lk → x = .out
    | .release lk => lk = V.lk → x.Done
    | .act a => V.canAct a x
    | .sleep ch lk => (lk = V.lk → x.Done) ∧ (ch = V.ch → lk = V.lk ∧ V.Off x)
    | _ => True
  may x
    | .act a, r => V.mayAct a r x
    | .killed, r => V.mayKilled G r x
    | _, _ => True
  after x
    | .acquire lk, _, x' | .sleep _ lk, _, x' => x' = if lk = V.lk then .fresh else x
    | .release lk, _, x' => x' = if lk = V.lk then .out else x
    | .act a, r, x' => V.acted a r x x'
    | .wakeup ch, _, x' => x' = if ch = V.ch then x.wake else x
    | _, _, x' => x' = x

/-- The protocol for what interrupt handlers do under their lock. -/
def signals : Typestate (Signal K) Signal.Res (Mode K) where
  can x
    | .act a => V.canAct a x
    | .wakeup _ => True
  may x
    | .act a, r => V.mayAct a r x
    | .wakeup _, _ => True
  after x
    | .act a, r, x' => V.acted a r x x'
    | .wakeup ch, _, x' => x' = if ch = V.ch then x.wake else x

def HandlerObeys (h : Handler K) : Prop :=
  (h.lk = V.lk → V.signals.wp (fun _ x => x.Done) h.body .fresh) ∧
  (h.lk ≠ V.lk → V.signals.wp (fun _ x => x = .out) h.body .out)

/-- What is known at the end of a piece of code, by what is known at the points. -/
def AtEnd {κ : Type} (At : κ → Mode K → Prop) : Goto κ → Mode K → Prop
  | .client k, x => At k x
  | .kwait _ k, x => ∀ pid, At (k pid) x

/-- The client keeps to the protocol; `At` is what a process knows at its points. Here `G` is data
for which processes do not find themselves killed. -/
structure ObeysIf (P : Client K n) (At : P.Ctl → Mode K → Prop) : Prop where
  start : At P.start .out
  code : ∀ k x input, At k x → (V.protocol G n).wp (AtEnd At) (P.code k input) x
  handler : ∀ h, V.HandlerObeys (P.handler h)

/-- The client keeps to the protocol whoever is killed. -/
abbrev Obeys (P : Client K n) (At : P.Ctl → Mode K → Prop) : Prop := V.ObeysIf (fun _ => False) P At

end

/-! ## Code that keeps to the protocol -/

namespace Protocol

variable {β : Type} {Q : β → Mode K → Prop} {x : Mode K} {f : Unit → Script K n β}

theorem acquire (h : (V.protocol G n).wp Q (f ()) .fresh) :
    (V.protocol G n).wp Q (Script.acquire V.lk >>= f) .out :=
  ⟨fun _ => rfl, fun _ _ => ⟨_, (if_pos rfl).symm, h⟩⟩

theorem release (hdone : x.Done) (h : (V.protocol G n).wp Q (f ()) .out) :
    (V.protocol G n).wp Q (Script.release V.lk >>= f) x :=
  ⟨fun _ => hdone, fun _ _ => ⟨_, (if_pos rfl).symm, h⟩⟩

theorem sleep (hdone : x.Done) (hoff : V.Off x) (h : (V.protocol G n).wp Q (f ()) .fresh) :
    (V.protocol G n).wp Q (Script.sleep V.ch V.lk >>= f) x :=
  ⟨⟨fun _ => hdone, fun _ => ⟨rfl, hoff⟩⟩, fun _ _ => ⟨_, (if_pos rfl).symm, h⟩⟩

theorem wakeup (h : (V.protocol G n).wp Q (f ()) x.wake) :
    (V.protocol G n).wp Q (Script.wakeup V.ch >>= f) x :=
  ⟨trivial, fun _ _ => ⟨_, (if_pos rfl).symm, h⟩⟩

/-- An access with the lock held. -/
theorem act {a : K.Act} {f : K.Res a → Script K n β} {ok woken : Prop} {p : K.Data → Prop}
    (hinv : ∀ d, V.inv d → p d → V.inv (K.act a d).2)
    (h : ∀ d, V.inv d → p d → ∃ ok' q, (ok' → ok ∧ V.calmAct a (some p)) ∧
      V.afterAct a (K.act a d).1 p q ∧ (V.protocol G n).wp Q (f (K.act a d).1) (.held ok' woken q)) :
    (V.protocol G n).wp Q (Script.act a >>= f) (.held ok woken p) := by
  refine ⟨hinv, fun r hr => ?_⟩
  obtain ⟨d, hd, hp, rfl⟩ := hr
  obtain ⟨ok', q, hok, hq, hwp⟩ := h d hd hp
  exact ⟨_, ⟨ok', q, rfl, hok, hq⟩, hwp⟩

/-- An access with the lock held, to data that is known. -/
theorem step {a : K.Act} {f : K.Res a → Script K n β} {ok woken : Prop} {d : K.Data}
    (hstable : V.Stable (· = (K.act a d).2))
    (h : V.inv d → V.inv (K.act a d).2 ∧ (V.protocol G n).wp Q (f (K.act a d).1)
      (.held (ok ∧ (V.cond (K.act a d).2 → V.cond d)) woken (· = (K.act a d).2))) :
    (V.protocol G n).wp Q (Script.act a >>= f) (.held ok woken (· = d)) := by
  refine act ?_ ?_
  · rintro _ hd rfl
    exact (h hd).1
  · rintro _ hd rfl
    refine ⟨_, _, fun hok => ⟨hok.1, ?_⟩, ⟨hstable, ?_⟩, (h hd).2⟩
    · rintro _ _ rfl
      exact hok.2
    · rintro _ _ rfl _
      rfl

theorem killed {f : Bool → Script K n β}
    (h : ∀ r, V.mayKilled G r x → (V.protocol G n).wp Q (f r) x) :
    (V.protocol G n).wp Q (Script.killed >>= f) x :=
  ⟨trivial, fun r hr => ⟨x, rfl, h r hr⟩⟩

/-- Other channels. -/
theorem wakeupOther {ch : K.Ch} (hch : ch ≠ V.ch) (h : (V.protocol G n).wp Q (f ()) x) :
    (V.protocol G n).wp Q (Script.wakeup ch >>= f) x :=
  ⟨trivial, fun _ _ => ⟨_, (if_neg hch).symm, h⟩⟩

theorem sleepOther {ch : K.Ch} (hch : ch ≠ V.ch) (hdone : x.Done)
    (h : (V.protocol G n).wp Q (f ()) .fresh) :
    (V.protocol G n).wp Q (Script.sleep ch V.lk >>= f) x :=
  ⟨⟨fun _ => hdone, fun heq => absurd heq hch⟩, fun _ _ => ⟨_, (if_pos rfl).symm, h⟩⟩

end Protocol

/-! ## Requests -/

/-- A thread that knows `l` about processes, and `x` about the monitor. -/
def Mode.In (l : Know K n) : Mode K → (Know K n × Option (K.Data → Prop)) × Mark n → Prop
  | .out, y => y = ((l, none), .out)
  | .held ok woken p, y => ∃ clear, y = ((l, some p), .held ok clear) ∧
      (∀ i, l.proc = some i → clear i) ∧ (woken → ∀ i, clear i)

section
variable {x x' : Mode K} {y : (Know K n × Option (K.Data → Prop)) × Mark n}

theorem Mode.In.eq (h : x.In l y) : ∃ e w, y = ((l, e), w) ∧ w ≠ .window := by
  cases x with
  | out => exact ⟨_, _, h, (by simp)⟩
  | held ok woken p =>
    obtain ⟨clear, rfl, -⟩ := h
    exact ⟨_, _, rfl, (by simp)⟩

/-- Code that ends where it started. -/
theorem wp_foreign {β : Type} {f : KCode K n β} (h : (switching K n).wp (fun _ l' => l' = l) f l)
    (hf : f.All V.Foreign) (hx : x.In l y) : (V.rules G n m).wp (fun _ => x.In l) f y := by
  obtain ⟨e, w, rfl, hw⟩ := hx.eq
  exact wp_frame h hf hw fun _ _ hl => hl ▸ hx

theorem fresh_in (hl : ∀ i, l.proc = some i → l.me = some i ∧ l.phase = .run) :
    Mode.fresh.In l ((l, some fun _ => True), .held True fun i => l.me = some i ∧ l.phase = .run) :=
  ⟨_, rfl, hl, False.elim⟩

theorem wp_acquire (hcalm : Switching.Calm l) :
    (V.rules G n m).wp (fun _ => Mode.fresh.In (l.lock (.client V.lk))) (acquire (.client V.lk))
      ((l, none), .out) := by
  refine Layered.wp_acquire (e := none) rfl exchange ?_
  exact fresh_in (l := l.lock (.client V.lk)) fun i hi => (hcalm.run_of_proc (p := i) hi).symm

theorem wp_release (hx : x.In l y) (hdone : x.Done) :
    (V.rules G n m).wp (fun _ => Mode.out.In (l.unlock (.client V.lk))) (release (.client V.lk)) y := by
  cases x with
  | out => exact hdone.elim
  | held ok woken p =>
    obtain ⟨clear, rfl, -, hwoken⟩ := hx
    exact Layered.wp_release exchange (hdone.imp_right hwoken) rfl

theorem wp_act {a : K.Act} {Φ : K.Res a → Mode K → Prop} (hx : x.In l y) (hcan : V.canAct a x)
    (hΦ : ∀ r, V.mayAct a r x → ∃ x', V.acted a r x x' ∧ Φ r x') :
    (V.rules G n m).wp (fun r y' => ∃ x', x'.In l y' ∧ Φ r x') (act a) y := by
  cases x with
  | out =>
    subst hx
    refine ⟨⟨⟨trivial, hcan⟩, .inl ?_, (by simp), (by simp)⟩, fun r hr => ?_⟩
    · rintro a' ⟨⟩
      trivial
    · obtain ⟨x', rfl, hr⟩ := hΦ r trivial
      exact ⟨((l, none), .out), ⟨⟨rfl, .inl ⟨rfl, rfl⟩⟩, .inr ⟨(by simp), rfl⟩⟩, .out, rfl, hr⟩
  | held ok woken p =>
    obtain ⟨clear, rfl, hclear⟩ := hx
    refine ⟨⟨⟨trivial, hcan⟩, .inr ⟨_, _, rfl⟩, (by simp), (by simp)⟩, fun r hr => ?_⟩
    obtain ⟨x', ⟨ok', q, rfl, hok, hq⟩, hr⟩ := hΦ r (hr.1.2 p rfl)
    refine ⟨((l, some q), .held ok' clear), ⟨⟨rfl, .inr ⟨p, q, rfl, rfl, hq⟩⟩, .inr ?_⟩, ?_⟩
    · refine ⟨(by simp), ok', clear, rfl, fun h => ⟨(hok h).1, ?_⟩, fun _ hj => .inl hj⟩
      rintro a' ⟨⟩
      exact (hok h).2
    · exact ⟨.held ok' woken q, ⟨clear, rfl, hclear⟩, hr⟩

theorem wp_wakeup {ch : K.Ch} (hcalm : Switching.Calm l) (hx : x.In l y) :
    (V.rules G n m).wp (fun _ => (if ch = V.ch then x.wake else x).In l)
      (wakeup (some (.client ch))) y := by
  by_cases hch : ch = V.ch
  · subst hch
    rw [if_pos rfl]
    cases x with
    | out => exact wp_foreign (Switching.wp_wakeup hcalm) (all_wakeup foreign_of_inner) hx
    | held ok woken p =>
      obtain ⟨clear, rfl, hmine, -⟩ := hx
      refine (Layered.wp_wakeup quiet_of_inner rfl hcalm trivial hmine).imp fun _ y' hy' => ?_
      obtain ⟨clear', rfl, hall⟩ := hy'
      exact ⟨clear', rfl, fun i _ => hall i, fun _ => hall⟩
  · rw [if_neg hch]
    exact wp_foreign (Switching.wp_wakeup hcalm) (all_wakeup foreign_of_inner) hx

/-- A process looks at its own `killed`. -/
theorem wp_killed {p : Fin n} (hcalm : Switching.Calm l) (hp : l.proc = some p) (hx : x.In l y) :
    (V.rules G n m).wp (fun r y' => V.mayKilled G r x ∧ x.In l y') (killed p) y := by
  obtain ⟨e, w, rfl, hw⟩ := hx.eq
  simp only [killed, wp_bind]
  refine Layered.wp_acquireSlot quiet_of_inner trivial hw
    (wp_step (o := .read p) trivial trivial hw fun z _ hz => ?_)
  rw [Layered.after_read]
  refine Layered.wp_releaseSlot quiet_of_inner hcalm trivial hw ?_
  refine ⟨?_, hx⟩
  cases x with
  | out => trivial
  | held ok woken q =>
    obtain ⟨clear, heq, -⟩ := hx
    cases heq
    exact hz hp q rfl

theorem wp_sleep {ch : K.Ch} (hcalm : Switching.Calm l) (hx : x.In l y) (hdone : x.Done)
    (hoff : ch = V.ch → V.Off x) :
    (V.rules G n m).wp (fun _ => Mode.fresh.In l) (sleep (some (.client ch)) (.client V.lk)) y := by
  cases x with
  | out => exact hdone.elim
  | held ok woken q =>
    obtain ⟨clear, rfl, -, hwoken⟩ := hx
    refine Typestate.wp.imp (Layered.wp_sleep rfl exchange quiet_of_inner quiet_of_inner hcalm trivial
      (hdone.imp_right hwoken) (fun _ _ => ⟨trivial, fun _ => rfl⟩) (fun _ _ => by simp [watch]) ?_) ?_
    · rintro ⟨⟩ l'
      exact ⟨q, rfl, hoff rfl⟩
    · rintro _ _ rfl
      exact fresh_in fun i hi => (hcalm.run_of_proc hi).symm

theorem Mode.In.congr {l' : Know K n} (hx : x.In l ((l, e), w)) (hproc : l'.proc = l.proc) :
    x.In l' ((l', e), w) := by
  cases x with
  | out =>
    cases hx
    rfl
  | held ok woken p =>
    obtain ⟨clear, heq, hclear⟩ := hx
    cases heq
    exact ⟨clear, rfl, hproc ▸ hclear⟩

end

/-- A client that knows `x` about the monitor. -/
def Mode.AtClient (x : Mode K) (y : (Know K n × Option (K.Data → Prop)) × Mark n) : Prop :=
  ∃ l, Switching.AtClient l ∧ x.In l y

section
variable [NeZero n] {x : Mode K} {y : (Know K n × Option (K.Data → Prop)) × Mark n}

theorem wp_req (q : Req K n) {Φ : q.Res → Mode K → Prop} (hx : x.AtClient y)
    (hcan : (V.protocol G n).can x q)
    (hΦ : ∀ r, (V.protocol G n).may x q r → ∃ x', (V.protocol G n).after x q r x' ∧ Φ r x') :
    (V.rules G n m).wp (fun r y' => ∃ x' : Mode K, x'.AtClient y' ∧ Φ r x') q.code y := by
  obtain ⟨l, hl, hx⟩ := hx
  -- requests that leave both the thread and the monitor as they are
  have hsame {f : KCode K n q.Res} (h : (switching K n).wp (fun _ l' => l' = l) f l)
      (hf : f.All V.Foreign) (hafter : ∀ r, ∃ x', x' = x ∧ Φ r x') :
      (V.rules G n m).wp (fun r y' => ∃ x' : Mode K, x'.AtClient y' ∧ Φ r x') f y := by
    refine (wp_foreign h hf hx).imp fun r y' hy' => ?_
    obtain ⟨x', rfl, hr⟩ := hafter r
    exact ⟨x', ⟨l, hl, hy'⟩, hr⟩
  obtain ⟨e, w, rfl, hw⟩ := hx.eq
  cases q with
  | acquire lk =>
    obtain ⟨x', rfl, hr⟩ := hΦ () trivial
    by_cases hlk : lk = V.lk
    · subst hlk
      rw [if_pos rfl] at hr
      obtain rfl := hcan rfl
      cases hx
      exact (wp_acquire hl.calm).imp fun _ y' hy' => ⟨.fresh, ⟨_, hl.lock (Lock.client_ne V.lk), hy'⟩, hr⟩
    · rw [if_neg hlk] at hr
      refine wp_step (o := .acquire (.client lk)) trivial (by simpa [Foreign]) hw fun _ _ _ => ?_
      exact ⟨x, ⟨_, hl.lock (Lock.client_ne lk), hx.congr rfl⟩, hr⟩
  | release lk =>
    obtain ⟨x', rfl, hr⟩ := hΦ () trivial
    by_cases hlk : lk = V.lk
    · subst hlk
      rw [if_pos rfl] at hr
      exact (wp_release hx (hcan rfl)).imp fun _ y' hy' => ⟨.out, ⟨_, hl.unlock, hy'⟩, hr⟩
    · rw [if_neg hlk] at hr
      refine wp_step (o := .release (.client lk)) (fun i _ => Lock.client_ne lk i) (by simpa [Foreign]) hw
        fun _ _ _ => ?_
      exact ⟨x, ⟨_, hl.unlock, hx.congr rfl⟩, hr⟩
  | act a =>
    refine (wp_act hx hcan hΦ).imp fun r y' hy' => ?_
    obtain ⟨x', hx', hr⟩ := hy'
    exact ⟨x', ⟨l, hl, hx'⟩, hr⟩
  | choose =>
    exact hsame (Switching.wp_choose.mpr fun _ => rfl) (Code.all_perform trivial) fun r => hΦ r trivial
  | myproc =>
    exact hsame (Switching.wp_myproc.mpr rfl) (Code.all_perform trivial) fun r => hΦ r trivial
  | sleep ch lk =>
    obtain ⟨x', rfl, hr⟩ := hΦ () trivial
    by_cases hlk : lk = V.lk
    · subst hlk
      rw [if_pos rfl] at hr
      refine (wp_sleep hl.calm hx (hcan.1 rfl) fun hch => (hcan.2 hch).2).imp fun _ y' hy' => ?_
      exact ⟨.fresh, ⟨l, hl, hy'⟩, hr⟩
    · rw [if_neg hlk] at hr
      have hch : ch ≠ V.ch := fun hch => hlk (hcan.2 hch).1
      refine hsame (Switching.wp_sleep hl.calm (Lock.client_ne lk)) (all_sleep foreign_of_inner ?_ ?_ ?_)
        fun r => ⟨x, rfl, hr⟩
      all_goals simpa [Foreign]
  | wakeup ch =>
    obtain ⟨x', rfl, hr⟩ := hΦ () trivial
    exact (wp_wakeup hl.calm hx).imp fun _ y' hy' => ⟨_, ⟨l, hl, hy'⟩, hr⟩
  | yield => exact hsame (Switching.wp_yield hl.calm) (all_yield foreign_of_inner) fun r => hΦ r trivial
  | kkill pid =>
    exact hsame (Switching.wp_kkillFrom hl.calm _) (all_kkillFrom foreign_of_inner _) fun r => hΦ r trivial
  | setkilled =>
    refine hsame ?_ ((all_self foreign_of_inner).bind fun p => all_setkilled foreign_of_inner)
      fun r => hΦ r trivial
    exact wp_bind.mpr (Switching.wp_self.mpr fun p _ => Switching.wp_setkilled hl.calm)
  | killed =>
    refine wp_bind.mpr (Layered.wp_self quiet_of_inner trivial hw fun p hp => ?_)
    refine (wp_killed hl.calm hp hx).imp fun r y' hy' => ?_
    obtain ⟨x', rfl, hr⟩ := hΦ r hy'.1
    exact ⟨x', ⟨l, hl, hy'.2⟩, hr⟩
  | kfork =>
    refine hsame (Switching.wp_kfork hl.calm hl.child) (all_kfork foreign_of_inner ?_ ?_ ?_ ?_ ?_)
      fun r => hΦ r trivial
    all_goals simp [Foreign]
  | kexit status =>
    have hwp : (switching K n).wp (fun r _ => False) (kexit status : KCode K n Empty) l :=
      Switching.wp_kexit hl.calm hl.child
    refine wp_frame hwp (all_kexit foreign_of_inner ?_ ?_ ?_ ?_) hw fun r => r.elim
    all_goals simp [Foreign]

/-- Code of the client that keeps to the protocol. -/
theorem wp_script {β : Type} {Q : β → Mode K → Prop} {f : Script K n β}
    (h : (V.protocol G n).wp Q f x) (hx : x.AtClient y) :
    (V.rules G n m).wp (fun b y' => ∃ x' : Mode K, x'.AtClient y' ∧ Q b x') (f.expand Req.code) y :=
  h.expand (fun q _ _ _ hx hcan hΦ => wp_req q hx hcan hΦ) hx

end

/-! ## Interrupts -/

theorem wp_signal (q : Signal K) {x : Mode K} {y : (Know K n × Option (K.Data → Prop)) × Mark n}
    {Φ : q.Res → Mode K → Prop} (hcalm : Switching.Calm l) (hx : x.In l y) (hcan : V.signals.can x q)
    (hΦ : ∀ r, V.signals.may x q r → ∃ x', V.signals.after x q r x' ∧ Φ r x') :
    (V.rules G n m).wp (fun r y' => ∃ x' : Mode K, x'.In l y' ∧ Φ r x') q.code y := by
  cases q with
  | act a => exact wp_act hx hcan hΦ
  | wakeup ch =>
    obtain ⟨x', rfl, hr⟩ := hΦ () trivial
    exact (wp_wakeup hcalm hx).imp fun _ y' hy' => ⟨_, hy', hr⟩

theorem wp_handler (x : Handler K) (hcalm : Switching.Calm l) (hx : V.HandlerObeys x) :
    (V.rules G n m).wp (fun _ y => y = ((l, none), .out)) x.code ((l, none), .out) := by
  have hlock : Switching.Calm (l.lock (.client x.lk)) :=
    ⟨hcalm.phase, by simp [Know.lock, hcalm.free], hcalm.known⟩
  have hbody {k : Mode K} {Q : Unit → Mode K → Prop} {y : (Know K n × Option (K.Data → Prop)) × Mark n}
      (h : V.signals.wp Q x.body k) (hk : k.In (l.lock (.client x.lk)) y) :
      (V.rules G n m).wp (fun u y' => ∃ k' : Mode K, k'.In (l.lock (.client x.lk)) y' ∧ Q u k')
        (x.body.expand Signal.code) y :=
    h.expand (fun q _ _ _ hx hcan hΦ => wp_signal q hlock hx hcan hΦ) hk
  simp only [Handler.code, wp_bind]
  by_cases hlk : x.lk = V.lk
  · rw [hlk] at hbody ⊢
    refine (wp_acquire hcalm).imp fun _ y hy => ?_
    refine (hbody (hx.1 hlk) hy).imp fun _ y' hy' => ?_
    obtain ⟨k, hk, hdone⟩ := hy'
    refine (wp_release hk hdone).imp fun _ y'' hy'' => ?_
    rwa [hcalm.unlock_lock] at hy''
  · refine wp_step (o := .acquire (.client x.lk)) trivial (by simpa [Foreign]) (by simp) fun _ _ _ => ?_
    refine (hbody (hx.2 hlk) rfl).imp fun _ y' hy' => ?_
    obtain ⟨k, hk, rfl⟩ := hy'
    cases hk
    refine wp_step (o := .release (.client x.lk)) (fun i _ => Lock.client_ne x.lk i) (by simpa [Foreign]) Mark.out_ne
      fun _ _ _ => ?_
    rw [Know.after, hcalm.unlock_lock]

/-! ## Runs -/

section
variable {At : P.Ctl → Mode K → Prop} {s : Shared K n m}
  {X : Tid n m → (Know K n × Option (K.Data → Prop)) × Mark n} {t : Tid n m}

/-- What a thread knows at a point. -/
def AtPoint (At : P.Ctl → Mode K → Prop) :
    Point P.Ctl → (Know K n × Option (K.Data → Prop)) × Mark n → Prop
  | .client k, y => ∃ x, At k x ∧ x.AtClient y
  | .kwait _ k, y | .kwaitLoop _ k, y => ∃ x, (∀ pid, At (k pid) x) ∧ x.AtClient y
  | .scheduler, y => ∃ l, AtScheduler l ∧ y = ((l, none), .out)

/-- A thread without the lock that is not about to sleep knows nothing about the monitor. -/
theorem Ok.out (h : V.Ok s X) (hheld : .client V.lk ∉ (X t).1.1.held) (hw : (X t).2 ≠ .window) :
    X t = (((X t).1.1, none), .out) := by
  have hdata : (X t).1.2 = none := by
    by_contra hsome
    obtain ⟨p, hp⟩ := Option.ne_none_iff_exists'.mp hsome
    exact hheld ((h.data.holder t).mp ⟨p, hp⟩)
  have hmark : (X t).2 = .out := by
    cases hx : (X t).2 with
    | out => rfl
    | window => exact absurd hx hw
    | held ok clear => exact absurd ((h.watch.holder t).mp ⟨ok, clear, hx⟩) hheld
  exact Prod.ext (Prod.ext rfl hdata) hmark

/-- Interrupts come only when no lock is held. -/
theorem Ok.out_of_noff {c : Fin m} (h : V.Ok s X) (hnoff : (s.cpu c).noff = 0) :
    X (s.tid c) = (((X (s.tid c)).1.1, none), .out) := by
  have hheld : (X (s.tid c)).1.1.held = [] :=
    List.eq_nil_of_length_eq_zero ((h.switch.cpu c).noff.symm.trans hnoff)
  refine h.out ?_ fun hw => ?_
  · rw [hheld]
    exact List.not_mem_nil
  · obtain ⟨i, -, -, -, hi, -⟩ := h.watch.window _ hw
    have hi : .proc i ∈ (X (s.tid c)).1.1.held := hi
    rw [hheld] at hi
    cases hi

theorem wp_started {i : Fin n} (hstart : At P.start .out) (hme : l.me = some i) (hparked : Parked i l)
    (hchild : l.child = none) :
    (V.rules G n m).wp (AtPoint At) (started P) ((l, none), .out) := by
  rw [started, wp_bind]
  refine wp_frame (wp_forkret hme hparked hchild) (all_forkret foreign_of_inner) Mark.out_ne fun _ l' hl' => ?_
  exact ⟨.out, hstart, l', hl', rfl⟩

theorem wp_resume {p : Point P.Ctl} {y : (Know K n × Option (K.Data → Prop)) × Mark n}
    {f : KCode K n (Point P.Ctl)} (h : AtPoint At p y) (hf : resume p = some f) :
    (V.rules G n m).wp (AtPoint At) f y := by
  cases p with
  | client k => cases hf
  | kwait copy k =>
    cases hf
    obtain ⟨x, hk, l, hl, hx⟩ := h
    obtain ⟨e, w, rfl, hw⟩ := hx.eq
    rw [wp_bind]
    refine wp_step (o := .acquire .wait) trivial (by simp [Foreign]) hw fun _ _ _ => ?_
    exact ⟨x, hk, _, hl.lock Lock.wait_ne, hx.congr rfl⟩
  | kwaitLoop copy k =>
    cases hf
    obtain ⟨x, hk, l, hl, hx⟩ := h
    obtain ⟨e, w, rfl, hw⟩ := hx.eq
    rw [wp_bind]
    refine wp_frame (Switching.wp_kwaitRound hl.calm) (all_kwaitRound foreign_of_inner ?_ ?_ ?_ ?_) hw
      fun r l' hr => ?_
    iterate 4 simp [Foreign]
    cases r with
    | none =>
      obtain rfl : l' = l := hr
      exact ⟨x, hk, l', hl, hx⟩
    | some pid =>
      obtain rfl : l' = l.unlock .wait := hr
      exact ⟨x, hk pid, _, hl.unlock, hx.congr rfl⟩
  | scheduler =>
    cases hf
    obtain ⟨l, hl, rfl⟩ := h
    rw [wp_bind]
    refine wp_frame (Switching.wp_schedulerPass hl.calm hl.held hl.idle hl.child)
      (all_schedulerPass foreign_of_inner fun _ => trivial) Mark.out_ne fun _ l' hl' => ?_
    exact ⟨l', hl' ▸ hl, rfl⟩

variable [NeZero n]

/-- The rules of a monitor are right for clients that keep to its protocol. -/
def discipline (V : Monitor K) (G : K.Data → Prop) (m : Nat) {P : Client K n}
    {At : P.Ctl → Mode K → Prop} (hP : V.ObeysIf G P At) :
    Discipline P m (V.rules G n m) (V.Spares G) where
  agree := V.Ok
  at_ := AtPoint At
  op h hcan hC hexec := h.op hcan hC hexec
  start {s X c i} h hcan := by
    obtain ⟨hoff, hparked, hchild⟩ := h.switch.newborn hcan.1.1
    refine ⟨fun htid => hoff c (Shared.tid_eq_inl.mp htid), ?_⟩
    have hout : X (.inl i) = (((X (.inl i)).1.1, none), .out) := by
      refine h.out (by simp [hparked.held]) fun hw => ?_
      obtain ⟨_, d, _, hd, -⟩ := h.watch.window _ hw
      exact hoff d (Shared.tid_eq_inl.mp hd)
    rw [hout]
    exact wp_started hP.start (h.switch.thread i).1 hparked hchild
  enter {y k} input h := by
    obtain ⟨x, hk, hx⟩ := h
    rw [enter, wp_bind]
    refine (wp_script (hP.code k x input hk) hx).imp fun g y' hy' => ?_
    obtain ⟨x', hx', hg⟩ := hy'
    cases g with
    | client k' => exact ⟨x', hg, hx'⟩
    | kwait copy k' => exact ⟨x', hg, hx'⟩
  resume h hf := wp_resume h hf
  timer h hnoff _ := by
    rw [h.out_of_noff hnoff]
    exact wp_frame (Switching.wp_yield (h.switch.calm hnoff)) (all_yield foreign_of_inner) Mark.out_ne
      fun _ _ hl => by rw [hl]
  device x h hnoff := by
    rw [h.out_of_noff hnoff]
    exact wp_handler _ (h.switch.calm hnoff) (hP.handler x)

theorem discipline_boot (hP : V.ObeysIf G P At) {data : K.Data} (hdata : V.inv data) :
    (V.discipline G m hP).Inv (boot P m data) := by
  refine ⟨fun t => ((knowAtBoot t, none), .out), ⟨.boot P data, ?_, ?_⟩, ?_⟩
  · exact ⟨hdata, fun t => ⟨(by simp), fun hin => absurd hin (not_mem_boot (Lock.client_ne _) t)⟩, by simp⟩
  · refine ⟨fun t => ⟨(by simp), fun hin => absurd hin (not_mem_boot (Lock.client_ne _) t)⟩, (by simp), (by simp),
      (by simp), fun _ _ i hi => ?_⟩
    obtain hi | hi := hi
    · exact boot_awake P data i hi.1
    · cases hi
  · refine boot_code (C := fun t x => (V.rules G n m).wp _ x ((knowAtBoot t, none), .out))
      (wp_started hP.start rfl ⟨rfl, rfl, rfl⟩ rfl) (fun _ => Layered.wp_panic quiet_of_inner trivial) fun c => ?_
    exact ⟨_, ⟨⟨.inr ⟨rfl, rfl⟩, fun _ => List.not_mem_nil, rfl⟩, rfl, rfl, rfl⟩, rfl⟩

/-- The data is always in its invariant. -/
theorem inv_of_run (hP : V.ObeysIf G P At) {data : K.Data} (hdata : V.inv data) {M : Machine P m}
    {as : List (Fin m × Label P)}
    (hrun : Sys.RunWhere Machine.Step (Discipline.Cond (V.Spares G)) (boot P m data) as M) :
    V.inv M.shared.data := by
  obtain ⟨X, h, -⟩ := (discipline_boot hP hdata).run hrun
  exact h.data.inv

/-- Without a condition on who is killed, all runs count. -/
theorem runWhere_of_run {M M' : Machine P m} {as : List (Fin m × Label P)}
    (hrun : Sys.Run Machine.Step M as M') :
    Sys.RunWhere Machine.Step (Discipline.Cond (V.Spares fun _ => False)) M as M' :=
  hrun.runWhere fun _ _ _ _ _ _ _ _ _ => False.elim

/-- Nobody is asleep on the channel while the lock is free and the condition holds. -/
theorem not_asleep (hP : V.ObeysIf G P At) {data : K.Data} (hdata : V.inv data) {M : Machine P m}
    {as : List (Fin m × Label P)}
    (hrun : Sys.RunWhere Machine.Step (Discipline.Cond (V.Spares G)) (boot P m data) as M)
    (hfree : M.shared.lock (.client V.lk) = none) (hcond : V.cond M.shared.data) (i : Fin n) :
    ¬ ((M.shared.slot i).state = .sleeping ∧ (M.shared.slot i).chan = some (.client V.ch)) := by
  obtain ⟨X, h, -⟩ := (discipline_boot hP hdata).run hrun
  exact fun hi => h.watch.free hfree hcond i (.inl hi)

end

end Monitor

/-- No lost wakeup. Processes, of which there may be any number on any number of CPUs, sleep on
`V.ch` only while they hold `V.lk` and know that the condition is false; they make it true only
with the lock held and call `wakeup` before they release it. Then in every state that the
machine can reach, if the lock is free and the condition holds, no process is `SLEEPING` on the
channel. -/
theorem no_lost_wakeup [NeZero n] (V : Monitor K) {P : Client K n} {At : P.Ctl → Monitor.Mode K → Prop}
    (hP : V.Obeys P At) {data : K.Data} (hdata : V.inv data) {M : Machine P m}
    {as : List (Fin m × Label P)} (hrun : Sys.Run Machine.Step (boot P m data) as M)
    (hfree : M.shared.lock (.client V.lk) = none) (hcond : V.cond M.shared.data) (i : Fin n) :
    ¬ ((M.shared.slot i).state = .sleeping ∧ (M.shared.slot i).chan = some (.client V.ch)) :=
  Monitor.not_asleep hP hdata (Monitor.runWhere_of_run hrun) hfree hcond i

/-! ## A semaphore -/

inductive SemAct
  | load
  | inc
  | dec

@[reducible] def semSig : Sig where
  Lk := Unit
  Ch := Unit
  Data := Nat
  Act := SemAct
  Res
    | .load => Nat
    | _ => Unit
  act
    | .load, d => (d, d)
    | .inc, d => ((), d + 1)
    | .dec, d => ((), d - 1)

def semAct (a : SemAct) : Script semSig n (semSig.Res a) := Script.act (K := semSig) a

inductive SemCall
  | fork
  | up
  | down

/-- In user space, or at the loop of `down`. -/
inductive SemCtl
  | user
  | waiting

def SemCtl.script : SemCtl → SemCall → Script semSig n (Goto SemCtl)
  | .user, .fork => do
    let _ ← Script.kfork
    pure (.client .user)
  | .user, .up => do
    Script.acquire ()
    semAct .inc
    Script.wakeup ()
    Script.release ()
    pure (.client .user)
  | .user, .down => do
    Script.acquire ()
    pure (.client .waiting)
  | .waiting, _ => do
    let count ← semAct .load
    if count = 0 then
      Script.sleep () ()
      pure (.client .waiting)
    else
      semAct .dec
      Script.release ()
      pure (.client .user)

/-- Processes wait until a counter is positive, and an interrupt may raise it as well. -/
@[reducible] def semClient (n : Nat) : Client semSig n where
  Ctl := SemCtl
  Input := SemCall
  Intr := Unit
  start := .user
  code := SemCtl.script
  handler _ := {
    lk := ()
    body := do
      Code.perform (Signal.act (K := semSig) .inc)
      Code.perform (Signal.wakeup ()) }

def semMonitor : Monitor semSig where
  lk := ()
  ch := ()
  cond d := 0 < d
  inv _ := True
  free d d' := d' = d
  free_inv _ _ := trivial
  free_cond _ h hcond := h ▸ hcond

def semAt : SemCtl → Monitor.Mode semSig → Prop
  | .user, x => x = .out
  | .waiting, x => x = .fresh

theorem semMonitor_stable (p : Nat → Prop) : semMonitor.Stable p := fun _ _ _ hp h => h ▸ hp

theorem semMonitor_obeys : semMonitor.Obeys (semClient n) semAt where
  start := rfl
  code k x input hk := by
    cases k with
    | waiting =>
      obtain rfl : x = .fresh := hk
      refine Monitor.Protocol.act (fun _ _ _ => trivial) fun (d : Nat) _ _ => ?_
      refine ⟨True, (· = d), fun _ => ⟨trivial, fun _ _ _ => id⟩,
        ⟨semMonitor_stable _, fun _ _ _ h => h⟩, ?_⟩
      rw [wp_ite]
      split
      · next hzero => exact Monitor.Protocol.sleep (.inl trivial) (fun _ _ h => by simp_all [semMonitor]) rfl
      · refine Monitor.Protocol.act (fun _ _ _ => trivial) fun _ _ _ => ?_
        refine ⟨True, fun _ => True, fun _ => ⟨trivial, fun (d' : Nat) _ _ => ?_⟩,
          ⟨semMonitor_stable _, fun _ _ _ _ => trivial⟩, Monitor.Protocol.release (.inl trivial) rfl⟩
        exact fun h => Nat.lt_of_lt_of_le h (Nat.sub_le d' 1)
    | user =>
      obtain rfl : x = .out := hk
      cases input with
      | fork => exact ⟨trivial, fun _ _ => ⟨.out, rfl, rfl⟩⟩
      | down => exact Monitor.Protocol.acquire rfl
      | up =>
        refine Monitor.Protocol.acquire (Monitor.Protocol.act (fun _ _ _ => trivial) fun d _ _ => ?_)
        refine ⟨False, fun _ => True, False.elim, ⟨semMonitor_stable _, fun _ _ _ _ => trivial⟩, ?_⟩
        exact Monitor.Protocol.wakeup (Monitor.Protocol.release (.inr trivial) rfl)
  handler h := by
    refine ⟨fun _ => ⟨fun _ _ _ => trivial, fun _ _ => ?_⟩, fun hne => absurd rfl hne⟩
    refine ⟨.held False False fun _ => True, ⟨False, _, rfl, False.elim, ?_⟩, trivial, fun _ _ => ?_⟩
    · exact ⟨semMonitor_stable _, fun _ _ _ _ => trivial⟩
    · exact ⟨_, (if_pos rfl).symm, .inr trivial⟩

/-- Init forks and goes to sleep in `down`; the child calls `up`. -/
def downUp (c : Fin m) : List (Fin m × Label (semClient 2)) :=
  List.flatten [(c, .resume) :: ops c 7, (c, .enter .fork) :: ops c 20, (c, .enter .down) :: ops c 1,
    (c, .enter .down) :: ops c 19, (c, .enter .up) :: ops c 9]

theorem no_lost_wakeup_downUp : ∃ M : Machine (semClient 2) 1,
    Sys.Run Machine.Step (boot (semClient 2) 1 (0 : Nat)) (downUp 0) M ∧
    (M.shared.lock (.client ()) = none ∧ 0 < M.shared.data) ∧
    ¬ ((M.shared.slot 0).state = .sleeping ∧ (M.shared.slot 0).chan = some (.client ())) := by
  have hexec : (Sys.exec Machine.next (boot (semClient 2) 1 (0 : Nat)) (downUp 0)).any (fun M =>
      decide (M.shared.lock (.client ()) = none ∧ 0 < M.shared.data)) = true := by decide +kernel
  obtain ⟨M, hM, hcheck⟩ := Sys.exists_of_any hexec
  have hcheck := of_decide_eq_true hcheck
  have hrun : Sys.Run Machine.Step (boot (semClient 2) 1 (0 : Nat)) (downUp 0) M := Sys.exec_run hM
  refine ⟨M, hrun, hcheck, ?_⟩
  exact no_lost_wakeup semMonitor semMonitor_obeys trivial hrun hcheck.1 hcheck.2 0

end Xv6.Sched
