-- SUMMARY: Sleepers on a channel and the condition they wait for: what the holder of the condition lock has to know.
import Xv6.Sched.Agreement

/-!
# Watching a sleep channel

Processes sleep on a channel until a condition holds. They check the condition and go to
sleep under a lock, and so does whoever makes the condition true and calls `wakeup`. Between
the release of that lock in `sleep` and the write of `p->state` the sleeper has nothing but its
own lock; it counts as asleep from the moment it releases the condition lock.

The holder of the condition lock knows whether someone may be asleep although the condition
holds. It may release the lock only if it knows that this is not so.
-/

namespace Xv6.Sched

open Proc (ProcState)

variable {K : Sig} {n m : Nat} {B : Type}

/-- What a thread knows about the sleepers. -/
inductive Mark (n : Nat)
  | out
  /-- It holds the lock. `ok` says that nobody is asleep if the condition holds; `clear` are
  processes that are not asleep. -/
  | held (ok : Prop) (clear : Fin n → Prop)
  /-- It has released the lock in `sleep`, and is not `SLEEPING` yet. -/
  | window

theorem Mark.out_ne : (Mark.out : Mark n) ≠ .window := nofun

theorem Mark.held_ne {ok : Prop} {clear : Fin n → Prop} : Mark.held ok clear ≠ .window := nofun

/-- A channel, its lock, and the condition. What else the threads know tells which operations
cannot make the condition true, and when it is false. -/
structure Watch (K : Sig) (n m : Nat) (B : Type) where
  lk : Lock K n
  ch : Chan K n
  cond : Shared K n m → Prop
  know : B → Know K n
  calm : B → Op K n → Prop
  off : B → Prop
  lk_ne : ∀ i, lk ≠ .proc i

namespace Watch

variable (V : Watch K n m B)

/-- Slot `i` is looked at, or written, under its lock, and it is not asleep on the channel. -/
def Clears (b : B) : (o : Op K n) → o.Res → Fin n → Prop
  | .read i, x, j => j = i ∧ .proc i ∈ (V.know b).held ∧ ¬ (x.state = .sleeping ∧ x.chan = some V.ch)
  | .write i (.state x), _, j => j = i ∧ .proc i ∈ (V.know b).held ∧ x ≠ .sleeping
  | _, _, _ => False

/-- A process that may go to sleep: it holds its own lock, and the condition is false. -/
def Sleepy (b : B) : Prop :=
  (∃ i, (V.know b).me = some i ∧ .proc i ∈ (V.know b).held) ∧ (V.know b).phase = .run ∧ V.off b

/-- The process itself is not asleep. -/
def Mine (b : B) (i : Fin n) : Prop := (V.know b).me = some i ∧ (V.know b).phase = .run

def can (b : B) (x : Mark n) (o : Op K n) : Prop :=
  (V.calm b o ∨ ∃ ok clear, x = .held ok clear) ∧
  (o = .release V.lk → V.calm b o ∧ ∀ ok clear, x = .held ok clear → ok ∨ ∀ i, clear i) ∧
  (∀ i, o = .write i (.sleep (some V.ch)) → x = .window)

def after (b : B) (o : Op K n) (r : o.Res) : Mark n → Mark n → Prop
  | .held ok clear, x =>
    (o = .release V.lk ∧ (x = .out ∨ x = .window ∧ V.Sleepy b)) ∨
    (o ≠ .release V.lk ∧ ∃ ok' clear', x = .held ok' clear' ∧ (ok' → ok ∧ V.calm b o) ∧
      ∀ j, clear' j → clear j ∨ V.Clears b o r j)
  | _, x => (o = .acquire V.lk ∧ x = .held True (V.Mine b)) ∨ (o ≠ .acquire V.lk ∧ x = .out)

def layer : Typestate.Layer (Op K n) Op.Res B (Mark n) where
  can := V.can
  may _ _ _ _ := True
  after b x o r := V.after b o r x

/-- Process `i` is asleep on the channel, or bound to be. -/
def Sleeper (s : Shared K n m) (W : Tid n m → Mark n) (i : Fin n) : Prop :=
  ((s.slot i).state = .sleeping ∧ (s.slot i).chan = some V.ch) ∨ W (.inl i) = .window

structure Agree (s : Shared K n m) (Y : Tid n m → B) (W : Tid n m → Mark n) : Prop where
  holder : ∀ t, (∃ ok clear, W t = .held ok clear) ↔ V.lk ∈ (V.know (Y t)).held
  window : ∀ t, W t = .window → ∃ i c, t = .inl i ∧ s.tid c = t ∧ .proc i ∈ (V.know (Y t)).held ∧
    (V.know (Y t)).phase = .run
  ok : ∀ t ok clear, W t = .held ok clear → ok → V.cond s → ∀ i, ¬ V.Sleeper s W i
  clear : ∀ t ok clear, W t = .held ok clear → ∀ i, clear i → ¬ V.Sleeper s W i
  free : s.lock V.lk = none → V.cond s → ∀ i, ¬ V.Sleeper s W i

end Watch

/-! ## Holders -/

section
variable {s s' : Shared K n m} {X : Tid n m → Know K n} {t u : Tid n m} {lk : Lock K n}

/-- Threads that are not executed hold no lock but that of a process. -/
theorem Agree.current_of_held (h : Agree s X) (hlk : ∀ i, lk ≠ .proc i) (ht : lk ∈ (X t).held) :
    ∃ c, s.tid c = t := by
  by_contra hno
  cases t with
  | inl i =>
    have hparked := h.parked i fun c hc => hno ⟨c, Shared.tid_eq_inl.mpr hc⟩
    rw [hparked.held, List.mem_singleton] at ht
    exact hlk i ht
  | inr c =>
    cases hstack : (s.cpu c).stack with
    | none => exact hno ⟨c, Shared.tid_eq_inr.mpr ⟨hstack, rfl⟩⟩
    | some p =>
      rw [(h.away c p hstack).held, List.mem_singleton] at ht
      exact hlk p ht

/-- Two threads do not hold the same lock. -/
theorem Agree.holder_unique (h : Agree s X) (hlk : ∀ i, lk ≠ .proc i) (ht : lk ∈ (X t).held)
    (hu : lk ∈ (X u).held) : t = u := by
  obtain ⟨c, rfl⟩ := h.current_of_held hlk ht
  obtain ⟨d, rfl⟩ := h.current_of_held hlk hu
  have heq := (h.lock_eq ht).symm.trans (h.lock_eq hu)
  rw [Option.some.inj heq]

/-- A lock stays where it is unless it is taken or released. -/
theorem Know.mem_after {l : Know K n} {o : Op K n} {r : o.Res} (hacquire : o ≠ .acquire lk)
    (hrelease : o ≠ .release lk) : lk ∈ (l.after o r).held ↔ lk ∈ l.held := by
  cases o with
  | acquire lk' =>
    have hne : lk ≠ lk' := fun heq => hacquire (heq ▸ rfl)
    simp [after, lock, hne]
  | release lk' =>
    have hne : lk ≠ lk' := fun heq => hrelease (heq ▸ rfl)
    exact List.mem_erase_of_ne hne
  | read i =>
    simp only [after]
    split <;> rfl
  | write i w =>
    cases w with
    | state x =>
      cases x <;> simp only [after, wrote]
      case running => rfl
      all_goals split <;> try rfl
      all_goals split <;> rfl
    | _ => rfl
  | _ => rfl

end

/-! ## Operations -/

namespace Watch

variable {V : Watch K n m B} {s s' : Shared K n m} {Y : Tid n m → B} {W : Tid n m → Mark n}
  {c : Fin m} {choice : Bool} {o : Op K n} {r : o.Res} {b : B} {x : Mark n}

/-- Only a thread in the window puts its process to sleep on the channel. -/
theorem asleep_of_exec {l : Know K n} (hcan : l.can o)
    (hsleep : ∀ i, o = .write i (.sleep (some V.ch)) → W (s.tid c) = .window ∧ s.tid c = .inl i)
    (hexec : s.exec c choice o = some (r, s')) {i : Fin n} (hstate : (s'.slot i).state = .sleeping)
    (hchan : (s'.slot i).chan = some V.ch) : V.Sleeper s W i := by
  by_cases hwrite : ∃ w, o = .write i w
  · obtain ⟨w, rfl⟩ := hwrite
    cases hexec
    rw [Shared.setSlot_self] at hstate hchan
    cases w with
    | sleep chan =>
      have hchan : chan = some V.ch := hchan
      obtain ⟨hwindow, htid⟩ := hsleep i (hchan ▸ rfl)
      exact .inr (htid ▸ hwindow)
    | state y =>
      have hstate : y = .sleeping := hstate
      subst hstate
      exact hcan.elim
    | killed | parent => exact .inl ⟨hstate, hchan⟩
    | awake => cases hchan
    | alloc | exit | free | reap => cases hstate
  · have hslot : s'.slot i = s.slot i := by
      by_cases hother : ∃ j w, o = .write j w
      · obtain ⟨j, w, rfl⟩ := hother
        cases hexec
        exact Shared.setSlot_ne _ _ _ fun heq => hwrite ⟨w, by rw [heq]⟩
      · rw [Shared.exec_slot hexec fun j w heq => hother ⟨j, w, heq⟩]
    rw [hslot] at hstate hchan
    exact .inl ⟨hstate, hchan⟩

namespace Agree

/-- The thread in the window is the process that goes to sleep. -/
theorem sleep_self (h17 : Sched.Agree s fun t => V.know (Y t)) (hcan17 : (V.know (Y (s.tid c))).can o)
    (hcan : V.can (Y (s.tid c)) (W (s.tid c)) o) (i : Fin n)
    (ho : o = .write i (.sleep (some V.ch))) : W (s.tid c) = .window ∧ s.tid c = .inl i := by
  subst ho
  exact ⟨hcan.2.2 i rfl, h17.tid_of_me hcan17.2.2⟩

/-- Nobody falls asleep but through the window. -/
theorem sleeper_mono (h17 : Sched.Agree s fun t => V.know (Y t))
    (hcan17 : (V.know (Y (s.tid c))).can o) (hcan : V.can (Y (s.tid c)) (W (s.tid c)) o)
    (hexec : s.exec c choice o = some (r, s')) {i : Fin n}
    (hi : V.Sleeper s' (Function.update W (s.tid c) x) i) (hx : x ≠ .window) : V.Sleeper s W i := by
  obtain ⟨hstate, hchan⟩ | hwindow := hi
  · exact asleep_of_exec hcan17 (sleep_self h17 hcan17 hcan) hexec hstate hchan
  · by_cases hi : Sum.inl i = s.tid c
    · rw [hi, Function.update_self] at hwindow
      exact absurd hwindow hx
    · rw [Function.update_of_ne hi] at hwindow
      exact .inr hwindow

variable (h : V.Agree s Y W) (h17 : Sched.Agree s fun t => V.know (Y t))

include h h17

/-- The window of another process is closed to whoever holds the lock of that process. -/
theorem not_window {i : Fin n} (hheld : .proc i ∈ (V.know (Y (s.tid c))).held)
    (hne : W (s.tid c) ≠ .window) : W (.inl i) ≠ .window := by
  intro hwindow
  obtain ⟨j, d, hj, htid, hin, -⟩ := h.window _ hwindow
  obtain rfl : i = j := Sum.inl.inj hj
  rw [← htid] at hin
  have heq := (h17.lock_eq hheld).symm.trans (h17.lock_eq hin)
  obtain rfl : c = d := Option.some.inj heq
  exact hne (htid ▸ hwindow)

/-- A process that has been looked at is not asleep. -/
theorem cleared (hexec : s.exec c choice o = some (r, s')) {ok : Prop} {clear : Fin n → Prop}
    (hW : W (s.tid c) = .held ok clear) {i : Fin n} (hclears : V.Clears (Y (s.tid c)) o r i)
    (hi : V.Sleeper s' (Function.update W (s.tid c) x) i) : x = .window := by
  by_contra hx
  revert hi
  have hwindow (hheld : .proc i ∈ (V.know (Y (s.tid c))).held) :
      Function.update W (s.tid c) x (.inl i) ≠ .window := by
    by_cases hi : Sum.inl i = s.tid c
    · rwa [hi, Function.update_self]
    · rw [Function.update_of_ne hi]
      exact h.not_window h17 hheld (by simp [hW])
  cases o with
  | read j =>
    obtain ⟨rfl, hheld, hawake⟩ := hclears
    cases hexec
    rintro (hasleep | hin)
    · exact hawake hasleep
    · exact hwindow hheld hin
  | write j w =>
    cases w with
    | state y =>
      obtain ⟨rfl, hheld, hy⟩ := hclears
      cases hexec
      rintro (⟨hasleep, -⟩ | hin)
      · rw [Shared.setSlot_self] at hasleep
        exact hy hasleep
      · exact hwindow hheld hin
    | _ => exact hclears.elim
  | _ => exact hclears.elim

omit h17 in
/-- The windows of other threads stay as they are. -/
theorem window_other (hexec : s.exec c choice o = some (r, s')) {u : Tid n m} (hu : u ≠ s.tid c)
    (hwindow : W u = .window) : ∃ i d, u = .inl i ∧ s'.tid d = u ∧ .proc i ∈ (V.know (Y u)).held ∧
      (V.know (Y u)).phase = .run := by
  obtain ⟨i, d, hi, htid, hheld, hphase⟩ := h.window u hwindow
  have hd : d ≠ c := fun heq => hu (heq ▸ htid.symm)
  refine ⟨i, d, hi, ?_, hheld, hphase⟩
  rw [Shared.tid_congr (congrArg Cpu.stack (Shared.exec_cpu hexec hd)), htid]

omit h17 in
theorem windows (hexec : s.exec c choice o = some (r, s')) (hx : x ≠ .window) (u : Tid n m)
    (hu : Function.update W (s.tid c) x u = .window) : ∃ i d, u = .inl i ∧ s'.tid d = u ∧
      .proc i ∈ (V.know (Function.update Y (s.tid c) b u)).held ∧
      (V.know (Function.update Y (s.tid c) b u)).phase = .run := by
  obtain ⟨-, heq⟩ | ⟨hut, hu⟩ := update_eq_cases hu
  · exact absurd heq hx
  · rw [Function.update_of_ne hut]
    exact h.window_other hexec hut hu

omit h17 in
theorem holders (hx : (∃ ok clear, x = .held ok clear) ↔ V.lk ∈ (V.know b).held) (u : Tid n m) :
    (∃ ok clear, Function.update W (s.tid c) x u = .held ok clear) ↔
      V.lk ∈ (V.know (Function.update Y (s.tid c) b u)).held :=
  forall_update (p := fun _ b x => (∃ ok clear, x = Mark.held ok clear) ↔ V.lk ∈ (V.know b).held) hx
    (fun u _ => h.holder u) u

/-- Nobody else holds the lock. -/
theorem not_held_other {ok ok' : Prop} {clear clear' : Fin n → Prop} (hW : W (s.tid c) = .held ok clear)
    {u : Tid n m} (hu : u ≠ s.tid c) : W u ≠ .held ok' clear' := by
  intro hWu
  have ht := (h.holder (s.tid c)).mp ⟨ok, clear, hW⟩
  have hu' := (h.holder u).mp ⟨ok', clear', hWu⟩
  exact hu (h17.holder_unique V.lk_ne hu' ht)

variable (hknow : V.know b = (V.know (Y (s.tid c))).after o r)
  (hcan17 : (V.know (Y (s.tid c))).can o) (hcan : V.can (Y (s.tid c)) (W (s.tid c)) o)
  (hexec : s.exec c choice o = some (r, s')) (hcalm : V.calm (Y (s.tid c)) o → V.cond s' → V.cond s)

include hknow hcan17 hcan hexec hcalm

/-- The holder releases the lock. -/
theorem release (hoff : V.off (Y (s.tid c)) → ¬ V.cond s) (ho : o = .release V.lk)
    {ok : Prop} {clear : Fin n → Prop} (hW : W (s.tid c) = .held ok clear)
    (hx : x = .out ∨ x = .window ∧ V.Sleepy (Y (s.tid c))) :
    V.Agree s' (Function.update Y (s.tid c) b) (Function.update W (s.tid c) x) := by
  subst ho
  obtain ⟨hcalm', hquiet⟩ := hcan.2.1 rfl
  have hnot : ¬ ∃ ok clear, x = .held ok clear := by
    rintro ⟨ok, clear, rfl⟩
    obtain hx | ⟨hx, -⟩ := hx <;> cases hx
  have hnone {u : Tid n m} {ok' : Prop} {clear' : Fin n → Prop} :
      Function.update W (s.tid c) x u ≠ .held ok' clear' := by
    intro hu
    obtain ⟨-, heq⟩ | ⟨hut, hu⟩ := update_eq_cases hu
    · exact hnot ⟨_, _, heq⟩
    · exact h.not_held_other h17 hW hut hu
  refine ⟨h.holders ?_, ?_, fun _ _ _ hu => absurd hu hnone, fun _ _ _ hu => absurd hu hnone, ?_⟩
  · have hlk : V.lk ∉ (V.know b).held := by
      rw [hknow]
      exact (h17.cpu c).nodup.not_mem_erase
    exact ⟨fun hx => absurd hx hnot, fun hin => absurd hin hlk⟩
  · intro u hu
    by_cases hut : u = s.tid c
    · subst hut
      rw [Function.update_self] at hu ⊢
      obtain hx | ⟨-, ⟨i, hme, hin⟩, hphase, -⟩ := hx
      · cases hu.symm.trans hx
      refine ⟨i, c, h17.tid_of_me hme, ?_, ?_, ?_⟩
      · have hstack : (s'.cpu c).stack = (s.cpu c).stack := by
          simp only [Shared.exec] at hexec
          split at hexec
          · cases hexec
            rw [Shared.setCpu_self]
          · cases hexec
        exact Shared.tid_congr hstack
      · rw [hknow]
        exact (List.mem_erase_of_ne (V.lk_ne i).symm).mpr hin
      · rw [hknow]
        exact hphase
    · rw [Function.update_of_ne hut] at hu ⊢
      exact h.window_other hexec hut hu
  · intro _ hcond i hi
    have hcond := hcalm hcalm' hcond
    obtain rfl | ⟨rfl, hsleepy⟩ := hx
    · have hi := sleeper_mono h17 hcan17 hcan hexec hi Mark.out_ne
      obtain hok | hclear := hquiet ok clear hW
      · exact h.ok _ ok clear hW hok hcond i hi
      · exact h.clear _ ok clear hW i (hclear i) hi
    · exact hoff hsleepy.2.2 hcond

/-- The holder does something else. -/
theorem hold (hmay : (V.know (Y (s.tid c))).may o r) (ho : o ≠ .release V.lk)
    {ok ok' : Prop} {clear clear' : Fin n → Prop}
    (hW : W (s.tid c) = .held ok clear) (hok : ok' → ok ∧ V.calm (Y (s.tid c)) o)
    (hclear : ∀ j, clear' j → clear j ∨ V.Clears (Y (s.tid c)) o r j) :
    V.Agree s' (Function.update Y (s.tid c) b) (Function.update W (s.tid c) (.held ok' clear')) := by
  have hheld : V.lk ∈ (V.know (Y (s.tid c))).held := (h.holder _).mp ⟨ok, clear, hW⟩
  have hacquire : o ≠ .acquire V.lk := by
    rintro rfl
    exact hmay hheld
  have hheld' : V.lk ∈ (V.know b).held := by
    rw [hknow]
    exact (Know.mem_after hacquire ho).mpr hheld
  refine ⟨h.holders ⟨fun _ => hheld', fun _ => ⟨_, _, rfl⟩⟩, h.windows hexec Mark.held_ne, ?_, ?_, ?_⟩
  · intro u ok'' clear'' hu hok'' hcond i hi
    have hi' := sleeper_mono h17 hcan17 hcan hexec hi Mark.held_ne
    obtain ⟨-, ⟨⟩⟩ | ⟨hut, hu⟩ := update_eq_cases hu
    · obtain ⟨hok, hcalm'⟩ := hok hok''
      exact h.ok _ ok clear hW hok (hcalm hcalm' hcond) i hi'
    · exact h.not_held_other h17 hW hut hu
  · intro u ok'' clear'' hu i hclear'' hi
    obtain ⟨-, ⟨⟩⟩ | ⟨hut, hu⟩ := update_eq_cases hu
    · obtain hold | hnew := hclear i hclear''
      · exact h.clear _ ok clear hW i hold (sleeper_mono h17 hcan17 hcan hexec hi Mark.held_ne)
      · cases h.cleared h17 hexec hW hnew hi
    · exact h.not_held_other h17 hW hut hu
  · intro hfree
    rw [Shared.exec_lock hexec hacquire ho, h17.lock_eq hheld] at hfree
    cases hfree

/-- Somebody else takes the lock. -/
theorem take (ho : o = .acquire V.lk) (hW : ¬ ∃ ok clear, W (s.tid c) = .held ok clear) :
    V.Agree s' (Function.update Y (s.tid c) b)
      (Function.update W (s.tid c) (.held True (V.Mine (Y (s.tid c))))) := by
  subst ho
  have hcalm' : V.calm (Y (s.tid c)) (.acquire V.lk) := hcan.1.resolve_right hW
  have hfree : s.lock V.lk = none := by
    by_contra hne
    simp only [Shared.exec, if_neg hne] at hexec
    cases hexec
  have hnone {u : Tid n m} {ok : Prop} {clear : Fin n → Prop} : W u ≠ .held ok clear := by
    intro hu
    obtain ⟨d, rfl⟩ := h17.current_of_held V.lk_ne ((h.holder u).mp ⟨_, _, hu⟩)
    cases hfree.symm.trans (h17.lock_eq ((h.holder _).mp ⟨_, _, hu⟩))
  refine ⟨h.holders ⟨fun _ => by rw [hknow]; exact List.mem_cons_self, fun _ => ⟨_, _, rfl⟩⟩,
    h.windows hexec Mark.held_ne, ?_, ?_, ?_⟩
  · intro u ok clear hu _ hcond i hi
    exact h.free hfree (hcalm hcalm' hcond) i (sleeper_mono h17 hcan17 hcan hexec hi Mark.held_ne)
  · intro u ok clear hu i hclear hi
    obtain ⟨-, ⟨⟩⟩ | ⟨hut, hu⟩ := update_eq_cases hu
    · obtain ⟨hme, hphase⟩ := hclear
      obtain ⟨hstate, -⟩ | hwindow := hi
      · rw [Shared.exec_slot hexec (by simp)] at hstate
        have hrun := (h17.cpu c).on i (h17.target_of_me hme) (by rw [Know.active, hphase])
        cases hrun.symm.trans hstate
      · rw [← h17.tid_of_me hme, Function.update_self] at hwindow
        cases hwindow
    · exact absurd hu hnone
  · intro hfree'
    simp only [Shared.exec, if_pos hfree] at hexec
    cases hexec
    rw [Shared.setCpu_lock, Shared.setLock_self] at hfree'
    cases hfree'

/-- A thread that does not hold the lock does something else. -/
theorem pass (hmay : (V.know (Y (s.tid c))).may o r) (ho : o ≠ .acquire V.lk)
    (hW : ¬ ∃ ok clear, W (s.tid c) = .held ok clear) :
    V.Agree s' (Function.update Y (s.tid c) b) (Function.update W (s.tid c) .out) := by
  have hcalm' : V.calm (Y (s.tid c)) o := hcan.1.resolve_right hW
  have hlk : V.lk ∉ (V.know (Y (s.tid c))).held := fun hin => hW ((h.holder _).mpr hin)
  have hrelease : o ≠ .release V.lk := by
    rintro rfl
    exact hlk hmay
  have hlk' : V.lk ∉ (V.know b).held := by
    rw [hknow]
    exact fun hin => hlk ((Know.mem_after ho hrelease).mp hin)
  refine ⟨h.holders ⟨(by simp), fun hin => absurd hin hlk'⟩, h.windows hexec Mark.out_ne, ?_, ?_, ?_⟩
  · intro u ok clear hu hok hcond i hi
    have hi := sleeper_mono h17 hcan17 hcan hexec hi Mark.out_ne
    obtain ⟨-, ⟨⟩⟩ | ⟨hut, hu⟩ := update_eq_cases hu
    exact h.ok u ok clear hu hok (hcalm hcalm' hcond) i hi
  · intro u ok clear hu i hclear hi
    have hi := sleeper_mono h17 hcan17 hcan hexec hi Mark.out_ne
    obtain ⟨-, ⟨⟩⟩ | ⟨hut, hu⟩ := update_eq_cases hu
    exact h.clear u ok clear hu i hclear hi
  · intro hfree hcond i hi
    rw [Shared.exec_lock hexec ho hrelease] at hfree
    exact h.free hfree (hcalm hcalm' hcond) i (sleeper_mono h17 hcan17 hcan hexec hi Mark.out_ne)

/-- Every operation that the rules allow. -/
theorem op (hmay : (V.know (Y (s.tid c))).may o r) (hoff : V.off (Y (s.tid c)) → ¬ V.cond s)
    (hafter : V.after (Y (s.tid c)) o r (W (s.tid c)) x) :
    V.Agree s' (Function.update Y (s.tid c) b) (Function.update W (s.tid c) x) := by
  have hnot (hW : ¬ ∃ ok clear, W (s.tid c) = .held ok clear)
      (hx : (o = .acquire V.lk ∧ x = .held True (V.Mine (Y (s.tid c)))) ∨
        (o ≠ .acquire V.lk ∧ x = .out)) :
      V.Agree s' (Function.update Y (s.tid c) b) (Function.update W (s.tid c) x) := by
    obtain ⟨ho, rfl⟩ | ⟨ho, rfl⟩ := hx
    · exact h.take h17 hknow hcan17 hcan hexec hcalm ho hW
    · exact h.pass h17 hknow hcan17 hcan hexec hcalm hmay ho hW
  cases hW : W (s.tid c) with
  | held ok clear =>
    rw [hW] at hafter
    obtain ⟨ho, hx⟩ | ⟨ho, ok', clear', rfl, hok, hclear⟩ := hafter
    · exact h.release h17 hknow hcan17 hcan hexec hcalm hoff ho hW hx
    · exact h.hold h17 hknow hcan17 hcan hexec hcalm hmay ho hW hok hclear
  | out =>
    rw [hW] at hafter
    exact hnot (by simp [hW]) hafter
  | window =>
    rw [hW] at hafter
    exact hnot (by simp [hW]) hafter

end Agree

end Watch

end Xv6.Sched
