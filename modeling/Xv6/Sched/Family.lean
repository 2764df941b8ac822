-- SUMMARY: Parents, children and zombies: what threads know about them under `wait_lock`, and that it stays true.
import Xv6.Sched.Layered
import Xv6.Sched.OneCpu

/-!
# Families

`wait_lock` protects who is whose parent and who is a zombie: nobody writes `p->parent`, exits or
reaps a zombie without it. So a thread that holds the lock may rely on all it has found out about
families since it took the lock. Further knowledge is about two slots: one that the thread has
allocated and given a parent, and one whose `pid` and `xstate` it has read under its lock.
-/

namespace Xv6.Sched

open Proc (ProcState)
open Typestate

variable {K : Sig} {n m : Nat}

/-- The states of a process that may have children. -/
def Alive (x : ProcState) : Prop := x = .running ∨ x = .runnable ∨ x = .sleeping

/-- The states of a process that `kfork` has completed. -/
def Started (x : ProcState) : Prop := x ≠ .unused ∧ x ≠ .used

/-- What `wait_lock` protects. -/
structure View (n : Nat) where
  parent : Fin n → Option (Fin n)
  zombie : Fin n → Prop

attribute [ext] View

def Shared.view (s : Shared K n m) : View n where
  parent i := (s.slot i).parent
  zombie i := (s.slot i).state = .zombie

def View.wrote (F : View n) (i : Fin n) : Write K n → View n
  | .parent q => { F with parent := Function.update F.parent i (some q) }
  | .exit _ => { F with zombie := fun j => j = i ∨ F.zombie j }
  | .reap _ _ => ⟨Function.update F.parent i none, fun j => j ≠ i ∧ F.zombie j⟩
  | _ => F

/-- Families are in order. -/
structure Family [NeZero n] (s : Shared K n m) : Prop where
  alive : ∀ i q, (s.slot i).parent = some q → Alive (s.slot q).state
  init : Alive (s.slot initproc).state
  started : ∀ i, i ≠ initproc → Started (s.slot i).state → (s.slot i).parent ≠ none
  unused : ∀ i, (s.slot i).state = .unused → (s.slot i).parent = none

/-! ## Rules -/

structure Kin (n : Nat) where
  /-- With `wait_lock` held: what is known about families. -/
  fam : Option (View n → Prop)
  /-- The slot that the thread has allocated, when it has got its parent. -/
  born : Option (Fin n)
  /-- A slot whose lock is held, its `pid` and its `xstate`. -/
  seen : Option (Fin n × Int × Int)

/-- Nothing is known. -/
def Kin.empty : Kin n := ⟨none, none, none⟩

namespace Kin

def can [NeZero n] (l : Know K n) (k : Kin n) : Op K n → Prop
  | .write i (.exit _) => i ≠ initproc ∧ ∃ p, k.fam = some p ∧ ∀ F, p F → ∀ j, F.parent j ≠ some i
  | .write i (.parent q) => ∃ p, k.fam = some p ∧
      ((l.child = some i ∧ k.born = none ∧ l.phase = .run ∧ l.me = some q) ∨
        (q = initproc ∧ ∀ F, p F → F.parent i ≠ none))
  | .write i (.reap pid status) =>
    (∃ p, k.fam = some p ∧ ∀ F, p F → F.parent i = l.proc) ∧
    ∃ xstate, k.seen = some (i, pid, xstate) ∧ (status = none ∨ status = some xstate)
  | .write i .free => k.born ≠ some i
  | .write i (.state .runnable) => l.me = some i ∨ l.known i = some .sleeping ∨ k.born = some i
  | _ => True

def mayFam (fam : Option (View n → Prop)) : (o : Op K n) → o.Res → Prop
  | .read i, x => ∀ p, fam = some p →
      ∃ F, p F ∧ F.parent i = x.parent ∧ (F.zombie i ↔ x.state = .zombie)
  | _, _ => True

def afterFam (fam : Option (View n → Prop)) : (o : Op K n) → o.Res → Option (View n → Prop) → Prop
  | .acquire lk, _, fam' =>
    (lk = .wait ∧ fam' = some fun _ => True) ∨ (lk ≠ .wait ∧ fam' = fam)
  | .release lk, _, fam' => (lk = .wait ∧ fam' = none) ∨ (lk ≠ .wait ∧ fam' = fam)
  | .read i, x, fam' => fam' = fam ∨ ∃ p q, fam = some p ∧ fam' = some q ∧
      ∀ F, p F → F.parent i = x.parent → (F.zombie i ↔ x.state = .zombie) → q F
  | .write i w, _, fam' => (fam = none ∧ fam' = none) ∨
      ∃ p q, fam = some p ∧ fam' = some q ∧ ∀ F, p F → q (F.wrote i w)
  | _, _, fam' => fam' = fam

def afterBorn (l : Know K n) (born : Option (Fin n)) : Op K n → Option (Fin n)
  | .write i (.parent _) => if l.child = some i then some i else born
  | .write i (.state .runnable) => if l.me = some i ∨ l.known i = some .sleeping then born else none
  | _ => born

def afterSeen (l : Know K n) (seen : Option (Fin n × Int × Int)) :
    (o : Op K n) → o.Res → Option (Fin n × Int × Int) → Prop
  | .read i, x, seen' => seen' = seen ∨ (.proc i ∈ l.held ∧ seen' = some (i, x.pid, x.xstate))
  | .choose, _, seen' => seen' = seen
  | _, _, seen' => seen' = none

def layer [NeZero n] : Layer (Op K n) Op.Res (Know K n) (Kin n) where
  can := can
  may _ k := mayFam k.fam
  after l k o r k' :=
    afterFam k.fam o r k'.fam ∧ k'.born = afterBorn l k.born o ∧ afterSeen l k.seen o r k'.seen

/-- What the threads know is true. -/
structure Ok [NeZero n] (s : Shared K n m) (X : Tid n m → Know K n) (D : Tid n m → Kin n) : Prop where
  family : Family s
  holder : ∀ t, (∃ p, (D t).fam = some p) ↔ .wait ∈ (X t).held
  fam : ∀ t p, (D t).fam = some p → p s.view
  born : ∀ t i, (D t).born = some i → (X t).child = some i ∧ (s.slot i).parent ≠ none
  unborn : ∀ t i, (X t).child = some i → (D t).born = none → (s.slot i).parent = none
  seen : ∀ t i pid xstate, (D t).seen = some (i, pid, xstate) →
    (∃ c, s.tid c = t) ∧ .proc i ∈ (X t).held ∧ (s.slot i).pid = pid ∧ (s.slot i).xstate = xstate

end Kin

/-! ## Writes -/

/-- The states of a slot in which a write is allowed. -/
def Write.From : Write K n → ProcState → Prop
  | .state .runnable, x => x = .running ∨ x = .sleeping ∨ x = .used
  | .state .running, x => x = .runnable
  | .state _, _ => False
  | .sleep _, x | .exit _, x => x = .running
  | .alloc _, x => x = .unused
  | .free, x => x = .used
  | .reap _ _, x => x = .zombie
  | .awake, _ | .killed, _ | .parent _, _ => True

section
variable {s s' : Shared K n m} {X : Tid n m → Know K n} {c : Fin m} {i j : Fin n} {w : Write K n}

theorem Agree.running_of_me (h : Agree s X) (hphase : (X (s.tid c)).phase = .run)
    (hme : (X (s.tid c)).me = some i) : (s.slot i).state = .running :=
  (h.cpu c).on i (h.target_of_me hme) (by rw [Know.active, hphase])

theorem Agree.from_of_can (h : Agree s X) (hcan : (X (s.tid c)).canWrite i w) :
    w.From (s.slot i).state := by
  cases w with
  | state x =>
    cases x with
    | runnable =>
      obtain ⟨-, ⟨hphase, hme⟩ | hknown | hchild⟩ := hcan
      · exact .inl (h.running_of_me hphase hme)
      · exact .inr (.inl (h.state_of_known hknown))
      · exact .inr (.inr (h.child _ i hchild))
    | running => exact h.state_of_known hcan.2.2
    | _ => exact hcan.elim
  | sleep chan => exact h.running_of_me hcan.2.1 hcan.2.2
  | exit status => exact h.running_of_me hcan.2.1 hcan.2.2.1
  | alloc pid => exact h.state_of_known hcan.2.2.1
  | free => exact h.child _ i hcan.2
  | reap pid status => exact h.state_of_known hcan.2.2
  | _ => trivial

/-- What a write does to families. -/
theorem view_write (hfrom : w.From (s.slot i).state) (hfree : w = .free → (s.slot i).parent = none) :
    (s.setSlot i (w.apply (s.slot i))).view = s.view.wrote i w := by
  refine View.ext (funext fun j => ?_) (funext fun j => ?_)
  · by_cases hj : j = i
    · subst hj
      cases w <;> simp [Shared.view, View.wrote, Write.apply, Slot.empty, hfree]
    · cases w <;> simp [Shared.view, View.wrote, Shared.setSlot_ne, hj]
  · by_cases hj : j = i
    · subst hj
      cases w with
      | state x =>
        cases x with
        | runnable =>
          obtain hx | hx | hx := hfrom <;> simp [Shared.view, View.wrote, Write.apply, hx]
        | _ => simp_all [Shared.view, View.wrote, Write.apply, Write.From]
      | _ => simp_all [Shared.view, View.wrote, Write.apply, Write.From, Slot.empty]
    · cases w <;> simp [Shared.view, View.wrote, Shared.setSlot_ne, hj]

namespace Kin

/-- Who holds `wait_lock`, after an operation. -/
theorem afterFam_holder {l : Know K n} {fam fam' : Option (View n → Prop)} {o : Op K n} {r : o.Res}
    (hnodup : l.held.Nodup) (hholder : (∃ p, fam = some p) ↔ .wait ∈ l.held)
    (hafter : afterFam fam o r fam') : (∃ p, fam' = some p) ↔ .wait ∈ (l.after o r).held := by
  by_cases hacquire : o = .acquire .wait
  · subst hacquire
    obtain ⟨-, rfl⟩ | ⟨hne, -⟩ := hafter
    · exact ⟨fun _ => List.mem_cons_self, fun _ => ⟨_, rfl⟩⟩
    · exact absurd rfl hne
  by_cases hrelease : o = .release .wait
  · subst hrelease
    obtain ⟨-, rfl⟩ | ⟨hne, -⟩ := hafter
    · exact ⟨(by simp), fun hin => absurd hin hnodup.not_mem_erase⟩
    · exact absurd rfl hne
  have hsome {fam' : Option (View n → Prop)} (h : (∃ p q, fam = some p ∧ fam' = some q) ∨ fam' = fam) :
      (∃ p, fam' = some p) ↔ ∃ p, fam = some p := by
    obtain ⟨p, q, rfl, rfl⟩ | rfl := h
    · exact ⟨fun _ => ⟨p, rfl⟩, fun _ => ⟨q, rfl⟩⟩
    · rfl
  rw [Know.mem_after hacquire hrelease, ← hholder]
  cases o with
  | acquire lk =>
    obtain ⟨rfl, -⟩ | ⟨-, rfl⟩ := hafter
    · exact absurd rfl hacquire
    · rfl
  | release lk =>
    obtain ⟨rfl, -⟩ | ⟨-, rfl⟩ := hafter
    · exact absurd rfl hrelease
    · rfl
  | read i =>
    obtain rfl | ⟨p, q, hp, hq, -⟩ := hafter
    · rfl
    · exact hsome (.inl ⟨p, q, hp, hq⟩)
  | write i w =>
    obtain ⟨hp, hq⟩ | ⟨p, q, hp, hq, -⟩ := hafter
    · exact hsome (.inr (hq.trans hp.symm))
    · exact hsome (.inl ⟨p, q, hp, hq⟩)
  | _ => exact hsome (.inr hafter)

/-- Only writes change the slot that a thread has allocated. -/
theorem child_after {l : Know K n} {o : Op K n} {r : o.Res} (ho : ∀ i w, o ≠ .write i w) :
    (l.after o r).child = l.child := by
  cases o with
  | write i w => exact absurd rfl (ho i w)
  | read i =>
    simp only [Know.after]
    split <;> rfl
  | _ => rfl

theorem afterBorn_other {l : Know K n} {o : Op K n} {born : Option (Fin n)} (ho : ∀ i w, o ≠ .write i w) :
    afterBorn l born o = born := by
  cases o with
  | write i w => exact absurd rfl (ho i w)
  | _ => rfl

/-- A slot that is being created keeps its parent. -/
theorem parent_ne_none (hfrom : w.From (s.slot i).state) (hused : (s.slot j).state = .used)
    (hfree : w = .free → j ≠ i) (hj : (s.slot j).parent ≠ none) :
    ((s.setSlot i (w.apply (s.slot i))).slot j).parent ≠ none := by
  by_cases hji : j = i
  · subst hji
    rw [Shared.setSlot_self]
    cases w with
    | parent q => exact Option.some_ne_none q
    | free => exact absurd rfl (hfree rfl)
    | reap pid status => cases hused.symm.trans hfrom
    | _ => exact hj
  · rwa [Shared.setSlot_ne _ _ _ hji]

/-- A slot without a parent gets one only from `p->parent = q`. -/
theorem parent_eq_none (hparent : ∀ q, w = .parent q → j ≠ i) (hj : (s.slot j).parent = none) :
    ((s.setSlot i (w.apply (s.slot i))).slot j).parent = none := by
  by_cases hji : j = i
  · subst hji
    rw [Shared.setSlot_self]
    cases w with
    | parent q => exact absurd rfl (hparent q rfl)
    | free | reap => rfl
    | _ => exact hj
  · rwa [Shared.setSlot_ne _ _ _ hji]

/-- Only the slot that the thread has allocated is neither its own nor asleep. -/
theorem child_runnable {l : Know K n} : (l.wrote i (.state .runnable)).child =
    if l.me = some i ∨ l.known i = some .sleeping then l.child else none := by
  simp only [Know.wrote]
  by_cases hme : l.me = some i
  · simp [hme, Know.see]
  · by_cases hknown : l.known i = some .sleeping <;> simp [hme, hknown, Know.see]

end Kin

/-- A process whose state is `USED` is neither asleep nor the one that runs. -/
theorem Agree.not_used (h : Agree s X) (hi : (X (s.tid c)).me = some i ∨ (X (s.tid c)).known i = some .sleeping) :
    (s.slot i).state ≠ .used := by
  intro hused
  obtain hme | hknown := hi
  · obtain hst | hst | hst | hst := h.state_of_target (h.target_of_me hme)
    all_goals cases hused.symm.trans hst
  · cases hused.symm.trans (h.state_of_known hknown)

/-- The `pid` and `xstate` of a slot change only under its lock. -/
theorem Agree.seen_kept (h : Agree s X) (hcan : (X (s.tid c)).canWrite i w) {d : Fin m}
    (hd : s.tid d ≠ s.tid c) (hheld : .proc i ∈ (X (s.tid d)).held) :
    (w.apply (s.slot i)).pid = (s.slot i).pid ∧ (w.apply (s.slot i)).xstate = (s.slot i).xstate := by
  have hnot : .proc i ∉ (X (s.tid c)).held := fun hin => by
    have heq := (h.lock_eq hheld).symm.trans (h.lock_eq hin)
    exact hd (Option.some.inj heq ▸ rfl)
  cases w with
  | exit | alloc | free | reap => exact absurd hcan.1 hnot
  | _ => exact ⟨rfl, rfl⟩

variable [NeZero n]

/-- A slot with a new content. If it was alive, it is still alive or nobody has it as a parent. -/
theorem Family.setSlot (h : Family s) {y : Slot K n}
    (hparent : ∀ q, y.parent = some q → Alive ((s.setSlot i y).slot q).state)
    (halive : Alive (s.slot i).state →
      Alive y.state ∨ i ≠ initproc ∧ ∀ j, (s.slot j).parent ≠ some i)
    (hstarted : i ≠ initproc → Started y.state → y.parent ≠ none)
    (hunused : y.state = .unused → y.parent = none) : Family (s.setSlot i y) := by
  refine ⟨fun j q hq => ?_, ?_, fun j hj hst => ?_, fun j hst => ?_⟩
  · by_cases hj : j = i
    · subst hj
      rw [Shared.setSlot_self] at hq
      exact hparent q hq
    · rw [Shared.setSlot_ne _ _ _ hj] at hq
      by_cases hqi : q = i
      · subst hqi
        rw [Shared.setSlot_self]
        exact (halive (h.alive j q hq)).resolve_right fun hno => hno.2 j hq
      · rw [Shared.setSlot_ne _ _ _ hqi]
        exact h.alive j q hq
  · by_cases hi : initproc = i
    · rw [hi, Shared.setSlot_self]
      exact (halive (hi ▸ h.init)).resolve_right fun hno => hno.1 hi.symm
    · rw [Shared.setSlot_ne _ _ _ hi]
      exact h.init
  · by_cases hji : j = i
    · subst hji
      rw [Shared.setSlot_self] at hst ⊢
      exact hstarted hj hst
    · rw [Shared.setSlot_ne _ _ _ hji] at hst ⊢
      exact h.started j hj hst
  · by_cases hji : j = i
    · subst hji
      rw [Shared.setSlot_self] at hst ⊢
      exact hunused hst
    · rw [Shared.setSlot_ne _ _ _ hji] at hst ⊢
      exact h.unused j hst

/-- The same, if the parent stays as it is and the slot stays in use or out of use. -/
theorem Family.setState (h : Family s) {y : Slot K n} (hparent : y.parent = (s.slot i).parent)
    (halive : Alive (s.slot i).state →
      Alive y.state ∨ i ≠ initproc ∧ ∀ j, (s.slot j).parent ≠ some i)
    (hstarted : i ≠ initproc → Started y.state → (s.slot i).parent ≠ none)
    (hunused : y.state = .unused → (s.slot i).state = .unused) : Family (s.setSlot i y) := by
  refine h.setSlot (fun q hq => ?_) halive (fun hi hst => hparent ▸ hstarted hi hst)
    fun hst => hparent ▸ h.unused i (hunused hst)
  rw [hparent] at hq
  by_cases hqi : q = i
  · subst hqi
    rw [Shared.setSlot_self]
    exact (halive (h.alive q q hq)).resolve_right fun hno => hno.2 q hq
  · rw [Shared.setSlot_ne _ _ _ hqi]
    exact h.alive i q hq

/-- A slot that was not alive is emptied. -/
theorem Family.clear (h : Family s) (hdead : ¬ Alive (s.slot i).state) :
    Family (s.setSlot i .empty) :=
  h.setSlot (fun _ h => by cases h) (fun halive => absurd halive hdead) (fun _ hst => absurd rfl hst.1) fun _ => rfl

namespace Kin.Ok

variable {D : Tid n m → Kin n} (h : Kin.Ok s X D) (h17 : Agree s X)

include h

/-- A slot that is freed in `allocproc` or `kfork` has no parent yet. -/
theorem unborn_of_free {t : Tid n m} (hchild : (X t).child = some i) (hborn : (D t).born ≠ some i) :
    (s.slot i).parent = none := by
  refine h.unborn t i hchild ?_
  cases hb : (D t).born with
  | none => rfl
  | some j =>
    have hj := (h.born t j hb).1
    rw [hchild] at hj
    exact absurd (hb.trans hj.symm) hborn

include h17

theorem write_family (hcan17 : (X (s.tid c)).canWrite i w)
    (hcan : Kin.can (X (s.tid c)) (D (s.tid c)) (.write i w)) :
    Family (s.setSlot i (w.apply (s.slot i))) := by
  have hfrom := h17.from_of_can hcan17
  cases w with
  | state x =>
    cases x with
    | runnable =>
      refine h.family.setState rfl (fun _ => .inl (.inr (.inl rfl))) (fun hi _ => ?_) (fun h => by cases h)
      obtain hst | hst | hst := hfrom
      · exact h.family.started i hi (by simp [Started, hst])
      · exact h.family.started i hi (by simp [Started, hst])
      · obtain hme | hknown | hborn := hcan
        · exact absurd hst (h17.not_used (.inl hme))
        · exact absurd hst (h17.not_used (.inr hknown))
        · exact (h.born _ i hborn).2
    | running =>
      refine h.family.setState rfl (fun _ => .inl (.inl rfl)) (fun hi _ => ?_) (fun h => by cases h)
      exact h.family.started i hi (by simp [Started, show (s.slot i).state = .runnable from hfrom])
    | _ => exact hcan17.elim
  | sleep chan =>
    refine h.family.setState rfl (fun _ => .inl (.inr (.inr rfl))) (fun hi _ => ?_) (fun h => by cases h)
    exact h.family.started i hi (by simp [Started, show (s.slot i).state = .running from hfrom])
  | awake | killed =>
    exact h.family.setState rfl .inl (fun hi hst => h.family.started i hi hst) id
  | parent q =>
    obtain ⟨p, hp, hq⟩ := hcan
    have hstate (j : Fin n) : ((s.setSlot i ((Write.parent q : Write K n).apply (s.slot i))).slot j).state =
        (s.slot j).state := by
      by_cases hj : j = i
      · rw [hj, Shared.setSlot_self]
        rfl
      · rw [Shared.setSlot_ne _ _ _ hj]
    refine h.family.setSlot (fun q' hq' => ?_) .inl (fun _ _ => Option.some_ne_none q) fun hst => ?_
    · obtain rfl : q = q' := Option.some.inj hq'
      rw [hstate]
      obtain ⟨-, -, hphase, hme⟩ | ⟨rfl, -⟩ := hq
      · exact .inl (h17.running_of_me hphase hme)
      · exact h.family.init
    · have hst : (s.slot i).state = .unused := hst
      obtain ⟨hchild, -⟩ | ⟨-, hsome⟩ := hq
      · cases hst.symm.trans (h17.child _ i hchild)
      · exact absurd (h.family.unused i hst) (hsome _ (h.fam _ p hp))
  | alloc pid =>
    have hfrom : (s.slot i).state = .unused := hfrom
    refine h.family.setState rfl (fun halive => ?_) (fun _ hst => absurd rfl hst.2) (fun h => by cases h)
    simp [Alive, hfrom] at halive
  | exit status =>
    obtain ⟨hi, p, hp, hnone⟩ := hcan
    refine h.family.setState rfl (fun _ => .inr ⟨hi, hnone _ (h.fam _ p hp)⟩) (fun hi _ => ?_) (fun h => by cases h)
    exact h.family.started i hi (by simp [Started, show (s.slot i).state = .running from hfrom])
  | free => exact h.family.clear (by simp [Alive, show (s.slot i).state = .used from hfrom])
  | reap pid status => exact h.family.clear (by simp [Alive, show (s.slot i).state = .zombie from hfrom])

variable {choice : Bool} {o : Op K n} {r : o.Res} {k : Kin n}

omit h17 in
theorem fam_other (ho : ∀ i w, o ≠ .write i w) (hexec : s.exec c choice o = some (r, s'))
    {fam : Option (View n → Prop)} (hafter : afterFam (D (s.tid c)).fam o r fam) {p : View n → Prop}
    (hp : fam = some p) : p s.view := by
  cases o with
  | acquire lk =>
    obtain ⟨-, rfl⟩ | ⟨-, rfl⟩ := hafter
    · cases hp
      trivial
    · exact h.fam _ p hp
  | release lk =>
    obtain ⟨-, rfl⟩ | ⟨-, rfl⟩ := hafter
    · cases hp
    · exact h.fam _ p hp
  | read i =>
    cases hexec
    obtain rfl | ⟨q, q', hq, rfl, hq'⟩ := hafter
    · exact h.fam _ p hp
    · cases hp
      exact hq' s.view (h.fam _ q hq) rfl Iff.rfl
  | write i w => exact absurd rfl (ho i w)
  | _ =>
    have hafter : fam = (D (s.tid c)).fam := hafter
    exact h.fam _ p (hafter ▸ hp)

omit h17 in
theorem seen_other (hexec : s.exec c choice o = some (r, s')) {seen : Option (Fin n × Int × Int)}
    (hafter : afterSeen (X (s.tid c)) (D (s.tid c)).seen o r seen) (i : Fin n) (pid xstate : Int)
    (hseen : seen = some (i, pid, xstate)) : (∃ d, s'.tid d = s.tid c) ∧
      .proc i ∈ ((X (s.tid c)).after o r).held ∧ (s.slot i).pid = pid ∧ (s.slot i).xstate = xstate := by
  cases o with
  | read j =>
    cases hexec
    have hheld : ((X (s.tid c)).after (.read j) (s.slot j)).held = (X (s.tid c)).held := by
      simp only [Know.after]
      split <;> rfl
    rw [hheld]
    obtain rfl | ⟨hin, rfl⟩ := hafter
    · exact ⟨⟨c, rfl⟩, (h.seen _ i pid xstate hseen).2⟩
    · cases hseen
      exact ⟨⟨c, rfl⟩, hin, rfl, rfl⟩
  | choose =>
    cases hexec
    have hafter : seen = (D (s.tid c)).seen := hafter
    exact ⟨⟨c, rfl⟩, (h.seen _ i pid xstate (hafter ▸ hseen)).2⟩
  | _ =>
    have hafter : seen = none := hafter
    cases hafter.symm.trans hseen

/-- Operations that write to no slot. -/
theorem other (ho : ∀ i w, o ≠ .write i w) (hexec : s.exec c choice o = some (r, s'))
    (hafter : Kin.layer.after (X (s.tid c)) (D (s.tid c)) o r k) :
    Kin.Ok s' (Function.update X (s.tid c) ((X (s.tid c)).after o r)) (Function.update D (s.tid c) k) := by
  have hslot := Shared.exec_slot hexec ho
  have hview : s'.view = s.view := by rw [Shared.view, Shared.view, hslot]
  obtain ⟨hfam, hborn, hseen⟩ := hafter
  rw [afterBorn_other ho] at hborn
  refine ⟨⟨?_, ?_, ?_, ?_⟩, ?_, ?_, ?_, ?_, ?_⟩
  · rw [hslot]
    exact h.family.alive
  · rw [hslot]
    exact h.family.init
  · rw [hslot]
    exact h.family.started
  · rw [hslot]
    exact h.family.unused
  · refine forall_update (p := fun _ (l : Know K n) (k : Kin n) => (∃ p, k.fam = some p) ↔ .wait ∈ l.held) ?_ fun u _ => h.holder u
    exact afterFam_holder (h17.cpu c).nodup (h.holder _) hfam
  · rw [hview]
    refine forall_update (f := X) (a := (X (s.tid c)).after o r) (p := fun _ _ (k : Kin n) =>
      ∀ p, k.fam = some p → p s.view) (fun p hp => ?_) fun u _ => h.fam u
    exact h.fam_other ho hexec hfam hp
  · rw [hslot]
    refine forall_update (p := fun _ (l : Know K n) (k : Kin n) => ∀ i, k.born = some i →
      l.child = some i ∧ (s.slot i).parent ≠ none) (fun i hi => ?_) fun u _ => h.born u
    rw [child_after ho]
    exact h.born _ i (hborn ▸ hi)
  · rw [hslot]
    refine forall_update (p := fun _ (l : Know K n) (k : Kin n) => ∀ i, l.child = some i → k.born = none →
      (s.slot i).parent = none) (fun i hi hb => ?_) fun u _ => h.unborn u
    rw [child_after ho] at hi
    exact h.unborn _ i hi (hborn ▸ hb)
  · rw [hslot]
    refine forall_update (p := fun t (l : Know K n) (k : Kin n) => ∀ i pid xstate,
      k.seen = some (i, pid, xstate) → (∃ d, s'.tid d = t) ∧ .proc i ∈ l.held ∧
      (s.slot i).pid = pid ∧ (s.slot i).xstate = xstate) (h.seen_other hexec hseen) fun u hu i pid xstate hi => ?_
    obtain ⟨⟨d, rfl⟩, hrest⟩ := h.seen u i pid xstate hi
    have hd : d ≠ c := fun heq => hu (heq ▸ rfl)
    exact ⟨⟨d, Shared.tid_congr (congrArg Cpu.stack (Shared.exec_cpu hexec hd))⟩, hrest⟩

section
variable (hcan17 : (X (s.tid c)).canWrite i w) (hcan : Kin.can (X (s.tid c)) (D (s.tid c)) (.write i w))

include hcan17 hcan

theorem born_self (hborn : k.born = afterBorn (X (s.tid c)) (D (s.tid c)).born (.write i w))
    (j : Fin n) (hj : k.born = some j) : ((X (s.tid c)).wrote i w).child = some j ∧
      ((s.setSlot i (w.apply (s.slot i))).slot j).parent ≠ none := by
  have hfrom := h17.from_of_can hcan17
  -- if nothing changed
  have hold (hb : (D (s.tid c)).born = some j) (hw : w ≠ .free)
      (hchild : ((X (s.tid c)).wrote i w).child = (X (s.tid c)).child) :
      ((X (s.tid c)).wrote i w).child = some j ∧
        ((s.setSlot i (w.apply (s.slot i))).slot j).parent ≠ none := by
    obtain ⟨hj, hparent⟩ := h.born _ j hb
    exact ⟨hchild.trans hj, parent_ne_none hfrom (h17.child _ j hj) (fun heq => absurd heq hw) hparent⟩
  have hchildless (hb : (D (s.tid c)).born = some j) : (X (s.tid c)).child ≠ none := by
    rw [(h.born _ j hb).1]
    simp
  rw [hborn] at hj
  cases w with
  | parent q =>
    simp only [afterBorn] at hj
    split at hj
    · next hchild =>
      cases hj
      exact ⟨hchild, by simp [Write.apply]⟩
    · exact hold hj (by simp) rfl
  | state x =>
    cases x with
    | runnable =>
      simp only [afterBorn] at hj
      split at hj
      · next hi => exact hold hj (by simp) (child_runnable.trans (if_pos hi))
      · cases hj
    | running => exact hold hj (by simp) rfl
    | _ => exact hcan17.elim
  | free =>
    have hj' := (h.born _ j hj).1
    cases hcan17.2.symm.trans hj'
    exact absurd hj hcan
  | alloc pid => exact absurd hcan17.2.2.2 (hchildless hj)
  | exit status => exact absurd hcan17.2.2.2 (hchildless hj)
  | sleep | awake | killed | reap => exact hold hj (by simp) rfl

theorem unborn_self (hborn : k.born = afterBorn (X (s.tid c)) (D (s.tid c)).born (.write i w))
    (j : Fin n) (hchild : ((X (s.tid c)).wrote i w).child = some j) (hnone : k.born = none) :
    ((s.setSlot i (w.apply (s.slot i))).slot j).parent = none := by
  have hold (hj : (X (s.tid c)).child = some j) (hb : (D (s.tid c)).born = none)
      (hparent : ∀ q, w = .parent q → j ≠ i) :
      ((s.setSlot i (w.apply (s.slot i))).slot j).parent = none :=
    parent_eq_none hparent (h.unborn _ j hj hb)
  rw [hborn] at hnone
  cases w with
  | parent q =>
    simp only [afterBorn] at hnone
    split at hnone
    · cases hnone
    · next hne =>
      refine hold hchild hnone fun _ _ => ?_
      rintro rfl
      exact hne hchild
  | state x =>
    cases x with
    | runnable =>
      simp only [afterBorn] at hnone
      rw [child_runnable] at hchild
      split at hchild
      · next hi =>
        rw [if_pos hi] at hnone
        exact hold hchild hnone (by simp)
      · cases hchild
    | running => exact hold hchild hnone (by simp)
    | _ => exact hcan17.elim
  | alloc pid =>
    obtain rfl : i = j := Option.some.inj hchild
    exact parent_eq_none (by simp) (h.family.unused i (h17.from_of_can hcan17))
  | free => cases hchild
  | sleep | awake | killed | exit | reap => exact hold hchild hnone (by simp)

/-- Writes to a slot. -/
theorem write (hafter : Kin.layer.after (X (s.tid c)) (D (s.tid c)) (.write i w) () k) :
    Kin.Ok (s.setSlot i (w.apply (s.slot i)))
      (Function.update X (s.tid c) ((X (s.tid c)).wrote i w)) (Function.update D (s.tid c) k) := by
  have hfrom := h17.from_of_can hcan17
  obtain ⟨hfam, hborn, hseen⟩ := hafter
  have hview : (s.setSlot i (w.apply (s.slot i))).view = s.view.wrote i w := by
    refine view_write hfrom ?_
    rintro rfl
    exact h.unborn_of_free hcan17.2 hcan
  refine ⟨h.write_family h17 hcan17 hcan, ?_, ?_, ?_, ?_, ?_⟩
  · refine forall_update (p := fun _ (l : Know K n) (k : Kin n) =>
      (∃ p, k.fam = some p) ↔ .wait ∈ l.held) ?_ fun u _ => h.holder u
    exact afterFam_holder (o := .write i w) (h17.cpu c).nodup (h.holder _) hfam
  · rw [hview]
    refine forall_update (f := X) (a := (X (s.tid c)).wrote i w) (p := fun _ _ (k : Kin n) =>
      ∀ p, k.fam = some p → p (s.view.wrote i w)) (fun p hp => ?_) fun u hu p hp => ?_
    · obtain ⟨-, hnone⟩ | ⟨q, q', hq, hq', hwrote⟩ := hfam
      · cases hnone.symm.trans hp
      · cases hq'.symm.trans hp
        exact hwrote _ (h.fam _ q hq)
    · -- another thread holds `wait_lock`, so this is not a write that needs it
      have hnot : ¬ ∃ p, (D (s.tid c)).fam = some p := fun hsome => by
        exact hu (h17.holder_unique Lock.wait_ne ((h.holder u).mp ⟨p, hp⟩) ((h.holder _).mp hsome))
      cases w with
      | exit status =>
        obtain ⟨-, p', hp', -⟩ := hcan
        exact absurd ⟨p', hp'⟩ hnot
      | parent q =>
        obtain ⟨p', hp', -⟩ := hcan
        exact absurd ⟨p', hp'⟩ hnot
      | reap pid status =>
        obtain ⟨⟨p', hp', -⟩, -⟩ := hcan
        exact absurd ⟨p', hp'⟩ hnot
      | _ => exact h.fam u p hp
  · refine forall_update (p := fun _ (l : Know K n) (k : Kin n) => ∀ j, k.born = some j →
      l.child = some j ∧ ((s.setSlot i (w.apply (s.slot i))).slot j).parent ≠ none)
      (h.born_self h17 hcan17 hcan hborn) fun u hu j hj => ?_
    obtain ⟨hchild, hparent⟩ := h.born u j hj
    refine ⟨hchild, parent_ne_none hfrom (h17.child u j hchild) ?_ hparent⟩
    rintro rfl rfl
    exact hu (h17.oneParent u _ j hchild hcan17.2)
  · refine forall_update (p := fun _ (l : Know K n) (k : Kin n) => ∀ j, l.child = some j →
      k.born = none → ((s.setSlot i (w.apply (s.slot i))).slot j).parent = none)
      (h.unborn_self h17 hcan17 hcan hborn) fun u hu j hchild hb => ?_
    have hparent := h.unborn u j hchild hb
    refine parent_eq_none ?_ hparent
    rintro q rfl rfl
    obtain ⟨p, hp, ⟨hchild', -⟩ | ⟨-, hsome⟩⟩ := hcan
    · exact hu (h17.oneParent u _ j hchild hchild')
    · exact hsome _ (h.fam _ p hp) hparent
  · refine forall_update (p := fun t (l : Know K n) (k : Kin n) => ∀ j pid xstate,
      k.seen = some (j, pid, xstate) → (∃ d, (s.setSlot i (w.apply (s.slot i))).tid d = t) ∧
      .proc j ∈ l.held ∧ ((s.setSlot i (w.apply (s.slot i))).slot j).pid = pid ∧
      ((s.setSlot i (w.apply (s.slot i))).slot j).xstate = xstate) ?_ fun u hu j pid xstate hj => ?_
    · intro j pid xstate hj
      have hseen : k.seen = none := hseen
      cases hseen.symm.trans hj
    · obtain ⟨⟨d, rfl⟩, hheld, hpid, hxstate⟩ := h.seen u j pid xstate hj
      refine ⟨⟨d, rfl⟩, hheld, ?_⟩
      by_cases hji : j = i
      · subst hji
        rw [Shared.setSlot_self]
        obtain ⟨hpid', hxstate'⟩ := h17.seen_kept hcan17 hu hheld
        exact ⟨hpid'.trans hpid, hxstate'.trans hxstate⟩
      · rw [Shared.setSlot_ne _ _ _ hji]
        exact ⟨hpid, hxstate⟩

end

/-- Every operation that the rules allow. -/
theorem op (hcan17 : (X (s.tid c)).can o) (hcan : Kin.can (X (s.tid c)) (D (s.tid c)) o)
    (hexec : s.exec c choice o = some (r, s')) : Kin.mayFam (D (s.tid c)).fam o r ∧
      ∀ k, Kin.layer.after (X (s.tid c)) (D (s.tid c)) o r k →
        Kin.Ok s' (Function.update X (s.tid c) ((X (s.tid c)).after o r))
          (Function.update D (s.tid c) k) := by
  constructor
  · cases o with
    | read i =>
      cases hexec
      exact fun p hp => ⟨s.view, h.fam _ p hp, rfl, Iff.rfl⟩
    | _ => trivial
  · intro k hafter
    by_cases ho : ∃ i w, o = .write i w
    · obtain ⟨i, w, rfl⟩ := ho
      cases hexec
      exact h.write h17 hcan17 hcan hafter
    · exact h.other h17 (fun i w heq => ho ⟨i, w, heq⟩) hexec hafter

end Kin.Ok

end

end Xv6.Sched
