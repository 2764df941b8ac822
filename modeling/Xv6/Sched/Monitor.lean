-- SUMMARY: A lock with data and a sleep channel for a condition on the data: the rules of its clients, and that they are right.
import Xv6.Sched.Layered
import Xv6.Sched.OneCpu

/-!
# Monitors

A monitor is a lock of the client, some of its data, and a channel on which processes sleep
until a condition on the data holds. Accesses with the lock held may rely on what the thread
has found out about the data since it took the lock. Accesses without the lock must not make
the condition true, nor disturb anyone who holds the lock.

Some clients are right only if nobody is killed at the wrong moment. The rules are relative
to a set `G` of data for which a process that holds the lock does not find itself killed.
-/

namespace Xv6.Sched

open Typestate

variable {K : Sig} {n m : Nat} {P : Client K n}

structure Monitor (K : Sig) where
  lk : K.Lk
  ch : K.Ch
  /-- What the processes wait for. -/
  cond : K.Data → Prop
  /-- What always holds of the data. -/
  inv : K.Data → Prop
  /-- What accesses without the lock may do. -/
  free : K.Data → K.Data → Prop
  free_inv : ∀ {d d'}, inv d → free d d' → inv d'
  free_cond : ∀ {d d'}, inv d → free d d' → cond d' → cond d

namespace Monitor

variable (V : Monitor K) (G : K.Data → Prop)

/-- The condition on a step: no process finds itself killed while it holds the lock and the data
is in `G`. -/
def Spares (s : Shared K n m) (c : Fin m) (o : Op K n) : Prop :=
  ∀ i, o = .read i → s.lock (.client V.lk) = some c → (s.cpu c).proc = some i → G s.data →
    (s.slot i).killed = false

/-- A fact about the data that accesses without the lock do not disturb. -/
def Stable (p : K.Data → Prop) : Prop := ∀ d d', V.inv d → p d → V.free d d' → p d'

/-! ## Knowledge about the data -/

def canData (x : Option (K.Data → Prop)) : Op K n → Prop
  | .act a => match x with
    | none => ∀ d, V.inv d → V.free d (K.act a d).2
    | some p => ∀ d, V.inv d → p d → V.inv (K.act a d).2
  | _ => True

def mayData (l : Know K n) (x : Option (K.Data → Prop)) : (o : Op K n) → o.Res → Prop
  | .act a, r => ∀ p, x = some p → ∃ d, V.inv d ∧ p d ∧ (K.act a d).1 = r
  | .read i, y => l.proc = some i → ∀ p, x = some p → (∀ d, V.inv d → p d → G d) → y.killed = false
  | _, _ => True

/-- The thread may forget some of what it knows after an access. -/
def afterAct (a : K.Act) (r : K.Res a) (p q : K.Data → Prop) : Prop :=
  V.Stable q ∧ ∀ d, V.inv d → p d → (K.act a d).1 = r → q (K.act a d).2

def afterData (x : Option (K.Data → Prop)) : (o : Op K n) → o.Res → Option (K.Data → Prop) → Prop
  | .acquire lk, _, x' =>
    (lk = .client V.lk ∧ x' = some fun _ => True) ∨ (lk ≠ .client V.lk ∧ x' = x)
  | .release lk, _, x' => (lk = .client V.lk ∧ x' = none) ∨ (lk ≠ .client V.lk ∧ x' = x)
  | .act a, r, x' => (x = none ∧ x' = none) ∨ ∃ p q, x = some p ∧ x' = some q ∧ V.afterAct a r p q
  | _, _, x' => x' = x

def dataLayer : Layer (Op K n) Op.Res (Know K n) (Option (K.Data → Prop)) where
  can _ := V.canData
  may := V.mayData G
  after _ x o r := V.afterData x o r

/-- What the threads know about the data is true. -/
structure DataOk (s : Shared K n m) (X : Tid n m → Know K n)
    (D : Tid n m → Option (K.Data → Prop)) : Prop where
  inv : V.inv s.data
  holder : ∀ t, (∃ p, D t = some p) ↔ .client V.lk ∈ (X t).held
  known : ∀ t p, D t = some p → p s.data ∧ V.Stable p

/-! ## The channel -/

/-- An access that cannot make the condition true. -/
def calmAct (a : K.Act) : Option (K.Data → Prop) → Prop
  | none => True
  | some p => ∀ d, V.inv d → p d → V.cond (K.act a d).2 → V.cond d

def watch (n m : Nat) : Watch K n m (Know K n × Option (K.Data → Prop)) where
  lk := .client V.lk
  ch := .client V.ch
  cond s := V.cond s.data
  know := Prod.fst
  calm b o := ∀ a, o = .act a → V.calmAct a b.2
  off b := ∃ p, b.2 = some p ∧ ∀ d, V.inv d → p d → ¬ V.cond d
  lk_ne := Lock.client_ne V.lk

/-- All rules of the monitor. -/
def rules (n m : Nat) :
    Typestate (Op K n) Op.Res ((Know K n × Option (K.Data → Prop)) × Mark n) :=
  layered (V.dataLayer G) (V.watch n m)

structure Ok (s : Shared K n m) (X : Tid n m → (Know K n × Option (K.Data → Prop)) × Mark n) :
    Prop where
  switch : Agree s fun t => (X t).1.1
  data : V.DataOk s (fun t => (X t).1.1) fun t => (X t).1.2
  watch : (V.watch n m).Agree s (fun t => (X t).1) fun t => (X t).2

end Monitor

/-! ## Every operation -/

namespace Monitor

variable {V : Monitor K} {G : K.Data → Prop} {s s' : Shared K n m} {X : Tid n m → Know K n}
  {D : Tid n m → Option (K.Data → Prop)} {c : Fin m} {choice : Bool} {o : Op K n} {r : o.Res}
  {x : Option (K.Data → Prop)}

theorem DataOk.mayData (h : V.DataOk s X D) (h17 : Agree s X) (hG : V.Spares G s c o)
    (hexec : s.exec c choice o = some (r, s')) : V.mayData G (X (s.tid c)) (D (s.tid c)) o r := by
  cases o with
  | act a =>
    cases hexec
    exact fun p hp => ⟨s.data, h.inv, (h.known _ p hp).1, rfl⟩
  | read i =>
    cases hexec
    intro hproc p hp hpG
    have hlock := h17.lock_eq ((h.holder _).mp ⟨p, hp⟩)
    exact hG i rfl hlock ((h17.cpu c).proc.trans hproc) (hpG _ h.inv (h.known _ p hp).1)
  | _ => trivial

/-- The holder of the lock, after an operation. -/
theorem afterData_holder (h17 : Agree s X) (hmay : (X (s.tid c)).may o r)
    (hholder : (∃ p, D (s.tid c) = some p) ↔ .client V.lk ∈ (X (s.tid c)).held)
    (hafter : V.afterData (D (s.tid c)) o r x) :
    (∃ p, x = some p) ↔ .client V.lk ∈ ((X (s.tid c)).after o r).held := by
  by_cases hacquire : o = .acquire (.client V.lk)
  · subst hacquire
    obtain ⟨-, rfl⟩ | ⟨hne, -⟩ := hafter
    · exact ⟨fun _ => List.mem_cons_self, fun _ => ⟨_, rfl⟩⟩
    · exact absurd rfl hne
  by_cases hrelease : o = .release (.client V.lk)
  · subst hrelease
    obtain ⟨-, rfl⟩ | ⟨hne, -⟩ := hafter
    · exact ⟨(by simp), fun hin => absurd hin (h17.cpu c).nodup.not_mem_erase⟩
    · exact absurd rfl hne
  rw [Know.mem_after hacquire hrelease, ← hholder]
  cases o with
  | acquire lk =>
    obtain ⟨rfl, -⟩ | ⟨-, rfl⟩ := hafter
    · exact absurd rfl hacquire
    · rfl
  | release lk =>
    obtain ⟨rfl, -⟩ | ⟨-, rfl⟩ := hafter
    · exact absurd rfl hrelease
    · rfl
  | act a =>
    obtain ⟨hx, rfl⟩ | ⟨p, q, hx, rfl, -⟩ := hafter
    · rw [hx]
    · rw [hx]
      exact ⟨fun _ => ⟨p, rfl⟩, fun _ => ⟨q, rfl⟩⟩
  | _ =>
    have hafter : x = D (s.tid c) := hafter
    rw [hafter]

/-- Taking the lock gives no knowledge beyond the invariant, and other operations keep it. -/
theorem afterData_known (ho : ∀ a, o ≠ .act a) (hafter : V.afterData (D (s.tid c)) o r x)
    {p : K.Data → Prop} (hx : x = some p) : (∀ d, p d) ∨ D (s.tid c) = some p := by
  cases o with
  | act a => exact absurd rfl (ho a)
  | acquire lk =>
    obtain ⟨-, rfl⟩ | ⟨-, rfl⟩ := hafter
    · cases hx
      exact .inl fun _ => trivial
    · exact .inr hx
  | release lk =>
    obtain ⟨-, rfl⟩ | ⟨-, rfl⟩ := hafter
    · cases hx
    · exact .inr hx
  | _ =>
    have hafter : x = D (s.tid c) := hafter
    exact .inr (hafter ▸ hx)

theorem DataOk.op (h : V.DataOk s X D) (h17 : Agree s X) (hmay : (X (s.tid c)).may o r)
    (hcan : V.canData (D (s.tid c)) o) (hexec : s.exec c choice o = some (r, s'))
    (hafter : V.afterData (D (s.tid c)) o r x) :
    V.DataOk s' (Function.update X (s.tid c) ((X (s.tid c)).after o r))
      (Function.update D (s.tid c) x) := by
  have hholder (t : Tid n m) : (∃ p, Function.update D (s.tid c) x t = some p) ↔
      .client V.lk ∈ (Function.update X (s.tid c) ((X (s.tid c)).after o r) t).held := by
    by_cases ht : t = s.tid c
    · subst ht
      rw [Function.update_self, Function.update_self]
      exact afterData_holder h17 hmay (h.holder _) hafter
    · rw [Function.update_of_ne ht, Function.update_of_ne ht]
      exact h.holder t
  by_cases hact : ∃ a, o = .act a
  · obtain ⟨a, rfl⟩ := hact
    cases hexec
    obtain ⟨hnone, rfl⟩ | ⟨p, q, hp, rfl, hstable, hq⟩ := hafter
    · -- an access without the lock
      rw [hnone] at hcan
      have hfree := hcan s.data h.inv
      refine ⟨V.free_inv h.inv hfree, hholder, fun t p hp => ?_⟩
      obtain ⟨-, ⟨⟩⟩ | ⟨ht, hp⟩ := update_eq_cases hp
      obtain ⟨hdata, hstable⟩ := h.known t p hp
      exact ⟨hstable _ _ h.inv hdata hfree, hstable⟩
    · rw [hp] at hcan
      have hdata := (h.known _ p hp).1
      refine ⟨hcan s.data h.inv hdata, hholder, fun t p' hp' => ?_⟩
      obtain ⟨-, ⟨⟩⟩ | ⟨ht, hp'⟩ := update_eq_cases hp'
      · exact ⟨hq s.data h.inv hdata rfl, hstable⟩
      · exact absurd (h17.holder_unique (Lock.client_ne V.lk) ((h.holder t).mp ⟨p', hp'⟩) ((h.holder _).mp ⟨p, hp⟩)) ht
  · have ho (a : K.Act) : o ≠ .act a := fun heq => hact ⟨a, heq⟩
    have hdata := Shared.exec_data hexec ho
    refine ⟨hdata ▸ h.inv, hholder, fun t p hp => ?_⟩
    rw [hdata]
    obtain ⟨-, hp⟩ | ⟨ht, hp⟩ := update_eq_cases hp
    · obtain htrue | hold := afterData_known ho hafter hp
      · exact ⟨htrue _, fun _ d' _ _ _ => htrue d'⟩
      · exact h.known _ p hold
    · exact h.known t p hp

/-- A calm operation does not make the condition true. -/
theorem DataOk.calm (h : V.DataOk s X D) (hcan : V.canData (D (s.tid c)) o)
    (hexec : s.exec c choice o = some (r, s')) (hcalm : ∀ a, o = .act a → V.calmAct a (D (s.tid c)))
    (hcond : V.cond s'.data) : V.cond s.data := by
  cases o with
  | act a =>
    have hcalm := hcalm a rfl
    cases hexec
    cases hD : D (s.tid c) with
    | none =>
      rw [hD] at hcan
      exact V.free_cond h.inv (hcan s.data h.inv) hcond
    | some p =>
      rw [hD] at hcalm
      exact hcalm s.data h.inv (h.known _ p hD).1 hcond
  | _ => rwa [Shared.exec_data hexec (by simp)] at hcond

/-- The rules of the monitor are right. -/
theorem Ok.op {X : Tid n m → (Know K n × Option (K.Data → Prop)) × Mark n} (h : V.Ok s X)
    (hcan : (V.rules G n m).can (X (s.tid c)) o) (hG : V.Spares G s c o)
    (hexec : s.exec c choice o = some (r, s')) :
    (V.rules G n m).may (X (s.tid c)) o r ∧ ∀ x, (V.rules G n m).after (X (s.tid c)) o r x →
      V.Ok s' (Function.update X (s.tid c) x) := by
  obtain ⟨⟨hcan17, hcanData⟩, hcanWatch⟩ := hcan
  obtain ⟨hmay17, hagree⟩ := h.switch.op hcan17 hexec
  refine ⟨⟨⟨hmay17, h.data.mayData h.switch hG hexec⟩, trivial⟩, ?_⟩
  rintro ⟨⟨l, d⟩, w⟩ ⟨⟨rfl, hdata⟩, hwatch⟩
  refine ⟨?_, ?_, ?_⟩
  · rw [update_proj X fun x => x.1.1]
    exact hagree
  · rw [update_proj X fun x => x.1.1, update_proj X fun x => x.1.2]
    exact h.data.op h.switch hmay17 hcanData hexec hdata
  · rw [update_proj X Prod.fst, update_proj X Prod.snd]
    refine h.watch.op h.switch rfl hcan17 hcanWatch hexec (h.data.calm hcanData hexec) hmay17 ?_ hwatch
    rintro ⟨p, hp, hno⟩
    exact hno _ h.data.inv (h.data.known _ p hp).1

end Monitor

end Xv6.Sched
