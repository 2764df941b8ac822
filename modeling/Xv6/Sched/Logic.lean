-- SUMMARY: Rules for what kernel threads know, once they are right for every operation, hold along every run of the machine.
import Xv6.Sched.Machine

/-!
# Logic of the machine

A `Typestate` for the operations of kernel code is right for the machine if some relation
between the shared state and what all threads know is kept by every allowed operation. If
moreover the code of every thread is within the rules, then every run of the machine is.
-/

namespace Xv6.Sched

variable {K : Sig} {n m : Nat} {P : Client K n} {L : Type}

/-- A fact about all threads, after one of them moved. -/
theorem forall_update {A B : Type} {f : Tid n m → A} {g : Tid n m → B} {t : Tid n m} {a : A} {b : B}
    {p : Tid n m → A → B → Prop} (ht : p t a b) (hu : ∀ u, u ≠ t → p u (f u) (g u)) (u : Tid n m) :
    p u (Function.update f t a u) (Function.update g t b u) := by
  by_cases hut : u = t
  · subst hut
    rw [Function.update_self, Function.update_self]
    exact ht
  · rw [Function.update_of_ne hut, Function.update_of_ne hut]
    exact hu u hut

theorem update_proj {A B : Type} (X : Tid n m → A) (f : A → B) (t : Tid n m) (x : A) :
    (fun u => f (Function.update X t x u)) = Function.update (fun u => f (X u)) t (f x) :=
  Function.comp_update f X t x

theorem update_eq_cases {A : Type} {f : Tid n m → A} {t u : Tid n m} {a x : A}
    (h : Function.update f t a u = x) : u = t ∧ a = x ∨ u ≠ t ∧ f u = x := by
  by_cases hut : u = t
  · subst hut
    exact .inl ⟨rfl, (Function.update_self ..).symm.trans h⟩
  · exact .inr ⟨hut, (Function.update_of_ne hut ..).symm.trans h⟩

/-- A proof that the rules `S` are right, for steps that meet a condition `C`. -/
structure Discipline (P : Client K n) (m : Nat) [NeZero n] (S : Typestate (Op K n) Op.Res L)
    (C : Shared K n m → Fin m → Op K n → Prop) where
  /-- The shared state is as the threads know it to be. -/
  agree : Shared K n m → (Tid n m → L) → Prop
  /-- What a thread knows at a point. -/
  at_ : Point P.Ctl → L → Prop
  op {s s' : Shared K n m} {X : Tid n m → L} {c : Fin m} {choice : Bool} {o : Op K n} {r : o.Res} :
    agree s X → S.can (X (s.tid c)) o → C s c o → s.exec c choice o = some (r, s') →
      S.may (X (s.tid c)) o r ∧
      ∀ l, S.after (X (s.tid c)) o r l → agree s' (Function.update X (s.tid c) l)
  /-- A new process starts with what the rules let it know. -/
  start {s : Shared K n m} {X : Tid n m → L} {c : Fin m} {i : Fin n} :
    agree s X → S.can (X (s.tid c)) (.setContext i) →
      s.tid c ≠ .inl i ∧ S.wp at_ (started P) (X (.inl i))
  enter {l : L} {k : P.Ctl} (input : P.Input) :
    at_ (.client k) l → S.wp at_ (enter P k input) l
  resume {l : L} {p : Point P.Ctl} {x : KCode K n (Point P.Ctl)} :
    at_ p l → Sched.resume p = some x → S.wp at_ x l
  timer {s : Shared K n m} {X : Tid n m → L} {c : Fin m} :
    agree s X → (s.cpu c).noff = 0 → (s.cpu c).proc ≠ none →
      S.wp (fun _ l => l = X (s.tid c)) yield (X (s.tid c))
  device {s : Shared K n m} {X : Tid n m → L} {c : Fin m} (h : P.Intr) :
    agree s X → (s.cpu c).noff = 0 →
      S.wp (fun _ l => l = X (s.tid c)) (P.handler h).code (X (s.tid c))

namespace Discipline

variable [NeZero n] {S : Typestate (Op K n) Op.Res L} {C : Shared K n m → Fin m → Op K n → Prop}

/-- Every thread is within the rules. -/
def Inv (D : Discipline P m S C) (M : Machine P m) : Prop :=
  ∃ X, D.agree M.shared X ∧ ∀ t, S.wp D.at_ (M.code t) (X t)

/-- The condition on a step of the machine. -/
def Cond (C : Shared K n m → Fin m → Op K n → Prop) (M : Machine P m) (a : Fin m × Label P) : Prop :=
  ∀ o k, M.code (M.shared.tid a.1) = .op o k → C M.shared a.1 o

instance [∀ s c o, Decidable (C s c o)] (M : Machine P m) (a : Fin m × Label P) :
    Decidable (Cond C M a) :=
  match h : M.code (M.shared.tid a.1) with
  | .ret _ => isTrue fun o k hop => nomatch h.symm.trans hop
  | .op o k => decidable_of_iff (C M.shared a.1 o)
      ⟨fun hC o' k' hop => by cases h.symm.trans hop; exact hC, fun hC => hC o k h⟩

variable {D : Discipline P m S C} {M M' : Machine P m} {X : Tid n m → L} {c : Fin m}

/-- New code for a thread, which knows as much as before. -/
theorem wp_setCode {t : Tid n m} {x : KCode K n (Point P.Ctl)} (hcode : ∀ t, S.wp D.at_ (M.code t) (X t))
    (hx : S.wp D.at_ x (X t)) (u : Tid n m) : S.wp D.at_ ((M.setCode t x).code u) (X u) := by
  by_cases hu : u = t
  · subst hu
    rw [Machine.setCode_self]
    exact hx
  · rw [Machine.setCode_ne M x hu]
    exact hcode u

/-- An operation: the thread goes on with what it may conclude. -/
theorem wp_op {s' : Shared K n m} {choice : Bool} {o : Op K n} {r : o.Res}
    {k : o.Res → KCode K n (Point P.Ctl)} (hagree : D.agree M.shared X)
    (hcode : ∀ t, S.wp D.at_ (M.code t) (X t)) (hop : M.code (M.shared.tid c) = .op o k)
    (hC : C M.shared c o) (hexec : M.shared.exec c choice o = some (r, s')) :
    D.Inv (({ M with shared := s' }.afterOp o).setCode (M.shared.tid c) (k r)) := by
  have hwp := hcode (M.shared.tid c)
  rw [hop] at hwp
  obtain ⟨hmay, hagree'⟩ := D.op hagree hwp.1 hC hexec
  obtain ⟨l, hafter, hk⟩ := hwp.2 r hmay
  refine ⟨Function.update X (M.shared.tid c) l, ?_, fun u => ?_⟩
  · rw [Machine.setCode_shared, Machine.afterOp_shared]
    exact hagree' l hafter
  · by_cases hu : u = M.shared.tid c
    · subst hu
      rw [Machine.setCode_self, Function.update_self]
      exact hk
    · rw [Machine.setCode_ne _ _ hu, Function.update_of_ne hu]
      cases o with
      | setContext i =>
        exact wp_setCode hcode (D.start hagree hwp.1).2 u
      | _ => exact hcode u

theorem Inv.step {a : Fin m × Label P} (h : D.Inv M) (hC : Cond C M a) (hstep : M.Step a M') :
    D.Inv M' := by
  obtain ⟨X, hagree, hcode⟩ := h
  obtain ⟨c, label⟩ := a
  cases label with
  | op choice =>
    simp only [Machine.Step, Machine.next] at hstep
    split at hstep
    · cases hstep
    · next o k hop =>
      obtain ⟨⟨r, s'⟩, hexec, rfl⟩ := Option.map_eq_some_iff.mp hstep
      exact wp_op hagree hcode hop (hC o k hop) hexec
  | enter input =>
    simp only [Machine.Step, Machine.next] at hstep
    split at hstep
    · next k hret =>
      cases hstep
      have hwp := hcode (M.shared.tid c)
      rw [hret] at hwp
      exact ⟨X, hagree, wp_setCode hcode (D.enter input hwp)⟩
    · cases hstep
  | resume =>
    simp only [Machine.Step, Machine.next] at hstep
    split at hstep
    · next p hret =>
      obtain ⟨x, hx, rfl⟩ := Option.map_eq_some_iff.mp hstep
      have hwp := hcode (M.shared.tid c)
      rw [hret] at hwp
      exact ⟨X, hagree, wp_setCode hcode (D.resume hwp hx)⟩
    · cases hstep
  | timer =>
    simp only [Machine.Step, Machine.next] at hstep
    split at hstep
    · next hoff =>
      cases hstep
      refine ⟨X, hagree, wp_setCode hcode ?_⟩
      rw [Typestate.wp_bind]
      refine (D.timer hagree hoff.1 hoff.2).imp fun _ l hl => ?_
      rw [hl]
      exact hcode _
    · cases hstep
  | device h =>
    simp only [Machine.Step, Machine.next] at hstep
    split at hstep
    · next hoff =>
      cases hstep
      refine ⟨X, hagree, wp_setCode hcode ?_⟩
      rw [Typestate.wp_bind]
      refine (D.device h hagree hoff).imp fun _ l hl => ?_
      rw [hl]
      exact hcode _
    · cases hstep

/-- Along a run whose steps meet the condition, every thread is within the rules. -/
theorem Inv.run {as : List (Fin m × Label P)} (h : D.Inv M)
    (hrun : Sys.RunWhere Machine.Step (Cond C) M as M') : D.Inv M' :=
  hrun.invariant (fun _ _ _ hinv hC hstep => hinv.step hC hstep) h

/-- Without a condition, along every run. -/
theorem Inv.ofRun {D : Discipline P m S (fun _ _ _ => True)} {as : List (Fin m × Label P)}
    (h : D.Inv M) (hrun : Sys.Run Machine.Step M as M') : D.Inv M' :=
  hrun.invariant (fun _ _ _ hinv hstep => hinv.step (fun _ _ _ => trivial) hstep) h

end Discipline

end Xv6.Sched
