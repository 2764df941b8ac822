-- SUMMARY: Code trees of threads that share a state, and weakest preconditions over what a thread knows.
import Mathlib.Data.Prod.Basic
import Mathlib.Logic.Function.Basic

/-!
# Code of concurrent threads

The code of a thread is a tree of operations on a shared state. Between two operations other
threads may run, so reasoning about the shared state itself is hopeless; a thread only has
what it knows (the locks it holds, what it has read under them). A `Typestate` says which
operations are allowed for a thread that knows `l`, which responses it may get, and what it
may conclude. The weakest precondition `wp` follows the code with these rules. That the rules
are right for a given shared state is proved once, for each operation.
-/

/-- Code over operations `O`, where operation `o` responds with an `R o`. -/
inductive Code (O : Type) (R : O → Type) (α : Type) : Type
  | ret (a : α)
  | op (o : O) (k : R o → Code O R α)

namespace Code

variable {O O' : Type} {R : O → Type} {R' : O' → Type} {α β : Type}

protected def bind : Code O R α → (α → Code O R β) → Code O R β
  | ret a, f => f a
  | op o k, f => op o fun r => (k r).bind f

instance : Monad (Code O R) where
  pure := ret
  bind := Code.bind

def perform (o : O) : Code O R (R o) := op o ret

/-- Replace every operation by code over other operations. -/
def expand (f : (o : O) → Code O' R' (R o)) : Code O R α → Code O' R' α
  | ret a => ret a
  | op o k => f o >>= fun r => (k r).expand f

@[simp] theorem ret_bind (a : α) (f : α → Code O R β) : (ret a >>= f) = f a := rfl

@[simp] theorem op_bind (o : O) (k : R o → Code O R α) (f : α → Code O R β) :
    (op o k >>= f) = op o fun r => k r >>= f := rfl

/-! ## Operations of a code -/

/-- Every operation in the code meets `P`. -/
def All (P : O → Prop) : Code O R α → Prop
  | ret _ => True
  | op o k => P o ∧ ∀ r, (k r).All P

section
variable {P : O → Prop}

theorem all_pure (a : α) : All P (pure a : Code O R α) := trivial

theorem All.bind {x : Code O R α} {f : α → Code O R β} (hx : x.All P) (hf : ∀ a, (f a).All P) :
    (x >>= f).All P := by
  induction x with
  | ret a => exact hf a
  | op o k ih => exact ⟨hx.1, fun r => ih r (hx.2 r)⟩

theorem all_perform {o : O} (h : P o) : All P (perform o : Code O R (R o)) := ⟨h, fun _ => trivial⟩

theorem All.mono {Q : O → Prop} (h : ∀ o, P o → Q o) {x : Code O R α} (hx : x.All P) : x.All Q := by
  induction x with
  | ret a => trivial
  | op o k ih => exact ⟨h o hx.1, fun r => ih r (hx.2 r)⟩

theorem all_ite {c : Prop} [Decidable c] {x y : Code O R α} (hx : x.All P) (hy : y.All P) :
    (if c then x else y).All P := by
  split
  · exact hx
  · exact hy

theorem all_forM {xs : List α} {f : α → Code O R PUnit} (h : ∀ a ∈ xs, (f a).All P) :
    (xs.forM f).All P := by
  induction xs with
  | nil => trivial
  | cons a xs ih =>
    rw [List.forM]
    exact (h a List.mem_cons_self).bind fun _ => ih fun b hb => h b (List.mem_cons_of_mem a hb)

end

end Code

/-! ## What a thread knows -/

/-- Rules for a thread that knows an `L`: which operations are allowed, which responses are
possible, and what the thread may conclude from a response. -/
structure Typestate (O : Type) (R : O → Type) (L : Type) where
  can : L → O → Prop
  may : L → (o : O) → R o → Prop
  after : L → (o : O) → R o → L → Prop

namespace Typestate

variable {O O' : Type} {R : O → Type} {R' : O' → Type} {L L' M α β : Type}

/-- The code is allowed all the way, and ends with a result and knowledge in `Q`. -/
def wp (S : Typestate O R L) (Q : α → L → Prop) : Code O R α → L → Prop
  | .ret a, l => Q a l
  | .op o k, l => S.can l o ∧ ∀ r, S.may l o r → ∃ l', S.after l o r l' ∧ S.wp Q (k r) l'

section
variable {S : Typestate O R L} {Q Q' : α → L → Prop} {l : L}

@[simp] theorem wp_pure {a : α} : S.wp Q (pure a) l ↔ Q a l := Iff.rfl

theorem wp.imp {x : Code O R α} (h : S.wp Q x l) (hQ : ∀ a l', Q a l' → Q' a l') :
    S.wp Q' x l := by
  induction x generalizing l with
  | ret a => exact hQ a l h
  | op o k ih =>
    refine ⟨h.1, fun r hr => ?_⟩
    obtain ⟨l', hafter, hk⟩ := h.2 r hr
    exact ⟨l', hafter, ih r hk⟩

theorem wp_bind {x : Code O R β} {f : β → Code O R α} :
    S.wp Q (x >>= f) l ↔ S.wp (fun b l' => S.wp Q (f b) l') x l := by
  induction x generalizing l with
  | ret b => rfl
  | op o k ih =>
    simp only [Code.op_bind, wp, ih]

theorem wp_perform {o : O} {Q : R o → L → Prop} :
    S.wp Q (Code.perform o) l ↔
      S.can l o ∧ ∀ r, S.may l o r → ∃ l', S.after l o r l' ∧ Q r l' := Iff.rfl

theorem wp_ite {c : Prop} [Decidable c] {x y : Code O R α} :
    S.wp Q (if c then x else y) l ↔ if c then S.wp Q x l else S.wp Q y l := by
  split <;> rfl

/-- A loop over a list: `I` is what is known before each round, by the part of the list that
is still ahead. -/
theorem wp_forM {xs : List β} {f : β → Code O R PUnit} {I : List β → L → Prop}
    (h : ∀ b bs l, b :: bs <:+ xs → I (b :: bs) l → S.wp (fun _ l' => I bs l') (f b) l)
    (hl : I xs l) : S.wp (fun _ l' => I [] l') (xs.forM f) l := by
  induction xs generalizing l with
  | nil => exact hl
  | cons b bs ih =>
    rw [List.forM, wp_bind]
    refine (h b bs l List.suffix_rfl hl).imp fun _ l' hl' => ?_
    exact ih (fun a as l hsuffix => h a as l (hsuffix.trans (List.suffix_cons b bs))) hl'

/-- Code all of whose operations are implemented so that they keep `I`. -/
theorem wp_expand {S' : Typestate O' R' L'} {I : L' → Prop} {f : (o : O) → Code O' R' (R o)}
    (hf : ∀ o l, I l → S'.wp (fun _ => I) (f o) l) {l : L'} (hl : I l) (x : Code O R α) :
    S'.wp (fun _ => I) (x.expand f) l := by
  induction x generalizing l with
  | ret a => exact hl
  | op o k ih =>
    rw [Code.expand, wp_bind]
    exact (hf o l hl).imp fun r l' hl' => ih r hl'

/-- Code over operations that are implemented: it is within the rules of the implementation if
it is within its own, and each implementation refines the rules of its operation. -/
theorem wp.expand {S' : Typestate O' R' L'} {ρ : L → L' → Prop} {x : Code O R α} {l' : L'}
    {f : (o : O) → Code O' R' (R o)}
    (hf : ∀ o l l' (Φ : R o → L → Prop), ρ l l' → S.can l o →
      (∀ r, S.may l o r → ∃ k, S.after l o r k ∧ Φ r k) →
      S'.wp (fun r k' => ∃ k, ρ k k' ∧ Φ r k) (f o) l')
    (h : S.wp Q x l) (hρ : ρ l l') : S'.wp (fun a k' => ∃ k, ρ k k' ∧ Q a k) (x.expand f) l' := by
  induction x generalizing l l' with
  | ret a => exact ⟨l, hρ, h⟩
  | op o k ih =>
    rw [Code.expand, wp_bind]
    refine (hf o l l' (fun r => S.wp Q (k r)) hρ h.1 h.2).imp fun r k' hr => ?_
    obtain ⟨l₁, hρ₁, hk⟩ := hr
    exact ih r hk hρ₁

end

/-! ## Layers -/

/-- Further knowledge `M`, whose rules may look at what is known already. -/
structure Layer (O : Type) (R : O → Type) (L M : Type) where
  can : L → M → O → Prop
  may : L → M → (o : O) → R o → Prop
  after : L → M → (o : O) → R o → M → Prop

def extend (S : Typestate O R L) (E : Layer O R L M) : Typestate O R (L × M) where
  can x o := S.can x.1 o ∧ E.can x.1 x.2 o
  may x o r := S.may x.1 o r ∧ E.may x.1 x.2 o r
  after x o r y := S.after x.1 o r y.1 ∧ E.after x.1 x.2 o r y.2

end Typestate
