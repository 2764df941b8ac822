-- SUMMARY: The digits of a number as a loop of divisions takes them, and texts that are put together from pieces.
import Mathlib.Data.Nat.Digits.Lemmas
import Mathlib.Data.List.Forall2
import Mathlib.Algebra.Order.BigOperators.Group.List

/-!
# Numerals

A number is written by dividing it by the base until nothing is left. This gives the digits
that Mathlib has for it, except that zero has one digit.
-/

namespace Numeral

variable {base x y gas : Nat}

/-! ## Digits -/

/-- The loop `do … while ((x /= base) != 0)`. It takes at most `gas` digits, the last one first. -/
def digitLoop (base : Nat) : Nat → Nat → List Nat
  | 0, _ => []
  | gas + 1, x => x % base :: if x / base = 0 then [] else digitLoop base gas (x / base)

/-- The digits of a number, the last one first. The loop has enough gas, since `x` shrinks. -/
def digits (base x : Nat) : List Nat := digitLoop base (x + 1) x

theorem digitLoop_eq (hb : 1 < base) (hgas : x < gas) :
    digitLoop base gas x = if x = 0 then [0] else Nat.digits base x := by
  induction gas generalizing x with
  | zero => exact absurd hgas (Nat.not_lt_zero x)
  | succ gas ih =>
    rw [digitLoop]
    by_cases hx : x = 0
    · rw [hx, Nat.zero_mod, Nat.zero_div, if_pos rfl, if_pos rfl]
    · have hlt : x / base < x := Nat.div_lt_self (Nat.pos_of_ne_zero hx) hb
      rw [if_neg hx, Nat.digits_def' hb (Nat.pos_of_ne_zero hx)]
      split
      · next hdiv => rw [hdiv, Nat.digits_zero]
      · next hdiv => rw [ih (by omega), if_neg hdiv]

theorem digits_eq (hb : 1 < base) :
    digits base x = if x = 0 then [0] else Nat.digits base x :=
  digitLoop_eq hb (Nat.lt_succ_self x)

theorem digits_cons (hb : 1 < base) :
    digits base x = x % base :: if x / base = 0 then [] else digits base (x / base) := by
  rw [digits, digitLoop]
  split
  · rfl
  · next hdiv =>
    have hlt : x / base < x := Nat.div_lt_self (Nat.pos_of_ne_zero fun hx => hdiv (by rw [hx, Nat.zero_div])) hb
    rw [digits_eq hb, digitLoop_eq hb hlt]

theorem length_digits_le_of_lt (hb : 1 < base) {k : Nat} (hk : 0 < k) (h : x < base ^ k) :
    (digits base x).length ≤ k := by
  rw [digits_eq hb]
  split
  · exact hk
  · exact (Nat.digits_length_le_iff hb x).mpr h

theorem digits_ne_nil : digits base x ≠ [] := List.cons_ne_nil _ _

theorem lt_base (hb : 1 < base) {d : Nat} (hd : d ∈ digits base x) : d < base := by
  rw [digits_eq hb] at hd
  split at hd
  · rw [List.mem_singleton.mp hd]
    exact Nat.zero_lt_of_lt hb
  · exact Nat.digits_lt_base hb hd

/-- The digits say what the number is. -/
theorem ofDigits_digits (hb : 1 < base) : Nat.ofDigits base (digits base x) = x := by
  rw [digits_eq hb]
  split
  · next hx => rw [hx, Nat.ofDigits_singleton]
  · exact Nat.ofDigits_digits base x

theorem digits_inj (hb : 1 < base) : digits base x = digits base y ↔ x = y := by
  constructor
  · intro h
    rw [← ofDigits_digits (x := x) hb, h, ofDigits_digits hb]
  · exact congrArg _

theorem length_digits_le (hb : 1 < base) (h : x ≤ y) :
    (digits base x).length ≤ (digits base y).length := by
  by_cases hx : x = 0
  · rw [digits_eq (x := x) hb, if_pos hx]
    exact List.length_pos_iff.mpr digits_ne_nil
  · rw [digits_eq hb, digits_eq hb, if_neg hx, if_neg (by omega)]
    exact Nat.le_length_digits_le base x y h

/-! ## Texts in pieces -/

section
variable {α β γ : Type} {R : β → γ → Prop}

theorem forall₂_append_iff {a b : List β} {c d : List γ} (h : a.length = c.length) :
    List.Forall₂ R (a ++ b) (c ++ d) ↔ List.Forall₂ R a c ∧ List.Forall₂ R b d := by
  constructor
  · intro hall
    have htake := List.forall₂_take a.length hall
    have hdrop := List.forall₂_drop a.length hall
    rw [List.take_left, h, List.take_left] at htake
    rw [List.drop_left, h, List.drop_left] at hdrop
    exact ⟨htake, hdrop⟩
  · rintro ⟨hac, hbd⟩
    exact List.rel_append hac hbd

/-- If no piece of one text is longer than the piece of the other text, then the texts can only
agree piece by piece. -/
theorem forall₂_flatMap_iff {f : α → List β} {g : α → List γ} {l : List α}
    (hlen : ∀ x ∈ l, (f x).length ≤ (g x).length) :
    List.Forall₂ R (l.flatMap f) (l.flatMap g) ↔ ∀ x ∈ l, List.Forall₂ R (f x) (g x) := by
  induction l with
  | nil => simp
  | cons x l ih =>
    have hle : (l.flatMap f).length ≤ (l.flatMap g).length := by
      rw [List.length_flatMap, List.length_flatMap]
      exact List.sum_le_sum fun y hy => hlen y (List.mem_cons_of_mem x hy)
    rw [List.flatMap_cons, List.flatMap_cons, List.forall_mem_cons,
      ← ih fun y hy => hlen y (List.mem_cons_of_mem x hy)]
    constructor
    · intro hall
      have hsum := hall.length_eq
      rw [List.length_append, List.length_append] at hsum
      have hx := hlen x List.mem_cons_self
      exact (forall₂_append_iff (by omega)).mp hall
    · rintro ⟨hx, hall⟩
      exact List.rel_append hx hall

theorem append_mark_inj {mark : β} {a b c d : List β} (ha : mark ∉ a) (hc : mark ∉ c)
    (h : a ++ mark :: b = c ++ mark :: d) : a = c ∧ b = d := by
  rcases List.append_eq_append_iff.mp h with ⟨l, rfl, hl⟩ | ⟨l, rfl, hl⟩
  · cases l with
    | nil => exact ⟨(List.append_nil a).symm, (List.cons.inj hl).2⟩
    | cons e l =>
      obtain rfl := (List.cons.inj hl).1
      exact absurd (List.mem_append_right a List.mem_cons_self) hc
  · cases l with
    | nil => exact ⟨List.append_nil c, (List.cons.inj hl).2.symm⟩
    | cons e l =>
      obtain rfl := (List.cons.inj hl).1
      exact absurd (List.mem_append_right c List.mem_cons_self) ha

/-- Texts can be put together and taken apart again if every one ends with a mark it does not
contain. -/
theorem flatMap_append_injective {f : α → List β} {mark : β} (hf : Function.Injective f)
    (hmark : ∀ x, mark ∉ f x) : Function.Injective (List.flatMap fun x => f x ++ [mark]) := by
  intro l
  induction l with
  | nil =>
    intro l' h
    cases l' with
    | nil => rfl
    | cons y l' => simp at h
  | cons x l ih =>
    intro l' h
    cases l' with
    | nil => simp at h
    | cons y l' =>
      simp only [List.flatMap_cons, List.append_assoc, List.singleton_append] at h
      obtain ⟨hxy, hl⟩ := append_mark_inj (hmark x) (hmark y) h
      rw [hf hxy, ih hl]

end

end Numeral
