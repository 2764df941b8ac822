-- SUMMARY: The two printf functions, of user programs and of the kernel, as interpreters of one format language.
import Xv6.Base.Numeral

/-!
# `printf`

`vprintf` (`user/printf.c`) walks over the format with a state, `printf` (`kernel/printf.c`)
looks ahead when it finds a `%`. Both take the arguments from a list, and the text of a
number is made by a function `printint` of their own. The text that is emitted is the result;
there is none if an argument is missing or of another type than the conversion takes, which C
leaves undefined.
-/

namespace Xv6.Printf

open Numeral

/-! ## Formats and arguments -/

def percent : UInt8 := 37
def minus : UInt8 := 45

/-- What `consputc` takes for a backspace: it is not a character. -/
def BACKSPACE : UInt32 := 0x100

/-- An argument. A string that is not there is the null pointer. -/
inductive Arg
  | int (v : UInt32)
  | long (v : UInt64)
  | str (s : Option (List UInt8))
deriving DecidableEq

/-- What is printed at a place of the format: the character there, or a conversion with the
argument it has taken. -/
inductive Item
  | plain (c : UInt8)
  | d (v : UInt32)
  | ld (v : UInt64)
  | u (v : UInt32)
  | lu (v : UInt64)
  | x (v : UInt32)
  | lx (v : UInt64)
  | p (v : UInt64)
  | c (v : UInt32)
  | s (v : Option (List UInt8))
  | percent
  | unknown (c0 : UInt8)
deriving DecidableEq

/-- `va_arg(ap, int)` and `va_arg(ap, uint32)`. -/
def vaInt (item : UInt32 → Item) (skip : Nat) : List Arg → Option (Item × Nat × List Arg)
  | .int v :: ap => some (item v, skip, ap)
  | _ => none

/-- `va_arg(ap, uint64)`. -/
def vaLong (item : UInt64 → Item) (skip : Nat) : List Arg → Option (Item × Nat × List Arg)
  | .long v :: ap => some (item v, skip, ap)
  | _ => none

/-- `va_arg(ap, char*)`. -/
def vaStr : List Arg → Option (Item × Nat × List Arg)
  | .str s :: ap => some (.s s, 0, ap)
  | _ => none

/-- The tests for a conversion, which the two functions have in common: the item, the number that
is added to `i`, and the arguments that are left. -/
def conversion (c0 c1 c2 : UInt8) (ap : List Arg) : Option (Item × Nat × List Arg) :=
  if c0 = 100 then vaInt .d 0 ap
  else if c0 = 108 ∧ c1 = 100 then vaLong .ld 1 ap
  else if c0 = 108 ∧ c1 = 108 ∧ c2 = 100 then vaLong .ld 2 ap
  else if c0 = 117 then vaInt .u 0 ap
  else if c0 = 108 ∧ c1 = 117 then vaLong .lu 1 ap
  else if c0 = 108 ∧ c1 = 108 ∧ c2 = 117 then vaLong .lu 2 ap
  else if c0 = 120 then vaInt .x 0 ap
  else if c0 = 108 ∧ c1 = 120 then vaLong .lx 1 ap
  else if c0 = 108 ∧ c1 = 108 ∧ c2 = 120 then vaLong .lx 2 ap
  else if c0 = 112 then vaLong .p 0 ap
  else if c0 = 99 then vaInt .c 0 ap
  else if c0 = 115 then vaStr ap
  else if c0 = percent then some (.percent, 0, ap)
  else some (.unknown c0, 0, ap)

/-- The byte behind a byte, if that one is not the end of the string. -/
def after (c : UInt8) (i : Nat) (fmt : List UInt8) : UInt8 := if c ≠ 0 then fmt.getD i 0 else 0

/-- `(null)`. -/
def nullText : List UInt8 := [40, 110, 117, 108, 108, 41]

/-- The bytes the loop `for(; *s; s++)` goes over. -/
def chars (s : Option (List UInt8)) : List UInt8 := (s.getD nullText).takeWhile (· ≠ 0)

/-- The text of a number: what `printint` has in `buf`, read backwards. -/
def number (table : List UInt8) (base x : Nat) (neg : Bool) : List UInt8 :=
  (if neg then [minus] else []) ++ ((digits base x).reverse.map fun i => table.getD i 0)

/-- `printptr`. -/
def printptr (table : List UInt8) (x : UInt64) : List UInt8 :=
  48 :: 120 :: (List.range 16).map fun i => table.getD ((x <<< (4 * i).toUInt64) >>> 60).toNat 0

/-! ## The function of user programs -/

namespace User

/-- `digits`, with capital letters. -/
def digits : List UInt8 := [48, 49, 50, 51, 52, 53, 54, 55, 56, 57, 65, 66, 67, 68, 69, 70]

/-- `printint`: the number is kept in a `uint`. -/
def printint (xx : Int64) (base : Nat) (sgn : Bool) : List UInt8 :=
  let neg := sgn && decide (xx < 0)
  let x : UInt32 := if neg then (-xx).toUInt64.toUInt32 else xx.toUInt64.toUInt32
  number digits base x.toNat neg

end User

/-- What `vprintf` prints. -/
def Item.user : Item → List UInt8
  | .plain cx => [cx]
  | .d v => User.printint v.toInt32.toInt64 10 true
  | .ld v => User.printint v.toInt64 10 true
  | .u v => User.printint v.toUInt64.toInt64 10 false
  | .lu v => User.printint v.toInt64 10 false
  | .x v => User.printint v.toUInt64.toInt64 16 false
  | .lx v => User.printint v.toInt64 16 false
  | .p v => printptr User.digits v
  | .c v => [v.toUInt8]
  | .s v => chars v
  | .percent => [Printf.percent]
  | .unknown c0 => [Printf.percent, c0]

/-- The loop of `vprintf`; `state` is set behind a `%`, and `skip` is what has been added to `i`. -/
def vprintfLoop : Bool → Nat → List UInt8 → List Arg → Option (List UInt8)
  | _, _, [], _ => some []
  | state, skip + 1, _ :: fmt, ap => vprintfLoop state skip fmt ap
  | state, 0, c0 :: fmt, ap =>
    if c0 = 0 then some []
    else if state = false then
      if c0 = percent then vprintfLoop true 0 fmt ap
      else (vprintfLoop false 0 fmt ap).map ([c0] ++ ·)
    else
      let c1 := after c0 0 fmt
      let c2 := after c1 1 fmt
      (conversion c0 c1 c2 ap).bind fun r => (vprintfLoop false r.2.1 fmt r.2.2).map (r.1.user ++ ·)

/-- `vprintf`. -/
def vprintf (fmt : List UInt8) (ap : List Arg) : Option (List UInt8) := vprintfLoop false 0 fmt ap

/-! ## The function of the kernel -/

namespace Kernel

/-- `digits`, with small letters. -/
def digits : List UInt8 := [48, 49, 50, 51, 52, 53, 54, 55, 56, 57, 97, 98, 99, 100, 101, 102]

/-- `printint`: the number is kept in an `unsigned long long`. -/
def printint (xx : Int64) (base : Nat) (sign : Bool) : List UInt8 :=
  let neg := sign && decide (xx < 0)
  let x : UInt64 := if neg then (-xx).toUInt64 else xx.toUInt64
  number digits base x.toNat neg

end Kernel

/-- `consputc`: what reaches the terminal. -/
def consputc (c : UInt32) : List UInt8 := if c = BACKSPACE then [8, 32, 8] else [c.toUInt8]

/-- What `printf` prints. -/
def Item.kernel : Item → List UInt8
  | .plain cx => consputc cx.toUInt32
  | .d v => Kernel.printint v.toInt32.toInt64 10 true
  | .ld v => Kernel.printint v.toInt64 10 true
  | .u v => Kernel.printint v.toUInt64.toInt64 10 false
  | .lu v => Kernel.printint v.toInt64 10 false
  | .x v => Kernel.printint v.toUInt64.toInt64 16 false
  | .lx v => Kernel.printint v.toInt64 16 false
  | .p v => printptr Kernel.digits v
  | .c v => consputc v
  | .s v => (chars v).flatMap fun ch => consputc ch.toUInt32
  | .percent => consputc Printf.percent.toUInt32
  | .unknown c0 => consputc Printf.percent.toUInt32 ++ consputc c0.toUInt32

/-- The loop of `printf`; the test for the end of the format stands last in the source. -/
def printfLoop : Nat → List UInt8 → List Arg → Option (List UInt8)
  | _, [], _ => some []
  | skip + 1, _ :: fmt, ap => printfLoop skip fmt ap
  | 0, cx :: fmt, ap =>
    if cx = 0 then some []
    else if cx ≠ percent then (printfLoop 0 fmt ap).map (consputc cx.toUInt32 ++ ·)
    else
      let c0 := fmt.headD 0
      let c1 := after c0 1 fmt
      let c2 := after c1 2 fmt
      if c0 = 0 then some []
      else (conversion c0 c1 c2 ap).bind fun r => (printfLoop (r.2.1 + 1) fmt r.2.2).map (r.1.kernel ++ ·)

/-- `printf`. -/
def printf (fmt : List UInt8) (ap : List Arg) : Option (List UInt8) := printfLoop 0 fmt ap

/-! ## The language of formats -/

/-- What a format asks for, given the arguments: nothing if they do not fit it. -/
def itemsFrom : Nat → List UInt8 → List Arg → Option (List Item)
  | _, [], _ => some []
  | skip + 1, _ :: fmt, ap => itemsFrom skip fmt ap
  | 0, c :: fmt, ap =>
    if c = 0 then some []
    else if c ≠ percent then (itemsFrom 0 fmt ap).map (.plain c :: ·)
    else
      let c0 := fmt.headD 0
      if c0 = 0 then some []
      else (conversion c0 (after c0 1 fmt) (after (after c0 1 fmt) 2 fmt) ap).bind fun r =>
        (itemsFrom (r.2.1 + 1) fmt r.2.2).map (r.1 :: ·)

def items (fmt : List UInt8) (ap : List Arg) : Option (List Item) := itemsFrom 0 fmt ap

theorem printfLoop_eq (skip : Nat) (fmt : List UInt8) (ap : List Arg) :
    printfLoop skip fmt ap = (itemsFrom skip fmt ap).map (List.flatMap Item.kernel) := by
  induction fmt generalizing skip ap with
  | nil => cases skip <;> rfl
  | cons c fmt ih =>
    cases skip with
    | succ skip => exact ih skip ap
    | zero =>
      rw [printfLoop, itemsFrom]
      split
      · rfl
      split
      · rw [ih, Option.map_map, Option.map_map]
        rfl
      dsimp only
      split
      · rfl
      · rw [Option.map_bind]
        refine Option.bind_congr fun r _ => ?_
        rw [Function.comp_apply, ih, Option.map_map, Option.map_map]
        rfl

theorem itemsFrom_percent (fmt : List UInt8) (ap : List Arg) :
    itemsFrom 0 (percent :: fmt) ap =
      if fmt.headD 0 = 0 then some []
      else (conversion (fmt.headD 0) (after (fmt.headD 0) 1 fmt)
          (after (after (fmt.headD 0) 1 fmt) 2 fmt) ap).bind fun r =>
        (itemsFrom (r.2.1 + 1) fmt r.2.2).map (r.1 :: ·) := rfl

theorem vprintfLoop_percent (c0 : UInt8) (fmt : List UInt8) (ap : List Arg) :
    vprintfLoop true 0 (c0 :: fmt) ap =
      if c0 = 0 then some []
      else (conversion c0 (after c0 0 fmt) (after (after c0 0 fmt) 1 fmt) ap).bind fun r =>
        (vprintfLoop false r.2.1 fmt r.2.2).map (r.1.user ++ ·) := rfl

theorem vprintfLoop_eq (fmt : List UInt8) :
    (∀ skip ap, vprintfLoop false skip fmt ap = (itemsFrom skip fmt ap).map (List.flatMap Item.user)) ∧
      ∀ ap, vprintfLoop true 0 fmt ap = (itemsFrom 0 (percent :: fmt) ap).map (List.flatMap Item.user) := by
  -- behind a `%` the rest of the format is the one that `printf` looks ahead at
  induction fmt with
  | nil => exact ⟨fun skip _ => by cases skip <;> rfl, fun _ => rfl⟩
  | cons c fmt ih =>
    refine ⟨fun skip ap => ?_, fun ap => ?_⟩
    · cases skip with
      | succ skip => exact ih.1 skip ap
      | zero =>
        by_cases hp : c = percent
        · subst hp
          exact ih.2 ap
        rw [vprintfLoop, itemsFrom, if_pos rfl, if_neg hp, if_pos hp]
        split
        · rfl
        · rw [ih.1, Option.map_map, Option.map_map]
          rfl
    · rw [vprintfLoop_percent, itemsFrom_percent, List.headD_cons]
      split
      · rfl
      · rw [Option.map_bind]
        refine Option.bind_congr fun r _ => ?_
        rw [ih.1, Function.comp_apply, Option.map_map, itemsFrom, Option.map_map]
        rfl

theorem vprintf_eq (fmt : List UInt8) (ap : List Arg) :
    vprintf fmt ap = (items fmt ap).map (List.flatMap Item.user) := (vprintfLoop_eq fmt).1 0 ap

theorem printf_eq (fmt : List UInt8) (ap : List Arg) :
    printf fmt ap = (items fmt ap).map (List.flatMap Item.kernel) := printfLoop_eq 0 fmt ap

/-! ## When the two agree -/

/-- The same character, but for the case of a hexadecimal digit. -/
def SameChar (a b : UInt8) : Prop := a = b ∨ 65 ≤ a ∧ a ≤ 70 ∧ b = a + 32

instance : DecidableRel SameChar := fun _ _ => inferInstanceAs (Decidable (_ ∨ _))

/-- The number fits the variable of the user program's `printint`, and the character is not the
one that `consputc` takes for a backspace. -/
def Item.Narrow : Item → Prop
  | .ld v => v.toInt64.toInt.natAbs < 2 ^ 32
  | .lu v => v.toNat < 2 ^ 32
  | .lx v => v.toNat < 2 ^ 32
  | .c v => v ≠ BACKSPACE
  | _ => True

theorem SameChar.refl (a : UInt8) : SameChar a a := .inl rfl

theorem sameChar_digit {i j : Nat} (hi : i < 16) (hj : j < 16) :
    SameChar (User.digits.getD i 0) (Kernel.digits.getD j 0) ↔ i = j := by
  have h : ∀ i j : Fin 16, SameChar (User.digits.getD i 0) (Kernel.digits.getD j 0) ↔ i = j := by
    decide +kernel
  rw [h ⟨i, hi⟩ ⟨j, hj⟩, Fin.mk_eq_mk]

theorem forall₂_sameChar {l₁ l₂ : List Nat} (h₁ : ∀ i ∈ l₁, i < 16) (h₂ : ∀ j ∈ l₂, j < 16) :
    List.Forall₂ SameChar (l₁.map fun i => User.digits.getD i 0) (l₂.map fun j => Kernel.digits.getD j 0) ↔
      l₁ = l₂ := by
  rw [List.forall₂_map_left_iff, List.forall₂_map_right_iff]
  induction l₁ generalizing l₂ with
  | nil => simp [eq_comm]
  | cons i l₁ ih =>
    cases l₂ with
    | nil => simp
    | cons j l₂ =>
      rw [List.forall_mem_cons] at h₁ h₂
      rw [List.forall₂_cons, sameChar_digit h₁.1 h₂.1, ih h₁.2 h₂.2, List.cons.injEq]

section
variable {base x y : Nat} {neg : Bool}

theorem number_length_le {table table' : List UInt8} (hb : 1 < base) (h : x ≤ y) :
    (number table base x neg).length ≤ (number table' base y neg).length := by
  simpa [number] using length_digits_le hb h

/-- The texts of two numbers tell them apart. -/
theorem number_sameChar (hb : 1 < base) (hb' : base ≤ 16) :
    List.Forall₂ SameChar (number User.digits base x neg) (number Kernel.digits base y neg) ↔ x = y := by
  have hlt : ∀ z, ∀ i ∈ (Numeral.digits base z).reverse, i < 16 := fun z i hi =>
    (lt_base hb (List.mem_reverse.mp hi)).trans_le hb'
  rw [number, number, forall₂_append_iff rfl, forall₂_sameChar (hlt x) (hlt y), List.reverse_inj,
    digits_inj hb]
  exact and_iff_right (List.forall₂_same.mpr fun a _ => .refl a)

end

/-! ### Numerals -/

/-- The digits of a number in Mathlib's sense, the first one first. -/
def natText (table : List UInt8) (base n : Nat) : List UInt8 :=
  if n = 0 then [48] else (Nat.digits base n).reverse.map fun i => table.getD i 0

/-- The numeral of an integer. -/
def intText (table : List UInt8) (base : Nat) (z : Int) : List UInt8 :=
  (if z < 0 then [minus] else []) ++ natText table base z.natAbs

theorem number_eq_natText {table : List UInt8} {base n : Nat} {neg : Bool} (hb : 1 < base)
    (hzero : table.getD 0 0 = 48) :
    number table base n neg = (if neg then [minus] else []) ++ natText table base n := by
  rw [number, digits_eq hb, natText]
  by_cases hn : n = 0
  · rw [if_pos hn, if_pos hn, ← hzero]
    rfl
  · rw [if_neg hn, if_neg hn]

/-! ### The variable of `printint` -/

/-- The number whose digits the kernel's `printint` prints. -/
def magnitude (xx : Int64) (sgn : Bool) : Nat :=
  (if sgn && decide (xx < 0) then (-xx).toUInt64 else xx.toUInt64).toNat

section
variable {xx : Int64} {base : Nat} {sgn : Bool}

theorem User.printint_eq : User.printint xx base sgn =
    number User.digits base (magnitude xx sgn % 2 ^ 32) (sgn && decide (xx < 0)) := by
  simp only [User.printint, magnitude]
  split <;> rw [UInt64.toNat_toUInt32]

theorem Kernel.printint_eq : Kernel.printint xx base sgn =
    number Kernel.digits base (magnitude xx sgn) (sgn && decide (xx < 0)) := rfl

theorem printint_length_le (hb : 1 < base) :
    (User.printint xx base sgn).length ≤ (Kernel.printint xx base sgn).length := by
  rw [User.printint_eq, Kernel.printint_eq]
  exact number_length_le hb (Nat.mod_le _ _)

theorem printint_sameChar (hb : 1 < base) (hb' : base ≤ 16) :
    List.Forall₂ SameChar (User.printint xx base sgn) (Kernel.printint xx base sgn) ↔
      magnitude xx sgn < 2 ^ 32 := by
  rw [User.printint_eq, Kernel.printint_eq, number_sameChar hb hb']
  exact Nat.mod_eq_iff_lt (by decide)

theorem toNat_toUInt64_eq (xx : Int64) : (xx.toUInt64.toNat : Int) = xx.toInt % ((2 ^ 64 : Nat) : Int) := by
  have hbmod : xx.toInt = Int.bmod xx.toUInt64.toNat (2 ^ 64) := BitVec.toInt_eq_toNat_bmod xx.toBitVec
  have hlt := xx.toUInt64.toNat_lt
  rw [hbmod, Int.bmod_emod]
  omega

theorem magnitude_signed : magnitude xx true = xx.toInt.natAbs := by
  have hlt := xx.toInt_lt
  have hle := xx.le_toInt
  have hpos := toNat_toUInt64_eq xx
  have hneg := toNat_toUInt64_eq (-xx)
  rw [Int64.toInt_neg, Int.bmod_emod] at hneg
  simp only [magnitude, Bool.true_and, decide_eq_true_eq, Int64.lt_iff_toInt_lt, Int64.toInt_zero]
  split <;> omega

theorem magnitude_unsigned (v : UInt64) : magnitude v.toInt64 false = v.toNat := rfl

theorem magnitude_int (v : UInt32) : magnitude v.toInt32.toInt64 true < 2 ^ 32 := by
  have hlt := v.toInt32.toInt_lt
  have hle := v.toInt32.le_toInt
  rw [magnitude_signed, Int32.toInt_toInt64]
  omega

theorem magnitude_uint (v : UInt32) : magnitude v.toUInt64.toInt64 false < 2 ^ 32 := by
  rw [magnitude_unsigned, UInt32.toNat_toUInt64]
  exact v.toNat_lt

end

/-! ### Piece by piece -/

theorem consputc_char (c : UInt8) : consputc c.toUInt32 = [c] := by
  have hne : c.toUInt32 ≠ BACKSPACE := by
    intro h
    have hlt := c.toNat_lt
    have hval := congrArg UInt32.toNat h
    rw [UInt8.toNat_toUInt32] at hval
    exact absurd (hval ▸ hlt) (by decide)
  rw [consputc, if_neg hne, UInt8.toUInt8_toUInt32]

theorem forall₂_refl (l : List UInt8) : List.Forall₂ SameChar l l :=
  List.forall₂_same.mpr fun a _ => .refl a

theorem chars_kernel (s : Option (List UInt8)) : ((chars s).flatMap fun c => consputc c.toUInt32) = chars s := by
  simp only [consputc_char]
  exact List.flatMap_singleton' _

theorem printptr_sameChar (v : UInt64) :
    List.Forall₂ SameChar (printptr User.digits v) (printptr Kernel.digits v) := by
  refine .cons (.refl _) (.cons (.refl _) ?_)
  rw [List.forall₂_map_left_iff, List.forall₂_map_right_iff]
  refine List.forall₂_same.mpr fun i _ => ?_
  have hlt : (v <<< (4 * i).toUInt64 >>> 60).toNat < 16 := by
    have h := (v <<< (4 * i).toUInt64).toNat_lt
    rw [UInt64.toNat_shiftRight, Nat.shiftRight_eq_div_pow]
    exact Nat.div_lt_of_lt_mul h
  exact (sameChar_digit hlt hlt).mpr rfl

theorem Item.length_le (item : Item) : item.user.length ≤ item.kernel.length := by
  cases item with
  | plain ch => exact (congrArg List.length (consputc_char ch)).ge
  | d v => exact printint_length_le (by decide)
  | ld v => exact printint_length_le (by decide)
  | u v => exact printint_length_le (by decide)
  | lu v => exact printint_length_le (by decide)
  | x v => exact printint_length_le (by decide)
  | lx v => exact printint_length_le (by decide)
  | p v => exact (printptr_sameChar v).length_eq.le
  | c v =>
    change 1 ≤ (consputc v).length
    rw [consputc]
    split <;> simp
  | s v => exact (congrArg List.length (chars_kernel v)).ge
  | percent => exact Nat.le_refl 1
  | unknown c0 =>
    rw [Item.user, Item.kernel, consputc_char, consputc_char]
    rfl

/-- A piece is the same in both texts just if it is narrow. -/
theorem Item.sameChar (item : Item) :
    List.Forall₂ SameChar item.user item.kernel ↔ item.Narrow := by
  cases item with
  | plain ch =>
    rw [Item.user, Item.kernel, consputc_char]
    exact iff_of_true (forall₂_refl _) trivial
  | d v => exact (printint_sameChar (by decide) (by decide)).trans (iff_of_true (magnitude_int v) trivial)
  | ld v =>
    refine (printint_sameChar (by decide) (by decide)).trans ?_
    rw [magnitude_signed]
    rfl
  | u v => exact (printint_sameChar (by decide) (by decide)).trans (iff_of_true (magnitude_uint v) trivial)
  | lu v => exact printint_sameChar (by decide) (by decide)
  | x v => exact (printint_sameChar (by decide) (by decide)).trans (iff_of_true (magnitude_uint v) trivial)
  | lx v => exact printint_sameChar (by decide) (by decide)
  | p v => exact iff_of_true (printptr_sameChar v) trivial
  | c v =>
    rw [Item.user, Item.kernel, Item.Narrow, consputc]
    split
    · next h => exact iff_of_false (fun hall => absurd hall.length_eq (by simp)) (not_not_intro h)
    · next h => exact iff_of_true (forall₂_refl _) h
  | s v =>
    rw [Item.user, Item.kernel, chars_kernel]
    exact iff_of_true (forall₂_refl _) trivial
  | percent => exact iff_of_true (forall₂_refl _) trivial
  | unknown c0 =>
    rw [Item.user, Item.kernel, consputc_char, consputc_char]
    exact iff_of_true (forall₂_refl _) trivial

/-- For arguments of the types that the format calls for, both functions print, and they print the
same characters just if every number and character is narrow. -/
theorem printf_agree_iff {fmt : List UInt8} {ap : List Arg} {its : List Item}
    (h : items fmt ap = some its) :
    ∃ user kernel, vprintf fmt ap = some user ∧ printf fmt ap = some kernel ∧
      (List.Forall₂ SameChar user kernel ↔ ∀ item ∈ its, item.Narrow) := by
  refine ⟨its.flatMap Item.user, its.flatMap Item.kernel, ?_, ?_, ?_⟩
  · rw [vprintf_eq, h, Option.map_some]
  · rw [printf_eq, h, Option.map_some]
  · rw [forall₂_flatMap_iff fun item _ => item.length_le]
    exact forall₂_congr fun item _ => item.sameChar

/-- `%d %lx%` with the arguments -5 and 255. -/
theorem printf_agree_iff_small : ∃ user kernel,
    vprintf [37, 100, 32, 37, 108, 120, 37] [.int 0xfffffffb, .long 255] = some user ∧
    printf [37, 100, 32, 37, 108, 120, 37] [.int 0xfffffffb, .long 255] = some kernel ∧
    (List.Forall₂ SameChar user kernel ↔ ∀ item ∈ [.d 0xfffffffb, .plain 32, .lx 255], Item.Narrow item) :=
  printf_agree_iff (by decide)

/-- `%lx` of 2^32: the user program prints `0`, and the kernel prints `100000000`. -/
theorem printf_wide : items [37, 108, 120] [.long 4294967296] = some [.lx 4294967296] ∧
    vprintf [37, 108, 120] [.long 4294967296] = some [48] ∧
    printf [37, 108, 120] [.long 4294967296] = some [49, 48, 48, 48, 48, 48, 48, 48, 48] ∧
    ¬ List.Forall₂ SameChar [48] [49, 48, 48, 48, 48, 48, 48, 48, 48] := by
  refine ⟨by decide +kernel, by decide +kernel, by decide +kernel, fun h => ?_⟩
  exact absurd h.length_eq (by decide)

end Xv6.Printf
