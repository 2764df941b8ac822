-- SUMMARY: What the lines that user programs print with printf say, as numerals.
import Xv6.Printf.Printf

/-!
# Lines of text

The formats that the programs `sixfive` and `memdump` use, and the texts of numbers they give:
`%d` is the decimal numeral of an `int`, and `%lx` the hexadecimal numeral of the lower half of
a `uint64`.
-/

namespace Xv6.Printf

def newline : UInt8 := 10

/-- `%d\n` -/
def fmtD : List UInt8 := [37, 100, 10]
/-- `%lx\n` -/
def fmtLx : List UInt8 := [37, 108, 120, 10]
/-- `%c\n` -/
def fmtC : List UInt8 := [37, 99, 10]
/-- `%s\n` -/
def fmtS : List UInt8 := [37, 115, 10]

/-! ## Numerals -/

/-- The decimal numeral of an integer. -/
def decimal (z : Int) : List UInt8 := intText User.digits 10 z

/-- The hexadecimal numeral of a number. -/
def hexadecimal (n : Nat) : List UInt8 := natText User.digits 16 n

section
variable {base n m : Nat}

theorem number_user (hb : 1 < base) : number User.digits base n false = natText User.digits base n :=
  number_eq_natText hb rfl

theorem natText_length_le (hb : 1 < base) (h : n ≤ m) :
    (natText User.digits base n).length ≤ (natText User.digits base m).length := by
  rw [← number_user hb, ← number_user hb]
  exact number_length_le hb h

/-- A numeral denotes one number. -/
theorem natText_inj (hb : 1 < base) (hb' : base ≤ 16) :
    natText User.digits base n = natText User.digits base m ↔ n = m := by
  constructor
  · intro h
    rw [← number_user hb, ← number_user hb] at h
    have hm : List.Forall₂ SameChar (number User.digits base m false) (number Kernel.digits base m false) :=
      (number_sameChar hb hb').mpr rfl
    rw [← h] at hm
    exact (number_sameChar hb hb').mp hm
  · exact congrArg _

/-- The characters of a numeral are digits. -/
theorem mem_natText (hb : 1 < base) (hb' : base ≤ 16) {c : UInt8}
    (hc : c ∈ natText User.digits base n) : c ∈ User.digits := by
  rw [← number_user hb, number, if_neg Bool.false_ne_true, List.nil_append] at hc
  obtain ⟨i, hi, rfl⟩ := List.mem_map.mp hc
  have hlt : i < 16 := (Numeral.lt_base hb (List.mem_reverse.mp hi)).trans_le hb'
  have hmem : ∀ i : Fin 16, User.digits.getD i 0 ∈ User.digits := by decide
  exact hmem ⟨i, hlt⟩

theorem minus_notMem : minus ∉ natText User.digits 10 n :=
  fun h => absurd (mem_natText (by decide) (by decide) h) (by decide)

theorem newline_notMem_decimal (z : Int) : newline ∉ decimal z := by
  rw [decimal, intText, List.mem_append, not_or]
  refine ⟨?_, fun h => absurd (mem_natText (by decide) (by decide) h) (by decide)⟩
  split <;> decide

theorem decimal_injective : Function.Injective decimal := by
  intro z z' h
  rw [decimal, decimal, intText, intText] at h
  split at h
  · next hz =>
    split at h
    · next hz' =>
      have habs := (natText_inj (by decide) (by decide)).mp (List.append_cancel_left h)
      omega
    · have hmem : minus ∈ [minus] ++ natText User.digits 10 z.natAbs := List.mem_cons_self
      rw [h] at hmem
      exact absurd hmem minus_notMem
  · next hz =>
    split at h
    · have hmem : minus ∈ [minus] ++ natText User.digits 10 z'.natAbs := List.mem_cons_self
      rw [← h] at hmem
      exact absurd hmem minus_notMem
    · next hz' =>
      have habs := (natText_inj (by decide) (by decide)).mp h
      omega

end

/-! ## Lines -/

theorem printint_decimal (v : UInt32) : (Item.d v).user = decimal v.toInt32.toInt := by
  rw [Item.user, User.printint_eq, Nat.mod_eq_of_lt (magnitude_int v), magnitude_signed, decimal,
    intText, Int32.toInt_toInt64, Bool.true_and, ← number_user (by decide), number, number]
  simp only [Bool.false_eq_true, if_false, List.nil_append, decide_eq_true_eq, Int64.lt_iff_toInt_lt,
    Int64.toInt_zero, Int32.toInt_toInt64]

theorem printint_hexadecimal (v : UInt64) : (Item.lx v).user = hexadecimal (v.toNat % 2 ^ 32) := by
  rw [Item.user, User.printint_eq, magnitude_unsigned, Bool.false_and, number_user (by decide),
    hexadecimal]

theorem vprintf_fmtD (v : UInt32) :
    vprintf fmtD [.int v] = some (decimal v.toInt32.toInt ++ [newline]) := by
  have hitems : items fmtD [.int v] = some [.d v, .plain newline] := rfl
  rw [vprintf_eq, hitems, ← printint_decimal]
  rfl

theorem vprintf_fmtLx (v : UInt64) :
    vprintf fmtLx [.long v] = some (hexadecimal (v.toNat % 2 ^ 32) ++ [newline]) := by
  have hitems : items fmtLx [.long v] = some [.lx v, .plain newline] := rfl
  rw [vprintf_eq, hitems, ← printint_hexadecimal]
  rfl

theorem vprintf_fmtC (v : UInt32) : vprintf fmtC [.int v] = some [v.toUInt8, newline] := rfl

theorem vprintf_fmtS (s : Option (List UInt8)) :
    vprintf fmtS [.str s] = some (chars s ++ [newline]) := rfl

end Xv6.Printf
