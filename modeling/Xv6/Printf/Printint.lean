-- SUMMARY: The kernel's printint with its buffer of 20 bytes: it stays inside, and the text is the numeral.
import Xv6.Printf.Printf
import Mathlib.Data.List.GetD

/-!
# The buffer of `printint`

The kernel's `printint` puts the digits of a number into `buf`, the last one first, then the
sign, and sends the bytes to the console from the end. The longest texts, those of the least
negative and of the greatest unsigned number, are just as long as the buffer.
-/

namespace Xv6.Printf.Kernel

/-- `char buf[20]`. -/
abbrev Buf := Fin 20 → UInt8

inductive Stop
  /-- An index that is not one of the buffer. -/
  | outside
  /-- The loop did not end. -/
  | loops
deriving DecidableEq

/-! ## The function -/

def put (buf : Buf) (i : Nat) (c : UInt8) : Except Stop Buf :=
  if h : i < 20 then .ok (Function.update buf ⟨i, h⟩ c) else .error .outside

def get (buf : Buf) (i : Nat) : Except Stop UInt8 :=
  if h : i < 20 then .ok (buf ⟨i, h⟩) else .error .outside

/-- The loop that divides: `i` and `buf` behind it. -/
def fill (base : UInt64) : Nat → UInt64 → Nat → Buf → Except Stop (Nat × Buf)
  | 0, _, _, _ => .error .loops
  | fuel + 1, x, i, buf => do
    let buf ← put buf i (digits.getD (x % base).toNat 0)
    if x / base ≠ 0 then fill base fuel (x / base) (i + 1) buf else pure (i + 1, buf)

/-- The loop that prints, for the bytes below `i`. -/
def drain : Nat → Buf → Except Stop (List UInt8)
  | 0, _ => pure []
  | i + 1, buf => do
    let c ← get buf i
    let rest ← drain i buf
    pure (consputc c.toUInt32 ++ rest)

/-- `printint` with the contents that the buffer has at first. The division of a number of 64 bits has at
most 64 turns. -/
def printintIn (buf : Buf) (xx : Int64) (base : UInt64) (sign : Bool) : Except Stop (List UInt8) := do
  let neg := sign && decide (xx < 0)
  let x : UInt64 := if neg then (-xx).toUInt64 else xx.toUInt64
  let (i, buf) ← fill base 64 x 0 buf
  if neg then do
    let buf ← put buf i minus
    drain (i + 1) buf
  else drain i buf

/-! ## What is in the buffer -/

/-- The buffer starts with the bytes of the list. -/
def Holds (buf : Buf) (l : List UInt8) : Prop := ∀ k : Fin 20, k < l.length → buf k = l.getD k 0

section
variable {buf : Buf} {l : List UInt8} {c : UInt8} {base x : UInt64} {fuel : Nat}

theorem holds_nil : Holds buf [] := fun k hk => absurd hk (Nat.not_lt_zero k)

theorem Holds.put (h : Holds buf l) (hlen : l.length < 20) :
    ∃ buf', Kernel.put buf l.length c = .ok buf' ∧ Holds buf' (l ++ [c]) := by
  refine ⟨_, dif_pos hlen, fun k hk => ?_⟩
  by_cases hlast : k = ⟨l.length, hlen⟩
  · rw [hlast, Function.update_self, List.getD_append_right _ _ _ _ (Nat.le_refl _), Nat.sub_self]
    rfl
  · have hlt : (k : Nat) < l.length := by
      have hne : (k : Nat) ≠ l.length := fun heq => hlast (Fin.ext heq)
      rw [List.length_append, List.length_singleton] at hk
      omega
    rw [Function.update_of_ne hlast, List.getD_append _ _ _ _ hlt]
    exact h k hlt

theorem Holds.drain (h : Holds buf l) (hlen : l.length ≤ 20) : Kernel.drain l.length buf = .ok l.reverse := by
  induction l using List.reverseRecOn with
  | nil => rfl
  | append_singleton l c ih =>
    rw [List.length_append, List.length_singleton] at hlen ⊢
    have hlast : Kernel.get buf l.length = .ok c := by
      have hlt : l.length < 20 := hlen
      have hk := h ⟨l.length, hlt⟩ (by simp)
      rw [List.getD_append_right _ _ _ _ (Nat.le_refl _), Nat.sub_self] at hk
      rw [Kernel.get, dif_pos hlt, hk]
      rfl
    have hrest : Holds buf l := by
      intro k hk
      have := h k (by rw [List.length_append]; omega)
      rwa [List.getD_append _ _ _ _ hk] at this
    rw [Kernel.drain, hlast, ih hrest (by omega), List.reverse_append]
    change Except.ok (consputc c.toUInt32 ++ l.reverse) = _
    rw [consputc_char]
    rfl

/-- One turn of the loop that divides. -/
theorem Holds.fill_step (h : Holds buf l) (base x : UInt64) (fuel : Nat) (hlen : l.length < 20) :
    ∃ buf', Holds buf' (l ++ [digits.getD (x.toNat % base.toNat) 0]) ∧
      Kernel.fill base (fuel + 1) x l.length buf =
        if x.toNat / base.toNat = 0 then .ok (l.length + 1, buf')
        else Kernel.fill base fuel (x / base) (l.length + 1) buf' := by
  obtain ⟨buf', hput, hholds⟩ := h.put (c := digits.getD (x % base).toNat 0) hlen
  rw [UInt64.toNat_mod] at hput hholds
  refine ⟨buf', hholds, ?_⟩
  rw [Kernel.fill, UInt64.toNat_mod, hput]
  change (if x / base ≠ 0 then _ else _) = _
  have hzero : x / base = 0 ↔ x.toNat / base.toNat = 0 := by
    rw [← UInt64.toNat_inj, UInt64.toNat_div]
    rfl
  by_cases hdiv : x / base = 0
  · rw [if_neg (not_not.mpr hdiv), if_pos (hzero.mp hdiv)]
    rfl
  · rw [if_pos hdiv, if_neg (mt hzero.mpr hdiv)]

/-- The loop puts the digits behind what is there, if there is room for them. -/
theorem Holds.fill (h : Holds buf l) (hb : 1 < base.toNat) (hx : x.toNat < base.toNat ^ (fuel + 1))
    (hlen : l.length + (Numeral.digits base.toNat x.toNat).length ≤ 20) :
    ∃ buf', Kernel.fill base (fuel + 1) x l.length buf =
        .ok (l.length + (Numeral.digits base.toNat x.toNat).length, buf') ∧
      Holds buf' (l ++ (Numeral.digits base.toNat x.toNat).map fun i => digits.getD i 0) := by
  induction fuel generalizing l x buf with
  | zero =>
    rw [Nat.zero_add, Nat.pow_one] at hx
    rw [Numeral.digits_cons hb, if_pos (Nat.div_eq_of_lt hx)] at hlen ⊢
    obtain ⟨buf', hholds, hstep⟩ := h.fill_step base x 0 hlen
    exact ⟨buf', by rw [hstep, if_pos (Nat.div_eq_of_lt hx)]; rfl, hholds⟩
  | succ fuel ih =>
    rw [Numeral.digits_cons hb] at hlen ⊢
    rw [List.length_cons] at hlen
    obtain ⟨buf', hholds, hstep⟩ := h.fill_step base x (fuel + 1) (by omega)
    rw [hstep]
    split
    · exact ⟨buf', rfl, hholds⟩
    · next hdiv =>
      rw [if_neg hdiv] at hlen
      have hx' : (x / base).toNat < base.toNat ^ (fuel + 1) := by
        rw [UInt64.toNat_div]
        exact Nat.div_lt_of_lt_mul (by rwa [Nat.pow_succ, Nat.mul_comm] at hx)
      obtain ⟨buf'', heq, hholds'⟩ := ih hholds hx' (by
        rw [List.length_append, List.length_singleton, UInt64.toNat_div]
        omega)
      rw [List.length_append, List.length_singleton] at heq
      rw [UInt64.toNat_div] at heq hholds'
      refine ⟨buf'', ?_, ?_⟩
      · rw [heq, List.length_cons, Nat.add_assoc, Nat.add_comm 1]
      · rw [List.map_cons, List.append_cons]
        exact hholds'

/-- `printint` does not leave the buffer if the text is not longer, and prints the text. -/
theorem printintIn_eq {xx : Int64} {sign : Bool} (hb : 1 < base.toNat)
    (hlen : (printint xx base.toNat sign).length ≤ 20) :
    printintIn buf xx base sign = .ok (printint xx base.toNat sign) := by
  rw [printint] at hlen ⊢
  rw [printintIn]
  generalize hneg : (sign && decide (xx < 0)) = neg at hlen ⊢
  generalize hx : (if neg = true then (-xx).toUInt64 else xx.toUInt64) = x at hlen ⊢
  simp only [number, List.length_append, List.length_map, List.length_reverse] at hlen
  have hpow : x.toNat < base.toNat ^ (63 + 1) :=
    Nat.lt_of_lt_of_le x.toNat_lt (Nat.pow_le_pow_left hb 64)
  obtain ⟨buf', hfill, hholds⟩ := (holds_nil : Holds buf []).fill hb hpow (by
    rw [List.length_nil]
    omega)
  rw [List.length_nil, Nat.zero_add] at hfill
  rw [List.nil_append] at hholds
  have hcount : (Numeral.digits base.toNat x.toNat).length =
      ((Numeral.digits base.toNat x.toNat).map fun i => digits.getD i 0).length := (List.length_map _).symm
  rw [hfill, number, List.map_reverse]
  rw [hcount] at hlen ⊢
  generalize (Numeral.digits base.toNat x.toNat).map (fun i => digits.getD i 0) = l at hholds hlen
  cases neg with
  | false => exact hholds.drain (by omega)
  | true =>
    simp only [if_true, List.length_singleton] at hlen
    obtain ⟨buf'', hput, hholds'⟩ := hholds.put (c := minus) (by omega)
    have hdrain := hholds'.drain (by rw [List.length_append, List.length_singleton]; omega)
    rw [List.length_append, List.length_singleton, List.reverse_append] at hdrain
    change (Kernel.put buf' l.length minus).bind _ = _
    rw [hput]
    exact hdrain

end

/-! ## The numeral -/

/-- The numeral of a number. -/
def natNumeral (base n : Nat) : List UInt8 := natText digits base n

/-- The numeral of an integer. -/
def numeral (base : Nat) (z : Int) : List UInt8 := intText digits base z

section
variable {base n : Nat} {xx : Int64} {sign : Bool}

/-- There is no zero in front, except in the numeral of zero. -/
theorem natNumeral_head (hb : 1 < base) (hb' : base ≤ 16) (h : (natNumeral base n).head? = some 48) : n = 0 := by
  by_contra hn
  rw [natNumeral, natText, if_neg hn, List.head?_map, List.head?_reverse] at h
  obtain ⟨d, hd, hchar⟩ := Option.map_eq_some_iff.mp h
  have hne : Nat.digits base n ≠ [] := Nat.digits_ne_nil_iff_ne_zero.mpr hn
  rw [List.getLast?_eq_some_getLast hne] at hd
  obtain rfl := Option.some.inj hd
  have hlt : (Nat.digits base n).getLast hne < 16 :=
    (Nat.digits_lt_base hb (List.getLast_mem hne)).trans_le hb'
  have hzero : ∀ i : Fin 16, digits.getD i 0 = 48 → i = 0 := by decide
  exact Nat.getLast_digit_ne_zero base hn (congrArg Fin.val (hzero ⟨_, hlt⟩ hchar))

theorem printint_eq_numeral (hb : 1 < base) :
    printint xx base sign = numeral base (if sign then xx.toInt else xx.toUInt64.toNat) := by
  rw [printint_eq, number_eq_natText hb rfl, numeral, intText]
  cases sign with
  | true =>
    rw [magnitude_signed, if_pos rfl]
    simp only [Bool.true_and, decide_eq_true_eq, Int64.lt_iff_toInt_lt, Int64.toInt_zero]
  | false =>
    have hpos : ¬ ((xx.toUInt64.toNat : Int) < 0) := by omega
    rw [if_neg (Bool.false_ne_true : ¬ (false = true)), Int.natAbs_natCast, if_neg hpos]
    rfl

/-- The text of a number of 64 bits, with its sign, is not longer than the buffer. -/
theorem length_printint_le (hbase : 10 ≤ base) : (printint xx base sign).length ≤ 20 := by
  have hlt : magnitude xx sign < base ^ 20 := by
    refine Nat.lt_of_lt_of_le (UInt64.toNat_lt _) ?_
    exact Nat.le_trans (by decide : 2 ^ 64 ≤ 10 ^ 20) (Nat.pow_le_pow_left hbase 20)
  rw [printint_eq, number, List.length_append, List.length_map, List.length_reverse]
  by_cases hneg : (sign && decide (xx < 0)) = true
  · -- the least number has one digit less than the greatest unsigned one
    have hless : magnitude xx sign < base ^ 19 := by
      rw [(Bool.and_eq_true_iff.mp hneg).1, magnitude_signed]
      have hle := xx.le_toInt
      have hlt := xx.toInt_lt
      have hpow : 10 ^ 19 ≤ base ^ 19 := Nat.pow_le_pow_left hbase 19
      omega
    have hlen := Numeral.length_digits_le_of_lt (by omega) (by decide) hless
    rw [if_pos hneg, List.length_singleton]
    omega
  · have hlen := Numeral.length_digits_le_of_lt (by omega) (by decide) hlt
    rw [if_neg hneg, List.length_nil]
    omega

end

/-- `printint` prints the numeral of the signed or unsigned number, with no zero in front of another digit, and
no index is outside of the buffer. -/
theorem printint_exact (buf : Buf) (xx : Int64) (base : UInt64) (sign : Bool) (hbase : base = 10 ∨ base = 16) :
    let z : Int := if sign then xx.toInt else xx.toUInt64.toNat
    printintIn buf xx base sign = .ok (numeral base.toNat z) ∧
      ((natNumeral base.toNat z.natAbs).head? = some 48 → z = 0) := by
  have hlow : 10 ≤ base.toNat := by rcases hbase with rfl | rfl <;> decide
  have hhigh : base.toNat ≤ 16 := by rcases hbase with rfl | rfl <;> decide
  refine ⟨?_, fun h => Int.natAbs_eq_zero.mp (natNumeral_head (by omega) hhigh h)⟩
  rw [printintIn_eq (by omega) (length_printint_le hlow), printint_eq_numeral (by omega)]

/-- The least number. -/
theorem printint_exact_least :
    let z : Int := if true then Int64.minValue.toInt else Int64.minValue.toUInt64.toNat
    printintIn (fun _ => 0) Int64.minValue 10 true = .ok (numeral 10 z) ∧
      ((natNumeral 10 z.natAbs).head? = some 48 → z = 0) :=
  printint_exact (fun _ => 0) Int64.minValue 10 true (.inl rfl)

end Xv6.Printf.Kernel
