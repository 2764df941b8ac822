-- SUMMARY: memdump prints the fields of packed data; it undoes the packing of all values but wide pointers.
import Xv6.Base.Bytes
import Xv6.Printf.Text
import Mathlib.Data.List.TakeWhile

/-!
# `memdump`

`user/memdump.c` walks over a format and over packed data at the same time. The data and the
strings are in the memory of the process; a load from outside of it ends the process.
-/

namespace Xv6.Memdump

open Printf

/-! ## The function -/

/-- The memory of a process. -/
structure Space where
  mem : Bytes.Mem
  sz : Nat

namespace Space

/-- The number in the `w` bytes at `a`. -/
def load (m : Space) (a w : Nat) : Option Nat :=
  if a + w ≤ m.sz then some (Bytes.getLE m.mem a w) else none

/-- The bytes in front of the first NUL among the `n` bytes from `a` on. -/
def stringFrom (m : Space) : Nat → Nat → Option (List UInt8)
  | 0, _ => none
  | n + 1, a => if m.mem a = 0 then some [] else (m.stringFrom n (a + 1)).map (m.mem a :: ·)

/-- The string at `a`. -/
def string (m : Space) (a : Nat) : Option (List UInt8) := m.stringFrom (m.sz - a) a

end Space

/-- What `%s` gets for a pointer. -/
def pointee (m : Space) (p : Nat) : Option (Option (List UInt8)) :=
  if p = 0 then some none else (m.string p).map some

/-- A line in front of what is printed later. -/
def put (line rest : Option (List UInt8)) : Option (List UInt8) := line.bind fun text => rest.map (text ++ ·)

/-- `memdump`: the text that is printed. -/
def memdump (m : Space) : List UInt8 → Nat → Option (List UInt8)
  | [], _ => some []
  | c :: fmt, data =>
    if c = 0 then some []
    else if c = 105 then
      (m.load data 4).bind fun n => put (vprintf fmtD [.int n.toUInt32]) (memdump m fmt (data + 4))
    else if c = 112 then
      (m.load data 8).bind fun n => put (vprintf fmtLx [.long n.toUInt64]) (memdump m fmt (data + 8))
    else if c = 104 then
      (m.load data 2).bind fun n => put (vprintf fmtD [.int n.toUInt16.toUInt32]) (memdump m fmt (data + 2))
    else if c = 99 then
      (m.load data 1).bind fun n => put (vprintf fmtC [.int n.toUInt8.toUInt32]) (memdump m fmt (data + 1))
    else if c = 115 then
      (m.load data 8).bind fun p => (pointee m p).bind fun s =>
        put (vprintf fmtS [.str s]) (memdump m fmt (data + 8))
    else if c = 83 then
      (m.string data).bind fun s =>
        put (vprintf fmtS [.str (some s)]) (memdump m fmt (data + (s.length + 1)))
    else memdump m fmt data

/-! ## Packed values -/

/-- A value of a field. An `s` is a pointer to a string. -/
inductive Value
  | i (v : Int32)
  | p (v : UInt64)
  | h (v : UInt16)
  | c (v : UInt8)
  | s (addr : UInt64) (text : List UInt8)
  | S (text : List UInt8)

/-- The low `w` bytes of a number, the last one first. -/
def leBytes (w v : Nat) : List UInt8 := (List.range w).map fun k => UInt8.ofNat (v / 256 ^ k)

namespace Value

/-- The character of the format. -/
def code : Value → UInt8
  | .i _ => 105
  | .p _ => 112
  | .h _ => 104
  | .c _ => 99
  | .s _ _ => 115
  | .S _ => 83

/-- The bytes in the packed data. -/
def bytes : Value → List UInt8
  | .i v => leBytes 4 v.toUInt32.toNat
  | .p v => leBytes 8 v.toNat
  | .h v => leBytes 2 v.toNat
  | .c v => [v]
  | .s a _ => leBytes 8 a.toNat
  | .S text => text ++ [0]

/-- The text that denotes the value. -/
def text : Value → List UInt8
  | .i v => decimal v.toInt
  | .p v => hexadecimal v.toNat
  | .h v => decimal v.toNat
  | .c v => [v]
  | .s _ text => text
  | .S text => text

/-- The pointer is shorter than 33 bits. -/
def Narrow : Value → Prop
  | .p v => v.toNat < 2 ^ 32
  | _ => True

end Value

/-- The bytes are in memory from `a` on. -/
def Space.Holds (m : Space) (a : Nat) (bytes : List UInt8) : Prop :=
  a + bytes.length ≤ m.sz ∧ ∀ i < bytes.length, bytes[i]? = some (m.mem (a + i))

/-- Strings do not contain a NUL, and a pointer points to its string. -/
def Space.Points (m : Space) : Value → Prop
  | .s a text => a.toNat ≠ 0 ∧ 0 ∉ text ∧ m.Holds a.toNat (text ++ [0])
  | .S text => 0 ∉ text
  | _ => True

/-! ## Reading packed values -/

section
variable {m : Space} {a b n w v : Nat} {bytes l text : List UInt8}

theorem Space.Holds.append (h : m.Holds a (l ++ bytes)) : m.Holds a l ∧ m.Holds (a + l.length) bytes := by
  obtain ⟨hsz, hmem⟩ := h
  rw [List.length_append] at hsz hmem
  refine ⟨⟨by omega, fun i hi => ?_⟩, ⟨by omega, fun i hi => ?_⟩⟩
  · rw [← List.getElem?_append_left hi, hmem i (by omega)]
  · have hi' := hmem (l.length + i) (by omega)
    rwa [List.getElem?_append_right (Nat.le_add_right _ _), Nat.add_sub_cancel_left, ← Nat.add_assoc] at hi'

theorem Space.Holds.head {c : UInt8} (h : m.Holds a (c :: bytes)) :
    m.mem a = c ∧ m.Holds (a + 1) bytes :=
  ⟨(Option.some.inj (h.2 0 (Nat.zero_lt_succ _))).symm, (Space.Holds.append (l := [c]) h).2⟩

theorem length_leBytes : (leBytes w v).length = w := by
  rw [leBytes, List.length_map, List.length_range]

theorem leBytes_succ : leBytes (w + 1) v = UInt8.ofNat v :: leBytes w (v / 256) := by
  rw [leBytes, leBytes, List.range_succ_eq_map, List.map_cons, List.map_map, pow_zero, Nat.div_one]
  simp only [Function.comp_def, Nat.succ_eq_add_one, pow_succ', Nat.div_div_eq_div_mul]

theorem getLE_of_holds (h : m.Holds a (leBytes w v)) (hv : v < 256 ^ w) : Bytes.getLE m.mem a w = v := by
  induction w generalizing a v with
  | zero => rw [Bytes.getLE, Nat.lt_one_iff.mp hv]
  | succ w ih =>
    rw [leBytes_succ] at h
    rw [Bytes.getLE, h.head.1, ih h.head.2 (Nat.div_lt_of_lt_mul (pow_succ' 256 w ▸ hv)),
      UInt8.toNat_ofNat']
    exact Nat.mod_add_div v 256

/-- A number that was packed is loaded. -/
theorem Space.Holds.load (h : m.Holds a (leBytes w v)) (hv : v < 256 ^ w) : m.load a w = some v := by
  have hsz := h.1
  rw [length_leBytes] at hsz
  rw [Space.load, if_pos hsz, getLE_of_holds h hv]

theorem stringFrom_of_holds (h : m.Holds a (text ++ [0])) (h0 : 0 ∉ text) (hn : text.length < n) :
    m.stringFrom n a = some text := by
  induction text generalizing a n with
  | nil =>
    obtain ⟨n, rfl⟩ := Nat.exists_eq_add_one_of_ne_zero (Nat.ne_of_gt hn)
    rw [Space.stringFrom, if_pos h.head.1]
  | cons c text ih =>
    obtain ⟨n, rfl⟩ := Nat.exists_eq_add_one_of_ne_zero (Nat.ne_of_gt (Nat.zero_lt_of_lt hn))
    rw [List.mem_cons, not_or] at h0
    rw [List.cons_append] at h
    rw [Space.stringFrom, h.head.1, if_neg (Ne.symm h0.1),
      ih h.head.2 h0.2 (Nat.lt_of_succ_lt_succ hn), Option.map_some]

theorem Space.Holds.string (h : m.Holds a (text ++ [0])) (h0 : 0 ∉ text) : m.string a = some text := by
  have hsz := h.1
  rw [List.length_append, List.length_singleton] at hsz
  exact stringFrom_of_holds h h0 (by omega)

end

/-! ## What is printed -/

/-- The line that is printed for a value: of a pointer it has the lower half only. -/
def Value.printed : Value → List UInt8
  | .p v => hexadecimal (v.toNat % 2 ^ 32)
  | v => v.text

section
variable {m : Space} {data : Nat} {fmt : List UInt8}

theorem chars_some {text : List UInt8} (h0 : 0 ∉ text) : chars (some text) = text := by
  rw [chars, Option.getD_some, List.takeWhile_eq_self_iff]
  intro c hc
  exact decide_eq_true (fun h => h0 (h ▸ hc))

theorem toInt_toUInt32 (v : UInt16) : v.toUInt32.toInt32.toInt = v.toNat := by
  have hlt := v.toNat_lt
  have hbmod : v.toUInt32.toInt32.toInt = Int.bmod v.toUInt32.toNat (2 ^ 32) :=
    BitVec.toInt_eq_toNat_bmod v.toUInt32.toBitVec
  rw [hbmod, UInt16.toNat_toUInt32]
  exact Int.bmod_eq_of_le (by omega) (by omega)

/-- One turn of the loop. -/
theorem memdump_cons (v : Value) (hdata : m.Holds data v.bytes) (hv : m.Points v) :
    memdump m (v.code :: fmt) data =
      (memdump m fmt (data + v.bytes.length)).map ((v.printed ++ [newline]) ++ ·) := by
  cases v with
  | i v =>
    have hload : m.load data 4 = some v.toUInt32.toNat := hdata.load v.toUInt32.toNat_lt
    change (m.load data 4).bind _ = _
    rw [hload, Option.bind_some, vprintf_fmtD]
    simp only [Nat.toUInt32_eq, UInt32.ofNat_toNat, Int32.toInt32_toUInt32]
    rfl
  | p v =>
    have hload : m.load data 8 = some v.toNat := hdata.load v.toNat_lt
    change (m.load data 8).bind _ = _
    rw [hload, Option.bind_some, vprintf_fmtLx]
    simp only [Nat.toUInt64_eq, UInt64.ofNat_toNat]
    rfl
  | h v =>
    have hload : m.load data 2 = some v.toNat := hdata.load v.toNat_lt
    change (m.load data 2).bind _ = _
    rw [hload, Option.bind_some, vprintf_fmtD]
    rw [Nat.toUInt16_eq, UInt16.ofNat_toNat, toInt_toUInt32]
    rfl
  | c v =>
    have hload : m.load data 1 = some v.toNat := by
      refine Space.Holds.load ?_ v.toNat_lt
      rw [leBytes_succ, UInt8.ofNat_toNat]
      exact hdata
    change (m.load data 1).bind _ = _
    rw [hload, Option.bind_some, vprintf_fmtC, Nat.toUInt8_eq, UInt8.ofNat_toNat, UInt8.toUInt8_toUInt32]
    rfl
  | s a text =>
    have hload : m.load data 8 = some a.toNat := hdata.load a.toNat_lt
    obtain ⟨ha, h0, hstring⟩ := hv
    change (m.load data 8).bind _ = _
    rw [hload, Option.bind_some, pointee, if_neg ha, hstring.string h0, Option.map_some, Option.bind_some,
      vprintf_fmtS, chars_some h0]
    rfl
  | S text =>
    change (m.string data).bind _ = _
    rw [hdata.string hv, Option.bind_some, vprintf_fmtS, chars_some hv, Value.bytes, List.length_append]
    rfl

theorem memdump_eq (vals : List Value) (hdata : m.Holds data (vals.flatMap Value.bytes))
    (hvals : ∀ v ∈ vals, m.Points v) :
    memdump m (vals.map Value.code) data = some (vals.flatMap fun v => v.printed ++ [newline]) := by
  induction vals generalizing data with
  | nil => rfl
  | cons v vals ih =>
    rw [List.flatMap_cons] at hdata
    rw [List.forall_mem_cons] at hvals
    rw [List.map_cons, memdump_cons v hdata.append.1 hvals.1, ih hdata.append.2 hvals.2, Option.map_some,
      List.flatMap_cons]

theorem Value.printed_length_le (v : Value) : (v.printed ++ [newline]).length ≤ (v.text ++ [newline]).length := by
  rw [List.length_append, List.length_append, Nat.add_le_add_iff_right]
  cases v with
  | p v => exact natText_length_le (by decide) (Nat.mod_le _ _)
  | i v => exact Nat.le_refl _
  | h v => exact Nat.le_refl _
  | c v => exact Nat.le_refl _
  | s a text => exact Nat.le_refl _
  | S text => exact Nat.le_refl _

theorem Value.printed_eq_iff (v : Value) : v.printed = v.text ↔ v.Narrow := by
  cases v with
  | p v =>
    refine (natText_inj (by decide) (by decide)).trans ?_
    exact Nat.mod_eq_iff_lt (by decide)
  | i v => exact iff_of_true rfl trivial
  | h v => exact iff_of_true rfl trivial
  | c v => exact iff_of_true rfl trivial
  | s a text => exact iff_of_true rfl trivial
  | S text => exact iff_of_true rfl trivial

/-- `memdump` on packed values prints a line for every value. The lines are those that denote the
values just if no pointer has more than 32 bits. -/
theorem memdump_undoes_iff {vals : List Value} (hdata : m.Holds data (vals.flatMap Value.bytes))
    (hvals : ∀ v ∈ vals, m.Points v) :
    ∃ out, memdump m (vals.map Value.code) data = some out ∧
      (out = (vals.flatMap fun v => v.text ++ [newline]) ↔ ∀ v ∈ vals, v.Narrow) := by
  refine ⟨_, memdump_eq vals hdata hvals, ?_⟩
  rw [← List.forall₂_eq_eq_eq, Numeral.forall₂_flatMap_iff fun v _ => v.printed_length_le]
  refine forall₂_congr fun v _ => ?_
  rw [List.forall₂_eq_eq_eq, List.append_cancel_right_eq, v.printed_eq_iff]

end

/-- A memory with nothing but the given bytes. -/
def ofBytes (bytes : List UInt8) : Space := ⟨fun a => bytes.getD a 0, bytes.length⟩

theorem holds_ofBytes (bytes : List UInt8) : (ofBytes bytes).Holds 0 bytes := by
  refine ⟨(Nat.zero_add _).le, fun i hi => ?_⟩
  simp [ofBytes, hi]

/-- The format `ipS` with -1, 255 and the string `A`. -/
def smallValues : List Value := [.i (-1), .p 255, .S [65]]

theorem memdump_undoes_iff_small : ∃ out,
    memdump (ofBytes (smallValues.flatMap Value.bytes)) (smallValues.map Value.code) 0 = some out ∧
      (out = (smallValues.flatMap fun v => v.text ++ [newline]) ↔ ∀ v ∈ smallValues, v.Narrow) := by
  refine memdump_undoes_iff (holds_ofBytes _) ?_
  simp [smallValues, Space.Points]

/-- The format `p` with 2^32: the line that is printed says 0. -/
theorem memdump_wide : memdump (ofBytes (Value.bytes (.p 4294967296))) [112] 0 = some [48, 10] ∧
    Value.text (.p 4294967296) ++ [newline] = [49, 48, 48, 48, 48, 48, 48, 48, 48, 10] := by
  decide +kernel

end Xv6.Memdump
