-- SUMMARY: sixfive prints the multiples of 5 or 6 among the numbers of a file, as long as they fit an int.
import Xv6.Printf.Text

/-!
# `sixfive`

`user/sixfive.c` reads a file byte by byte with three variables. What it is for is said with
the whole file in view: the file is split at the separators, and the parts that consist of
digits are numbers. The variable for the number is an `int`, whose overflow is taken to wrap.
-/

namespace Xv6.Sixfive

open Printf

/-! ## The function -/

/-- The characters of `" -\r\t\n./,"`. -/
def separators : List UInt8 := [32, 45, 13, 9, 10, 46, 47, 44]

/-- `isSeparators`: `strchr` does not find a NUL. -/
def isSeparators (c : UInt8) : Bool := c ∈ separators

def isDivisibleBy5or6 (n : Int32) : Bool := n % 5 = 0 ∨ n % 6 = 0

/-- The variables of `sixfive`. -/
structure Vars where
  flag : Bool := true
  isNumber : Bool := false
  n : Int32 := 0

/-- What is done at the end of a run. -/
def report (v : Vars) : Option (List UInt8) :=
  if v.isNumber ∧ v.flag then
    if isDivisibleBy5or6 v.n then vprintf fmtD [.int v.n.toUInt32] else some []
  else some []

/-- The loop of `sixfive` and what follows it: the text that is printed for the bytes that
`read` gives. -/
def sixfiveLoop : Vars → List UInt8 → Option (List UInt8)
  | v, [] => report v
  | v, c :: bytes =>
    if v.flag ∧ 48 ≤ c ∧ c ≤ 57 then
      sixfiveLoop { v with n := v.n * 10 + Int32.ofNat c.toNat - 48, isNumber := true } bytes
    else if isSeparators c then
      (report v).bind fun line => (sixfiveLoop {} bytes).map (line ++ ·)
    else sixfiveLoop { v with flag := false } bytes

/-- `sixfive`. -/
def sixfive (bytes : List UInt8) : Option (List UInt8) := sixfiveLoop {} bytes

/-! ## What it is for -/

/-- A run that is a number. -/
def Numeric (run : List UInt8) : Prop := run ≠ [] ∧ ∀ c ∈ run, 48 ≤ c ∧ c ≤ 57

instance : DecidablePred Numeric := fun _ => inferInstanceAs (Decidable (_ ∧ _))

/-- The number that is written with the digits. -/
def value (run : List UInt8) : Nat := run.foldl (fun n c => n * 10 + (c.toNat - 48)) 0

/-- The maximal parts of the file without a separator. -/
def runs (bytes : List UInt8) : List (List UInt8) := bytes.splitOnP isSeparators

/-- The numbers in a file, in order. -/
def numbers (bytes : List UInt8) : List Nat := ((runs bytes).filter (Numeric ·)).map value

/-- The lines for some numbers. -/
def lines (l : List Int) : List UInt8 := l.flatMap fun z => decimal z ++ [newline]

/-- A multiple of 5 or of 6. -/
def Wanted (z : Int) : Prop := 5 ∣ z ∨ 6 ∣ z

instance : DecidablePred Wanted := fun _ => inferInstanceAs (Decidable (_ ∨ _))

/-- The value of an `int` that has been counted up to `n`. -/
def wrap (n : Nat) : Int := (n : Int).bmod (2 ^ 32)

/-! ## The variables during a run -/

section
variable {run bytes : List UInt8} {c : UInt8} {v : Vars}

/-- The variables after the bytes of a run. -/
structure Represents (run : List UInt8) (v : Vars) : Prop where
  flag : v.flag = true ↔ ∀ c ∈ run, 48 ≤ c ∧ c ≤ 57
  isNumber : v.flag = true → (v.isNumber = true ↔ run ≠ [])
  n : v.flag = true → v.n = Int32.ofNat (value run)

theorem Represents.init : Represents [] {} := by
  refine ⟨iff_of_true rfl fun c hc => absurd hc List.not_mem_nil, fun _ => ?_, fun _ => rfl⟩
  exact iff_of_false Bool.false_ne_true (not_not_intro rfl)

theorem value_snoc : value (run ++ [c]) = value run * 10 + (c.toNat - 48) := by
  rw [value, List.foldl_append]
  rfl

theorem accumulate_eq {n : Nat} (hc : 48 ≤ c) :
    Int32.ofNat n * 10 + Int32.ofNat c.toNat - 48 = Int32.ofNat (n * 10 + (c.toNat - 48)) := by
  obtain ⟨d, hd⟩ := Nat.exists_eq_add_of_le' (UInt8.le_iff_toNat_le.mp hc)
  have hlit : (48 : UInt8).toNat = 48 := rfl
  rw [hd, hlit, Nat.add_sub_cancel, Int32.ofNat_add, Int32.ofNat_add, Int32.ofNat_mul, ← Int32.add_assoc]
  exact Int32.add_sub_cancel _ 48

theorem Represents.digit (h : Represents run v) (hflag : v.flag = true) (hc : 48 ≤ c ∧ c ≤ 57) :
    Represents (run ++ [c])
      { v with n := v.n * 10 + Int32.ofNat c.toNat - 48, isNumber := true } := by
  refine ⟨iff_of_true hflag ?_, fun _ => iff_of_true rfl (List.append_ne_nil_of_right_ne_nil _ (by simp)), ?_⟩
  · intro d hd
    rcases List.mem_append.mp hd with hd | hd
    · exact h.flag.mp hflag d hd
    · exact List.mem_singleton.mp hd ▸ hc
  · intro _
    rw [value_snoc, h.n hflag]
    exact accumulate_eq hc.1

theorem Represents.other (h : Represents run v) (hc : ¬ (v.flag = true ∧ 48 ≤ c ∧ c ≤ 57)) :
    Represents (run ++ [c]) { v with flag := false } := by
  refine ⟨iff_of_false Bool.false_ne_true fun hall => hc ?_, fun hflag => ?_, fun hflag => ?_⟩
  · refine ⟨h.flag.mpr fun d hd => hall d (List.mem_append_left _ hd), ?_⟩
    exact hall c (List.mem_append_right _ List.mem_cons_self)
  · exact absurd hflag Bool.false_ne_true
  · exact absurd hflag Bool.false_ne_true

/-! ## The end of a run -/

theorem toInt_ofNat (n : Nat) : (Int32.ofNat n).toInt = wrap n := Int32.toInt_ofNat'

theorem isDivisibleBy5or6_iff {n : Int32} : isDivisibleBy5or6 n = true ↔ Wanted n.toInt := by
  have h5 : n % 5 = 0 ↔ 5 ∣ n.toInt := by
    rw [← Int32.toInt_inj, Int32.toInt_mod, Int.dvd_iff_tmod_eq_zero]
    rfl
  have h6 : n % 6 = 0 ↔ 6 ∣ n.toInt := by
    rw [← Int32.toInt_inj, Int32.toInt_mod, Int.dvd_iff_tmod_eq_zero]
    rfl
  rw [isDivisibleBy5or6, decide_eq_true_iff, h5, h6, Wanted]

/-- The number that is printed at the end of a run, if there is one. -/
def reported (run : List UInt8) : List Int :=
  if Numeric run ∧ Wanted (wrap (value run)) then [wrap (value run)] else []

theorem Represents.report (h : Represents run v) : report v = some (lines (reported run)) := by
  have hnumeric : v.isNumber = true ∧ v.flag = true ↔ Numeric run := by
    constructor
    · rintro ⟨hnum, hflag⟩
      exact ⟨(h.isNumber hflag).mp hnum, h.flag.mp hflag⟩
    · rintro ⟨hne, hall⟩
      have hflag := h.flag.mpr hall
      exact ⟨(h.isNumber hflag).mpr hne, hflag⟩
  rw [Sixfive.report, reported]
  by_cases hrun : Numeric run
  · have hflag := h.flag.mpr hrun.2
    have hdiv : isDivisibleBy5or6 v.n = true ↔ Wanted (wrap (value run)) := by
      rw [h.n hflag, isDivisibleBy5or6_iff, toInt_ofNat]
    rw [if_pos (hnumeric.mpr hrun)]
    by_cases hw : Wanted (wrap (value run))
    · rw [if_pos (hdiv.mpr hw), if_pos ⟨hrun, hw⟩, vprintf_fmtD, Int32.toInt32_toUInt32, h.n hflag,
        toInt_ofNat, lines, List.flatMap_singleton]
    · rw [if_neg (hdiv.not.mpr hw), if_neg fun h => hw h.2]
      rfl
  · rw [if_neg (hnumeric.not.mpr hrun), if_neg fun h => hrun h.1]
    rfl

/-! ## The whole file -/

theorem not_isSeparators (hc : 48 ≤ c ∧ c ≤ 57) : isSeparators c = false := by
  have hall : ∀ n < 58, 48 ≤ n → isSeparators (UInt8.ofNat n) = false := by decide
  have hc' := hall c.toNat (Nat.lt_succ_of_le (UInt8.le_iff_toNat_le.mp hc.2)) (UInt8.le_iff_toNat_le.mp hc.1)
  rwa [UInt8.ofNat_toNat] at hc'

theorem runs_cons (c : UInt8) (bytes : List UInt8) :
    runs (c :: bytes) = if isSeparators c then [] :: runs bytes else (runs bytes).modifyHead (c :: ·) :=
  List.splitOnP_cons_eq_if_modifyHead c bytes

theorem lines_append (l l' : List Int) : lines (l ++ l') = lines l ++ lines l' := List.flatMap_append

theorem modifyHead_nil_append (l : List (List UInt8)) : l.modifyHead ([] ++ ·) = l := by
  cases l <;> rfl

theorem sixfiveLoop_eq (h : Represents run v) :
    sixfiveLoop v bytes = some (lines (((runs bytes).modifyHead (run ++ ·)).flatMap reported)) := by
  induction bytes generalizing run v with
  | nil =>
    rw [sixfiveLoop, h.report]
    simp [runs]
  | cons c bytes ih =>
    have hmore (hc : isSeparators c = false) : (runs (c :: bytes)).modifyHead (run ++ ·) =
        (runs bytes).modifyHead (run ++ [c] ++ ·) := by
      rw [runs_cons, hc, if_neg Bool.false_ne_true, List.modifyHead_modifyHead]
      congr 1
      funext l
      simp
    rw [sixfiveLoop]
    split
    · next hc => rw [ih (h.digit hc.1 hc.2), hmore (not_isSeparators hc.2)]
    split
    · next hsep =>
      rw [h.report, ih .init, runs_cons, if_pos hsep, modifyHead_nil_append, Option.bind_some, Option.map_some,
        List.modifyHead_cons, List.flatMap_cons, List.append_nil, lines_append]
    · next hc hsep =>
      rw [ih (h.other hc), hmore (Bool.eq_false_iff.mpr hsep)]

theorem flatMap_reported (l : List (List UInt8)) :
    l.flatMap reported = (((l.filter (Numeric ·)).map value).map wrap).filter (Wanted ·) := by
  induction l with
  | nil => rfl
  | cons run l ih =>
    rw [List.flatMap_cons, ih, reported]
    by_cases hrun : Numeric run <;> by_cases hw : Wanted (wrap (value run)) <;> simp [hrun, hw]

theorem sixfive_eq (bytes : List UInt8) :
    sixfive bytes = some (lines (((numbers bytes).map wrap).filter (Wanted ·))) := by
  rw [sixfive, sixfiveLoop_eq .init, modifyHead_nil_append, flatMap_reported, numbers]

end

/-! ## Numbers that fit -/

section
variable {n : Nat} {ns : List Nat}

theorem wrap_of_lt (h : n < 2 ^ 31) : wrap n = n := Int.bmod_eq_of_le (by omega) (by omega)

theorem wrap_lt (n : Nat) : wrap n < 2 ^ 31 := Int.bmod_lt (by decide)

theorem lines_injective : Function.Injective lines :=
  Numeral.flatMap_append_injective decimal_injective newline_notMem_decimal

/-- No number that does not fit an `int` would be printed, neither itself nor what is left of it. -/
def Fit (ns : List Nat) : Prop := ∀ n ∈ ns, 2 ^ 31 ≤ n → ¬ Wanted n ∧ ¬ Wanted (wrap n)

theorem Fit.wanted_iff (h : Fit ns) (hn : n ∈ ns) : Wanted (wrap n) ↔ Wanted n := by
  by_cases hlt : n < 2 ^ 31
  · rw [wrap_of_lt hlt]
  · obtain ⟨hbig, hwrap⟩ := h n hn (Nat.le_of_not_lt hlt)
    exact iff_of_false hwrap hbig

theorem Fit.lt (h : Fit ns) (hn : n ∈ ns) (hw : Wanted n) : n < 2 ^ 31 := by
  by_contra hlt
  exact (h n hn (Nat.le_of_not_lt hlt)).1 hw

theorem Fit.filter_eq (h : Fit ns) :
    (ns.filter fun n => Wanted (wrap n)).map wrap = (ns.filter fun n : Nat => Wanted n).map ((↑) : Nat → Int) := by
  have hfilter : (ns.filter fun n => Wanted (wrap n)) = ns.filter fun n : Nat => Wanted n :=
    List.filter_congr fun n hn => decide_eq_decide.mpr (h.wanted_iff hn)
  rw [hfilter]
  refine List.map_congr_left fun n hn => ?_
  obtain ⟨hn, hw⟩ := List.mem_filter.mp hn
  exact wrap_of_lt (h.lt hn (of_decide_eq_true hw))

theorem Fit.of_filter_eq
    (h : (ns.filter fun n => Wanted (wrap n)).map wrap = (ns.filter fun n : Nat => Wanted n).map ((↑) : Nat → Int)) : Fit ns := by
  -- what is printed is less than 2^31, so the numbers that should be printed are, too
  have hsmall : ∀ n ∈ ns, Wanted n → n < 2 ^ 31 := by
    intro n hn hw
    have hmem : (n : Int) ∈ (ns.filter fun n : Nat => Wanted n).map ((↑) : Nat → Int) :=
      List.mem_map_of_mem (List.mem_filter.mpr ⟨hn, decide_eq_true hw⟩)
    rw [← h] at hmem
    obtain ⟨k, -, hk⟩ := List.mem_map.mp hmem
    have hlt := wrap_lt k
    omega
  -- they are among those that are printed, and there are as many of them
  have hboth : (ns.filter fun n => Wanted (wrap n)).filter (fun n : Nat => Wanted n) = ns.filter fun n : Nat => Wanted n := by
    rw [List.filter_filter]
    refine List.filter_congr fun n hn => ?_
    by_cases hw : Wanted n
    · simp [hw, wrap_of_lt (hsmall n hn hw)]
    · simp [hw]
  have hlen := congrArg List.length h
  rw [List.length_map, List.length_map, ← hboth] at hlen
  have hself := List.filter_sublist.eq_of_length hlen.symm
  intro n hn hbig
  refine ⟨fun hw => absurd (hsmall n hn hw) (Nat.not_lt.mpr hbig), fun hwrap => ?_⟩
  have hmem : n ∈ ns.filter fun n => Wanted (wrap n) := List.mem_filter.mpr ⟨hn, decide_eq_true hwrap⟩
  rw [← hself] at hmem
  exact absurd (hsmall n hn (of_decide_eq_true (List.mem_filter.mp hmem).2)) (Nat.not_lt.mpr hbig)

/-- `sixfive` prints, and it prints the multiples of 5 or 6 among the numbers of the file just if
they fit. -/
theorem sixfive_prints_iff (bytes : List UInt8) : ∃ out, sixfive bytes = some out ∧
    (out = lines (((numbers bytes).map ((↑) : Nat → Int)).filter (Wanted ·)) ↔ Fit (numbers bytes)) := by
  refine ⟨_, sixfive_eq bytes, ?_⟩
  rw [lines_injective.eq_iff]
  simp only [List.filter_map, Function.comp_def]
  exact ⟨Fit.of_filter_eq, Fit.filter_eq⟩

/-- `2147483650`, a multiple of 5, is printed as `-2147483646`. -/
theorem sixfive_overflow :
    sixfive [50, 49, 52, 55, 52, 56, 51, 54, 53, 48] = some [45, 50, 49, 52, 55, 52, 56, 51, 54, 52, 54, 10] ∧
      numbers [50, 49, 52, 55, 52, 56, 51, 54, 53, 48] = [2147483650] ∧ Wanted 2147483650 := by
  refine ⟨by decide +kernel, by decide +kernel, .inl ⟨429496730, rfl⟩⟩

end

end Xv6.Sixfive
