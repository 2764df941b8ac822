-- SUMMARY: The two functions memmove, which choose the direction of the copy by different tests and agree.
import Xv6.Base.Copy
import Mathlib.Data.List.Range
import Mathlib.Algebra.GroupWithZero.Nat

/-!
# `memmove`

The kernel (`kernel/string.c`) copies backwards only if the destination starts inside of the
source. The library of user programs (`user/ulib.c`) copies backwards whenever the destination
is not below the source. Pointers are numbers of 64 bits, and their arithmetic wraps.
-/

namespace Xv6.Memmove

/-- A memory; the `char` at every address. -/
abbrev Mem := UInt64 → UInt8

/-- The loop `while (n-- > 0) *d++ = *s++;`, which has `n` turns. -/
def forward : Nat → UInt64 → UInt64 → Mem → Mem
  | 0, _, _, m => m
  | n + 1, d, s, m => forward n (d + 1) (s + 1) (Function.update m d (m s))

/-- The loop `while (n-- > 0) *--d = *--s;`, which has `n` turns. -/
def backward : Nat → UInt64 → UInt64 → Mem → Mem
  | 0, _, _, m => m
  | n + 1, d, s, m => backward n (d - 1) (s - 1) (Function.update m (d - 1) (m (s - 1)))

/-- `memmove` of the kernel: its result and the memory. -/
def Kernel.memmove (dst src : UInt64) (n : UInt32) (m : Mem) : UInt64 × Mem :=
  if n = 0 then (dst, m)
  else if src < dst ∧ src + n.toUInt64 > dst then
    (dst, backward n.toNat (dst + n.toUInt64) (src + n.toUInt64) m)
  else (dst, forward n.toNat dst src m)

/-- `memmove` of the user programs. The loops have no turn if `n` is negative. -/
def User.memmove (vdst vsrc : UInt64) (n : Int32) (m : Mem) : UInt64 × Mem :=
  if vsrc > vdst then (vdst, forward n.toInt.toNat vdst vsrc m)
  else (vdst, backward n.toInt.toNat (vdst + n.toInt64.toUInt64) (vsrc + n.toInt64.toUInt64) m)

/-- The destination has the old contents of the source, and every other byte is as it was. -/
structure Moved (dst src : UInt64) (n : Nat) (m m' : Mem) : Prop where
  copied : ∀ i < n, m' (dst + UInt64.ofNat i) = m (src + UInt64.ofNat i)
  others : ∀ a, (∀ i < n, a ≠ dst + UInt64.ofNat i) → m' a = m a

section
variable {dst src : UInt64} {n : Nat} {m m₁ m₂ : Mem}

theorem Moved.unique (h₁ : Moved dst src n m m₁) (h₂ : Moved dst src n m m₂) : m₁ = m₂ := by
  funext a
  by_cases ha : ∃ i < n, a = dst + UInt64.ofNat i
  · obtain ⟨i, hi, rfl⟩ := ha
    rw [h₁.copied i hi, h₂.copied i hi]
  · have hne : ∀ i < n, a ≠ dst + UInt64.ofNat i := fun i hi heq => ha ⟨i, hi, heq⟩
    rw [h₁.others a hne, h₂.others a hne]

/-! ## The loops -/

theorem ofNat_succ (a : UInt64) (i : Nat) : a + UInt64.ofNat (i + 1) = a + 1 + UInt64.ofNat i := by
  rw [UInt64.ofNat_add, UInt64.add_comm (UInt64.ofNat i), ← UInt64.add_assoc]
  rfl

theorem forward_eq : forward n dst src m =
    Copy.run (fun i => dst + UInt64.ofNat i) (fun i => src + UInt64.ofNat i) (List.range n) m := by
  induction n generalizing dst src m with
  | zero => rfl
  | succ n ih =>
    -- the turns after the first one are those from the next byte on
    have hshift : ∀ m : Mem, Copy.run (fun i => dst + 1 + UInt64.ofNat i) (fun i => src + 1 + UInt64.ofNat i)
        (List.range n) m = Copy.run (fun i => dst + UInt64.ofNat i) (fun i => src + UInt64.ofNat i)
        ((List.range n).map Nat.succ) m := by
      intro m
      rw [Copy.run, Copy.run, List.foldl_map]
      simp only [Nat.succ_eq_add_one, ofNat_succ]
    have hzero : ∀ a : UInt64, a + UInt64.ofNat 0 = a := UInt64.add_zero
    rw [forward, ih, hshift, List.range_succ_eq_map, Copy.run_cons, hzero, hzero]

theorem backward_eq : backward n (dst + UInt64.ofNat n) (src + UInt64.ofNat n) m =
    Copy.run (fun i => dst + UInt64.ofNat i) (fun i => src + UInt64.ofNat i) (List.range n).reverse m := by
  induction n generalizing m with
  | zero => rfl
  | succ n ih =>
    have hpred : ∀ a : UInt64, a + UInt64.ofNat (n + 1) - 1 = a + UInt64.ofNat n := by
      intro a
      rw [ofNat_succ, UInt64.add_assoc, UInt64.add_comm 1, ← UInt64.add_assoc, UInt64.add_sub_cancel]
    rw [backward, hpred, hpred, ih, List.range_succ, List.reverse_append, List.reverse_singleton,
      List.singleton_append, Copy.run_cons]

/-! ## The directions -/

theorem toNat_offset (hn : dst.toNat + n ≤ 2 ^ 64) {i : Nat} (hi : i < n) :
    (dst + UInt64.ofNat i).toNat = dst.toNat + i := by
  rw [UInt64.toNat_add, UInt64.toNat_ofNat', Nat.mod_eq_of_lt (b := 2 ^ 64) (by omega), Nat.mod_eq_of_lt (by omega)]

theorem offset_ne (hd : dst.toNat + n ≤ 2 ^ 64) (hs : src.toNat + n ≤ 2 ^ 64) {i j : Nat} (hi : i < n) (hj : j < n)
    (hne : dst.toNat + i ≠ src.toNat + j) : dst + UInt64.ofNat i ≠ src + UInt64.ofNat j := by
  intro heq
  apply hne
  rw [← toNat_offset hd hi, ← toNat_offset hs hj, heq]

/-- A copy is right in every order in which no byte is written before it is read. -/
theorem moved_run {is : List Nat} (hd : dst.toNat + n ≤ 2 ^ 64) (hs : src.toNat + n ≤ 2 ^ 64)
    (hmem : ∀ i, i ∈ is ↔ i < n) (hord : is.Pairwise fun i j => i ≠ j ∧ dst.toNat + i ≠ src.toNat + j) :
    Moved dst src n m
      (Copy.run (fun i => dst + UInt64.ofNat i) (fun i => src + UInt64.ofNat i) is m) := by
  have hordered : Copy.Ordered (fun i => dst + UInt64.ofNat i) (fun i => src + UInt64.ofNat i) is := by
    refine hord.imp_of_mem fun {i j} hi hj hij => ?_
    have hi := (hmem i).mp hi
    have hj := (hmem j).mp hj
    exact ⟨offset_ne hd hd hi hj fun h => hij.1 (Nat.add_left_cancel h), offset_ne hd hs hi hj hij.2⟩
  refine ⟨fun i hi => Copy.run_apply hordered ((hmem i).mpr hi), fun a ha => ?_⟩
  exact Copy.run_frame fun i hi => ha i ((hmem i).mp hi)

/-- Copying forwards is right if the destination does not start inside of the source. -/
theorem moved_forward (hd : dst.toNat + n ≤ 2 ^ 64) (hs : src.toNat + n ≤ 2 ^ 64)
    (hdir : dst.toNat ≤ src.toNat ∨ src.toNat + n ≤ dst.toNat) : Moved dst src n m (forward n dst src m) := by
  rw [forward_eq]
  refine moved_run hd hs (fun i => List.mem_range) ?_
  refine List.pairwise_lt_range.imp_of_mem fun {i j} hi hj hlt => ?_
  rw [List.mem_range] at hi hj
  omega

/-- Copying backwards is right if the source does not start inside of the destination. -/
theorem moved_backward (hd : dst.toNat + n ≤ 2 ^ 64) (hs : src.toNat + n ≤ 2 ^ 64) (hdir : src.toNat ≤ dst.toNat) :
    Moved dst src n m (backward n (dst + UInt64.ofNat n) (src + UInt64.ofNat n) m) := by
  rw [backward_eq]
  refine moved_run hd hs (fun i => List.mem_reverse.trans List.mem_range) ?_
  refine List.pairwise_reverse.mpr (List.pairwise_lt_range.imp fun {j i} hlt => ?_)
  omega

/-! ## The functions -/

theorem Kernel.memmove_moved (hn : n < 2 ^ 32) (hd : dst.toNat + n ≤ 2 ^ 64) (hs : src.toNat + n ≤ 2 ^ 64) :
    (Kernel.memmove dst src (UInt32.ofNat n) m).1 = dst ∧
      Moved dst src n m (Kernel.memmove dst src (UInt32.ofNat n) m).2 := by
  have hcount : (UInt32.ofNat n).toNat = n := UInt32.toNat_ofNat_of_lt' hn
  have hwide : (UInt32.ofNat n).toUInt64 = UInt64.ofNat n := by
    apply UInt64.toNat_inj.mp
    rw [UInt32.toNat_toUInt64, hcount, UInt64.toNat_ofNat_of_lt' (by simp only [UInt64.size]; omega)]
  rw [Kernel.memmove, hcount, hwide]
  split
  · next hzero =>
    have hn0 : n = 0 := by rw [← hcount, hzero]; rfl
    subst hn0
    exact ⟨rfl, fun i hi => absurd hi (Nat.not_lt_zero i), fun a _ => rfl⟩
  split
  · next htest => exact ⟨rfl, moved_backward hd hs (Nat.le_of_lt (UInt64.lt_iff_toNat_lt.mp htest.1))⟩
  · next htest =>
    refine ⟨rfl, moved_forward hd hs ?_⟩
    by_contra hdir
    -- the end of the source is below that of the destination, so it has not wrapped
    have hend : (src + UInt64.ofNat n).toNat = src.toNat + n := by
      rw [UInt64.toNat_add, UInt64.toNat_ofNat', Nat.mod_eq_of_lt (b := 2 ^ 64) (by omega), Nat.mod_eq_of_lt (by omega)]
    apply htest
    rw [gt_iff_lt, UInt64.lt_iff_toNat_lt, UInt64.lt_iff_toNat_lt, hend]
    omega

theorem User.memmove_moved (hn : n < 2 ^ 31) (hd : dst.toNat + n ≤ 2 ^ 64) (hs : src.toNat + n ≤ 2 ^ 64) :
    (User.memmove dst src (Int32.ofNat n) m).1 = dst ∧
      Moved dst src n m (User.memmove dst src (Int32.ofNat n) m).2 := by
  have hcount : (Int32.ofNat n).toInt.toNat = n := by
    rw [Int32.toInt_ofNat_of_lt hn, Int.toNat_natCast]
  have hwide : (Int32.ofNat n).toInt64.toUInt64 = UInt64.ofNat n := by
    have hlong : (Int32.ofNat n).toInt64 = Int64.ofNat n := by
      apply Int64.toInt_inj.mp
      rw [Int32.toInt_toInt64, Int32.toInt_ofNat_of_lt hn, Int64.toInt_ofNat_of_lt (by omega)]
    rw [hlong]
    rfl
  rw [User.memmove, hcount, hwide]
  split
  · next htest =>
    exact ⟨rfl, moved_forward hd hs (.inl (Nat.le_of_lt (UInt64.lt_iff_toNat_lt.mp htest)))⟩
  · next htest =>
    exact ⟨rfl, moved_backward hd hs (Nat.not_lt.mp fun h => htest (UInt64.lt_iff_toNat_lt.mpr h))⟩

/-- Both functions move the bytes whatever the overlap is, so they agree. -/
theorem memmove_agree (hn : n < 2 ^ 31) (hd : dst.toNat + n ≤ 2 ^ 64) (hs : src.toNat + n ≤ 2 ^ 64) :
    Moved dst src n m (Kernel.memmove dst src (UInt32.ofNat n) m).2 ∧
    Moved dst src n m (User.memmove dst src (Int32.ofNat n) m).2 ∧
    Kernel.memmove dst src (UInt32.ofNat n) m = User.memmove dst src (Int32.ofNat n) m := by
  obtain ⟨hkernel, hmoved⟩ := Kernel.memmove_moved (m := m) (Nat.lt_trans hn (by decide)) hd hs
  obtain ⟨huser, hmoved'⟩ := User.memmove_moved (m := m) hn hd hs
  exact ⟨hmoved, hmoved', Prod.ext (hkernel.trans huser.symm) (hmoved.unique hmoved')⟩

end

/-- Four bytes are moved up by one, so that the ranges overlap. -/
theorem memmove_agree_overlap :
    let m : Mem := fun a => a.toUInt8
    Moved 101 100 4 m (Kernel.memmove 101 100 (UInt32.ofNat 4) m).2 ∧
    Moved 101 100 4 m (User.memmove 101 100 (Int32.ofNat 4) m).2 ∧
    Kernel.memmove 101 100 (UInt32.ofNat 4) m = User.memmove 101 100 (Int32.ofNat 4) m :=
  memmove_agree (by decide) (by decide) (by decide)

end Xv6.Memmove
