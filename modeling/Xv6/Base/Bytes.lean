-- SUMMARY: Little-endian numbers inside a byte-addressed memory, with their read-over-write laws.
import Mathlib.Data.Nat.Basic
import Mathlib.Tactic.Ring

/-!
# Little-endian numbers

A memory is a function from offsets to bytes. `getLE` reads the number stored in
`w` consecutive bytes, least significant byte first, and `putLE` stores one.
-/

namespace Bytes

abbrev Mem : Type := Nat → UInt8

/-- The number in the `w` bytes from `off` on. -/
def getLE (m : Mem) (off : Nat) : Nat → Nat
  | 0 => 0
  | w + 1 => (m off).toNat + 256 * getLE m (off + 1) w

/-- Store the low `w` bytes of `v` from `off` on. -/
def putLE (m : Mem) (off w v : Nat) : Mem := fun x =>
  if off ≤ x ∧ x < off + w then UInt8.ofNat (v / 256 ^ (x - off)) else m x

theorem putLE_outside {m : Mem} {off w v x : Nat} (h : x < off ∨ off + w ≤ x) :
    putLE m off w v x = m x := by
  have : ¬ (off ≤ x ∧ x < off + w) := by omega
  simp [putLE, this]

/-- A read depends only on the bytes it covers. -/
theorem getLE_congr {m m' : Mem} {w : Nat} :
    ∀ {off : Nat}, (∀ x, off ≤ x → x < off + w → m x = m' x) → getLE m off w = getLE m' off w := by
  induction w with
  | zero => intro off _; rfl
  | succ w ih =>
    intro off h
    have hhead : m off = m' off := h off (Nat.le_refl _) (by omega)
    have htail : getLE m (off + 1) w = getLE m' (off + 1) w :=
      ih fun x h₁ h₂ => h x (by omega) (by omega)
    simp only [getLE, hhead, htail]

theorem getLE_lt (m : Mem) (w : Nat) : ∀ off, getLE m off w < 256 ^ w := by
  induction w with
  | zero => intro off; simp [getLE]
  | succ w ih =>
    intro off
    have hb : (m off).toNat < 256 := (m off).toNat_lt
    have := ih (off + 1)
    simp only [getLE, pow_succ]
    omega

theorem getLE_putLE_disjoint {m : Mem} {off w off' w' v : Nat}
    (h : off + w ≤ off' ∨ off' + w' ≤ off) : getLE (putLE m off' w' v) off w = getLE m off w :=
  getLE_congr fun _ h₁ h₂ => putLE_outside (by omega)

theorem getLE_putLE {m : Mem} {w : Nat} :
    ∀ {off v : Nat}, getLE (putLE m off w v) off w = v % 256 ^ w := by
  induction w with
  | zero => intro off v; simp [getLE, Nat.mod_one]
  | succ w ih =>
    intro off v
    have hhead : (putLE m off (w + 1) v off).toNat = v % 256 := by simp [putLE]
    -- The bytes after the first are those of `v / 256`, one place further on.
    have htail : getLE (putLE m off (w + 1) v) (off + 1) w
        = getLE (putLE m (off + 1) w (v / 256)) (off + 1) w := by
      apply getLE_congr
      intro x h₁ h₂
      have hx : x - off = (x - (off + 1)) + 1 := by omega
      have hin : off ≤ x ∧ x < off + (w + 1) := by omega
      have hin' : off + 1 ≤ x ∧ x < off + 1 + w := by omega
      simp only [putLE, hin, hin', if_true, and_self]
      rw [hx, pow_succ, Nat.mul_comm, Nat.div_div_eq_div_mul]
    rw [getLE, hhead, htail, ih, pow_succ, Nat.mul_comm (256 ^ w), Nat.mod_mul]

/-- A number that fits is read back as it was stored. -/
theorem getLE_putLE_of_lt {m : Mem} {off w v : Nat} (h : v < 256 ^ w) :
    getLE (putLE m off w v) off w = v := by
  rw [getLE_putLE, Nat.mod_eq_of_lt h]

/-- Store the numbers of a list one after the other, `w` bytes each. -/
def putAll (w : Nat) (m : Mem) (off : Nat) : List Nat → Mem
  | [] => m
  | v :: vs => putAll w (putLE m off w v) (off + w) vs

theorem putAll_before {w : Nat} {vs : List Nat} :
    ∀ {m : Mem} {off x : Nat}, x < off → putAll w m off vs x = m x := by
  induction vs with
  | nil => intro m off x _; rfl
  | cons v vs ih =>
    intro m off x h
    rw [putAll, ih (by omega), putLE_outside (Or.inl h)]

theorem putAll_after {w : Nat} {vs : List Nat} :
    ∀ {m : Mem} {off x : Nat}, off + w * vs.length ≤ x → putAll w m off vs x = m x := by
  induction vs with
  | nil => intro m off x _; rfl
  | cons v vs ih =>
    intro m off x h
    rw [List.length_cons, Nat.mul_succ] at h
    rw [putAll, ih (by omega), putLE_outside (Or.inr (by omega))]

theorem getLE_putAll_before {w w' : Nat} {vs : List Nat} {m : Mem} {off off' : Nat}
    (h : off' + w' ≤ off) : getLE (putAll w m off vs) off' w' = getLE m off' w' :=
  getLE_congr fun _ _ h₂ => putAll_before (by omega)

/-- Reading back a stored list of numbers that all fit. -/
theorem map_getLE_putAll {w : Nat} {vs : List Nat} :
    ∀ {m : Mem} {off : Nat}, (∀ v ∈ vs, v < 256 ^ w) →
      (List.range vs.length).map (fun i => getLE (putAll w m off vs) (off + w * i) w) = vs := by
  induction vs with
  | nil => intro m off _; rfl
  | cons v vs ih =>
    intro m off h
    have hv : getLE (putAll w (putLE m off w v) (off + w) vs) off w = v := by
      rw [getLE_putAll_before (Nat.le_refl _), getLE_putLE_of_lt (h v (by simp))]
    have hvs := @ih (putLE m off w v) (off + w) fun x hx => h x (by simp [hx])
    rw [List.length_cons, List.range_succ_eq_map, List.map_cons, List.map_map]
    simp only [putAll, Nat.mul_zero, Nat.add_zero, hv, List.cons.injEq, true_and]
    have hoff : ∀ i, off + w * (i + 1) = off + w + w * i := by intro i; ring
    simpa [Function.comp_def, hoff] using hvs

end Bytes
