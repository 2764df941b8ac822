-- SUMMARY: Sizes and limits of the kernel, and the disk block as a block of bytes.
import Xv6.Base.Bytes

/-!
# Parameters

The constants of `kernel/param.h` and `kernel/fs.h` that the modelled code reads,
and the two machine integers its counters are made of.
-/

namespace Xv6

/-- Maximum number of processes. -/
abbrev NPROC : Nat := 64

/-- Max number of blocks any file-system operation writes. -/
abbrev MAXOPBLOCKS : Nat := 10

/-- Max data blocks in the on-disk log. -/
abbrev LOGBLOCKS : Nat := MAXOPBLOCKS * 3

/-- Size of the disk block cache. -/
abbrev NBUF : Nat := MAXOPBLOCKS * 3

/-- Maximum number of active inodes. -/
abbrev NINODE : Nat := 50

abbrev ROOTDEV : Nat := 1

/-- Max exec arguments. -/
abbrev MAXARG : Nat := 32

/-- Block size in bytes. -/
abbrev BSIZE : Nat := 1024

/-- A disk block. Only the offsets below `BSIZE` are ever read or written. -/
abbrev Block : Type := Bytes.Mem

/-- The number of values of a C `uint`. -/
abbrev UINT : Nat := 2 ^ 32

/-- Tables of 512 entries: pages of page tables, and the buffers of pipes. -/
instance neZero_512 : NeZero 512 := ⟨by decide⟩

/-- The process table is not empty. -/
instance neZero_nproc : NeZero NPROC := ⟨by decide⟩

/-- A `uint` counter goes up. -/
def incUint (n : Nat) : Nat := (n + 1) % UINT

/-- A `uint` counter goes down, and wraps at zero. -/
def decUint (n : Nat) : Nat := (n + (UINT - 1)) % UINT

theorem incUint_of_lt {n : Nat} (h : n + 1 < UINT) : incUint n = n + 1 := Nat.mod_eq_of_lt h

theorem decUint_succ {n : Nat} (h : n < UINT) : decUint (n + 1) = n := by
  have hshift : n + 1 + (UINT - 1) = n + UINT := by simp only [UINT]; omega
  rw [decUint, hshift, Nat.add_mod_right, Nat.mod_eq_of_lt h]

/-- The conversion of an `int` to `uint`. -/
theorem toNat_toUInt32 (n : Int32) :
    (n.toUInt32.toNat : Int) = if n.toInt < 0 then n.toInt + UINT else n.toInt := by
  have h := BitVec.toInt_eq_toNat_cond n.toBitVec
  have hlt := n.toUInt32.toNat_lt
  have htoNat : n.toBitVec.toNat = n.toUInt32.toNat := rfl
  rw [Int32.toInt_toBitVec, htoNat] at h
  simp only [UINT]
  split at h <;> split <;> omega

end Xv6
