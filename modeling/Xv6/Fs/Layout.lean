-- SUMMARY: `kernel/fs.h`: the on-disk format, as inodes, bits and numbers read out of blocks of bytes.
import Xv6.Kernel.Param
import Mathlib.Data.List.FinRange
import Mathlib.Logic.Function.Basic

/-!
# The on-disk format

A disk is a map from block numbers to blocks of bytes. The kernel reads it as a table of
inodes, a bitmap of blocks in use, and blocks that hold data or block numbers. Each of these
is a view of the bytes. An update of one view leaves the others as they are, because the
regions that the superblock describes do not overlap.
-/

namespace Xv6.Fs

open Bytes

abbrev ROOTINO : Nat := 1
abbrev NDIRECT : Nat := 12
/-- `BSIZE / sizeof(uint)` -/
abbrev NINDIRECT : Nat := 256
abbrev MAXFILE : Nat := NDIRECT + NINDIRECT
/-- Inodes per block: `BSIZE / sizeof(struct dinode)`. -/
abbrev IPB : Nat := 16
/-- Bitmap bits per block. -/
abbrev BPB : Nat := BSIZE * 8
abbrev DIRSIZ : Nat := 14

structure Superblock where
  size : Nat
  nblocks : Nat
  ninodes : Nat
  inodestart : Nat
  bmapstart : Nat

/-- All blocks of the disk. -/
abbrev Disk : Type := Nat → Block

/-! ## Inodes -/

/-- `struct dinode`, and the copy of it in `struct inode`. -/
@[ext] structure Dinode where
  type : Int16
  major : Int16
  minor : Int16
  nlink : Int16
  size : UInt32
  addrs : Fin (NDIRECT + 1) → UInt32

namespace Dinode

/-- `ip->addrs[k]` -/
def addr (d : Dinode) (k : Nat) : Nat := if h : k < NDIRECT + 1 then (d.addrs ⟨k, h⟩).toNat else 0

/-- `ip->addrs[k] = a` -/
def setAddr (d : Dinode) (k a : Nat) : Dinode :=
  { d with addrs := fun j => if j.val = k then UInt32.ofNat a else d.addrs j }

variable {d : Dinode} {k k' a : Nat}

theorem addr_setAddr (hk : k ≤ NDIRECT) (ha : a < UINT) : (d.setAddr k a).addr k = a := by
  have hlt : k < NDIRECT + 1 := Nat.lt_succ_of_le hk
  simp only [addr, setAddr, dif_pos hlt, if_pos]
  rw [UInt32.toNat_ofNat', Nat.mod_eq_of_lt ha]

theorem addr_setAddr_ne (h : k' ≠ k) : (d.setAddr k a).addr k' = d.addr k' := by
  simp only [addr, setAddr, if_neg h]

end Dinode

/-- The inode in place `k` of a block of inodes. -/
def getDinode (b : Block) (k : Nat) : Dinode where
  type := (UInt16.ofNat (getLE b (64 * k) 2)).toInt16
  major := (UInt16.ofNat (getLE b (64 * k + 2) 2)).toInt16
  minor := (UInt16.ofNat (getLE b (64 * k + 4) 2)).toInt16
  nlink := (UInt16.ofNat (getLE b (64 * k + 6) 2)).toInt16
  size := UInt32.ofNat (getLE b (64 * k + 8) 4)
  addrs j := UInt32.ofNat (getLE b (64 * k + 12 + 4 * j) 4)

/-- The numbers that `memmove` copies. -/
def Dinode.addrList (d : Dinode) : List Nat :=
  (List.finRange (NDIRECT + 1)).map fun j => (d.addrs j).toNat

def putDinode (b : Block) (k : Nat) (d : Dinode) : Block :=
  let b := putLE b (64 * k) 2 d.type.toUInt16.toNat
  let b := putLE b (64 * k + 2) 2 d.major.toUInt16.toNat
  let b := putLE b (64 * k + 4) 2 d.minor.toUInt16.toNat
  let b := putLE b (64 * k + 6) 2 d.nlink.toUInt16.toNat
  let b := putLE b (64 * k + 8) 4 d.size.toNat
  putAll 4 b (64 * k + 12) d.addrList

theorem Dinode.length_addrList (d : Dinode) : d.addrList.length = NDIRECT + 1 := by
  simp [addrList]

theorem putDinode_outside {b : Block} {k : Nat} {d : Dinode} {x : Nat}
    (hx : x < 64 * k ∨ 64 * k + 64 ≤ x) : putDinode b k d x = b x := by
  have hlen := d.length_addrList
  have hall {m : Block} : putAll 4 m (64 * k + 12) d.addrList x = m x := by
    rcases hx with hx | hx
    · exact putAll_before (by omega)
    · exact putAll_after (by rw [hlen]; omega)
  simp only [putDinode]
  rw [hall, putLE_outside (by omega), putLE_outside (by omega), putLE_outside (by omega),
    putLE_outside (by omega), putLE_outside (by omega)]

theorem Dinode.addrList_getElem? (d : Dinode) (j : Fin (NDIRECT + 1)) :
    d.addrList[j.val]? = some (d.addrs j).toNat := by
  have hlt : j.val < (List.finRange (NDIRECT + 1)).length := by
    rw [List.length_finRange]
    exact j.isLt
  rw [addrList, List.getElem?_map, List.getElem?_eq_getElem hlt, List.getElem_finRange]
  rfl

theorem getLE_addr {m : Block} {off : Nat} {d : Dinode} (j : Fin (NDIRECT + 1)) :
    getLE (putAll 4 m off d.addrList) (off + 4 * j) 4 = (d.addrs j).toNat := by
  have hfit : ∀ v ∈ d.addrList, v < 256 ^ 4 := by
    intro v hv
    obtain ⟨j, _, rfl⟩ := List.mem_map.mp hv
    exact UInt32.toNat_lt _
  have hlt : j.val < d.addrList.length := by
    rw [d.length_addrList]
    exact j.isLt
  have hall := congrArg (fun l => l[j.val]?) (@map_getLE_putAll 4 d.addrList m off hfit)
  rw [List.getElem?_map, List.getElem?_range hlt, d.addrList_getElem?] at hall
  exact Option.some.inj hall

theorem toInt16_getLE {m : Block} {off : Nat} {x : Int16}
    (h : getLE m off 2 = x.toUInt16.toNat) : (UInt16.ofNat (getLE m off 2)).toInt16 = x := by
  rw [h, UInt16.ofNat_toNat, Int16.toInt16_toUInt16]

/-- An inode that is stored is read back. -/
theorem getDinode_putDinode {b : Block} {k : Nat} {d : Dinode} :
    getDinode (putDinode b k d) k = d := by
  have hshort (x : Int16) : x.toUInt16.toNat < 256 ^ 2 := UInt16.toNat_lt _
  ext j
  · refine toInt16_getLE ?_
    simp only [putDinode]
    rw [getLE_putAll_before (by omega), getLE_putLE_disjoint (by omega),
      getLE_putLE_disjoint (by omega), getLE_putLE_disjoint (by omega),
      getLE_putLE_disjoint (by omega), getLE_putLE_of_lt (hshort _)]
  · refine toInt16_getLE ?_
    simp only [putDinode]
    rw [getLE_putAll_before (by omega), getLE_putLE_disjoint (by omega), getLE_putLE_disjoint (by omega),
      getLE_putLE_disjoint (by omega), getLE_putLE_of_lt (hshort _)]
  · refine toInt16_getLE ?_
    simp only [putDinode]
    rw [getLE_putAll_before (by omega), getLE_putLE_disjoint (by omega), getLE_putLE_disjoint (by omega),
      getLE_putLE_of_lt (hshort _)]
  · refine toInt16_getLE ?_
    simp only [putDinode]
    rw [getLE_putAll_before (by omega), getLE_putLE_disjoint (by omega), getLE_putLE_of_lt (hshort _)]
  · simp only [getDinode, putDinode]
    rw [getLE_putAll_before (by omega), getLE_putLE_of_lt (UInt32.toNat_lt _), UInt32.ofNat_toNat]
  · simp only [getDinode, putDinode]
    rw [getLE_addr, UInt32.ofNat_toNat]

theorem getDinode_congr {b b' : Block} {k : Nat} (h : ∀ x, 64 * k ≤ x → x < 64 * k + 64 → b x = b' x) :
    getDinode b k = getDinode b' k := by
  have hle {o w : Nat} (how : o + w ≤ 64) : getLE b (64 * k + o) w = getLE b' (64 * k + o) w :=
    getLE_congr fun x h₁ h₂ => h x (by omega) (by omega)
  have haddr (j : Fin (NDIRECT + 1)) :
      getLE b (64 * k + 12 + 4 * j) 4 = getLE b' (64 * k + 12 + 4 * j) 4 := by
    have hj : j.val ≤ 12 := Nat.le_of_lt_succ j.isLt
    exact getLE_congr fun x h₁ h₂ => h x (by omega) (by omega)
  have hzero := hle (o := 0) (w := 2) (by decide)
  rw [Nat.add_zero] at hzero
  simp only [getDinode, hzero, haddr, hle (by decide : 2 + 2 ≤ 64), hle (by decide : 4 + 2 ≤ 64),
    hle (by decide : 6 + 2 ≤ 64), hle (by decide : 8 + 4 ≤ 64)]

theorem getDinode_putDinode_ne {b : Block} {k k' : Nat} {d : Dinode} (h : k' ≠ k) :
    getDinode (putDinode b k d) k' = getDinode b k' :=
  getDinode_congr fun x h₁ h₂ => putDinode_outside (by omega)

/-! ## Bits and numbers -/

/-- `bp->data[bi/8] & (1 << (bi % 8))` -/
def getBit (b : Block) (bi : Nat) : Bool := (b (bi / 8)).toNat.testBit (bi % 8)

def setBit (b : Block) (bi : Nat) : Block :=
  Function.update b (bi / 8) (b (bi / 8) ||| UInt8.ofNat (2 ^ (bi % 8)))

def clearBit (b : Block) (bi : Nat) : Block :=
  Function.update b (bi / 8) (b (bi / 8) &&& ~~~ UInt8.ofNat (2 ^ (bi % 8)))

theorem toNat_mask {k : Nat} (hk : k < 8) : (UInt8.ofNat (2 ^ k)).toNat = 2 ^ k := by
  rw [UInt8.toNat_ofNat', Nat.mod_eq_of_lt]
  exact Nat.pow_lt_pow_right (by decide) hk

theorem getBit_setBit (b : Block) (bi bi' : Nat) :
    getBit (setBit b bi) bi' = (getBit b bi' || decide (bi' = bi)) := by
  have hmask := toNat_mask (Nat.mod_lt bi (by decide : 0 < 8))
  by_cases hbyte : bi' / 8 = bi / 8
  · rw [getBit, setBit, hbyte, Function.update_self, UInt8.toNat_or, Nat.testBit_or, hmask,
      Nat.testBit_two_pow, getBit, hbyte]
    congr 1
    have : bi % 8 = bi' % 8 ↔ bi' = bi := by omega
    simp only [this]
  · have hne : bi' ≠ bi := fun heq => hbyte (heq ▸ rfl)
    rw [getBit, setBit, Function.update_of_ne hbyte, getBit]
    simp [hne]

/-- `((uint*)bp->data)[j]` -/
def getUint (b : Block) (j : Nat) : Nat := getLE b (4 * j) 4

def putUint (b : Block) (j a : Nat) : Block := putLE b (4 * j) 4 a

theorem getUint_putUint {b : Block} {j a : Nat} (ha : a < UINT) : getUint (putUint b j a) j = a :=
  getLE_putLE_of_lt ha

theorem getUint_putUint_ne {b : Block} {j j' a : Nat} (h : j' ≠ j) :
    getUint (putUint b j a) j' = getUint b j' :=
  getLE_putLE_disjoint (by omega)

theorem getUint_zero {j : Nat} : getUint (fun _ => 0) j = 0 := rfl

/-! ## The views of a disk -/

namespace Superblock

/-- `IBLOCK(i, sb)` -/
def iblock (sb : Superblock) (i : Nat) : Nat := i / IPB + sb.inodestart

/-- `BBLOCK(b, sb)` -/
def bblock (sb : Superblock) (b : Nat) : Nat := b / BPB + sb.bmapstart

/-- The first block for data. -/
def datastart (sb : Superblock) : Nat := sb.size - sb.nblocks

/-- The regions follow each other as `mkfs` lays them out, and inode numbers fit into directory
entries. -/
structure Wf (sb : Superblock) : Prop where
  boot : 0 < sb.inodestart
  inodes : sb.inodestart + (sb.ninodes / IPB + 1) ≤ sb.bmapstart
  bitmap : sb.bmapstart + (sb.size / BPB + 1) ≤ sb.datastart
  root : ROOTINO < sb.ninodes
  ninodes : sb.ninodes ≤ 2 ^ 16
  size : sb.size < 2 ^ 31

variable {sb : Superblock} {i b : Nat}

theorem Wf.iblock (h : sb.Wf) (hi : i < sb.ninodes) :
    sb.inodestart ≤ sb.iblock i ∧ sb.iblock i < sb.bmapstart := by
  have hinodes := h.inodes
  simp only [Superblock.iblock, IPB] at *
  omega

theorem Wf.bblock (h : sb.Wf) (hb : b < sb.size) :
    sb.bmapstart ≤ sb.bblock b ∧ sb.bblock b < sb.datastart := by
  have hbitmap := h.bitmap
  simp only [Superblock.bblock, BPB, BSIZE] at *
  omega

theorem Wf.bmapstart_lt (h : sb.Wf) : sb.bmapstart < sb.datastart := by
  have := h.bitmap
  exact Nat.lt_of_lt_of_le (Nat.lt_add_of_pos_right (Nat.succ_pos _)) this

end Superblock

/-- An inode as it is on the disk. -/
def dinode (sb : Superblock) (blk : Disk) (i : Nat) : Dinode :=
  getDinode (blk (sb.iblock i)) (i % IPB)

def setDinode (sb : Superblock) (blk : Disk) (i : Nat) (d : Dinode) : Disk :=
  Function.update blk (sb.iblock i) (putDinode (blk (sb.iblock i)) (i % IPB) d)

/-- Is the block marked in the bitmap? -/
def used (sb : Superblock) (blk : Disk) (b : Nat) : Bool := getBit (blk (sb.bblock b)) (b % BPB)

def setUsed (sb : Superblock) (blk : Disk) (b : Nat) : Disk :=
  Function.update blk (sb.bblock b) (setBit (blk (sb.bblock b)) (b % BPB))

def setFree (sb : Superblock) (blk : Disk) (b : Nat) : Disk :=
  Function.update blk (sb.bblock b) (clearBit (blk (sb.bblock b)) (b % BPB))

variable {sb : Superblock} {blk : Disk} {i i' b b' : Nat} {d : Dinode} {x : Block}

section Inodes

theorem dinode_setDinode : dinode sb (setDinode sb blk i d) i = d := by
  rw [dinode, setDinode, Function.update_self, getDinode_putDinode]

theorem dinode_setDinode_ne (h : i' ≠ i) : dinode sb (setDinode sb blk i d) i' = dinode sb blk i' := by
  by_cases hblock : sb.iblock i' = sb.iblock i
  · have hplace : i' % IPB ≠ i % IPB := by
      simp only [Superblock.iblock, IPB] at *
      omega
    rw [dinode, setDinode, hblock, Function.update_self, getDinode_putDinode_ne hplace, dinode, hblock]
  · rw [dinode, setDinode, Function.update_of_ne hblock, dinode]

theorem used_setDinode (h : sb.Wf) (hi : i < sb.ninodes) (hb : b < sb.size) :
    used sb (setDinode sb blk i d) b = used sb blk b := by
  have hne : sb.bblock b ≠ sb.iblock i := by
    have := h.iblock hi
    have := h.bblock hb
    omega
  rw [used, setDinode, Function.update_of_ne hne, used]

theorem setDinode_data (h : sb.Wf) (hi : i < sb.ninodes) (hb : sb.datastart ≤ b) :
    setDinode sb blk i d b = blk b := by
  have hne : b ≠ sb.iblock i := by
    have := h.iblock hi
    have := h.bmapstart_lt
    omega
  rw [setDinode, Function.update_of_ne hne]

end Inodes

section Bitmap

theorem bit_eq_iff : sb.bblock b' = sb.bblock b → (b' % BPB = b % BPB ↔ b' = b) := by
  simp only [Superblock.bblock, BPB, BSIZE]
  omega

theorem used_setUsed : used sb (setUsed sb blk b) b' = (used sb blk b' || decide (b' = b)) := by
  by_cases hblock : sb.bblock b' = sb.bblock b
  · rw [used, setUsed, hblock, Function.update_self, getBit_setBit, used, hblock]
    simp only [bit_eq_iff hblock]
  · have hne : b' ≠ b := fun heq => hblock (heq ▸ rfl)
    rw [used, setUsed, Function.update_of_ne hblock, used]
    simp [hne]

/-- An update of a bitmap block is seen in the bitmap only. -/
theorem dinode_update_bitmap (h : sb.Wf) (hi : i < sb.ninodes) (hb : b < sb.size) :
    dinode sb (Function.update blk (sb.bblock b) x) i = dinode sb blk i := by
  have hne : sb.iblock i ≠ sb.bblock b := by
    have := h.iblock hi
    have := h.bblock hb
    omega
  rw [dinode, Function.update_of_ne hne, dinode]

end Bitmap

section Data

/-- An update of a data block is not seen in the inodes and in the bitmap. -/
theorem dinode_update_data (h : sb.Wf) (hi : i < sb.ninodes) (hb : sb.datastart ≤ b) :
    dinode sb (Function.update blk b x) i = dinode sb blk i := by
  have hne : sb.iblock i ≠ b := by
    have := h.iblock hi
    have := h.bmapstart_lt
    omega
  rw [dinode, Function.update_of_ne hne, dinode]

theorem used_update_data (h : sb.Wf) (hb : sb.datastart ≤ b) (hb' : b' < sb.size) :
    used sb (Function.update blk b x) b' = used sb blk b' := by
  have hne : sb.bblock b' ≠ b := by
    have := h.bblock hb'
    omega
  rw [used, Function.update_of_ne hne, used]

end Data

end Xv6.Fs
