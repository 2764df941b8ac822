-- SUMMARY: The disk as a table of files: what `writei` and `iupdate` do to one of them and leave of the others.
import Xv6.Fs.Content
import Xv6.Fs.Blocks

/-!
# Nodes

What a disk means: for every inode number either nothing, or a type, device numbers, a link count
and a list of bytes. A disk is sound if all blocks are accounted for and no inode has holes. An
operation on one inode keeps the disk sound and touches no other inode.
-/

namespace Xv6.Fs

open Prog

structure Node where
  type : Int16
  major : Int16
  minor : Int16
  nlink : Int16
  bytes : List UInt8
  deriving DecidableEq

/-- What inode number `i` denotes. -/
def node (sb : Superblock) (blk : Disk) (i : Nat) : Option Node :=
  let d := dinode sb blk i
  if i < sb.ninodes ∧ d.type ≠ 0 then some ⟨d.type, d.major, d.minor, d.nlink, content blk d⟩
  else none

structure Sound (sb : Superblock) (blk : Disk) : Prop where
  owned : Owned sb blk (dinode sb blk)
  filled : ∀ i < sb.ninodes, (dinode sb blk i).type ≠ 0 → Filled blk (dinode sb blk i)

/-- The blocks of an inode have the same contents. -/
def SameBlocks (blk blk' : Disk) (d : Dinode) : Prop :=
  ∀ k < NSLOT, slot blk d k ≠ 0 → blk' (slot blk d k) = blk (slot blk d k)

namespace SameBlocks

variable {blk blk' blk'' : Disk} {d : Dinode} {k : Nat}

theorem slot_eq (h : SameBlocks blk blk' d) : slot blk' d k = slot blk d k := by
  have hslot : slot blk d NDIRECT = d.addr NDIRECT := slot_of_le (Nat.le_refl _)
  refine slot_congr fun hne => ?_
  rw [← hslot] at hne ⊢
  exact h NDIRECT (by decide) hne

theorem trans (h : SameBlocks blk blk' d) (h' : SameBlocks blk' blk'' d) :
    SameBlocks blk blk'' d := by
  intro k hk hne
  have h' := h' k hk
  rw [h.slot_eq] at h'
  exact (h' hne).trans (h k hk hne)

theorem filled (h : SameBlocks blk blk' d) (hd : Filled blk d) : Filled blk' d := by
  refine ⟨hd.size_le, fun x hx => ?_, fun bn hbn hne bn' hlt => ?_⟩
  · rw [h.slot_eq]
    exact hd.below x hx
  · rw [h.slot_eq] at hne ⊢
    exact hd.closed bn hbn hne bn' hlt

end SameBlocks

/-- An operation on inode `i`: the disk stays sound, and the other inodes stay as they are. -/
structure Touches (sb : Superblock) (i : Nat) (s s' : Core) : Prop where
  sound : Sound sb s'.blk
  inodes : ∀ j < sb.ninodes, j ≠ i → dinode sb s'.blk j = dinode sb s.blk j
  blocks : ∀ j < sb.ninodes, j ≠ i → (dinode sb s.blk j).type ≠ 0 →
    SameBlocks s.blk s'.blk (dinode sb s.blk j)
  outstanding : s'.outstanding = s.outstanding

/-! ## Writing an inode back -/

section Store

variable {sb : Superblock} {i j b : Nat} {s : Core} {d e : Dinode}

theorem dinode_store : dinode sb (s.store sb i d).blk = view sb s.blk i d := by
  funext j
  by_cases hji : j = i
  · rw [hji, view_self]
    exact dinode_setDinode
  · rw [view_of_ne hji]
    exact dinode_setDinode_ne hji

/-- The blocks of an inode are not in the part of the disk that has the inodes. -/
theorem sameBlocks_store (hsb : sb.Wf) (hi : i < sb.ninodes)
    (h : ∀ k < NSLOT, slot s.blk e k ≠ 0 → sb.datastart ≤ slot s.blk e k) :
    SameBlocks s.blk (s.store sb i d).blk e :=
  fun k hk hne => setDinode_data hsb hi (h k hk hne)

theorem Owned.store (hsb : sb.Wf) (hi : i < sb.ninodes) (h : Owned sb s.blk (view sb s.blk i d)) :
    Owned sb (s.store sb i d).blk (dinode sb (s.store sb i d).blk) := by
  rw [dinode_store]
  refine h.frame (fun b hb => used_setDinode hsb hi hb) (fun _ _ => rfl) fun j hj htype hne => ?_
  refine setDinode_data hsb hi ?_
  have hslot : slots sb s.blk (view sb s.blk i d) (j, NDIRECT) =
      (view sb s.blk i d j).addr NDIRECT := by
    rw [slots_of_lt hj htype (by decide), slot_of_le (Nat.le_refl _)]
  rw [← hslot] at hne ⊢
  exact (h.exact.range _ hne).1

end Store

/-- The inode in memory is the one on the disk. -/
structure Live (sb : Superblock) (s : Core) (i : Nat) (d : Dinode) : Prop where
  sound : Sound sb s.blk
  inum : i < sb.ninodes
  type : d.type ≠ 0
  disk : dinode sb s.blk i = d

namespace Live

variable {sb : Superblock} {i : Nat} {s : Core} {d : Dinode}

theorem held (h : Live sb s i d) : Held sb s i d := by
  refine ⟨h.inum, h.type, ?_⟩
  rw [← h.disk, view_dinode]
  exact h.sound.owned

theorem filled (h : Live sb s i d) : Filled s.blk d := by
  have htype := h.type
  rw [← h.disk] at htype ⊢
  exact h.sound.filled i h.inum htype

theorem node_eq (h : Live sb s i d) :
    node sb s.blk i = some ⟨d.type, d.major, d.minor, d.nlink, content s.blk d⟩ := by
  simp only [node, h.disk]
  exact if_pos ⟨h.inum, h.type⟩

end Live

section Back

variable {sb : Superblock} {i j k : Nat} {s t : Core} {d e e' : Dinode}

theorem slot_of_addrs {blk : Disk} (h : e'.addrs = e.addrs) : slot blk e' k = slot blk e k := by
  have haddr (k : Nat) : e'.addr k = e.addr k := by simp only [Dinode.addr, h]
  simp only [slot, haddr]

/-- The owners of the blocks do not depend on the other fields of an inode. -/
theorem Owned.of_addrs {blk : Disk} (h : Owned sb blk (view sb blk i e)) (haddrs : e'.addrs = e.addrs)
    (htype : e'.type = e.type) : Owned sb blk (view sb blk i e') := by
  refine ⟨h.exact.congr (fun p => ?_) fun _ _ _ => rfl, h.head⟩
  simp only [slots]
  by_cases hp : p.1 = i
  · rw [hp, view_self, view_self, htype, slot_of_addrs haddrs]
  · rw [view_of_ne hp, view_of_ne hp]

/-- The blocks of the other inodes, while one inode grows. -/
theorem Spares.sameBlocks (h : Spares sb d s t) (hd : Held sb s i d) (hj : j < sb.ninodes)
    (hji : j ≠ i) (htype : (dinode sb s.blk j).type ≠ 0) :
    SameBlocks s.blk t.blk (dinode sb s.blk j) := by
  intro k hk hne
  have hslot : slots sb s.blk (view sb s.blk i d) (j, k) = slot s.blk (dinode sb s.blk j) k := by
    rw [slots_of_lt hj (by rwa [view_of_ne hji]) hk, view_of_ne hji]
  exact h.other_block hd hji hslot hne

/-- An inode that has grown is written back. -/
theorem Extends.touches (hsb : sb.Wf) (hl : Live sb s i d) (h : Extends sb i s d t e)
    (haddrs : e'.addrs = e.addrs) (htype : e'.type = e.type) (hfill : Filled t.blk e') :
    Touches sb i s (t.store sb i e') := by
  have hd' := h.held hl.held
  have howned : Owned sb t.blk (view sb t.blk i e') := h.owned.of_addrs haddrs htype
  have hstore (j : Nat) (hj : j < sb.ninodes) (hlive : (view sb t.blk i e' j).type ≠ 0) :
      SameBlocks t.blk (t.store sb i e').blk (view sb t.blk i e' j) := by
    refine sameBlocks_store hsb hl.inum fun k hk hne => ?_
    rw [← slots_of_lt hj hlive hk] at hne ⊢
    exact (howned.exact.range _ hne).1
  have hother (j : Nat) (hj : j < sb.ninodes) (hji : j ≠ i)
      (hlive : (dinode sb s.blk j).type ≠ 0) :
      SameBlocks s.blk (t.store sb i e').blk (dinode sb s.blk j) := by
    refine (h.toSpares.sameBlocks hl.held hj hji hlive).trans ?_
    have hview : view sb t.blk i e' j = dinode sb s.blk j := by rw [view_of_ne hji, h.inodes j hj]
    have := hstore j hj (by rwa [hview])
    rwa [hview] at this
  refine ⟨⟨howned.store hsb hl.inum, fun j hj hlive => ?_⟩, fun j hj hji => ?_, hother, h.outstanding⟩
  · rw [dinode_store] at hlive ⊢
    by_cases hji : j = i
    · subst hji
      have := hstore j hj hlive
      rw [view_self] at this ⊢
      exact this.filled hfill
    · rw [view_of_ne hji, h.inodes j hj] at hlive ⊢
      exact (hother j hj hji hlive).filled (hl.sound.filled j hj hlive)
  · rw [dinode_store, view_of_ne hji, h.inodes j hj]

/-- An operation that leaves inode `i` as it is in memory. -/
theorem Touches.live (h : Touches sb i s t) (hi : i < sb.ninodes) (htype : e.type ≠ 0)
    (hdisk : dinode sb t.blk i = e) : Live sb t i e := ⟨h.sound, hi, htype, hdisk⟩

end Back

/-! ## `writei` -/

section Writei

variable {sb : Superblock} {i off n m p : Nat} {src : Source} {s t : Core} {d e : Dinode}
  {E : Stop → Core → Prop}

theorem Dinode.extendTo_addrs : (e.extendTo n).addrs = e.addrs := by
  rw [Dinode.extendTo]
  split <;> rfl

theorem Dinode.extendTo_type : (e.extendTo n).type = e.type := by
  rw [Dinode.extendTo]
  split <;> rfl

theorem Dinode.extendTo_size (h : n < UINT) : (e.extendTo n).size.toNat = max e.size.toNat n := by
  rw [Dinode.extendTo]
  split
  · next hlt =>
    rw [UInt32.toNat_ofNat', Nat.mod_eq_of_lt h]
    omega
  · omega

theorem slot_extendTo {blk : Disk} {k : Nat} : slot blk (e.extendTo n) k = slot blk e k := by
  have haddr (k : Nat) : (e.extendTo n).addr k = e.addr k := by
    simp only [Dinode.addr, Dinode.extendTo_addrs]
  simp only [slot, haddr]

theorem byteAt_extendTo {blk : Disk} {x : Nat} : byteAt blk (e.extendTo n) x = byteAt blk e x := by
  rw [byteAt, byteAt, slot_extendTo]

/-- The loop leaves no gaps. -/
theorem Wrote.filled_extendTo (h : Wrote sb i src off 0 n s d m p t e) (hd : Filled s.blk d)
    (hoff : off ≤ d.size.toNat) (hfit : off + n ≤ MAXFILE * BSIZE) :
    Filled t.blk (e.extendTo (off + m)) := by
  have hle := h.le
  have hsize : (e.extendTo (off + m)).size.toNat = max d.size.toNat (off + m) := by
    rw [Dinode.extendTo_size (by simp only [MAXFILE, NDIRECT, NINDIRECT, BSIZE, UINT] at *; omega),
      h.size_eq]
  have hold {x : Nat} (hx : x < d.size.toNat) : slot t.blk e (fileSlot (x / BSIZE)) ≠ 0 := by
    have hlt := fileSlot_lt (div_lt_maxfile (Nat.lt_of_lt_of_le hx hd.size_le))
    rw [h.kept _ hlt (hd.below x hx)]
    exact hd.below x hx
  have hbelow {x : Nat} (hx : x < max d.size.toNat (off + m)) :
      slot t.blk e (fileSlot (x / BSIZE)) ≠ 0 := by
    by_cases hx' : x < d.size.toNat
    · exact hold hx'
    · exact (h.written x (by omega) (by omega)).1
  refine ⟨?_, fun x hx => ?_, fun bn hbn hne bn' hlt => ?_⟩
  · have := hd.size_le
    omega
  · rw [hsize] at hx
    rw [slot_extendTo]
    exact hbelow hx
  · rw [slot_extendTo] at hne ⊢
    rcases h.filled bn hbn hne with hne | ⟨_, hnew⟩
    · have hbn' := hd.closed bn hbn hne bn' hlt
      rw [h.kept _ (fileSlot_lt (Nat.lt_trans hlt hbn)) hbn']
      exact hbn'
    · -- a block before a new one has a byte that is there or was written
      have hbyte : bn' * BSIZE < max d.size.toNat (off + m) := by
        simp only [BSIZE] at *
        omega
      have := hbelow hbyte
      rwa [Nat.mul_div_cancel _ (by decide)] at this

theorem Wrote.touches (hsb : sb.Wf) (hl : Live sb s i d) (h : Wrote sb i src off 0 n s d m p t e)
    (hoff : off ≤ d.size.toNat) (hfit : off + n ≤ MAXFILE * BSIZE) :
    Touches sb i s (t.store sb i (e.extendTo (off + m))) :=
  h.toExtends.touches hsb hl Dinode.extendTo_addrs Dinode.extendTo_type
    (h.filled_extendTo hl.filled hoff hfit)

/-- A write that is not refused. -/
structure Accepts (d : Dinode) (off n : Nat) : Prop where
  off_le : off ≤ d.size.toNat
  fits : off + n ≤ MAXFILE * BSIZE

theorem wp_writei {Q : Int × Dinode → Core → Prop} (hsb : sb.Wf) (hl : Live sb s i d)
    (hout : 0 < s.outstanding) (hrefused : ¬ Accepts d off n → Q (-1, d) s)
    (hwrote : Accepts d off n → ∀ m p t e, Wrote sb i src off 0 n s d m p t e →
      Q ((m : Int), e.extendTo (off + m)) (t.store sb i (e.extendTo (off + m)))) :
    wp (writei sb i d src off n) Q E s := by
  rw [writei]
  dsimp only
  split
  · next hno =>
    refine wp_pure.mpr (hrefused fun hacc => ?_)
    have := hacc.off_le
    have hmod : (off + n) % UINT = off + n := by
      have := hacc.fits
      exact Nat.mod_eq_of_lt (by simp only [MAXFILE, NDIRECT, NINDIRECT, BSIZE, UINT] at *; omega)
    omega
  · split
    · next hbig => exact wp_pure.mpr (hrefused fun hacc => Nat.not_lt_of_le hacc.fits hbig)
    · next hno hfit =>
      have hacc : Accepts d off n := ⟨by omega, Nat.le_of_not_lt hfit⟩
      rw [wp_bind]
      refine (wp_writeLoop hsb hl.held hout hacc.fits (Nat.le_refl n)).imp fun r t ht => ?_
      obtain ⟨tot, e⟩ := r
      obtain ⟨m, p, htot, hw⟩ := ht
      dsimp only at htot hw ⊢
      rw [Nat.zero_add] at htot
      subst htot
      rw [wp_bind, wp_iupdate (by rw [hw.outstanding]; exact hout)]
      exact wp_pure.mpr (hwrote hacc tot p t e hw)

end Writei

/-! ## A small disk

A root directory and one file, with three free blocks. -/

/-- An inode with one link and one block. -/
def oneBlock (type : Int16) (size : UInt32) (a : Nat) : Dinode where
  type := type
  major := 0
  minor := 0
  nlink := 1
  size := size
  addrs j := if j.val = 0 then UInt32.ofNat a else 0

def small : Superblock where
  size := 8
  nblocks := 5
  ninodes := 4
  inodestart := 1
  bmapstart := 2

/-- A disk with the root directory in block 3, and with inode `i`, which has block 4. -/
def twoInodes (i : Nat) (d : Dinode) (root data : Block) : Disk := fun b =>
  if b = 1 then putDinode (putDinode (fun _ => 0) 1 (oneBlock 1 48 3)) i d
  else if b = 2 then fun x => if x = 0 then 31 else 0
  else if b = 3 then root
  else if b = 4 then data
  else fun _ => 0

/-- The entries `.`, `..` and `a` of the root directory. -/
def smallRoot : List UInt8 :=
  [1, 0, 46] ++ List.replicate 13 0 ++ [1, 0, 46, 46] ++ List.replicate 12 0 ++ [2, 0, 97]

def smallDisk : Disk :=
  twoInodes 2 (oneBlock 2 1 4) (fun x => smallRoot.getD x 0) fun x => if x = 0 then 65 else 0

def smallCore : Core := ⟨smallDisk, [], 1⟩

theorem small_wf : small.Wf := by
  constructor <;> decide

theorem slot_oneBlock {blk : Disk} {type : Int16} {size : UInt32} {a k : Nat} (ha : a < UINT) :
    slot blk (oneBlock type size a) k = if k = 0 then a else 0 := by
  have haddr (k : Nat) : (oneBlock type size a).addr k = if k = 0 then a else 0 := by
    rw [Dinode.addr]
    split
    · change (if k = 0 then UInt32.ofNat a else 0).toNat = _
      split
      · rw [UInt32.toNat_ofNat', Nat.mod_eq_of_lt ha]
      · rfl
    · next hk => rw [if_neg (by omega)]
  have hind : (oneBlock type size a).addr NDIRECT = 0 := haddr _
  rw [slot, haddr, if_pos hind]
  split
  · rfl
  · next hk => rw [if_neg (by omega)]

theorem filled_oneBlock {blk : Disk} {type : Int16} {size : UInt32} {a : Nat} (ha : a < UINT)
    (hne : a ≠ 0) (hsize : size.toNat ≤ BSIZE) : Filled blk (oneBlock type size a) := by
  have hsize' : (oneBlock type size a).size.toNat ≤ BSIZE := hsize
  refine ⟨?_, fun x hx => ?_, fun bn _ hbn bn' hlt => ?_⟩
  · simp only [MAXFILE, NDIRECT, NINDIRECT, BSIZE] at *
    omega
  · rw [Nat.div_eq_of_lt (Nat.lt_of_lt_of_le hx hsize'), slot_oneBlock ha]
    exact hne
  · rw [slot_oneBlock ha] at hbn
    have hzero : fileSlot bn = 0 := by_contra fun h => hbn (if_neg h)
    have : bn = 0 := fileSlot_inj (hzero.trans (by rfl : (0 : Nat) = fileSlot 0))
    omega

/-- The second inode of such a disk. -/
structure HasBlock (i : Nat) (d : Dinode) : Prop where
  other : i ≠ 1
  lt : i < small.ninodes
  type : d.type ≠ 0
  slot : ∀ blk k, slot blk d k = if k = 0 then 4 else 0
  filled : ∀ blk, Filled blk d

section TwoInodes

variable {i j : Nat} {d : Dinode} {root data : Block}

theorem dinode_twoInodes_root (h : HasBlock i d) :
    dinode small (twoInodes i d root data) 1 = oneBlock 1 48 3 := by
  change getDinode (putDinode (putDinode _ 1 _) i _) 1 = _
  rw [getDinode_putDinode_ne h.other.symm, getDinode_putDinode]

theorem small_iblock (hj : j < small.ninodes) : small.iblock j = 1 ∧ j % IPB = j := by
  have hj : j < 4 := hj
  have hlt : j < IPB := by
    simp only [IPB]
    omega
  rw [Superblock.iblock, Nat.div_eq_of_lt hlt, Nat.mod_eq_of_lt hlt]
  exact ⟨rfl, rfl⟩

theorem dinode_twoInodes (h : HasBlock i d) : dinode small (twoInodes i d root data) i = d := by
  obtain ⟨hblock, hmod⟩ := small_iblock h.lt
  rw [dinode, hblock, hmod]
  exact getDinode_putDinode

theorem type_twoInodes (hj : j < small.ninodes) (h₁ : j ≠ 1) (h₂ : j ≠ i) :
    (dinode small (twoInodes i d root data) j).type = 0 := by
  obtain ⟨hblock, hmod⟩ := small_iblock hj
  have hdinode : dinode small (twoInodes i d root data) j = getDinode (fun _ => 0) j := by
    rw [dinode, hblock, hmod]
    change getDinode (putDinode (putDinode _ 1 _) i _) j = _
    rw [getDinode_putDinode_ne h₂, getDinode_putDinode_ne h₁]
  rw [hdinode]
  rfl

theorem slots_twoInodes (h : HasBlock i d) (p : Nat × Nat) :
    slots small (twoInodes i d root data) (dinode small (twoInodes i d root data)) p =
      if p = (1, 0) then 3 else if p = (i, 0) then 4 else 0 := by
  obtain ⟨j, k⟩ := p
  by_cases h₁ : j = 1
  · subst h₁
    by_cases hk : k = 0
    · subst hk
      rw [slots, if_pos ⟨by decide, by rw [dinode_twoInodes_root h]; decide, by decide⟩,
        dinode_twoInodes_root h, slot_oneBlock (by decide)]
      rfl
    · simp only [slots, dinode_twoInodes_root h, slot_oneBlock (by decide : 3 < UINT), ite_self,
        Prod.mk.injEq, hk, and_false, if_false]
  · by_cases h₂ : j = i
    · subst h₂
      by_cases hk : k = 0
      · subst hk
        rw [slots, if_pos ⟨h.lt, by rw [dinode_twoInodes h]; exact h.type, (by decide : 0 < NSLOT)⟩,
          dinode_twoInodes h, h.slot]
        simp [h.other]
      · simp only [slots, dinode_twoInodes h, h.slot, ite_self, Prod.mk.injEq, hk, and_false, if_false]
    · have hfree : ¬ (j < small.ninodes ∧ (dinode small (twoInodes i d root data) j).type ≠ 0 ∧ k < NSLOT) :=
        fun hused => hused.2.1 (type_twoInodes hused.1 h₁ h₂)
      simp only [slots, if_neg hfree, Prod.mk.injEq, h₁, h₂, false_and, if_false]

theorem used_twoInodes {b : Nat} (hb : b < 8) : used small (twoInodes i d root data) b = decide (b < 5) := by
  have hbblock : small.bblock b = 2 := by
    rw [Superblock.bblock, Nat.div_eq_of_lt (by simp only [BPB, BSIZE]; omega)]
    rfl
  have hbits : ∀ b < 8, getBit (fun x => if x = 0 then 31 else 0) (b % BPB) = decide (b < 5) := by decide +kernel
  rw [used, hbblock]
  exact hbits b hb

theorem sound_twoInodes (h : HasBlock i d) : Sound small (twoInodes i d root data) := by
  have hslots : ∀ p, slots small (twoInodes i d root data) _ p = _ := slots_twoInodes h
  refine ⟨⟨⟨by decide, fun p hp => ?_, fun p q hp heq => ?_, fun b hlow hhigh => ?_⟩,
    fun b hb => ?_⟩, fun j hj htype => ?_⟩
  · rw [hslots] at hp ⊢
    split
    · exact ⟨by decide, by decide⟩
    · split
      · exact ⟨by decide, by decide⟩
      · next h₁ h₂ =>
        rw [if_neg h₁, if_neg h₂] at hp
        exact absurd rfl hp
  · rw [hslots] at hp heq
    rw [hslots] at heq
    grind
  · have hlow : 3 ≤ b := hlow
    have hhigh : b < 8 := hhigh
    rw [used_twoInodes hhigh, decide_eq_true_iff]
    constructor
    · intro hb
      obtain rfl | rfl : b = 3 ∨ b = 4 := by omega
      · exact ⟨(1, 0), by rw [hslots, if_pos rfl]⟩
      · exact ⟨(i, 0), by rw [hslots, if_neg (by simp [h.other]), if_pos rfl]⟩
    · rintro ⟨p, hp⟩
      rw [hslots] at hp
      grind
  · have hb : b < 3 := hb
    rw [used_twoInodes (by omega)]
    exact decide_eq_true (by omega)
  · by_cases h₁ : j = 1
    · rw [h₁, dinode_twoInodes_root h]
      exact filled_oneBlock (by decide) (by decide) (by decide)
    · by_cases h₂ : j = i
      · rw [h₂, dinode_twoInodes h]
        exact h.filled _
      · exact absurd (type_twoInodes hj h₁ h₂) htype

end TwoInodes

theorem hasBlock_small : HasBlock 2 (oneBlock 2 1 4) :=
  ⟨by decide, by decide, by decide, fun _ _ => slot_oneBlock (by decide),
    fun _ => filled_oneBlock (by decide) (by decide) (by decide)⟩

theorem small_sound : Sound small smallDisk := sound_twoInodes hasBlock_small

theorem dinode_small_two : dinode small smallDisk 2 = oneBlock 2 1 4 := dinode_twoInodes hasBlock_small

/-- The file `a`. -/
theorem small_live : Live small smallCore 2 (oneBlock 2 1 4) :=
  ⟨small_sound, by decide, by decide, dinode_small_two⟩

end Xv6.Fs
