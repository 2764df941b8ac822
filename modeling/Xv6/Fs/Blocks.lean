-- SUMMARY: Who owns which block: `balloc`, `bfree` and `bmap` keep the bitmap and the addresses in agreement.
import Xv6.Base.Slots
import Xv6.Fs.File

/-!
# Block ownership

Every block number that an inode holds is in one of its slots: a direct address, the address of
the indirect block, or an entry of the indirect block. The disk is in order if the bitmap marks
exactly the blocks that are in a slot of an allocated inode, and each is in one slot only.
-/

namespace Xv6.Fs

open Prog

/-! ## Slots -/

/-- Slots of an inode: the addresses, then the entries of the indirect block. -/
abbrev NSLOT : Nat := NDIRECT + 1 + NINDIRECT

/-- What is in a slot. -/
def slot (blk : Disk) (d : Dinode) (k : Nat) : Nat :=
  if k ≤ NDIRECT then d.addr k
  else if d.addr NDIRECT = 0 then 0
  else getUint (blk (d.addr NDIRECT)) (k - (NDIRECT + 1))

/-- The slot of a block of the file. -/
def fileSlot (bn : Nat) : Nat := if bn < NDIRECT then bn else bn + 1

/-- The slots of all inodes. -/
def slots (sb : Superblock) (blk : Disk) (f : Nat → Dinode) (p : Nat × Nat) : Nat :=
  if p.1 < sb.ninodes ∧ (f p.1).type ≠ 0 ∧ p.2 < NSLOT then slot blk (f p.1) p.2 else 0

/-- The inodes as they are on the disk, except that `i` is as in memory. -/
def view (sb : Superblock) (blk : Disk) (i : Nat) (d : Dinode) : Nat → Dinode :=
  Function.update (dinode sb blk) i d

/-- The bitmap and the inodes `f` agree. -/
structure Owned (sb : Superblock) (blk : Disk) (f : Nat → Dinode) : Prop where
  exact : Slots.Exact sb.datastart sb.size (used sb blk) (slots sb blk f)
  head : ∀ b < sb.datastart, used sb blk b = true

section Slots

variable {sb : Superblock} {blk blk' : Disk} {f f' : Nat → Dinode} {d d' : Dinode} {i j k k' b bn : Nat}

theorem slot_of_le (hk : k ≤ NDIRECT) : slot blk d k = d.addr k := if_pos hk

theorem slot_entry (hind : d.addr NDIRECT ≠ 0) :
    slot blk d (NDIRECT + 1 + j) = getUint (blk (d.addr NDIRECT)) j := by
  rw [slot, if_neg (by omega), if_neg hind, Nat.add_sub_cancel_left]

theorem slot_congr (h : d.addr NDIRECT ≠ 0 → blk' (d.addr NDIRECT) = blk (d.addr NDIRECT)) :
    slot blk' d k = slot blk d k := by
  simp only [slot]
  split
  · rfl
  · split
    · rfl
    · next hind => rw [h hind]

theorem fileSlot_lt (h : bn < MAXFILE) : fileSlot bn < NSLOT := by
  rw [fileSlot]
  simp only [MAXFILE, NSLOT, NDIRECT, NINDIRECT] at *
  split <;> omega

theorem fileSlot_ne_ndirect : fileSlot bn ≠ NDIRECT := by
  rw [fileSlot]
  simp only [NDIRECT]
  split <;> omega

theorem fileSlot_inj {bn' : Nat} (h : fileSlot bn = fileSlot bn') : bn = bn' := by
  simp only [fileSlot, NDIRECT] at h
  split at h <;> split at h <;> omega

theorem slots_of_lt (hi : i < sb.ninodes) (htype : (f i).type ≠ 0) (hk : k < NSLOT) :
    slots sb blk f (i, k) = slot blk (f i) k := if_pos ⟨hi, htype, hk⟩

theorem slots_ne_zero (h : slots sb blk f (i, k) ≠ 0) :
    i < sb.ninodes ∧ (f i).type ≠ 0 ∧ k < NSLOT := by
  by_contra hnot
  exact h (if_neg hnot)

/-- The slots depend on the inodes, and on the contents of the indirect blocks. -/
theorem slots_congr (hf : ∀ i < sb.ninodes, f' i = f i)
    (hblk : ∀ i < sb.ninodes, (f i).type ≠ 0 → (f i).addr NDIRECT ≠ 0 →
      blk' ((f i).addr NDIRECT) = blk ((f i).addr NDIRECT)) (p : Nat × Nat) :
    slots sb blk' f' p = slots sb blk f p := by
  simp only [slots]
  by_cases hi : p.1 < sb.ninodes
  · rw [hf _ hi]
    split
    · next h => exact slot_congr (hblk _ hi h.2.1)
    · rfl
  · rw [if_neg fun h => hi h.1, if_neg fun h => hi h.1]

theorem view_self : view sb blk i d i = d := Function.update_self ..

theorem view_of_ne (h : j ≠ i) : view sb blk i d j = dinode sb blk j := Function.update_of_ne h ..

theorem view_dinode : view sb blk i (dinode sb blk i) = dinode sb blk := Function.update_eq_self ..

end Slots

namespace Owned

variable {sb : Superblock} {blk blk' : Disk} {f f' : Nat → Dinode} {b : Nat}

/-- A change that leaves the bitmap, the inodes and the indirect blocks as they are. -/
theorem frame (h : Owned sb blk f) (hused : ∀ b < sb.size, used sb blk' b = used sb blk b)
    (hf : ∀ i < sb.ninodes, f' i = f i)
    (hblk : ∀ i < sb.ninodes, (f i).type ≠ 0 → (f i).addr NDIRECT ≠ 0 →
      blk' ((f i).addr NDIRECT) = blk ((f i).addr NDIRECT)) : Owned sb blk' f' := by
  refine ⟨h.exact.congr (slots_congr hf hblk) fun b _ hb => hused b hb, fun b hb => ?_⟩
  rw [hused b (Nat.lt_of_lt_of_le hb (Nat.sub_le _ _))]
  exact h.head b hb

/-- A block that is not marked is a data block. -/
theorem datastart_le (h : Owned sb blk f) (hfree : used sb blk b = false) : sb.datastart ≤ b := by
  by_contra hlt
  rw [h.head b (Nat.lt_of_not_le hlt)] at hfree
  cases hfree

end Owned

/-! ## Allocation -/

namespace Core

variable {sb : Superblock} {s : Core} {b c i : Nat} {x : Block}

@[simp] theorem put_blk : (s.put b x).blk = Function.update s.blk b x := rfl
@[simp] theorem put_logged : (s.put b x).logged = s.logged := rfl
@[simp] theorem put_outstanding : (s.put b x).outstanding = s.outstanding := rfl
@[simp] theorem log_blk : (s.log b).blk = s.blk := rfl
@[simp] theorem log_outstanding : (s.log b).outstanding = s.outstanding := rfl

theorem mem_log : c ∈ (s.log b).logged ↔ c ∈ s.logged ∨ c = b := by
  simp only [log]
  split
  · next hmem =>
    refine ⟨.inl, ?_⟩
    rintro (h | rfl)
    · exact h
    · exact hmem
  · rw [List.mem_append, List.mem_singleton]

/-- `iupdate` has written inode `i`. -/
def store (sb : Superblock) (s : Core) (i : Nat) (d : Dinode) : Core :=
  ({ s with blk := setDinode sb s.blk i d } : Core).log (sb.iblock i)

/-- `balloc` has returned `b`. -/
def alloc (sb : Superblock) (s : Core) (b : Nat) : Core :=
  ((({ s with blk := setUsed sb s.blk b } : Core).log (sb.bblock b)).put b fun _ => 0).log b

@[simp] theorem alloc_outstanding : (s.alloc sb b).outstanding = s.outstanding := rfl

theorem mem_alloc : c ∈ (s.alloc sb b).logged ↔ c ∈ s.logged ∨ c = sb.bblock b ∨ c = b := by
  rw [alloc, mem_log, put_logged, mem_log, or_assoc]

theorem alloc_self : (s.alloc sb b).blk b = fun _ => 0 := Function.update_self ..

theorem alloc_of_ne (h : c ≠ b) (hc : c ≠ sb.bblock b) : (s.alloc sb b).blk c = s.blk c := by
  rw [alloc, log_blk, put_blk, Function.update_of_ne h, log_blk]
  exact Function.update_of_ne hc ..

end Core

section Rules

variable {sb : Superblock} {s : Core} {b : Nat} {x : Block}
variable {Q : PUnit → Core → Prop} {R : Nat → Core → Prop} {E : Stop → Core → Prop}

@[simp] theorem wp_setBuf : wp (setBuf b x) Q E s ↔ Q ⟨⟩ (s.put b x) := wp_modify

theorem wp_logWrite (hout : 0 < s.outstanding) : wp (logWrite b) Q E s ↔ Q ⟨⟩ (s.log b) := by
  simp only [logWrite, wp_bind, wp_get, wp_stopIf, wp_set]
  exact ⟨fun h => h.2 (by omega), fun h => ⟨fun hlt => absurd hlt (by omega), fun _ => h⟩⟩

theorem wp_iupdate {i : Nat} {d : Dinode} (hout : 0 < s.outstanding) :
    wp (iupdate sb i d) Q E s ↔ Q ⟨⟩ (s.store sb i d) := by
  simp only [iupdate, wp_bind, wp_modify]
  exact wp_logWrite hout

/-- `balloc` takes a free block, or there is none. -/
theorem wp_balloc (hout : 0 < s.outstanding)
    (hfull : (∀ b < sb.size, used sb s.blk b = true) → R 0 s)
    (htaken : ∀ b < sb.size, used sb s.blk b = false → R b (s.alloc sb b)) :
    wp (balloc sb) R E s := by
  simp only [balloc, wp_bind, wp_get]
  cases hfind : (List.range sb.size).find? fun b => !used sb s.blk b with
  | none =>
    refine wp_pure.mpr (hfull fun b hb => ?_)
    simpa using List.find?_eq_none.mp hfind b (List.mem_range.mpr hb)
  | some b =>
    have hb := List.mem_range.mp (List.mem_of_find?_eq_some hfind)
    have hfree : used sb s.blk b = false := by simpa using List.find?_some hfind
    simp only [wp_bind, wp_set, bzero]
    refine (wp_logWrite ?_).mpr ?_
    · exact hout
    · rw [wp_setBuf]
      refine (wp_logWrite ?_).mpr (wp_pure.mpr (htaken b hb hfree))
      exact hout

end Rules

/-- A block that `balloc` may take. -/
structure Free (sb : Superblock) (blk : Disk) (b : Nat) : Prop where
  low : sb.datastart ≤ b
  high : b < sb.size
  free : used sb blk b = false

namespace Free

variable {sb : Superblock} {s : Core} {b c i : Nat}

theorem used_alloc (h : Free sb s.blk b) (hsb : sb.Wf) (hc : c < sb.size) :
    used sb (s.alloc sb b).blk c = (used sb s.blk c || decide (c = b)) := by
  rw [Core.alloc, Core.log_blk, Core.put_blk, used_update_data hsb h.low hc, Core.log_blk]
  exact used_setUsed

theorem dinode_alloc (h : Free sb s.blk b) (hsb : sb.Wf) (hi : i < sb.ninodes) :
    dinode sb (s.alloc sb b).blk i = dinode sb s.blk i := by
  rw [Core.alloc, Core.log_blk, Core.put_blk, dinode_update_data hsb hi h.low, Core.log_blk]
  exact dinode_update_bitmap hsb hi h.high

/-- The other data blocks stay as they are. -/
theorem alloc_data (h : Free sb s.blk b) (hsb : sb.Wf) (hc : sb.datastart ≤ c) (hne : c ≠ b) :
    (s.alloc sb b).blk c = s.blk c := by
  have := (hsb.bblock h.high).2
  exact Core.alloc_of_ne hne (by omega)

theorem mem_alloc_of_changed (h : (s.alloc sb b).blk c ≠ s.blk c) : c ∈ (s.alloc sb b).logged := by
  rw [Core.mem_alloc]
  by_contra hnot
  simp only [not_or] at hnot
  exact h (Core.alloc_of_ne hnot.2.2 hnot.2.1)

end Free

/-! ## Growth of one inode -/

/-- The inode `i` is `d` in memory, and all blocks are accounted for. -/
structure Held (sb : Superblock) (s : Core) (i : Nat) (d : Dinode) : Prop where
  inum : i < sb.ninodes
  type : d.type ≠ 0
  owned : Owned sb s.blk (view sb s.blk i d)

namespace Held

variable {sb : Superblock} {s : Core} {i j k k' b : Nat} {d : Dinode}

theorem slots_eq (h : Held sb s i d) (hk : k < NSLOT) :
    slots sb s.blk (view sb s.blk i d) (i, k) = slot s.blk d k := by
  have htype : (view sb s.blk i d i).type ≠ 0 := by
    rw [view_self]
    exact h.type
  rw [slots_of_lt h.inum htype hk, view_self]

theorem slot_range (h : Held sb s i d) (hk : k < NSLOT) (hne : slot s.blk d k ≠ 0) :
    sb.datastart ≤ slot s.blk d k ∧ slot s.blk d k < sb.size := by
  rw [← h.slots_eq hk] at hne ⊢
  exact h.owned.exact.range _ hne

theorem slot_inj (h : Held sb s i d) (hk : k < NSLOT) (hk' : k' < NSLOT)
    (hne : slot s.blk d k ≠ 0) (heq : slot s.blk d k = slot s.blk d k') : k = k' := by
  rw [← h.slots_eq hk] at hne heq
  rw [← h.slots_eq hk'] at heq
  exact congrArg Prod.snd (h.owned.exact.once _ _ hne heq)

theorem slot_ne (h : Held sb s i d) (hk : k < NSLOT) (hk' : k' < NSLOT) (hne : slot s.blk d k ≠ 0)
    (hkk : k ≠ k') : slot s.blk d k ≠ slot s.blk d k' :=
  fun heq => hkk (h.slot_inj hk hk' hne heq)

/-- A block that is free is in no slot. -/
theorem slot_ne_free (h : Held sb s i d) (hk : k < NSLOT) (hfree : Free sb s.blk b) :
    slot s.blk d k ≠ b := by
  rw [← h.slots_eq hk]
  exact h.owned.exact.slot_ne hfree.low hfree.high hfree.free

/-- The blocks of another inode are not its blocks. -/
theorem slot_ne_other (h : Held sb s i d) (hk : k < NSLOT) (hji : j ≠ i)
    (hne : slots sb s.blk (view sb s.blk i d) (j, k') ≠ 0) :
    slot s.blk d k ≠ slots sb s.blk (view sb s.blk i d) (j, k') := by
  rw [← h.slots_eq hk]
  intro heq
  exact hji (congrArg Prod.fst (h.owned.exact.once _ _ hne heq.symm))

end Held

/-- The inodes on the disk, and the blocks that are in use but are not those of inode `i`, stay
as they are. -/
structure Spares (sb : Superblock) (d : Dinode) (s s' : Core) : Prop where
  inodes : ∀ j < sb.ninodes, dinode sb s'.blk j = dinode sb s.blk j
  others : ∀ b, sb.datastart ≤ b → b < sb.size → used sb s.blk b = true →
    (∀ k < NSLOT, slot s.blk d k ≠ b) → s'.blk b = s.blk b

namespace Spares

variable {sb : Superblock} {i j k b : Nat} {s s' : Core} {d d' : Dinode}

/-- A block of another inode keeps its contents. -/
theorem other_block (h : Spares sb d s s') (hd : Held sb s i d) (hji : j ≠ i)
    (hb : slots sb s.blk (view sb s.blk i d) (j, k) = b) (hne : b ≠ 0) : s'.blk b = s.blk b := by
  subst hb
  have hrange := hd.owned.exact.range _ hne
  exact h.others _ hrange.1 hrange.2 (hd.owned.exact.mark_slot hne) fun k' hk' =>
    hd.slot_ne_other hk' hji hne

/-- So do the slots of another inode. -/
theorem other_slot (h : Spares sb d s s') (hd : Held sb s i d) (hji : j ≠ i) :
    slots sb s'.blk (view sb s'.blk i d') (j, k) = slots sb s.blk (view sb s.blk i d) (j, k) := by
  simp only [slots, view_of_ne hji]
  by_cases hj : j < sb.ninodes
  · rw [h.inodes j hj]
    split
    · next hlive =>
      have hind : slots sb s.blk (view sb s.blk i d) (j, NDIRECT) =
          (dinode sb s.blk j).addr NDIRECT := by
        rw [slots_of_lt hj (by rw [view_of_ne hji]; exact hlive.2.1) (by decide), view_of_ne hji,
          slot_of_le (Nat.le_refl _)]
      exact slot_congr fun hne => h.other_block hd hji hind hne
    · rfl
  · rw [if_neg fun hlive => hj hlive.1, if_neg fun hlive => hj hlive.1]

/-- The slots of all inodes, if `T` are those of inode `i`. -/
theorem slots_eq {T : Nat → Nat} (h : Spares sb d s s') (hd : Held sb s i d) (htype : d'.type ≠ 0)
    (hT : ∀ k < NSLOT, slot s'.blk d' k = T k) : slots sb s'.blk (view sb s'.blk i d') (j, k) =
      if j = i ∧ k < NSLOT then T k else slots sb s.blk (view sb s.blk i d) (j, k) := by
  split
  · next hik =>
    obtain ⟨rfl, hk⟩ := hik
    have htype' : (view sb s'.blk j d' j).type ≠ 0 := by rwa [view_self]
    rw [slots_of_lt hd.inum htype' hk, view_self, hT k hk]
  · next hik =>
    by_cases hji : j = i
    · have hk : ¬ k < NSLOT := fun hk => hik ⟨hji, hk⟩
      rw [slots, slots, if_neg fun hlive => hk hlive.2.2, if_neg fun hlive => hk hlive.2.2]
    · exact h.other_slot hd hji

end Spares

/-- Inode `i` has got further blocks, and `d` has become `d'`. -/
structure Extends (sb : Superblock) (i : Nat) (s : Core) (d : Dinode) (s' : Core) (d' : Dinode) :
    Prop extends Spares sb d s s' where
  info : d' = { d with addrs := d'.addrs }
  owned : Owned sb s'.blk (view sb s'.blk i d')
  grows : ∀ b < sb.size, used sb s.blk b = true → used sb s'.blk b = true
  kept : ∀ k < NSLOT, slot s.blk d k ≠ 0 → slot s'.blk d' k = slot s.blk d k
  outstanding : s'.outstanding = s.outstanding
  logged : ∀ b ∈ s.logged, b ∈ s'.logged

namespace Extends

variable {sb : Superblock} {i j k b : Nat} {s s' s'' : Core} {d d' d'' : Dinode}

theorem refl (h : Held sb s i d) : Extends sb i s d s d where
  info := rfl
  inodes _ _ := rfl
  owned := h.owned
  grows _ _ hb := hb
  kept _ _ _ := rfl
  others _ _ _ _ _ := rfl
  outstanding := rfl
  logged _ hb := hb

theorem held (h : Extends sb i s d s' d') (hd : Held sb s i d) : Held sb s' i d' where
  inum := hd.inum
  type := by
    rw [h.info]
    exact hd.type
  owned := h.owned

theorem size_eq (h : Extends sb i s d s' d') : d'.size = d.size := by rw [h.info]

/-- A block that was in use, and is in a slot of the inode, was in a slot of it. -/
theorem slot_was (h : Extends sb i s d s' d') (hd : Held sb s i d) (hlow : sb.datastart ≤ b)
    (hhigh : b < sb.size) (hused : used sb s.blk b = true) (hk : k < NSLOT)
    (heq : slot s'.blk d' k = b) : ∃ k' < NSLOT, slot s.blk d k' = b := by
  obtain ⟨⟨j, k'⟩, hjk⟩ := (hd.owned.exact.marked b hlow hhigh).mp hused
  have hb := hd.owned.exact.ne_zero hlow
  have hk' := (slots_ne_zero (hjk.trans_ne hb)).2.2
  by_cases hji : j = i
  · subst hji
    exact ⟨k', hk', by rw [← hd.slots_eq hk', hjk]⟩
  · have hother : slots sb s'.blk (view sb s'.blk i d') (j, k') = b :=
      (h.other_slot hd hji).trans hjk
    exact absurd (heq.trans hother.symm) ((h.held hd).slot_ne_other hk hji (hother.trans_ne hb))

theorem trans (h : Extends sb i s d s' d') (h' : Extends sb i s' d' s'' d'') (hd : Held sb s i d) :
    Extends sb i s d s'' d'' where
  info := by
    rw [h'.info, h.info]
  inodes j hj := (h'.inodes j hj).trans (h.inodes j hj)
  owned := h'.owned
  grows b hb hu := h'.grows b hb (h.grows b hb hu)
  kept k hk hne := by
    have heq := h.kept k hk hne
    rw [← heq] at hne ⊢
    exact h'.kept k hk hne
  others b hlow hhigh hused hnot := by
    rw [← h.others b hlow hhigh hused hnot]
    refine h'.others b hlow hhigh (h.grows b hhigh hused) fun k hk heq => ?_
    obtain ⟨k', hk', hwas⟩ := h.slot_was hd hlow hhigh hused hk heq
    exact hnot k' hk' hwas
  outstanding := h'.outstanding.trans h.outstanding
  logged b hb := h'.logged b (h.logged b hb)

/-- The slots of the inode and the bitmap stay as they are. -/
theorem same (hd : Held sb s i d) (hspares : Spares sb d s s')
    (hused : ∀ c < sb.size, used sb s'.blk c = used sb s.blk c)
    (hslot : ∀ k < NSLOT, slot s'.blk d k = slot s.blk d k) (hout : s'.outstanding = s.outstanding)
    (hlogged : ∀ c ∈ s.logged, c ∈ s'.logged) : Extends sb i s d s' d where
  toSpares := hspares
  info := rfl
  owned := by
    have hslots : ∀ p, slots sb s'.blk (view sb s'.blk i d) p =
        slots sb s.blk (view sb s.blk i d) p := by
      rintro ⟨j, k⟩
      rw [hspares.slots_eq hd hd.type hslot]
      split
      · next hik =>
        obtain ⟨rfl, hk⟩ := hik
        rw [hd.slots_eq hk]
      · rfl
    refine ⟨hd.owned.exact.congr hslots fun c _ hc => hused c hc, fun c hc => ?_⟩
    rw [hused c (Nat.lt_of_lt_of_le hc (Nat.sub_le _ _)), hd.owned.head c hc]
  grows c hc hu := by rw [hused c hc, hu]
  kept k hk _ := hslot k hk
  outstanding := hout
  logged := hlogged

/-- A free block is put into an empty slot. -/
theorem assign (hd : Held sb s i d) (hfree : Free sb s.blk b) (hk : k < NSLOT)
    (hempty : slot s.blk d k = 0) (hspares : Spares sb d s s')
    (hinfo : d' = { d with addrs := d'.addrs })
    (hused : ∀ c < sb.size, used sb s'.blk c = (used sb s.blk c || decide (c = b)))
    (hslot : ∀ k' < NSLOT, slot s'.blk d' k' = if k' = k then b else slot s.blk d k')
    (hout : s'.outstanding = s.outstanding) (hlogged : ∀ c ∈ s.logged, c ∈ s'.logged) :
    Extends sb i s d s' d' where
  toSpares := hspares
  info := hinfo
  owned := by
    have htype : d'.type ≠ 0 := by
      rw [hinfo]
      exact hd.type
    have hslots : ∀ p, slots sb s'.blk (view sb s'.blk i d') p =
        Function.update (slots sb s.blk (view sb s.blk i d)) (i, k) b p := by
      rintro ⟨j, k'⟩
      rw [hspares.slots_eq hd htype hslot]
      by_cases hp : (j, k') = (i, k)
      · obtain ⟨rfl, rfl⟩ := Prod.mk.inj hp
        rw [Function.update_self, if_pos ⟨rfl, hk⟩, if_pos rfl]
      · rw [Function.update_of_ne hp]
        split
        · next hik =>
          obtain ⟨rfl, hk'⟩ := hik
          have hkk : k' ≠ k := fun heq => hp (by rw [heq])
          rw [if_neg hkk, hd.slots_eq hk']
        · rfl
    have hold : slots sb s.blk (view sb s.blk i d) (i, k) = 0 := by rw [hd.slots_eq hk, hempty]
    have hassign := hd.owned.exact.assign hfree.low hfree.high hfree.free hold
      fun c _ hc => hused c hc
    refine ⟨hassign.congr hslots fun _ _ _ => rfl, fun c hc => ?_⟩
    rw [hused c (Nat.lt_of_lt_of_le hc (Nat.sub_le _ _)), hd.owned.head c hc, Bool.true_or]
  grows c hc hu := by rw [hused c hc, hu, Bool.true_or]
  kept k' hk' hne := by
    have hkk : k' ≠ k := fun heq => hne (heq ▸ hempty)
    rw [hslot k' hk', if_neg hkk]
  outstanding := hout
  logged := hlogged

end Extends

/-- What `bmap` does: the inode grows, and its slots outside of `K` are not filled. Its other
blocks, but for the indirect block, keep their contents and are not logged. -/
structure Grown (sb : Superblock) (i : Nat) (K : Nat → Prop) (s : Core) (d : Dinode) (s' : Core)
    (d' : Dinode) : Prop extends Extends sb i s d s' d' where
  content : ∀ k < NSLOT, k ≠ NDIRECT → slot s.blk d k ≠ 0 →
    s'.blk (slot s.blk d k) = s.blk (slot s.blk d k)
  changed : ∀ c, s'.blk c ≠ s.blk c → c ∈ s'.logged
  only : ∀ c ∈ s'.logged, c ∈ s.logged ∨
    ∀ k < NSLOT, k ≠ NDIRECT → slot s.blk d k ≠ 0 → slot s.blk d k ≠ c
  filled : ∀ k < NSLOT, slot s'.blk d' k ≠ 0 → slot s.blk d k ≠ 0 ∨ K k

namespace Grown

variable {sb : Superblock} {i k b : Nat} {K L : Nat → Prop} {s s' s'' : Core} {d d' d'' : Dinode}

theorem refl (h : Held sb s i d) : Grown sb i K s d s d where
  toExtends := Extends.refl h
  content _ _ _ _ := rfl
  changed _ hc := absurd rfl hc
  only _ hc := .inl hc
  filled _ _ hne := .inl hne

theorem trans (h : Grown sb i K s d s' d') (h' : Grown sb i L s' d' s'' d'') (hd : Held sb s i d) :
    Grown sb i (fun k => K k ∨ L k) s d s'' d'' where
  toExtends := h.toExtends.trans h'.toExtends hd
  content k hk hkn hne := by
    have heq := h.kept k hk hne
    rw [← h.content k hk hkn hne, ← heq]
    exact h'.content k hk hkn (heq.trans_ne hne)
  changed c hc := by
    by_cases hmid : s''.blk c = s'.blk c
    · rw [hmid] at hc
      exact h'.logged c (h.changed c hc)
    · exact h'.changed c hmid
  only c hc := by
    rcases h'.only c hc with hc' | hnot
    · exact h.only c hc'
    · refine .inr fun k hk hkn hne => ?_
      have heq := h.kept k hk hne
      rw [← heq]
      exact hnot k hk hkn (heq.trans_ne hne)
  filled k hk hne := by
    rcases h'.filled k hk hne with hne' | hl
    · exact (h.filled k hk hne').imp id .inl
    · exact .inr (.inr hl)

theorem mono (h : Grown sb i K s d s' d') (hKL : ∀ k, K k → L k) : Grown sb i L s d s' d' :=
  { h with filled := fun k hk hne => (h.filled k hk hne).imp id (hKL k) }

variable (hsb : sb.Wf) (hd : Held sb s i d) (hfree : Free sb s.blk b)

include hsb hfree in
theorem alloc_spares : Spares sb d s (s.alloc sb b) where
  inodes j hj := hfree.dinode_alloc hsb hj
  others c hlow _ hused _ := by
    refine hfree.alloc_data hsb hlow fun heq => ?_
    rw [heq, hfree.free] at hused
    cases hused

include hsb hd hfree in
/-- The blocks of the inode are not touched by the allocation of another. -/
theorem alloc_content (hk : k < NSLOT) (hne : slot s.blk d k ≠ 0) :
    (s.alloc sb b).blk (slot s.blk d k) = s.blk (slot s.blk d k) :=
  hfree.alloc_data hsb (hd.slot_range hk hne).1 (hd.slot_ne_free hk hfree)

include hsb hd hfree in
theorem alloc_only {c : Nat} (hc : c ∈ (s.alloc sb b).logged) : c ∈ s.logged ∨
    ∀ k < NSLOT, k ≠ NDIRECT → slot s.blk d k ≠ 0 → slot s.blk d k ≠ c := by
  rcases Core.mem_alloc.mp hc with hc | rfl | rfl
  · exact .inl hc
  · refine .inr fun k hk _ hne heq => ?_
    have hlow := (hd.slot_range hk hne).1
    have hhigh := (hsb.bblock hfree.high).2
    omega
  · exact .inr fun k hk _ _ => hd.slot_ne_free hk hfree

include hsb hd hfree in
/-- The slots after a free block has become an address. -/
theorem slot_setAddr (hk : k ≤ NDIRECT) (hempty : d.addr k = 0) {k' : Nat} :
    slot (s.alloc sb b).blk (d.setAddr k b) k' = if k' = k then b else slot s.blk d k' := by
  have hb : b < UINT := Nat.lt_trans hfree.high (Nat.lt_trans hsb.size (by decide))
  by_cases hk' : k' ≤ NDIRECT
  · rw [slot_of_le hk', slot_of_le hk']
    split
    · next heq => rw [heq, Dinode.addr_setAddr hk hb]
    · next hne => exact Dinode.addr_setAddr_ne hne
  · have hne : k' ≠ k := fun heq => hk' (heq ▸ hk)
    rw [if_neg hne]
    by_cases hind : k = NDIRECT
    · subst hind
      have hzero : b ≠ 0 := hd.owned.exact.ne_zero hfree.low
      rw [slot, slot, if_neg hk', if_neg hk', if_pos hempty, Dinode.addr_setAddr hk hb,
        if_neg hzero, Core.alloc_self, getUint_zero]
    · have haddr : (d.setAddr k b).addr NDIRECT = d.addr NDIRECT :=
        Dinode.addr_setAddr_ne (Ne.symm hind)
      have hsame : slot (s.alloc sb b).blk d k' = slot s.blk d k' := by
        refine slot_congr fun hne => ?_
        have hslot : slot s.blk d NDIRECT = d.addr NDIRECT := slot_of_le (Nat.le_refl _)
        rw [← hslot] at hne ⊢
        exact alloc_content hsb hd hfree (by decide) hne
      rw [← hsame, slot, slot, if_neg hk', if_neg hk', haddr]

include hsb hd hfree in
/-- A free block becomes an address of the inode. -/
theorem setAddr (hk : k ≤ NDIRECT) (hempty : d.addr k = 0) :
    Grown sb i (fun k' => k' = k) s d (s.alloc sb b) (d.setAddr k b) where
  toExtends := by
    have hlt : k < NSLOT := Nat.lt_of_le_of_lt hk (by decide)
    refine Extends.assign hd hfree hlt ?_ (alloc_spares hsb hfree) rfl
      (fun c hc => hfree.used_alloc hsb hc) (fun k' _ => slot_setAddr hsb hd hfree hk hempty)
      rfl fun c hc => Core.mem_alloc.mpr (.inl hc)
    rw [slot_of_le hk, hempty]
  content k' hk' _ hne := alloc_content hsb hd hfree hk' hne
  changed c hc := Free.mem_alloc_of_changed hc
  only c hc := alloc_only hsb hd hfree hc
  filled k' _ hne := by
    rw [slot_setAddr hsb hd hfree hk hempty] at hne
    split at hne
    · next heq => exact .inr heq
    · exact .inl hne

end Grown

namespace Core

variable {sb : Superblock} {s : Core} {b c ind j : Nat}

/-- `bmap` has put the new block `b` into entry `j` of the indirect block. -/
def allocEntry (sb : Superblock) (s : Core) (b ind j : Nat) : Core :=
  ((s.alloc sb b).put ind (putUint ((s.alloc sb b).blk ind) j b)).log ind

theorem mem_allocEntry :
    c ∈ (s.allocEntry sb b ind j).logged ↔ c ∈ (s.alloc sb b).logged ∨ c = ind := mem_log

theorem allocEntry_of_ne (h : c ≠ ind) :
    (s.allocEntry sb b ind j).blk c = (s.alloc sb b).blk c := Function.update_of_ne h ..

theorem allocEntry_ind :
    (s.allocEntry sb b ind j).blk ind = putUint ((s.alloc sb b).blk ind) j b :=
  Function.update_self ..

end Core

namespace Grown

variable {sb : Superblock} {i j b c : Nat} {s : Core} {d : Dinode}
variable (hsb : sb.Wf) (hd : Held sb s i d) (hfree : Free sb s.blk b) (hind : d.addr NDIRECT ≠ 0)

include hd hind in
/-- The indirect block is one of the blocks of the inode. -/
theorem indirect_range : sb.datastart ≤ d.addr NDIRECT ∧ d.addr NDIRECT < sb.size := by
  have hslot : slot s.blk d NDIRECT = d.addr NDIRECT := slot_of_le (Nat.le_refl _)
  rw [← hslot] at hind ⊢
  exact hd.slot_range (by decide) hind

include hd hind in
theorem slot_ne_indirect {k : Nat} (hk : k < NSLOT) (hkn : k ≠ NDIRECT) :
    slot s.blk d k ≠ d.addr NDIRECT := by
  have hslot : slot s.blk d NDIRECT = d.addr NDIRECT := slot_of_le (Nat.le_refl _)
  rw [← hslot] at hind ⊢
  exact (hd.slot_ne (by decide) hk hind (Ne.symm hkn)).symm

include hsb hd hfree hind in
theorem slot_allocEntry (hj : j < NINDIRECT) {k : Nat} :
    slot (s.allocEntry sb b (d.addr NDIRECT) j).blk d k =
      if k = NDIRECT + 1 + j then b else slot s.blk d k := by
  have hb : b < UINT := Nat.lt_trans hfree.high (Nat.lt_trans hsb.size (by decide))
  have hkeep : (s.alloc sb b).blk (d.addr NDIRECT) = s.blk (d.addr NDIRECT) := by
    have hslot : slot s.blk d NDIRECT = d.addr NDIRECT := slot_of_le (Nat.le_refl _)
    rw [← hslot] at hind ⊢
    exact alloc_content hsb hd hfree (by decide) hind
  by_cases hk : k ≤ NDIRECT
  · rw [slot_of_le hk, slot_of_le hk, if_neg (by omega)]
  · obtain ⟨j', rfl⟩ := Nat.exists_eq_add_of_le (Nat.lt_of_not_le hk)
    rw [slot_entry hind, slot_entry hind, Core.allocEntry_ind, hkeep]
    split
    · next heq =>
      obtain rfl : j' = j := by omega
      exact getUint_putUint hb
    · next hne => exact getUint_putUint_ne (by omega)

include hsb hd hfree hind in
theorem allocEntry_spares : Spares sb d s (s.allocEntry sb b (d.addr NDIRECT) j) where
  inodes j hj := by
    rw [Core.allocEntry, Core.log_blk, Core.put_blk,
      dinode_update_data hsb hj (indirect_range hd hind).1]
    exact hfree.dinode_alloc hsb hj
  others c hlow hhigh hused hnot := by
    have hne : c ≠ d.addr NDIRECT := by
      have := hnot NDIRECT (by decide)
      rw [slot_of_le (Nat.le_refl _)] at this
      exact this.symm
    rw [Core.allocEntry_of_ne hne]
    exact (alloc_spares hsb hfree).others c hlow hhigh hused hnot

include hsb hd hfree hind in
/-- A free block becomes an entry of the indirect block. -/
theorem setEntry (hj : j < NINDIRECT) (hempty : getUint (s.blk (d.addr NDIRECT)) j = 0) :
    Grown sb i (fun k => k = NDIRECT + 1 + j) s d (s.allocEntry sb b (d.addr NDIRECT) j) d where
  toExtends := by
    have hlt : NDIRECT + 1 + j < NSLOT := Nat.add_lt_add_left hj _
    refine Extends.assign hd hfree hlt ?_ (allocEntry_spares hsb hd hfree hind) rfl (fun c hc => ?_)
      (fun k _ => slot_allocEntry hsb hd hfree hind hj) rfl fun c hc => ?_
    · rw [slot_entry hind, hempty]
    · rw [Core.allocEntry, Core.log_blk, Core.put_blk,
        used_update_data hsb (indirect_range hd hind).1 hc]
      exact hfree.used_alloc hsb hc
    · exact Core.mem_allocEntry.mpr (.inl (Core.mem_alloc.mpr (.inl hc)))
  content k hk hkn hne := by
    rw [Core.allocEntry_of_ne (slot_ne_indirect hd hind hk hkn)]
    exact alloc_content hsb hd hfree hk hne
  changed c hc := by
    by_cases hci : c = d.addr NDIRECT
    · exact Core.mem_allocEntry.mpr (.inr hci)
    · rw [Core.allocEntry_of_ne hci] at hc
      exact Core.mem_allocEntry.mpr (.inl (Free.mem_alloc_of_changed hc))
  only c hc := by
    rcases Core.mem_allocEntry.mp hc with hc | rfl
    · exact alloc_only hsb hd hfree hc
    · exact .inr fun k hk hkn _ => slot_ne_indirect hd hind hk hkn
  filled k _ hne := by
    rw [slot_allocEntry hsb hd hfree hind hj] at hne
    split at hne
    · next heq => exact .inr heq
    · exact .inl hne

end Grown

/-! ## `bmap` -/

/-- What `bmap` returns for slot `k`: its block, or 0 if the disk is full. -/
structure Mapped (sb : Superblock) (i : Nat) (K : Nat → Prop) (k : Nat) (s : Core) (d : Dinode)
    (r : Nat) (s' : Core) (d' : Dinode) : Prop extends Grown sb i K s d s' d' where
  result : r = slot s'.blk d' k
  fresh : slot s.blk d k = 0 → r ≠ 0 → r ∈ s'.logged

section Bmap

variable {sb : Superblock} {i k bn : Nat} {s : Core} {d : Dinode} {E : Stop → Core → Prop}

theorem wp_addrOrAlloc (hsb : sb.Wf) (hd : Held sb s i d) (hout : 0 < s.outstanding)
    (hk : k ≤ NDIRECT) : wp (addrOrAlloc sb d k)
      (fun r s' => Mapped sb i (fun k' => k' = k) k s d r.1 s' r.2) E s := by
  rw [addrOrAlloc]
  split
  · next hempty =>
    have hslot : slot s.blk d k = 0 := by rw [slot_of_le hk, hempty]
    rw [wp_bind]
    refine wp_balloc hout (fun _ => ?_) fun b hb hfree => ?_
    · exact wp_pure.mpr ⟨Grown.refl hd, hslot.symm, fun _ hne => absurd rfl hne⟩
    · have hfree : Free sb s.blk b := ⟨hd.owned.datastart_le hfree, hb, hfree⟩
      rw [if_neg (hd.owned.exact.ne_zero hfree.low)]
      refine wp_pure.mpr ⟨Grown.setAddr hsb hd hfree hk hempty, ?_, fun _ _ => ?_⟩
      · rw [Grown.slot_setAddr hsb hd hfree hk hempty, if_pos rfl]
      · exact Core.mem_alloc.mpr (.inr (.inr rfl))
  · next hne =>
    have hslot : slot s.blk d k = d.addr k := slot_of_le hk
    exact wp_pure.mpr ⟨Grown.refl hd, hslot.symm, fun hzero => absurd (hslot.symm.trans hzero) hne⟩

theorem wp_entryOrAlloc {j : Nat} (hsb : sb.Wf) (hd : Held sb s i d) (hout : 0 < s.outstanding)
    (hind : d.addr NDIRECT ≠ 0) (hj : j < NINDIRECT) : wp (entryOrAlloc sb (d.addr NDIRECT) j)
      (fun r s' => Mapped sb i (fun k => k = NDIRECT + 1 + j) (NDIRECT + 1 + j) s d r s' d) E s := by
  have hslot : slot s.blk d (NDIRECT + 1 + j) = getUint (s.blk (d.addr NDIRECT)) j :=
    slot_entry hind
  simp only [entryOrAlloc, wp_bind, wp_get]
  split
  · next hempty =>
    rw [wp_bind]
    refine wp_balloc hout (fun _ => ?_) fun b hb hfree => ?_
    · exact wp_pure.mpr ⟨Grown.refl hd, (hslot.trans hempty).symm, fun _ hne => absurd rfl hne⟩
    · have hfree : Free sb s.blk b := ⟨hd.owned.datastart_le hfree, hb, hfree⟩
      rw [if_pos (hd.owned.exact.ne_zero hfree.low)]
      simp only [wp_bind, wp_get, wp_setBuf]
      refine (wp_logWrite ?_).mpr (wp_pure.mpr ⟨Grown.setEntry hsb hd hfree hind hj hempty, ?_, ?_⟩)
      · exact hout
      · exact (if_pos rfl).symm.trans (Grown.slot_allocEntry hsb hd hfree hind hj).symm
      · intro _ _
        exact Core.mem_allocEntry.mpr (.inl (Core.mem_alloc.mpr (.inr (.inr rfl))))
  · next hne =>
    exact wp_pure.mpr ⟨Grown.refl hd, hslot.symm, fun hzero => absurd (hslot.symm.trans hzero) hne⟩

/-- `bmap` returns the block of the file, allocating it and the indirect block if need be. -/
theorem wp_bmap (hsb : sb.Wf) (hd : Held sb s i d) (hout : 0 < s.outstanding) (hbn : bn < MAXFILE) :
    wp (bmap sb d bn) (fun r s' => Mapped sb i (fun k => k = NDIRECT ∨ k = fileSlot bn)
      (fileSlot bn) s d r.1 s' r.2) E s := by
  rw [bmap]
  split
  · next hdirect =>
    have hslot : fileSlot bn = bn := if_pos hdirect
    rw [hslot]
    refine (wp_addrOrAlloc hsb hd hout (Nat.le_of_lt hdirect)).imp fun r s' h => ?_
    exact { h with toGrown := h.toGrown.mono fun k => .inr }
  · next hdirect =>
    have hj : bn - NDIRECT < NINDIRECT := by
      simp only [MAXFILE, NDIRECT, NINDIRECT] at *
      omega
    have hslot : fileSlot bn = NDIRECT + 1 + (bn - NDIRECT) := by
      rw [fileSlot, if_neg hdirect]
      omega
    rw [if_pos hj, wp_bind, hslot]
    refine (wp_addrOrAlloc hsb hd hout (Nat.le_refl _)).imp fun r s' h => ?_
    obtain ⟨ind, d'⟩ := r
    have hd' : Held sb s' i d' := h.held hd
    have hind : ind = d'.addr NDIRECT := h.result.trans (slot_of_le (Nat.le_refl _))
    dsimp only
    split
    · next hzero =>
      -- without an indirect block there is no entry
      have hslot' : slot s'.blk d' (NDIRECT + 1 + (bn - NDIRECT)) = 0 := by
        rw [slot, if_neg (by omega), if_pos (hind.symm.trans hzero)]
      exact wp_pure.mpr ⟨h.toGrown.mono fun k => .inl, hslot'.symm, fun _ hne => absurd rfl hne⟩
    · next hne =>
      have hne' : d'.addr NDIRECT ≠ 0 := hind ▸ hne
      have hout' : 0 < s'.outstanding := by rw [h.outstanding]; exact hout
      rw [wp_bind]
      simp only [hind]
      refine (wp_entryOrAlloc hsb hd' hout' hne' hj).imp fun r s'' h' => ?_
      refine wp_pure.mpr ⟨h.toGrown.trans h'.toGrown hd, h'.result, fun hempty hr => ?_⟩
      refine h'.fresh ?_ hr
      by_contra hfilled
      rcases h.filled _ (Nat.add_lt_add_left hj _) hfilled with hold | hnew
      · exact hold hempty
      · omega

/-- A block that is there is found. -/
theorem wp_bmap_hit {Q : Nat × Dinode → Core → Prop} (hbn : bn < MAXFILE)
    (hne : slot s.blk d (fileSlot bn) ≠ 0) :
    wp (bmap sb d bn) Q E s ↔ Q (slot s.blk d (fileSlot bn), d) s := by
  rw [bmap]
  split
  · next hdirect =>
    have hslot : slot s.blk d (fileSlot bn) = d.addr bn := by
      rw [fileSlot, if_pos hdirect, slot_of_le (Nat.le_of_lt hdirect)]
    rw [hslot] at hne ⊢
    rw [addrOrAlloc, if_neg hne, wp_pure]
  · next hdirect =>
    have hj : bn - NDIRECT < NINDIRECT := by
      simp only [MAXFILE, NDIRECT, NINDIRECT] at *
      omega
    have hk : fileSlot bn = NDIRECT + 1 + (bn - NDIRECT) := by
      rw [fileSlot, if_neg hdirect]
      omega
    have hind : d.addr NDIRECT ≠ 0 := by
      intro hzero
      rw [hk, slot, if_neg (by omega), if_pos hzero] at hne
      exact hne rfl
    have hslot : slot s.blk d (fileSlot bn) =
        getUint (s.blk (d.addr NDIRECT)) (bn - NDIRECT) := by rw [hk, slot_entry hind]
    rw [hslot] at hne ⊢
    simp only [if_pos hj, addrOrAlloc, if_neg hind, entryOrAlloc, wp_bind, wp_pure, wp_get, hne,
      if_false]

end Bmap

end Xv6.Fs
