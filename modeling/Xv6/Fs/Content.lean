-- SUMMARY: The contents of an inode: what `readi` delivers and what the loop of `writei` changes.
import Xv6.Fs.Blocks

/-!
# Contents of inodes

The bytes of an inode are spread over its blocks. An inode without holes has a block for every
byte below its size, and its blocks are the first ones. `readi` delivers the bytes and changes
nothing. The loop of `writei` goes through the blocks from the offset on; it may stop because
the disk is full, or because `copyin` fails, and then part of a block may have been copied.
-/

namespace Xv6.Fs

open Prog

/-- The byte at offset `x`. -/
def byteAt (blk : Disk) (d : Dinode) (x : Nat) : UInt8 :=
  blk (slot blk d (fileSlot (x / BSIZE))) (x % BSIZE)

def content (blk : Disk) (d : Dinode) : List UInt8 :=
  (List.range d.size.toNat).map (byteAt blk d)

/-- There is a block for every byte, and there are no gaps between the blocks. -/
structure Filled (blk : Disk) (d : Dinode) : Prop where
  size_le : d.size.toNat ≤ MAXFILE * BSIZE
  below : ∀ x < d.size.toNat, slot blk d (fileSlot (x / BSIZE)) ≠ 0
  closed : ∀ bn < MAXFILE, slot blk d (fileSlot bn) ≠ 0 → ∀ bn' < bn, slot blk d (fileSlot bn') ≠ 0

/-! ## `readi` -/

section Read

variable {sb : Superblock} {s : Core} {d : Dinode} {E : Stop → Core → Prop} {fails : Nat → Bool}
  {off n m rem fuel : Nat} {out : List UInt8}

theorem div_add_of_lt {k : Nat} (h : k < BSIZE - off % BSIZE) : (off + k) / BSIZE = off / BSIZE := by
  simp only [BSIZE] at *
  omega

theorem mod_add_of_lt {k : Nat} (h : k < BSIZE - off % BSIZE) :
    (off + k) % BSIZE = off % BSIZE + k := by
  simp only [BSIZE] at *
  omega

/-- A piece of a block is a piece of the file. -/
theorem slice_eq (hm : m ≤ BSIZE - off % BSIZE) :
    slice (s.blk (slot s.blk d (fileSlot (off / BSIZE)))) (off % BSIZE) m =
      (List.range m).map fun k => byteAt s.blk d (off + k) := by
  refine List.map_congr_left fun k hk => ?_
  have hk := Nat.lt_of_lt_of_le (List.mem_range.mp hk) hm
  rw [byteAt, div_add_of_lt hk, mod_add_of_lt hk]

/-- What a read of `rem` bytes from `off` on does: nothing to the state, and if no copy fails it
delivers the bytes after `out`. -/
def ReadsBytes (s : Core) (d : Dinode) (fails : Nat → Bool) (off rem : Nat) (out : List UInt8)
    (r : Bool × List UInt8 × Dinode) (s' : Core) : Prop :=
  s' = s ∧ r.2.2 = d ∧ ((∀ x, fails x = false) →
    r.1 = true ∧ r.2.1 = out ++ (List.range rem).map fun k => byteAt s.blk d (off + k))

theorem wp_readLoop (hd : Filled s.blk d) (hrem : rem ≤ fuel) (hsize : off + rem ≤ d.size.toNat) :
    wp (readLoop sb fails fuel d off rem out) (ReadsBytes s d fails off rem out) E s := by
  induction fuel generalizing off rem out with
  | zero =>
    obtain rfl : rem = 0 := Nat.le_zero.mp hrem
    exact wp_pure.mpr ⟨rfl, rfl, fun _ => ⟨rfl, (List.append_nil _).symm⟩⟩
  | succ fuel ih =>
    rw [readLoop]
    split
    · next hzero =>
      subst hzero
      exact wp_pure.mpr ⟨rfl, rfl, fun _ => ⟨rfl, (List.append_nil _).symm⟩⟩
    · next hpos =>
      have hne := hd.below off (by omega)
      have hbn : off / BSIZE < MAXFILE := by
        have := hd.size_le
        exact Nat.div_lt_of_lt_mul (by rw [Nat.mul_comm]; omega)
      rw [wp_bind, wp_bmap_hit hbn hne]
      dsimp only
      rw [if_neg hne, wp_bind, wp_get]
      split
      · next hfail =>
        refine wp_pure.mpr ⟨rfl, rfl, fun hok => ?_⟩
        rw [hok off] at hfail
        cases hfail
      · have hm : min rem (BSIZE - off % BSIZE) ≤ rem := Nat.min_le_left ..
        have hm' : min rem (BSIZE - off % BSIZE) ≤ BSIZE - off % BSIZE := Nat.min_le_right ..
        have hpos' : 0 < min rem (BSIZE - off % BSIZE) := by
          have := Nat.mod_lt off (by decide : 0 < BSIZE)
          omega
        rw [slice_eq hm']
        generalize min rem (BSIZE - off % BSIZE) = m at *
        refine (ih (by omega) (by omega)).imp fun r s' h => ⟨h.1, h.2.1, fun hok => ?_⟩
        refine ⟨(h.2.2 hok).1, ?_⟩
        rw [(h.2.2 hok).2, List.append_assoc]
        obtain ⟨t, rfl⟩ := Nat.exists_eq_add_of_le hm
        rw [Nat.add_sub_cancel_left, List.range_add, List.map_append, List.map_map]
        simp only [Function.comp_def, Nat.add_assoc]

/-- The bytes that `readi` is to deliver. -/
def readBytes (l : List UInt8) (off n : Nat) : List UInt8 :=
  if off > l.length ∨ (off + n) % UINT < off then [] else (l.drop off).take n

theorem length_content {blk : Disk} : (content blk d).length = d.size.toNat := by
  rw [content, List.length_map, List.length_range]

theorem map_byteAt {blk : Disk} {k : Nat} (h : off + k ≤ d.size.toNat) :
    (List.range k).map (fun j => byteAt blk d (off + j)) = ((content blk d).drop off).take k := by
  refine List.ext_getElem? fun j => ?_
  rw [List.getElem?_take, List.getElem?_drop, content, List.getElem?_map, List.getElem?_map]
  by_cases hj : j < k
  · rw [if_pos hj, List.getElem?_range hj, List.getElem?_range (by omega)]
    rfl
  · rw [if_neg hj, List.getElem?_eq_none (by rw [List.length_range]; omega)]
    rfl

/-- `readi` changes nothing, and if no copy fails it delivers the bytes from `off` on. -/
theorem wp_readi (hd : Filled s.blk d) :
    wp (readi sb fails d off n) (fun r s' => s' = s ∧ r.2.2 = d ∧ ((∀ x, fails x = false) →
      r = (((readBytes (content s.blk d) off n).length : Int), readBytes (content s.blk d) off n, d)))
      E s := by
  simp only [readi, readBytes, length_content]
  split
  · next hout => exact wp_pure.mpr ⟨rfl, rfl, fun _ => by simp⟩
  · next hin =>
    rw [not_or, Nat.not_lt] at hin
    have hle : (if off + n > d.size.toNat then d.size.toNat - off else n) + off ≤ d.size.toNat := by
      split <;> omega
    have htake : ((content s.blk d).drop off).take n =
        ((content s.blk d).drop off).take (if off + n > d.size.toNat then d.size.toNat - off else n) := by
      split
      · rw [List.take_of_length_le (by rw [List.length_drop, length_content]; omega),
          List.take_of_length_le (by rw [List.length_drop, length_content])]
      · rfl
    rw [htake]
    generalize (if off + n > d.size.toNat then d.size.toNat - off else n) = k at *
    rw [wp_bind]
    refine (wp_readLoop hd (Nat.le_refl k) (by omega)).imp fun r s' h => ?_
    obtain ⟨ok, out, d'⟩ := r
    obtain ⟨rfl, hsame, hbytes⟩ := h
    dsimp only at hsame
    subst hsame
    dsimp only
    refine wp_pure.mpr ⟨rfl, rfl, fun hok => ?_⟩
    obtain ⟨htrue, hout⟩ := hbytes hok
    dsimp only at htrue hout
    rw [htrue, hout, List.nil_append, if_pos rfl, map_byteAt (by omega)]

end Read

/-! ## The loop of `writei` -/

/-- `copyin` copies the bytes before the first that cannot be read. -/
theorem Source.good_spec (src : Source) (p m : Nat) : src.good p m ≤ m ∧
    (∀ t < src.good p m, src.ok (p + t) = true) ∧
    (src.good p m < m → src.ok (p + src.good p m) = false) := by
  rw [good]
  cases hfind : (List.range m).find? fun k => !src.ok (p + k) with
  | none =>
    refine ⟨Nat.le_refl m, fun t ht => ?_, fun hlt => absurd hlt (Nat.lt_irrefl m)⟩
    simpa using List.find?_range_eq_none.mp hfind t ht
  | some k =>
    obtain ⟨hk, hlt, hbefore⟩ := List.find?_range_eq_some.mp hfind
    refine ⟨Nat.le_of_lt (List.mem_range.mp hlt), fun t ht => ?_, fun _ => ?_⟩
    · simpa using hbefore t ht
    · simpa using hk

/-- What the loop of `writei` does with `rem` bytes, the first of which is byte `tot` of the source:
`m` of them are written, and `p` more are in the buffer of a block although the copy failed. -/
structure Wrote (sb : Superblock) (i : Nat) (src : Source) (off tot rem : Nat) (s : Core)
    (d : Dinode) (m p : Nat) (s' : Core) (d' : Dinode) : Prop extends Extends sb i s d s' d' where
  le : m ≤ rem
  all : m = rem → p = 0
  ok : ∀ t < m + p, src.ok (tot + t) = true
  written : ∀ x, off ≤ x → x < off + m + p → slot s'.blk d' (fileSlot (x / BSIZE)) ≠ 0 ∧
    byteAt s'.blk d' x = src.byte (tot + (x - off))
  unwritten : ∀ x < MAXFILE * BSIZE, x < off ∨ off + m + p ≤ x →
    slot s.blk d (fileSlot (x / BSIZE)) ≠ 0 → byteAt s'.blk d' x = byteAt s.blk d x
  /-- New blocks are those from `off` on. -/
  filled : ∀ bn < MAXFILE, slot s'.blk d' (fileSlot bn) ≠ 0 → slot s.blk d (fileSlot bn) ≠ 0 ∨
    off / BSIZE ≤ bn ∧ (bn * BSIZE < off + m ∨ m < rem ∧ bn = (off + m) / BSIZE)
  /-- The loop stops at the start of a block, for lack of blocks or because the copy failed. -/
  stop : m < rem → (m = 0 ∨ (off + m) % BSIZE = 0) ∧
    (p = 0 ∧ slot s'.blk d' (fileSlot ((off + m) / BSIZE)) = 0 ∨
      src.ok (tot + m + p) = false ∧ slot s'.blk d' (fileSlot ((off + m) / BSIZE)) ≠ 0 ∧
        p < rem - m ∧ p < BSIZE - (off + m) % BSIZE)
  /-- A block that has changed is in the log, or one of the `p` bytes has changed it. -/
  changed : ∀ c, s'.blk c ≠ s.blk c → c ∈ s'.logged ∨ ∃ x, off + m ≤ x ∧ x < off + m + p ∧
    slot s.blk d (fileSlot (x / BSIZE)) ≠ 0 ∧ c = slot s.blk d (fileSlot (x / BSIZE)) ∧
    src.byte (tot + (x - off)) ≠ byteAt s.blk d x
  only : ∀ bn < MAXFILE, slot s.blk d (fileSlot bn) ≠ 0 →
    (∀ x, off ≤ x → x < off + m → x / BSIZE ≠ bn) →
    slot s.blk d (fileSlot bn) ∈ s'.logged → slot s.blk d (fileSlot bn) ∈ s.logged

/-- The slots of an inode do not depend on its blocks other than the indirect block. -/
theorem Held.slot_put {sb : Superblock} {i k k' : Nat} {s : Core} {d : Dinode} {x : Block}
    (hd : Held sb s i d) (hk : k < NSLOT) (hkn : k ≠ NDIRECT) :
    slot (s.put (slot s.blk d k) x).blk d k' = slot s.blk d k' :=
  slot_congr fun hind => Function.update_of_ne (Ne.symm (Grown.slot_ne_indirect hd hind hk hkn)) ..

/-- A block of the file other than the indirect block changes its contents. -/
theorem Extends.putData {sb : Superblock} {i k : Nat} {s : Core} {d : Dinode} {x : Block}
    (hsb : sb.Wf) (hd : Held sb s i d) (hk : k < NSLOT) (hkn : k ≠ NDIRECT)
    (hne : slot s.blk d k ≠ 0) : Extends sb i s d (s.put (slot s.blk d k) x) d := by
  have hrange := hd.slot_range hk hne
  have hspares : Spares sb d s (s.put (slot s.blk d k) x) := by
    refine ⟨fun j hj => dinode_update_data hsb hj hrange.1, fun b hlow hhigh hused hnot => ?_⟩
    exact Function.update_of_ne (Ne.symm (hnot k hk)) ..
  exact Extends.same hd hspares (fun b hb => used_update_data hsb hrange.1 hb)
    (fun k' _ => hd.slot_put hk hkn) rfl fun b hb => hb

theorem div_lt_maxfile {x : Nat} (h : x < MAXFILE * BSIZE) : x / BSIZE < MAXFILE :=
  Nat.div_lt_of_lt_mul (by rwa [Nat.mul_comm])

/-- A file that grows keeps its bytes. -/
theorem Grown.byteAt_eq {sb : Superblock} {i x : Nat} {K : Nat → Prop} {s s' : Core}
    {d d' : Dinode} (h : Grown sb i K s d s' d') (hx : x < MAXFILE * BSIZE)
    (hne : slot s.blk d (fileSlot (x / BSIZE)) ≠ 0) : byteAt s'.blk d' x = byteAt s.blk d x := by
  have hk := fileSlot_lt (div_lt_maxfile hx)
  rw [byteAt, byteAt, h.kept _ hk hne, h.content _ hk fileSlot_ne_ndirect hne]

/-- The block at `off` is there, and `g` bytes of the source, from number `tot` on, are copied
into its buffer. -/
structure Pasted (sb : Superblock) (i : Nat) (src : Source) (off tot g : Nat) (s : Core) (d : Dinode)
    (r : Nat) (s' : Core) (d' : Dinode) : Prop extends Extends sb i s d s' d' where
  result : r = slot s'.blk d' (fileSlot (off / BSIZE))
  nonzero : r ≠ 0
  within : g ≤ BSIZE - off % BSIZE
  written : ∀ x, off ≤ x → x < off + g → byteAt s'.blk d' x = src.byte (tot + (x - off))
  unwritten : ∀ x < MAXFILE * BSIZE, x < off ∨ off + g ≤ x →
    slot s.blk d (fileSlot (x / BSIZE)) ≠ 0 → byteAt s'.blk d' x = byteAt s.blk d x
  filled : ∀ bn < MAXFILE, slot s'.blk d' (fileSlot bn) ≠ 0 →
    slot s.blk d (fileSlot bn) ≠ 0 ∨ bn = off / BSIZE
  changed : ∀ c, s'.blk c ≠ s.blk c → c ∈ s'.logged ∨ c = r ∧ ∃ x, off ≤ x ∧ x < off + g ∧
    slot s.blk d (fileSlot (x / BSIZE)) ≠ 0 ∧ c = slot s.blk d (fileSlot (x / BSIZE)) ∧
    src.byte (tot + (x - off)) ≠ byteAt s.blk d x
  only : ∀ bn < MAXFILE, slot s.blk d (fileSlot bn) ≠ 0 → slot s.blk d (fileSlot bn) ∈ s'.logged →
    slot s.blk d (fileSlot bn) ∈ s.logged

section Write

variable {sb : Superblock} {i off tot rem m p g r : Nat} {src : Source} {s s' s'' : Core}
  {d d' d'' : Dinode} {E : Stop → Core → Prop}

/-- The bytes of a file in one of whose blocks something is pasted. -/
theorem byteAt_paste {x : Nat} (hd : Held sb s i d) (hoff : off < MAXFILE * BSIZE)
    (hx : x < MAXFILE * BSIZE) (hg : g ≤ BSIZE - off % BSIZE)
    (hr : r = slot s.blk d (fileSlot (off / BSIZE))) (hne : r ≠ 0) :
    byteAt (s.put r (paste (s.blk r) src (off % BSIZE) tot g)).blk d x =
      if off ≤ x ∧ x < off + g then src.byte (tot + (x - off)) else byteAt s.blk d x := by
  have hk := fileSlot_lt (div_lt_maxfile hoff)
  have hslot : slot (s.put r (paste (s.blk r) src (off % BSIZE) tot g)).blk d
      (fileSlot (x / BSIZE)) = slot s.blk d (fileSlot (x / BSIZE)) := by
    rw [hr]
    exact hd.slot_put hk fileSlot_ne_ndirect
  rw [byteAt, hslot, byteAt, Core.put_blk]
  by_cases hbn : x / BSIZE = off / BSIZE
  · rw [hbn, ← hr, Function.update_self, paste]
    have hiff : off % BSIZE ≤ x % BSIZE ∧ x % BSIZE < off % BSIZE + g ↔ off ≤ x ∧ x < off + g := by
      simp only [BSIZE] at *
      omega
    simp only [hiff]
    split
    · have hsub : x % BSIZE - off % BSIZE = x - off := by
        simp only [BSIZE] at *
        omega
      rw [hsub]
    · rfl
  · have hnot : ¬ (off ≤ x ∧ x < off + g) := by
      simp only [BSIZE] at *
      omega
    have hother : slot s.blk d (fileSlot (x / BSIZE)) ≠ r := by
      intro heq
      rw [hr] at heq hne
      exact hbn (fileSlot_inj (hd.slot_inj (fileSlot_lt (div_lt_maxfile hx)) hk (heq ▸ hne) heq))
    rw [if_neg hnot, Function.update_of_ne hother]

/-- Bytes that are there already may be pasted. -/
theorem paste_eq_self {x : Block} (hg : g ≤ BSIZE - off % BSIZE)
    (h : ∀ y, off ≤ y → y < off + g → src.byte (tot + (y - off)) = x (y % BSIZE)) :
    paste x src (off % BSIZE) tot g = x := by
  funext k
  rw [paste]
  split
  · next hk =>
    have hmod : (off + (k - off % BSIZE)) % BSIZE = k := by
      simp only [BSIZE] at *
      omega
    have := h (off + (k - off % BSIZE)) (by omega) (by omega)
    rwa [hmod, Nat.add_sub_cancel_left] at this
  · rfl

/-- What one turn of the loop does before it looks at the result of the copy. -/
theorem Mapped.pasted (hsb : sb.Wf) (hd : Held sb s i d) (hoff : off < MAXFILE * BSIZE)
    (h : Mapped sb i (fun k => k = NDIRECT ∨ k = fileSlot (off / BSIZE)) (fileSlot (off / BSIZE))
      s d r s' d') (hne : r ≠ 0) (hg : g ≤ BSIZE - off % BSIZE) : Pasted sb i src off tot g s d r
      (s'.put r (paste (s'.blk r) src (off % BSIZE) tot g)) d' := by
  have hd' := h.held hd
  have hk := fileSlot_lt (div_lt_maxfile hoff)
  have hput : Extends sb i s' d' (s'.put r (paste (s'.blk r) src (off % BSIZE) tot g)) d' := by
    rw [h.result] at hne ⊢
    exact Extends.putData hsb hd' hk fileSlot_ne_ndirect hne
  have hslot (k : Nat) :
      slot (s'.put r (paste (s'.blk r) src (off % BSIZE) tot g)).blk d' k = slot s'.blk d' k := by
    rw [h.result]
    exact hd'.slot_put hk fileSlot_ne_ndirect
  refine { h.toExtends.trans hput hd with
    result := h.result.trans (hslot _).symm
    nonzero := hne
    within := hg
    written := fun x hlow hhigh => ?_
    unwritten := fun x hx hout hold => ?_
    filled := fun bn hbn hfilled => ?_
    changed := fun c hc => ?_
    only := fun bn hbn hold hc => ?_ }
  · have hx : x < MAXFILE * BSIZE := by
      simp only [MAXFILE, NDIRECT, NINDIRECT, BSIZE] at *
      omega
    rw [byteAt_paste hd' hoff hx hg h.result hne, if_pos ⟨hlow, hhigh⟩]
  · rw [byteAt_paste hd' hoff hx hg h.result hne, if_neg (by omega)]
    exact h.byteAt_eq hx hold
  · rw [hslot] at hfilled
    rcases h.filled _ (fileSlot_lt hbn) hfilled with hold | hnew
    · exact .inl hold
    · rcases hnew with hind | heq
      · exact absurd hind fileSlot_ne_ndirect
      · exact .inr (fileSlot_inj heq)
  · by_cases hcr : c = r
    · by_cases hold : slot s.blk d (fileSlot (off / BSIZE)) = 0
      · exact .inl (hcr ▸ h.fresh hold hne)
      · -- the block was there, so one of its bytes has changed
        refine .inr ⟨hcr, ?_⟩
        have hrs : r = slot s.blk d (fileSlot (off / BSIZE)) := h.result.trans (h.kept _ hk hold)
        have hsame : s'.blk r = s.blk r := by
          rw [hrs]
          exact h.content _ hk fileSlot_ne_ndirect hold
        by_contra hnone
        refine hc ?_
        rw [hcr, Core.put_blk, Function.update_self, hsame]
        refine paste_eq_self hg fun y hlow hhigh => by_contra fun hdiff => hnone ?_
        have hbn : y / BSIZE = off / BSIZE := by
          simp only [BSIZE] at *
          omega
        refine ⟨y, hlow, hhigh, by rwa [hbn], by rw [hbn, hcr, hrs], ?_⟩
        rwa [byteAt, hbn, ← hrs]
    · rw [Core.put_blk, Function.update_of_ne hcr] at hc
      exact .inl (h.changed c hc)
  · rcases h.only _ hc with hold' | hnot
    · exact hold'
    · exact absurd rfl (hnot _ (fileSlot_lt hbn) fileSlot_ne_ndirect hold)

namespace Wrote

/-- There is nothing to write. -/
theorem zero (hd : Held sb s i d) : Wrote sb i src off tot 0 s d 0 0 s d :=
  { Extends.refl hd with
    le := Nat.le_refl 0
    all := fun _ => rfl
    ok := fun t ht => absurd ht (Nat.not_lt_zero t)
    written := fun _ hlow hhigh => absurd hhigh (Nat.not_lt_of_le hlow)
    unwritten := fun _ _ _ _ => rfl
    filled := fun _ _ hne => .inl hne
    stop := fun hlt => absurd hlt (Nat.lt_irrefl 0)
    changed := fun _ hc => absurd rfl hc
    only := fun _ _ _ _ hc => hc }

/-- The disk is full. -/
theorem full (h : Mapped sb i (fun k => k = NDIRECT ∨ k = fileSlot (off / BSIZE))
      (fileSlot (off / BSIZE)) s d 0 s' d') (hrem : rem ≠ 0) :
    Wrote sb i src off tot rem s d 0 0 s' d' :=
  { h.toExtends with
    le := Nat.zero_le rem
    all := fun _ => rfl
    ok := fun t ht => absurd ht (Nat.not_lt_zero t)
    written := fun x hlow hhigh => absurd hhigh (Nat.not_lt_of_le hlow)
    unwritten := fun x hx _ hne => h.byteAt_eq hx hne
    filled := fun bn hbn hne => by
      rcases h.filled _ (fileSlot_lt hbn) hne with hold | hind | heq
      · exact .inl hold
      · exact absurd hind fileSlot_ne_ndirect
      · have hbn := fileSlot_inj heq
        exact .inr ⟨Nat.le_of_eq hbn.symm, .inr ⟨Nat.pos_of_ne_zero hrem, hbn⟩⟩
    stop := fun _ => ⟨.inl rfl, .inl ⟨rfl, h.result.symm⟩⟩
    changed := fun c hc => .inl (h.changed c hc)
    only := fun bn hbn hne _ hc => by
      rcases h.only _ hc with hold | hnot
      · exact hold
      · exact absurd rfl (hnot _ (fileSlot_lt hbn) fileSlot_ne_ndirect hne) }

/-- The copy into a block failed after `g` bytes. -/
theorem failed (h : Pasted sb i src off tot g s d r s' d')
    (hg : g = src.good tot (min rem (BSIZE - off % BSIZE))) (hlt : g < min rem (BSIZE - off % BSIZE)) :
    Wrote sb i src off tot rem s d 0 g s' d' := by
  obtain ⟨_, hok, hstop⟩ := src.good_spec tot (min rem (BSIZE - off % BSIZE))
  rw [← hg] at hok hstop
  have hrem : g < rem := Nat.lt_of_lt_of_le hlt (Nat.min_le_left ..)
  have hblock : g < BSIZE - off % BSIZE := Nat.lt_of_lt_of_le hlt (Nat.min_le_right ..)
  refine { h.toExtends with
    le := Nat.zero_le rem
    all := fun hzero => by omega
    ok := fun t ht => hok t (by omega)
    written := fun x hlow hhigh => ?_
    unwritten := fun x hx hout hne => h.unwritten x hx (by omega) hne
    filled := fun bn hbn hne => ?_
    stop := fun _ => ⟨.inl rfl, .inr ⟨hstop hlt, h.result ▸ h.nonzero, hrem, hblock⟩⟩
    changed := fun c hc => ?_
    only := fun bn hbn hne _ hc => h.only bn hbn hne hc }
  · have hbn : x / BSIZE = off / BSIZE := by
      simp only [BSIZE] at *
      omega
    rw [hbn]
    exact ⟨h.result ▸ h.nonzero, h.written x hlow (by omega)⟩
  · exact (h.filled bn hbn hne).imp id fun heq =>
      ⟨Nat.le_of_eq heq.symm, .inr ⟨by omega, heq⟩⟩
  · exact (h.changed c hc).imp id fun hpart => hpart.2

/-- A turn of the loop that copies all it wants. -/
theorem turn (hd : Held sb s i d) (h : Pasted sb i src off tot g s d r s' d')
    (hoff : off < MAXFILE * BSIZE) (hpos : 0 < g) (hg : g = src.good tot g) :
    Wrote sb i src off tot g s d g 0 (s'.log r) d' := by
  obtain ⟨_, hok, _⟩ := src.good_spec tot g
  rw [← hg] at hok
  have hwithin := h.within
  refine { h.toExtends with
    le := Nat.le_refl g
    all := fun _ => rfl
    ok := hok
    written := fun x hlow hhigh => ?_
    unwritten := h.unwritten
    filled := fun bn hbn hne => ?_
    stop := fun hlt => absurd hlt (Nat.lt_irrefl g)
    changed := fun c hc => .inl ?_
    only := fun bn hbn hne hnot hc => ?_
    logged := fun c hc => Core.mem_log.mpr (.inl (h.logged c hc)) }
  · have hbn : x / BSIZE = off / BSIZE := by
      simp only [BSIZE] at *
      omega
    rw [hbn]
    exact ⟨h.result ▸ h.nonzero, h.written x hlow hhigh⟩
  · refine (h.filled bn hbn hne).imp id fun heq => ⟨Nat.le_of_eq heq.symm, .inl ?_⟩
    have := Nat.div_mul_le_self off BSIZE
    rw [heq]
    omega
  · rw [Core.mem_log]
    exact (h.changed c hc).imp id fun hpart => hpart.1
  · rcases Core.mem_log.mp hc with hc | hcr
    · exact h.only bn hbn hne hc
    · have hk := fileSlot_lt hbn
      have hkept := h.kept _ hk hne
      rw [← hkept] at hne hcr
      rw [h.result] at hcr
      have heq := (h.held hd).slot_inj hk (fileSlot_lt (div_lt_maxfile hoff)) hne hcr
      exact absurd (fileSlot_inj heq).symm (hnot off (Nat.le_refl off) (by omega))

/-- A turn, and what the loop does after it. -/
theorem trans (hd : Held sb s i d) (h : Wrote sb i src off tot g s d g 0 s' d')
    (h' : Wrote sb i src (off + g) (tot + g) rem s' d' m p s'' d'')
    (hfit : off + g + rem ≤ MAXFILE * BSIZE) (hbound : rem ≠ 0 → (off + g) % BSIZE = 0) :
    Wrote sb i src off tot (g + rem) s d (g + m) p s'' d'' := by
  have hle := h'.le
  refine { h.toExtends.trans h'.toExtends hd with
    le := by omega
    all := fun heq => h'.all (by omega)
    ok := fun t ht => ?_
    written := fun x hlow hhigh => ?_
    unwritten := fun x hx hout hne => ?_
    filled := fun bn hbn hne => ?_
    stop := fun hlt => ?_
    changed := fun c hc => ?_
    only := fun bn hbn hne hnot hc => ?_ }
  · by_cases htg : t < g
    · exact h.ok t (by omega)
    · have := h'.ok (t - g) (by omega)
      rwa [show tot + g + (t - g) = tot + t by omega] at this
  · by_cases hxg : x < off + g
    · obtain ⟨hne, hbyte⟩ := h.written x hlow (by omega)
      have hx : x < MAXFILE * BSIZE := by omega
      rw [h'.kept _ (fileSlot_lt (div_lt_maxfile hx)) hne, h'.unwritten x hx (.inl hxg) hne]
      exact ⟨hne, hbyte⟩
    · obtain ⟨hne, hbyte⟩ := h'.written x (by omega) (by omega)
      rw [show tot + g + (x - (off + g)) = tot + (x - off) by omega] at hbyte
      exact ⟨hne, hbyte⟩
  · have hne' := h.kept _ (fileSlot_lt (div_lt_maxfile hx)) hne
    rw [← h.unwritten x hx (by omega) hne]
    exact h'.unwritten x hx (by omega) (hne'.trans_ne hne)
  · rcases h'.filled bn hbn hne with hmid | ⟨hlow, hnew⟩
    · rcases h.filled bn hbn hmid with hold | ⟨hlow, hnew | hnew⟩
      · exact .inl hold
      · exact .inr ⟨hlow, .inl (by omega)⟩
      · omega
    · refine .inr ⟨Nat.le_trans (Nat.div_le_div_right (Nat.le_add_right off g)) hlow, ?_⟩
      rw [← Nat.add_assoc]
      omega
  · obtain ⟨hbnd, hwhy⟩ := h'.stop (by omega)
    rw [← Nat.add_assoc off g m, ← Nat.add_assoc tot g m]
    refine ⟨.inr ?_, ?_⟩
    · rcases hbnd with rfl | hbnd
      · exact hbound (by omega)
      · exact hbnd
    · rcases hwhy with hfull | ⟨hfail, hne, hp, hp'⟩
      · exact .inl hfull
      · exact .inr ⟨hfail, hne, by omega, hp'⟩
  · by_cases hmid : s''.blk c = s'.blk c
    · rw [hmid] at hc
      rcases h.changed c hc with hlog | ⟨x, hlow, hhigh, _⟩
      · exact .inl (h'.logged c hlog)
      · omega
    · rcases h'.changed c hmid with hlog | ⟨x, hlow, hhigh, hne, hcr, hdiff⟩
      · exact .inl hlog
      · -- the block in which the loop stops is not the one of the turn
        have hlt : m ≠ rem := fun heq => by
          have := h'.all heq
          omega
        have hx : x < MAXFILE * BSIZE := by
          obtain ⟨_, hfull | hfail⟩ := h'.stop (by omega)
          · omega
          · omega
        have hbn := div_lt_maxfile hx
        have hold : slot s.blk d (fileSlot (x / BSIZE)) ≠ 0 := by
          rcases h.filled _ hbn hne with hold | ⟨_, hturn | hturn⟩
          · exact hold
          · have := hbound (by omega)
            simp only [BSIZE] at *
            omega
          · omega
        refine .inr ⟨x, by omega, by omega, hold, hcr.trans (h.kept _ (fileSlot_lt hbn) hold), ?_⟩
        rw [h.unwritten x hx (by omega) hold] at hdiff
        rwa [show tot + g + (x - (off + g)) = tot + (x - off) by omega] at hdiff
  · have hkept := h.kept _ (fileSlot_lt hbn) hne
    refine h.only bn hbn hne (fun x hlow hhigh => hnot x hlow (by omega)) ?_
    rw [← hkept] at hc ⊢
    exact h'.only bn hbn (hkept.trans_ne hne) (fun x hlow hhigh => hnot x (by omega) (by omega)) hc

end Wrote

/-- The loop of `writei` returns, and what it did. -/
theorem wp_writeLoop {fuel : Nat} (hsb : sb.Wf) (hd : Held sb s i d) (hout : 0 < s.outstanding)
    (hfit : off + rem ≤ MAXFILE * BSIZE) (hrem : rem ≤ fuel) :
    wp (writeLoop sb src fuel d off tot rem)
      (fun r s' => ∃ m p, r.1 = tot + m ∧ Wrote sb i src off tot rem s d m p s' r.2) E s := by
  induction fuel generalizing s d off tot rem with
  | zero =>
    obtain rfl : rem = 0 := Nat.le_zero.mp hrem
    exact wp_pure.mpr ⟨0, 0, rfl, Wrote.zero hd⟩
  | succ fuel ih =>
    rw [writeLoop]
    split
    · next hzero =>
      subst hzero
      exact wp_pure.mpr ⟨0, 0, rfl, Wrote.zero hd⟩
    · next hpos =>
      have hoff : off < MAXFILE * BSIZE := by omega
      rw [wp_bind]
      refine (wp_bmap hsb hd hout (div_lt_maxfile hoff)).imp fun res s' h => ?_
      obtain ⟨r, d'⟩ := res
      dsimp only at h ⊢
      split
      · next hr =>
        subst hr
        exact wp_pure.mpr ⟨0, 0, rfl, Wrote.full h hpos⟩
      · next hr =>
        obtain ⟨hgood, _⟩ := src.good_spec tot (min rem (BSIZE - off % BSIZE))
        have hm : min rem (BSIZE - off % BSIZE) ≤ rem := Nat.min_le_left ..
        have hm' : min rem (BSIZE - off % BSIZE) ≤ BSIZE - off % BSIZE := Nat.min_le_right ..
        have hturn : Pasted sb i src off tot (src.good tot (min rem (BSIZE - off % BSIZE))) s d r _ d' :=
          h.pasted hsb hd hoff hr (Nat.le_trans hgood hm')
        simp only [wp_bind, wp_get, wp_setBuf]
        split
        · next hlt => exact wp_pure.mpr ⟨0, _, rfl, Wrote.failed hturn rfl hlt⟩
        · next hlt =>
          have hall : src.good tot (min rem (BSIZE - off % BSIZE)) = min rem (BSIZE - off % BSIZE) :=
            Nat.le_antisymm hgood (Nat.le_of_not_lt hlt)
          have hpos' : 0 < min rem (BSIZE - off % BSIZE) := by
            have := Nat.mod_lt off (by decide : 0 < BSIZE)
            omega
          have hbound : rem - min rem (BSIZE - off % BSIZE) ≠ 0 →
              (off + min rem (BSIZE - off % BSIZE)) % BSIZE = 0 := by
            simp only [BSIZE]
            omega
          rw [hall] at hturn ⊢
          generalize min rem (BSIZE - off % BSIZE) = g at *
          have hstep := Wrote.turn hd hturn hoff hpos' hall.symm
          have hout' : 0 < (s'.put r (paste (s'.blk r) src (off % BSIZE) tot g)).outstanding := by
            rw [hturn.outstanding]
            exact hout
          rw [wp_bind, wp_logWrite hout']
          refine (ih (hstep.held hd) hout' (by omega) (by omega)).imp fun res s'' hrest => ?_
          obtain ⟨m, p, heq, hrest⟩ := hrest
          refine ⟨g + m, p, by rw [heq, Nat.add_assoc], ?_⟩
          have htrans := Wrote.trans hd hstep hrest (by omega) hbound
          rwa [Nat.add_sub_cancel' hm] at htrans

end Write

end Xv6.Fs
