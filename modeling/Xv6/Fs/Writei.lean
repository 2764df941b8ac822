-- SUMMARY: `writei` replaces the bytes it reports, unless a copy from user memory fails inside a block.
import Xv6.Fs.Node

/-!
# The result of `writei`

Seen as a list of bytes, a file after `writei` is the old list with the bytes that `writei` reports
put in at the offset. There is one exception. `copyin` may fail after it has copied the first
bytes of a block, which are then in the buffer although they are not reported, and the buffer has
not been passed to `log_write`.
-/

namespace Xv6.Fs

open Prog

/-- The bytes `bs` put over `l` at `off`. -/
def overwrite (l : List UInt8) (off : Nat) (bs : List UInt8) : List UInt8 :=
  l.take off ++ bs ++ l.drop (off + bs.length)

theorem getElem?_overwrite {l bs : List UInt8} {off x : Nat} (h : off ≤ l.length) :
    (overwrite l off bs)[x]? =
      if off ≤ x ∧ x < off + bs.length then bs[x - off]? else l[x]? := by
  have htake : (l.take off).length = off := List.length_take_of_le h
  rw [overwrite, List.append_assoc]
  by_cases hlow : x < off
  · rw [List.getElem?_append_left (by rwa [htake]), List.getElem?_take_of_lt hlow,
      if_neg (by omega)]
  · rw [List.getElem?_append_right (by rw [htake]; omega), htake]
    by_cases hhigh : x < off + bs.length
    · rw [List.getElem?_append_left (by omega), if_pos ⟨by omega, hhigh⟩]
    · rw [List.getElem?_append_right (by omega), List.getElem?_drop, if_neg (by omega)]
      congr 1
      omega

theorem length_overwrite {l bs : List UInt8} {off : Nat} (h : off ≤ l.length) :
    (overwrite l off bs).length = max l.length (off + bs.length) := by
  rw [overwrite, List.length_append, List.length_append, List.length_take_of_le h, List.length_drop]
  omega

/-- The first bytes of a source. -/
def Source.bytes (src : Source) (m : Nat) : List UInt8 := (List.range m).map src.byte

theorem Source.length_bytes {src : Source} {m : Nat} : (src.bytes m).length = m := by
  rw [bytes, List.length_map, List.length_range]

theorem Source.getElem?_bytes {src : Source} {m k : Nat} (h : k < m) :
    (src.bytes m)[k]? = some (src.byte k) := by
  rw [bytes, List.getElem?_map, List.getElem?_range h]
  rfl

theorem getElem?_content {blk : Disk} {d : Dinode} {x : Nat} :
    (content blk d)[x]? = if x < d.size.toNat then some (byteAt blk d x) else none := by
  rw [content, List.getElem?_map]
  split
  · next hx =>
    rw [List.getElem?_range hx]
    rfl
  · next hx => rw [List.getElem?_eq_none (by rw [List.length_range]; omega), Option.map_none]

namespace Wrote

variable {sb : Superblock} {i off n m p : Nat} {src : Source} {s t : Core} {d e : Dinode}

/-- The bytes on the disk once the inode is written back. -/
theorem byteAt_store (hsb : sb.Wf) (hl : Live sb s i d) (h : Wrote sb i src off 0 n s d m p t e)
    (hacc : Accepts d off n) (x : Nat) (hx : x < max d.size.toNat (off + m)) :
    byteAt (t.store sb i (e.extendTo (off + m))).blk (e.extendTo (off + m)) x =
      if off ≤ x ∧ x < off + m + p then src.byte (x - off) else byteAt s.blk d x := by
  have hle := h.le
  have hfits := hacc.fits
  have hoff := hacc.off_le
  have hmax := hl.filled.size_le
  have hx' : x < MAXFILE * BSIZE := by omega
  have hd' := h.held hl.held
  have hsame : SameBlocks t.blk (t.store sb i (e.extendTo (off + m))).blk e :=
    sameBlocks_store hsb hl.inum fun k hk hne => (hd'.slot_range hk hne).1
  have hne : slot t.blk e (fileSlot (x / BSIZE)) ≠ 0 := by
    have := (h.filled_extendTo hl.filled hacc.off_le hacc.fits).below x (by
      rw [Dinode.extendTo_size (by simp only [MAXFILE, NDIRECT, NINDIRECT, BSIZE, UINT] at *; omega),
        h.size_eq]
      exact hx)
    rwa [slot_extendTo] at this
  rw [byteAt_extendTo, byteAt, hsame.slot_eq, hsame _ (fileSlot_lt (div_lt_maxfile hx')) hne]
  change byteAt t.blk e x = _
  split
  · next hin => rw [(h.written x hin.1 hin.2).2, Nat.zero_add]
  · next hout => exact h.unwritten x hx' (by omega) (hl.filled.below x (by omega))

/-- The contents are the expected ones exactly if the bytes that were copied but not reported are
not seen. -/
theorem content_eq_iff (hsb : sb.Wf) (hl : Live sb s i d) (h : Wrote sb i src off 0 n s d m p t e)
    (hacc : Accepts d off n) :
    content (t.store sb i (e.extendTo (off + m))).blk (e.extendTo (off + m)) =
        overwrite (content s.blk d) off (src.bytes m) ↔
      ∀ x, off + m ≤ x → x < off + m + p → x < d.size.toNat → src.byte (x - off) = byteAt s.blk d x := by
  have hsize : (e.extendTo (off + m)).size.toNat = max d.size.toNat (off + m) := by
    have := h.le
    have := hacc.fits
    rw [Dinode.extendTo_size (by simp only [MAXFILE, NDIRECT, NINDIRECT, BSIZE, UINT] at *; omega),
      h.size_eq]
  have hoff := hacc.off_le
  have hlen : off ≤ (content s.blk d).length := by rwa [length_content]
  have hbyte := h.byteAt_store hsb hl hacc
  constructor
  · intro heq x hlow hhigh hx
    have hget := congrArg (fun l => l[x]?) heq
    rw [getElem?_content, hsize, if_pos (by omega), getElem?_overwrite hlen, Source.length_bytes,
      if_neg (by omega), getElem?_content, if_pos hx, hbyte x (by omega), if_pos ⟨by omega, hhigh⟩] at hget
    exact Option.some.inj hget
  · intro hsame
    refine List.ext_getElem? fun x => ?_
    rw [getElem?_content, hsize, getElem?_overwrite hlen, Source.length_bytes, getElem?_content]
    by_cases hx : x < max d.size.toNat (off + m)
    · rw [if_pos hx, hbyte x hx]
      by_cases hw : off ≤ x ∧ x < off + m
      · rw [if_pos ⟨hw.1, by omega⟩, if_pos hw, Source.getElem?_bytes (by omega)]
      · rw [if_neg hw, if_pos (by omega : x < d.size.toNat)]
        split
        · next hp => rw [hsame x (by omega) hp.2 (by omega)]
        · rfl
    · rw [if_neg hx, if_neg (by omega), if_neg (by omega)]

/-- The blocks in which something was copied but not reported lie in one block. -/
theorem block_eq (h : Wrote sb i src off 0 n s d m p t e) {x : Nat} (hlow : off + m ≤ x)
    (hhigh : x < off + m + p) : x / BSIZE = (off + m) / BSIZE ∧ m < n ∧ m + p < n ∧
      (m = 0 ∨ (off + m) % BSIZE = 0) ∧ src.ok (m + p) = false ∧
      (off + (m + p)) / BSIZE = (off + m) / BSIZE := by
  have hlt : m < n := Nat.lt_of_le_of_ne h.le fun heq => by
    have := h.all heq
    omega
  obtain ⟨hbnd, hstop⟩ := h.stop hlt
  rcases hstop with hfull | ⟨hfail, _, hp, hp'⟩
  · omega
  · rw [Nat.zero_add] at hfail
    refine ⟨?_, hlt, by omega, hbnd, hfail, ?_⟩
    · simp only [BSIZE] at *
      omega
    · simp only [BSIZE] at *
      omega

/-- A block that has changed is logged, unless it is the one in which the copy failed. -/
theorem logged_iff (hsb : sb.Wf) (hl : Live sb s i d) (h : Wrote sb i src off 0 n s d m p t e)
    (hacc : Accepts d off n) :
    (∀ c, (t.store sb i (e.extendTo (off + m))).blk c ≠ s.blk c →
        c ∈ (t.store sb i (e.extendTo (off + m))).logged) ↔
      ∀ x, off + m ≤ x → x < off + m + p → slot s.blk d (fileSlot (x / BSIZE)) ≠ 0 →
        src.byte (x - off) ≠ byteAt s.blk d x → slot s.blk d (fileSlot (x / BSIZE)) ∈ s.logged := by
  have hfits := hacc.fits
  constructor
  · intro hall x hlow hhigh hne hdiff
    obtain ⟨hblock, hlt, hltp, hbnd, _, _⟩ := h.block_eq hlow hhigh
    have hx : x < MAXFILE * BSIZE := by omega
    have hk := fileSlot_lt (div_lt_maxfile hx)
    have hrange := hl.held.slot_range hk hne
    have hiblock := (hsb.iblock hl.inum).2
    have hbmap := hsb.bmapstart_lt
    have hlogged := hall (slot s.blk d (fileSlot (x / BSIZE))) fun heq => hdiff ?_
    · rcases Core.mem_log.mp hlogged with hmem | heq
      · refine h.only _ (div_lt_maxfile hx) hne (fun y hy hy' => ?_) hmem
        rw [hblock]
        simp only [BSIZE] at *
        omega
      · omega
    · have hstore : (t.store sb i (e.extendTo (off + m))).blk (slot s.blk d (fileSlot (x / BSIZE))) =
          t.blk (slot s.blk d (fileSlot (x / BSIZE))) := setDinode_data hsb hl.inum hrange.1
      rw [hstore] at heq
      have hbyte := (h.written x (by omega) hhigh).2
      rw [Nat.zero_add] at hbyte
      rw [← hbyte, byteAt, h.kept _ hk hne, heq, byteAt]
  · intro hall c hc
    refine Core.mem_log.mpr ?_
    by_cases heq : c = sb.iblock i
    · exact .inr heq
    · have hstore : (t.store sb i (e.extendTo (off + m))).blk c = t.blk c :=
        Function.update_of_ne heq ..
      rw [hstore] at hc
      rcases h.changed c hc with hlog | ⟨x, hlow, hhigh, hne, rfl, hdiff⟩
      · exact .inl hlog
      · rw [Nat.zero_add] at hdiff
        exact .inl (h.logged _ (hall x hlow hhigh hne hdiff))

end Wrote

/-- The first byte of the source that cannot be read is inside a block that the file has, and one
of the bytes before it, in the same block, differs from what is there and can be seen or is in a
buffer that is not in the log. -/
def Torn (s : Core) (d : Dinode) (src : Source) (off n : Nat) : Prop :=
  Accepts d off n ∧ ∃ r < n, (∀ t < r, src.ok t = true) ∧ src.ok r = false ∧
    slot s.blk d (fileSlot ((off + r) / BSIZE)) ≠ 0 ∧
    ∃ t < r, (off + t) / BSIZE = (off + r) / BSIZE ∧ src.byte t ≠ byteAt s.blk d (off + t) ∧
      (off + t < d.size.toNat ∨ slot s.blk d (fileSlot ((off + r) / BSIZE)) ∉ s.logged)

/-- A write is torn exactly if one of the bytes that were copied but not reported is seen, or is
in a buffer that is not in the log. -/
theorem Wrote.torn_iff {sb : Superblock} {i off n m p : Nat} {src : Source} {s t : Core}
    {d e : Dinode} (hl : Live sb s i d) (h : Wrote sb i src off 0 n s d m p t e)
    (hacc : Accepts d off n) : Torn s d src off n ↔ ∃ x, off + m ≤ x ∧ x < off + m + p ∧
      slot s.blk d (fileSlot (x / BSIZE)) ≠ 0 ∧ src.byte (x - off) ≠ byteAt s.blk d x ∧
      (x < d.size.toNat ∨ slot s.blk d (fileSlot (x / BSIZE)) ∉ s.logged) := by
  have hfits := hacc.fits
  constructor
  · rintro ⟨_, r, hr, hbefore, hfail, hne, y, hy, hblock, hdiff, hseen⟩
    have hmp : m + p ≤ r := by
      by_contra hlt
      have := h.ok r (by omega)
      rw [Nat.zero_add, hfail] at this
      cases this
    have hbnr : (off + r) / BSIZE < MAXFILE := div_lt_maxfile (by omega)
    obtain ⟨hbnd, hfull | ⟨hstop, _, _, hp⟩⟩ := h.stop (by omega)
    · -- the loop does not stop for lack of blocks before a block that is there
      refine absurd hfull.2 ?_
      have hle : (off + m) / BSIZE ≤ (off + r) / BSIZE := Nat.div_le_div_right (by omega)
      have hold : slot s.blk d (fileSlot ((off + m) / BSIZE)) ≠ 0 := by
        rcases Nat.lt_or_eq_of_le hle with hlt | heq
        · exact hl.filled.closed _ hbnr hne _ hlt
        · rwa [heq]
      rw [h.kept _ (fileSlot_lt (Nat.lt_of_le_of_lt hle hbnr)) hold]
      exact hold
    · rw [Nat.zero_add] at hstop
      have hr : r = m + p := by
        by_contra hne
        have := hbefore (m + p) (by omega)
        rw [hstop] at this
        cases this
      have hmy : m ≤ y := by
        simp only [BSIZE] at *
        omega
      rw [← hblock] at hne hseen
      refine ⟨off + y, by omega, by omega, hne, ?_, hseen⟩
      rwa [Nat.add_sub_cancel_left]
  · rintro ⟨x, hlow, hhigh, hne, hdiff, hseen⟩
    obtain ⟨hblock, hlt, hltp, _, hfail, hlast⟩ := h.block_eq hlow hhigh
    have hx : off + (x - off) = x := by omega
    rw [hblock] at hne hseen
    refine ⟨hacc, m + p, hltp, fun y hy => ?_, hfail, by rwa [hlast], x - off, by omega, ?_, ?_, ?_⟩
    · have := h.ok y hy
      rwa [Nat.zero_add] at this
    · rw [hx, hblock, hlast]
    · rwa [hx]
    · rwa [hx, hlast]

/-- What `readi` delivers for every offset and length. -/
def Sees (sb : Superblock) (s : Core) (d : Dinode) (l : List UInt8) : Prop :=
  ∀ off < UINT, ∀ n < UINT, readi sb (fun _ => false) d off n s =
    .ok (((readBytes l off n).length : Int), readBytes l off n, d) s

theorem readBytes_zero {l : List UInt8} {n : Nat} (h : l.length ≤ n) : readBytes l 0 n = l := by
  rw [readBytes, if_neg (by omega), List.drop_zero, List.take_of_length_le h]

theorem sees_iff {sb : Superblock} {s : Core} {d : Dinode} {l : List UInt8} (hd : Filled s.blk d)
    (hl : l.length < UINT) : Sees sb s d l ↔ content s.blk d = l := by
  have hread (off n : Nat) : readi sb (fun _ => false) d off n s = .ok
      (((readBytes (content s.blk d) off n).length : Int), readBytes (content s.blk d) off n, d) s := by
    obtain ⟨r, s', hrun, rfl, _, hbytes⟩ := (wp_readi hd).returns
    rw [hrun, hbytes fun _ => rfl]
  constructor
  · intro h
    have hlen : (content s.blk d).length < UINT := by
      rw [length_content]
      exact UInt32.toNat_lt _
    have hrun := h 0 (by decide) (max (content s.blk d).length l.length) (by omega)
    rw [hread, readBytes_zero (Nat.le_max_left ..), readBytes_zero (Nat.le_max_right ..)] at hrun
    injection hrun with hres
    exact (Prod.mk.inj (Prod.mk.inj hres).2).1
  · rintro rfl off _ n _
    exact hread off n

theorem overwrite_nil {l : List UInt8} {off : Nat} : overwrite l off [] = l := by
  rw [overwrite, List.append_nil, List.length_nil, Nat.add_zero, List.take_append_drop]

/-- The two ways in which a write is not exact. -/
theorem Wrote.exact_iff {sb : Superblock} {i off n m p : Nat} {src : Source} {s t : Core}
    {d e : Dinode} (hsb : sb.Wf) (hl : Live sb s i d) (h : Wrote sb i src off 0 n s d m p t e)
    (hacc : Accepts d off n) :
    Sees sb (t.store sb i (e.extendTo (off + m))) (e.extendTo (off + m))
          (overwrite (content s.blk d) off (src.bytes m)) ∧
        (∀ c, (t.store sb i (e.extendTo (off + m))).blk c ≠ s.blk c →
          c ∈ (t.store sb i (e.extendTo (off + m))).logged) ↔ ¬ Torn s d src off n := by
  have hfill : Filled (t.store sb i (e.extendTo (off + m))).blk (e.extendTo (off + m)) := by
    have htouch := h.touches hsb hl hacc.off_le hacc.fits
    have hdisk : dinode sb (t.store sb i (e.extendTo (off + m))).blk i = e.extendTo (off + m) := by
      rw [dinode_store, view_self]
    refine (htouch.live hl.inum ?_ hdisk).filled
    rw [Dinode.extendTo_type]
    exact (h.held hl.held).type
  have hlen : (overwrite (content s.blk d) off (src.bytes m)).length < UINT := by
    have := h.le
    have := hacc.fits
    have := hl.filled.size_le
    rw [length_overwrite (by rw [length_content]; exact hacc.off_le), length_content,
      Source.length_bytes]
    simp only [MAXFILE, NDIRECT, NINDIRECT, BSIZE, UINT] at *
    omega
  rw [sees_iff hfill hlen, h.content_eq_iff hsb hl hacc, h.logged_iff hsb hl hacc,
    h.torn_iff hl hacc]
  constructor
  · rintro ⟨hbytes, hlog⟩ ⟨x, hlow, hhigh, hne, hdiff, hseen | hseen⟩
    · exact hdiff (hbytes x hlow hhigh hseen)
    · exact hseen (hlog x hlow hhigh hne hdiff)
  · intro hnone
    refine ⟨fun x hlow hhigh hx => ?_, fun x hlow hhigh hne hdiff => ?_⟩
    · by_contra hdiff
      exact hnone ⟨x, hlow, hhigh, hl.filled.below x hx, hdiff, .inl hx⟩
    · by_contra hseen
      exact hnone ⟨x, hlow, hhigh, hne, hdiff, .inr hseen⟩

/-- `writei` returns, and the file is the old one with the reported bytes put in and all changed
blocks are in the log, exactly if the write is not torn. -/
theorem writei_exact_iff {sb : Superblock} {i off n : Nat} {src : Source} {s : Core} {d : Dinode}
    (hsb : sb.Wf) (hl : Live sb s i d) (hout : 0 < s.outstanding) :
    ∃ tot d' s', writei sb i d src off n s = .ok (tot, d') s' ∧
      (Sees sb s' d' (overwrite (content s.blk d) off (src.bytes tot.toNat)) ∧
        (∀ c, s'.blk c ≠ s.blk c → c ∈ s'.logged) ↔ ¬ Torn s d src off n) := by
  have hwp : wp (writei sb i d src off n) (fun r s' =>
      Sees sb s' r.2 (overwrite (content s.blk d) off (src.bytes r.1.toNat)) ∧
        (∀ c, s'.blk c ≠ s.blk c → c ∈ s'.logged) ↔ ¬ Torn s d src off n) (fun _ _ => False) s := by
    refine wp_writei hsb hl hout (fun hno => ?_) fun hacc m p t e h => ?_
    · have hlen : (content s.blk d).length < UINT := by
        rw [length_content]
        exact UInt32.toNat_lt _
      have hnil : overwrite (content s.blk d) off (src.bytes (-1 : Int).toNat) = content s.blk d :=
        overwrite_nil
      rw [hnil]
      exact iff_of_true ⟨(sees_iff hl.filled hlen).mpr rfl, fun c hc => absurd rfl hc⟩
        fun htorn => hno htorn.1
    · exact h.exact_iff hsb hl hacc
  obtain ⟨⟨tot, d'⟩, s', hrun, h⟩ := hwp.returns
  exact ⟨tot, d', s', hrun, h⟩

/-- A source of letters `B`, of which only the first can be read. -/
def oneReadable : Source := ⟨fun _ => 66, fun k => decide (k = 0)⟩

/-- Nothing is torn if the first byte can be read and is all there is to write. -/
theorem writei_exact_iff_oneByte : 0 < smallCore.outstanding ∧ ∃ tot d' s',
    writei small 2 (oneBlock 2 1 4) oneReadable 0 1 smallCore = .ok (tot, d') s' ∧
      (Sees small s' d' (overwrite (content smallDisk (oneBlock 2 1 4)) 0
          (oneReadable.bytes tot.toNat)) ∧
        (∀ c, s'.blk c ≠ smallCore.blk c → c ∈ s'.logged) ↔
          ¬ Torn smallCore (oneBlock 2 1 4) oneReadable 0 1) :=
  ⟨by decide, writei_exact_iff small_wf small_live (by decide)⟩

/-- The result of a write of two bytes over the file `a`, and of a read after it. -/
def tornCheck : EStateM.Result Stop Core (Int × Dinode) → Bool
  | .ok r s' => decide (r.1 = 0) && decide (s'.blk 4 0 = 66) && decide (4 ∉ s'.logged) &&
    match readi small (fun _ => false) r.2 0 1 s' with
    | .ok q _ => decide (q.2.1 = [66])
    | .error _ _ => false
  | .error _ _ => false

/-- Two bytes are to be written over a file with the contents `A`, and only the first can be
read. `writei` returns 0, the file has the contents `B`, and the buffer is not in the log. -/
theorem writei_tears : Live small smallCore 2 (oneBlock 2 1 4) ∧ ∃ tot d' s',
    writei small 2 (oneBlock 2 1 4) oneReadable 0 2 smallCore = .ok (tot, d') s' ∧
      ¬ Sees small s' d' (overwrite (content smallDisk (oneBlock 2 1 4)) 0
        (oneReadable.bytes tot.toNat)) ∧
      ¬ ∀ c, s'.blk c ≠ smallCore.blk c → c ∈ s'.logged := by
  have hcheck : tornCheck (writei small 2 (oneBlock 2 1 4) oneReadable 0 2 smallCore) = true := by
    decide +kernel
  refine ⟨small_live, ?_⟩
  cases hrun : writei small 2 (oneBlock 2 1 4) oneReadable 0 2 smallCore with
  | error e s' =>
    rw [hrun] at hcheck
    cases hcheck
  | ok r s' =>
    obtain ⟨tot, d'⟩ := r
    rw [hrun] at hcheck
    simp only [tornCheck, Bool.and_eq_true, decide_eq_true_iff] at hcheck
    obtain ⟨⟨⟨rfl, hbyte⟩, hlog⟩, hread⟩ := hcheck
    refine ⟨0, d', s', rfl, fun hsees => ?_, fun hall => hlog (hall 4 fun heq => ?_)⟩
    · have hold : readBytes (overwrite (content smallDisk (oneBlock 2 1 4)) 0
          (oneReadable.bytes (0 : Int).toNat)) 0 1 = [65] := by decide +kernel
      rw [hsees 0 (by decide) 1 (by decide), hold] at hread
      exact absurd hread (by simp)
    · rw [heq] at hbyte
      revert hbyte
      decide

end Xv6.Fs
