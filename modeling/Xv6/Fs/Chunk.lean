-- SUMMARY: How many blocks one chunk of a write logs: at most as many as `begin_op` reserves, if the file has no holes.
import Mathlib.Data.Finset.Card
import Xv6.Fs.Node

/-!
# One chunk of a write

`filewrite` writes in chunks, each in an operation of its own. Every block of the file that a chunk
touches costs at most two blocks of the log, its own and one of the bitmap. The indirect block
and its bit of the bitmap come in once. A chunk that starts inside a block finds that block there,
and this is what makes the reservation enough.
-/

namespace Xv6.Fs

open Prog

/-- `max` in `filewrite`. -/
def maxChunk : Int := (((MAXOPBLOCKS - 1 - 1 - 2) / 2) * BSIZE : Nat)

/-- `n1` in `filewrite`, when `i` of `n` bytes have been written. -/
def chunk (n i : Int) : Int := if n - i > maxChunk then maxChunk else n - i

section
variable {sb : Superblock} {s s' s'' : Core} {d d' d'' : Dinode} {E : Stop → Core → Prop} {k bn ind j : Nat}

/-! ## What is logged -/

/-- The indirect block is still to be allocated. -/
def missing (d : Dinode) : Nat := if d.addr NDIRECT = 0 then 1 else 0

/-- Only the blocks in `L` and the indirect block have been logged. -/
structure Logs (s : Core) (d : Dinode) (L : List Nat) (s' : Core) (d' : Dinode) : Prop where
  logged : ∀ x ∈ s'.logged, x ∈ s.logged ∨ x ∈ L ∨ (d'.addr NDIRECT ≠ 0 ∧ x = d'.addr NDIRECT)
  keeps : d.addr NDIRECT ≠ 0 → d'.addr NDIRECT = d.addr NDIRECT
  outstanding : s'.outstanding = s.outstanding

variable {L M : List Nat}

theorem Logs.refl : Logs s d L s d := ⟨fun _ hx => .inl hx, fun _ => rfl, rfl⟩

theorem Logs.trans (h : Logs s d L s' d') (h' : Logs s' d' M s'' d'') : Logs s d (L ++ M) s'' d'' where
  logged x hx := by
    obtain hx | hx | hx := h'.logged x hx
    · obtain hx | hx | ⟨hne, hx⟩ := h.logged x hx
      · exact .inl hx
      · exact .inr (.inl (List.mem_append_left M hx))
      · have heq := h'.keeps hne
        exact .inr (.inr ⟨heq ▸ hne, heq ▸ hx⟩)
    · exact .inr (.inl (List.mem_append_right L hx))
    · exact .inr (.inr hx)
  keeps hne := by
    have heq := h.keeps hne
    rw [h'.keeps (heq ▸ hne), heq]
  outstanding := h'.outstanding.trans h.outstanding

theorem Logs.mono (h : Logs s d L s' d') (hsub : L ⊆ M) : Logs s d M s' d' :=
  ⟨fun x hx => (h.logged x hx).imp_right fun h => h.imp_left fun hx => hsub hx, h.keeps, h.outstanding⟩

theorem Logs.log {b : Nat} (h : Logs s d L s' d') (hb : b ∈ L) : Logs s d L (s'.log b) d' where
  logged x hx := by
    obtain hx | rfl := Core.mem_log.mp hx
    · exact h.logged x hx
    · exact .inr (.inl hb)
  keeps := h.keeps
  outstanding := h.outstanding

/-- A block for the file. -/
theorem Logs.alloc {b : Nat} (hkeeps : d.addr NDIRECT ≠ 0 → d'.addr NDIRECT = d.addr NDIRECT) :
    Logs s d [b, sb.bblock b] (s.alloc sb b) d' where
  logged x hx := by
    obtain hx | rfl | rfl := Core.mem_alloc.mp hx
    · exact .inl hx
    · exact .inr (.inl (List.mem_cons_of_mem _ (List.mem_singleton_self _)))
    · exact .inr (.inl List.mem_cons_self)
  keeps := hkeeps
  outstanding := rfl

/-- The indirect block. -/
theorem Logs.allocIndirect {b : Nat} (hempty : d.addr NDIRECT = 0) (hb : b < UINT) (hne : b ≠ 0) :
    Logs s d [sb.bblock b] (s.alloc sb b) (d.setAddr NDIRECT b) where
  logged x hx := by
    have haddr : (d.setAddr NDIRECT b).addr NDIRECT = b := Dinode.addr_setAddr le_rfl hb
    obtain hx | rfl | rfl := Core.mem_alloc.mp hx
    · exact .inl hx
    · exact .inr (.inl (List.mem_singleton_self _))
    · exact .inr (.inr ⟨haddr.symm ▸ hne, haddr.symm⟩)
  keeps hne := absurd hempty hne
  outstanding := rfl

theorem Logs.put {b : Nat} {x : Block} (h : Logs s d L s' d') : Logs s d L (s'.put b x) d' :=
  ⟨h.logged, h.keeps, h.outstanding⟩

/-! ## One block of the file -/

/-- A slot of the inode is there, or it is filled, or there is no block for it. -/
theorem wp_addrOrAlloc_cases {Q : Nat × Dinode → Core → Prop} (hout : 0 < s.outstanding)
    (hhit : d.addr k ≠ 0 → Q (d.addr k, d) s) (hfull : d.addr k = 0 → Q (0, d) s)
    (hzero : d.addr k = 0 → Q (0, d) (s.alloc sb 0))
    (halloc : ∀ b < sb.size, d.addr k = 0 → b ≠ 0 → Q (b, d.setAddr k b) (s.alloc sb b)) :
    wp (addrOrAlloc sb d k) Q E s := by
  rw [addrOrAlloc]
  split
  · next hempty =>
    rw [wp_bind]
    refine wp_balloc hout (fun _ => ?_) fun b hb _ => ?_
    · rw [if_pos rfl]
      exact wp_pure.mpr (hfull hempty)
    · split
      · next hb => exact wp_pure.mpr (hb ▸ hzero hempty)
      · next hne => exact wp_pure.mpr (halloc b hb hempty hne)
  · next hne => exact wp_pure.mpr (hhit hne)

/-- An entry of the indirect block costs a bit of the bitmap, besides the block itself. -/
theorem wp_entryOrAlloc_logs (hout : 0 < s.outstanding) (hind : ind = d.addr NDIRECT) (hne : ind ≠ 0) :
    wp (entryOrAlloc sb ind j) (fun a s' => ∃ c, Logs s d [a, c] s' d) E s := by
  simp only [entryOrAlloc, wp_bind, wp_get]
  split
  · rw [wp_bind]
    refine wp_balloc hout (fun _ => ?_) fun b _ _ => ?_
    · rw [if_neg (not_not.mpr rfl)]
      exact wp_pure.mpr ⟨0, .refl⟩
    · have halloc : Logs s d [b, sb.bblock b] (s.alloc sb b) d := .alloc fun _ => rfl
      split
      · rw [wp_bind, wp_get, wp_bind, wp_setBuf, wp_bind, wp_logWrite (by exact hout)]
        refine wp_pure.mpr ⟨sb.bblock b, fun x hx => ?_, fun _ => rfl, rfl⟩
        obtain hx | rfl := Core.mem_log.mp hx
        · exact halloc.logged x hx
        · exact .inr (.inr ⟨hind ▸ hne, hind⟩)
      · exact wp_pure.mpr ⟨sb.bblock b, halloc⟩
  · exact wp_pure.mpr ⟨0, .refl⟩

/-- A block of the file costs a bit of the bitmap, and another if there was no indirect block. -/
theorem wp_bmap_logs (hsize : sb.size ≤ UINT) (hout : 0 < s.outstanding) (hbn : bn < MAXFILE) :
    wp (bmap sb d bn) (fun r s' => ∃ L, L.length + missing r.2 ≤ missing d + 1 ∧
      Logs s d (r.1 :: L) s' r.2) E s := by
  rw [bmap]
  split
  · next hdirect =>
    refine wp_addrOrAlloc_cases hout (fun _ => ?_) (fun _ => ?_) (fun _ => ?_) fun b hb _ hne => ?_
    · exact ⟨[], by simp, .refl⟩
    · exact ⟨[], by simp, .refl⟩
    · exact ⟨[sb.bblock 0], by simp; omega, .alloc fun _ => rfl⟩
    · have hsame : (d.setAddr bn b).addr NDIRECT = d.addr NDIRECT := Dinode.addr_setAddr_ne (by omega)
      refine ⟨[sb.bblock b], ?_, .alloc fun _ => hsame⟩
      rw [missing, missing, hsame, List.length_singleton]
      omega
  · next hdirect =>
    have hj : bn - NDIRECT < NINDIRECT := by
      simp only [MAXFILE, NDIRECT, NINDIRECT] at *
      omega
    -- with the indirect block at hand, whether it is new or not
    have hentry {s₁ : Core} {d₁ : Dinode} {ind : Nat} {L : List Nat} (h₁ : Logs s d L s₁ d₁)
        (hcost : L.length + missing d₁ ≤ missing d) (hind : ind = d₁.addr NDIRECT) (hne : ind ≠ 0) :
        wp (entryOrAlloc sb ind (bn - NDIRECT)) (fun a s' => ∃ L, L.length + missing d₁ ≤ missing d + 1 ∧
          Logs s d (a :: L) s' d₁) E s₁ := by
      refine (wp_entryOrAlloc_logs (by rw [h₁.outstanding]; exact hout) hind hne).imp fun a s' hpost => ?_
      obtain ⟨c, h₂⟩ := hpost
      refine ⟨L ++ [c], ?_, (h₁.trans h₂).mono ?_⟩
      · rw [List.length_append, List.length_singleton]
        omega
      · intro x hx
        simp only [List.mem_append, List.mem_cons, List.not_mem_nil, or_false] at hx ⊢
        tauto
    rw [if_pos hj, wp_bind]
    refine wp_addrOrAlloc_cases hout (fun hne => ?_) (fun _ => ?_) (fun _ => ?_) fun b hb hempty hne => ?_
    · dsimp only
      rw [if_neg hne, wp_bind]
      have hnone : ([] : List Nat).length + missing d ≤ missing d := by simp
      exact (hentry .refl hnone rfl hne).imp fun a s' h => wp_pure.mpr h
    · exact wp_pure.mpr ⟨[], by simp, .refl⟩
    · exact wp_pure.mpr ⟨[sb.bblock 0], by simp; omega, .alloc fun _ => rfl⟩
    · have haddr : (d.setAddr NDIRECT b).addr NDIRECT = b := Dinode.addr_setAddr le_rfl (by omega)
      have hcost : [sb.bblock b].length + missing (d.setAddr NDIRECT b) ≤ missing d := by
        rw [missing, missing, haddr, if_neg hne, if_pos hempty, List.length_singleton]
      dsimp only
      rw [if_neg hne, wp_bind]
      refine (hentry (.allocIndirect hempty (by omega) hne) hcost haddr.symm hne).imp fun a s' h => ?_
      exact wp_pure.mpr h

/-! ## The loop -/

variable {src : Source} {fuel off tot rem : Nat}

/-- The number of blocks in which `rem` bytes from `off` on lie. -/
def blocks (off rem : Nat) : Nat := if rem = 0 then 0 else (off + rem - 1) / BSIZE - off / BSIZE + 1

theorem blocks_step (h : rem ≠ 0) : blocks off rem =
    blocks (off + min rem (BSIZE - off % BSIZE)) (rem - min rem (BSIZE - off % BSIZE)) + 1 := by
  simp only [blocks, if_neg h, BSIZE]
  split <;> omega

/-- A turn of the loop, after its block is found. -/
theorem wp_writeTurn {c addr : Nat} (hout : 0 < s.outstanding) (h : Logs s d (addr :: L) s' d')
    (hcost : L.length + missing d' ≤ missing d + c) (hend : off + rem ≤ MAXFILE * BSIZE)
    (hloop : ∀ s₁ : Core, 0 < s₁.outstanding → ∀ off tot rem, off + rem ≤ MAXFILE * BSIZE →
      wp (writeLoop sb src fuel d' off tot rem) (fun r s'' => ∃ M,
        M.length + missing r.2 ≤ missing d' + 2 * blocks off rem ∧ Logs s₁ d' M s'' r.2) E s₁) :
    wp (do
      if addr = 0 then
        pure (tot, d')
      else
        let s ← get
        let m := min rem (BSIZE - off % BSIZE)
        setBuf addr (paste (s.blk addr) src (off % BSIZE) tot (src.good tot m))
        if src.good tot m < m then
          pure (tot, d')
        else
          logWrite addr
          writeLoop sb src fuel d' (off + m) (tot + m) (rem - m))
      (fun r s'' => ∃ M, M.length + missing r.2 ≤
          missing d + c + 1 + 2 * blocks (off + min rem (BSIZE - off % BSIZE)) (rem - min rem (BSIZE - off % BSIZE)) ∧
        Logs s d M s'' r.2) E s' := by
  have hout' : 0 < s'.outstanding := by
    rw [h.outstanding]
    exact hout
  have hstop {s'' : Core} (h : Logs s d (addr :: L) s'' d') : ∃ M, M.length + missing d' ≤
      missing d + c + 1 + 2 * blocks (off + min rem (BSIZE - off % BSIZE)) (rem - min rem (BSIZE - off % BSIZE)) ∧
      Logs s d M s'' d' := by
    refine ⟨_, ?_, h⟩
    rw [List.length_cons]
    omega
  split
  · exact wp_pure.mpr (hstop h)
  · rw [wp_bind, wp_get, wp_bind, wp_setBuf]
    split
    · exact wp_pure.mpr (hstop h.put)
    · rw [wp_bind, wp_logWrite (by exact hout')]
      refine (hloop _ (by exact hout') _ _ _ (by omega)).imp fun r s'' hpost => ?_
      obtain ⟨M, hM, h₂⟩ := hpost
      refine ⟨_, ?_, (h.put.log List.mem_cons_self).trans h₂⟩
      rw [List.length_append, List.length_cons]
      omega

theorem wp_writeLoop_logs (hsize : sb.size ≤ UINT) (hout : 0 < s.outstanding) (hend : off + rem ≤ MAXFILE * BSIZE) :
    wp (writeLoop sb src fuel d off tot rem) (fun r s' => ∃ L,
      L.length + missing r.2 ≤ missing d + 2 * blocks off rem ∧ Logs s d L s' r.2) E s := by
  induction fuel generalizing s d off tot rem with
  | zero => exact wp_pure.mpr ⟨[], by simp, .refl⟩
  | succ fuel ih =>
    simp only [writeLoop]
    split
    · exact wp_pure.mpr ⟨[], by simp, .refl⟩
    · next hrem =>
      have hbn : off / BSIZE < MAXFILE := div_lt_maxfile (by omega)
      rw [wp_bind]
      refine (wp_bmap_logs hsize hout hbn).imp fun r s₁ hpost => ?_
      obtain ⟨L, hL, h₁⟩ := hpost
      rw [blocks_step hrem]
      refine (wp_writeTurn hout h₁ hL hend fun s₂ hout₂ off tot rem hend => ih hout₂ hend).imp
        fun r s₂ hpost => ?_
      obtain ⟨M, hM, h₂⟩ := hpost
      exact ⟨M, by omega, h₂⟩

/-- If the first block is there, it costs nothing in the bitmap. -/
theorem wp_writeLoop_hit (hsize : sb.size ≤ UINT) (hout : 0 < s.outstanding) (hend : off + rem ≤ MAXFILE * BSIZE)
    (hrem : rem ≠ 0) (hne : slot s.blk d (fileSlot (off / BSIZE)) ≠ 0) :
    wp (writeLoop sb src (fuel + 1) d off tot rem) (fun r s' => ∃ L,
      L.length + missing r.2 + 1 ≤ missing d + 2 * blocks off rem ∧ Logs s d L s' r.2) E s := by
  have hbn : off / BSIZE < MAXFILE := div_lt_maxfile (by omega)
  have hcost : ([] : List Nat).length + missing d ≤ missing d + 0 := by simp
  simp only [writeLoop]
  rw [if_neg hrem, wp_bind, wp_bmap_hit hbn hne, blocks_step hrem]
  refine (wp_writeTurn hout .refl hcost hend fun s₂ hout₂ off tot rem hend =>
    wp_writeLoop_logs hsize hout₂ hend).imp fun r s₂ hpost => ?_
  obtain ⟨M, hM, h₂⟩ := hpost
  exact ⟨M, by omega, h₂⟩

end

/-! ## The chunk -/

theorem missing_le (d : Dinode) : missing d ≤ 1 := by
  rw [missing]
  split <;> omega

theorem Logs.card_le {s s' : Core} {d d' : Dinode} {L : List Nat} (h : Logs s d L s' d') (hs : s.logged = []) (b : Nat) :
    (s'.log b).logged.toFinset.card ≤ L.length + 2 := by
  have hsub : (s'.log b).logged.toFinset ⊆ (b :: d'.addr NDIRECT :: L).toFinset := by
    intro x hx
    rw [List.mem_toFinset] at hx ⊢
    obtain hx | rfl := Core.mem_log.mp hx
    · obtain hx | hx | ⟨-, rfl⟩ := h.logged x hx
      · rw [hs] at hx
        exact absurd hx List.not_mem_nil
      · exact List.mem_cons_of_mem _ (List.mem_cons_of_mem _ hx)
      · exact List.mem_cons_of_mem _ List.mem_cons_self
    · exact List.mem_cons_self
  exact (Finset.card_le_card hsub).trans (List.toFinset_card_le _)

theorem wp_writei_logs {sb : Superblock} {s : Core} {inum off n : Nat} {d : Dinode} {src : Source}
    {E : Stop → Core → Prop} (hsize : sb.size ≤ UINT) (hout : 0 < s.outstanding) (hs : s.logged = [])
    (hfilled : ∀ x < d.size.toNat, slot s.blk d (fileSlot (x / BSIZE)) ≠ 0) (hn : n ≠ 0) (hmax : n ≤ maxChunk) :
    wp (writei sb inum d src off n) (fun _ s' => s'.logged.toFinset.card ≤ MAXOPBLOCKS) E s := by
  have hnone : s.logged.toFinset.card ≤ MAXOPBLOCKS := by
    rw [hs]
    exact Nat.zero_le _
  have hmax : n ≤ 3072 := by
    have : maxChunk = 3072 := rfl
    omega
  rw [writei]
  split
  · exact wp_pure.mpr hnone
  · next hoff =>
    split
    · exact wp_pure.mpr hnone
    · next hend =>
      have hcount : wp (writeLoop sb src n d off 0 n) (fun r s' => ∃ L, L.length + missing r.2 ≤ 8 ∧
          Logs s d L s' r.2) E s := by
        have hmissing := missing_le d
        by_cases halign : off % BSIZE = 0
        · refine (wp_writeLoop_logs hsize hout (by omega)).imp fun r s' hpost => ?_
          obtain ⟨L, hL, h⟩ := hpost
          refine ⟨L, ?_, h⟩
          simp only [blocks, if_neg hn, BSIZE] at *
          omega
        · obtain ⟨m, rfl⟩ := Nat.exists_eq_succ_of_ne_zero hn
          -- the byte before is in the same block
          have hsame : (off - 1) / BSIZE = off / BSIZE := by
            simp only [BSIZE] at halign ⊢
            omega
          have hpos : off ≠ 0 := fun hzero => halign (by rw [hzero, Nat.zero_mod])
          have hne := hfilled (off - 1) (by omega)
          rw [hsame] at hne
          refine (wp_writeLoop_hit hsize hout (by omega) hn hne).imp fun r s' hpost => ?_
          obtain ⟨L, hL, h⟩ := hpost
          refine ⟨L, ?_, h⟩
          simp only [blocks, if_neg hn, BSIZE] at *
          omega
      rw [wp_bind]
      refine hcount.imp fun r s' hpost => ?_
      obtain ⟨L, hL, h⟩ := hpost
      rw [wp_bind, wp_iupdate (by rw [h.outstanding]; exact hout)]
      have hfit : (s'.log (sb.iblock inum)).logged.toFinset.card ≤ L.length + 2 := h.card_le hs _
      refine wp_pure.mpr (hfit.trans ?_)
      simp only [MAXOPBLOCKS]
      omega

/-- Every chunk of a write logs at most the blocks that `begin_op` has reserved for it, if no block
of the file is missing. The log is empty at first, to count what this call adds. -/
theorem writei_fits_reservation {sb : Superblock} {blk : Disk} {outstanding inum off : Nat} {d : Dinode}
    {src : Source} {n i : Int} (hsize : sb.size ≤ UINT) (hout : 0 < outstanding)
    (hfilled : ∀ x < d.size.toNat, slot blk d (fileSlot (x / BSIZE)) ≠ 0) (hi : i < n) :
    ∃ r d' s', writei sb inum d src off (chunk n i).toNat ⟨blk, [], outstanding⟩ = .ok (r, d') s' ∧
      s'.logged.toFinset.card ≤ MAXOPBLOCKS := by
  have hmax : maxChunk = 3072 := rfl
  have hchunk : 0 < chunk n i ∧ chunk n i ≤ maxChunk := by
    rw [chunk]
    split <;> omega
  have hwp : wp (writei sb inum d src off (chunk n i).toNat) (fun _ s' => s'.logged.toFinset.card ≤ MAXOPBLOCKS)
      (fun _ _ => False) ⟨blk, [], outstanding⟩ :=
    wp_writei_logs hsize hout rfl hfilled (by omega) (by omega)
  obtain ⟨⟨r, d'⟩, s', hrun, hcard⟩ := hwp.returns
  exact ⟨r, d', s', hrun, hcard⟩

/-- A write of five bytes to a file of one byte. -/
theorem writei_fits_reservation_small : ∃ r d' s',
    writei small 2 (oneBlock 2 1 4) (.kernel [1, 2, 3, 4, 5]) 1 (chunk 5 0).toNat smallCore = .ok (r, d') s' ∧
    s'.logged.toFinset.card ≤ MAXOPBLOCKS :=
  writei_fits_reservation (by decide) (by decide) (filled_oneBlock (by decide) (by decide) (by decide)).below (by decide)

end Xv6.Fs
