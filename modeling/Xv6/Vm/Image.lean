-- SUMMARY: The image that `exec` builds, byte by byte: what is in memory after the segments are loaded, as a function of the file.
import Xv6.Vm.Contents

/-!
# Images

An image has a size, the bytes of its memory and the permissions of its pages. The loop of `exec`
over the program headers grows it, and copies parts of the file into it. This file says that the
new page table shows such an image at every point, and that memory is only written in pages that
were free when `exec` began.
-/

namespace Xv6

open Prog Radix

variable {G : Nat → Prop} {k k' k₀ : Kmem} {t t' : Pagetable} {tf : Nat} {E : Vm.Stop → Kmem → Prop}

/-! ## Bytes that are replaced -/

section
variable {m : Bytes.Mem} {a b off : Nat} {xs ys : List UInt8}

theorem patch_outside (h : b < a ∨ a + xs.length ≤ b) : patch m a xs b = m b := by
  rw [patch, if_neg (by omega)]

theorem patch_inside {i : Nat} (hi : i < xs.length) : some (patch m a xs (a + i)) = xs[i]? := by
  rw [patch, if_pos (by omega), Nat.add_sub_cancel_left, List.getD_eq_getElem?_getD,
    List.getElem?_eq_getElem hi, Option.getD_some]

theorem patch_nil : patch m a [] = m := by
  funext b
  exact patch_outside (by simp only [List.length_nil]; omega)

theorem patch_append : patch (patch m a xs) (a + xs.length) ys = patch m a (xs ++ ys) := by
  funext b
  by_cases hlo : b < a
  · rw [patch_outside (by omega), patch_outside (by omega), patch_outside (by omega)]
  · obtain ⟨i, rfl⟩ := Nat.exists_eq_add_of_le (Nat.not_lt.mp hlo)
    by_cases hx : i < xs.length
    · refine Option.some.inj ?_
      rw [patch_outside (by omega), patch_inside hx, patch_inside (by rw [List.length_append]; omega),
        List.getElem?_append_left hx]
    · by_cases hy : i < xs.length + ys.length
      · have haddr : a + i = a + xs.length + (i - xs.length) := by omega
        refine Option.some.inj ?_
        rw [patch_inside (by rw [List.length_append]; omega), List.getElem?_append_right (by omega), haddr,
          patch_inside (by omega)]
      · rw [patch_outside (by omega), patch_outside (by omega),
          patch_outside (by rw [List.length_append]; omega)]

end

/-! ## Images -/

/-- What a program finds in memory. -/
structure Img where
  sz : Nat
  byte : Bytes.Mem
  /-- The permissions of the pages. -/
  perm : Nat → Perm

namespace Img

def empty : Img := ⟨0, fun _ => 0, fun _ => ⟨false, false, false, false⟩⟩

def write (I : Img) (a : Nat) (data : List UInt8) : Img := { I with byte := patch I.byte a data }

/-- New pages are full of zeros, as all memory above the image is. -/
def grow (I : Img) (newsz : Nat) (perm : Perm) : Img :=
  { I with sz := max I.sz newsz, perm := fun v => if v < npages I.sz then I.perm v else perm }

/-- Take page `v` away from the user. -/
def clear (I : Img) (v : Nat) : Img :=
  { I with perm := Function.update I.perm v { I.perm v with u := false } }

end Img

/-- The table shows the image. -/
structure Shows (k : Kmem) (t : Pagetable) (I : Img) : Prop where
  page : ∀ v < npages I.sz, ∃ e, t.get v = some e ∧ e.perm = I.perm v ∧
    ∀ i < PGSIZE, k.page e.pa i = I.byte (v * PGSIZE + i)
  blank : ∀ a, npages I.sz * PGSIZE ≤ a → I.byte a = 0

/-- An image in the making. Its pages and those of its table were free in `k₀`, and no others have
been written. -/
structure Loaded (G : Nat → Prop) (k₀ : Kmem) (tf : Nat) (k : Kmem) (t : Pagetable) (I : Img) : Prop
    extends Building G k₀.image tf (k₀.freelist + {tf} + {k₀.image.trampoline}) k t I.sz where
  nodup : ((k₀.freelist : Multiset Nat) + {tf} + {k₀.image.trampoline}).Nodup
  inside : Inside k₀ k
  shows : Shows k t I

section
variable {sz v off : Nat} {e : Pte} {I : Img} {data : List UInt8}

/-- Free pages became pages of the image or of its table. -/
theorem Building.free_eq
    (h : Building G k₀.image tf (k₀.freelist + {tf} + {k₀.image.trampoline}) k t sz) :
    (k.freelist : Multiset Nat) + (t.nodes + Vm.userPages t) = k₀.freelist := by
  have hstock := h.stock
  rw [Xv6.stock, Vm.tablePages_eq h.layout h.below] at hstock
  refine add_right_cancel (b := ({tf} + {k₀.image.trampoline} : Multiset Nat)) ?_
  rw [← add_assoc (k₀.freelist : Multiset Nat), ← hstock]
  abel

theorem Building.nodes_mem
    (h : Building G k₀.image tf (k₀.freelist + {tf} + {k₀.image.trampoline}) k t sz) :
    ∀ x ∈ t.nodes, x ∈ k₀.freelist := by
  intro x hx
  rw [← Multiset.mem_coe, ← h.free_eq]
  exact Multiset.mem_add.mpr (.inr (Multiset.mem_add.mpr (.inl hx)))

theorem Building.page_mem
    (h : Building G k₀.image tf (k₀.freelist + {tf} + {k₀.image.trampoline}) k t sz) (hv : v < NPAGES)
    (hget : t.get v = some e) : e.pa ∈ k₀.freelist := by
  rw [← Multiset.mem_coe, ← h.free_eq]
  exact Multiset.mem_add.mpr (.inr (Multiset.mem_add.mpr (.inr (Vm.mem_userPages hv hget))))

theorem Shows.write (h : Shows k t I) (hnodup : (stock k t).Nodup) (hsz : I.sz ≤ TRAPFRAME)
    (hv : v < npages I.sz) (hget : t.get v = some e) (hoff : off + data.length ≤ PGSIZE) :
    Shows (k.write e.pa (patch (k.page e.pa) off data)) t (I.write (v * PGSIZE + off) data) where
  page v' hv' := by
    have hle := npages_le hsz
    have hlt := npages_lt_vpns
    have hv' : v' < npages I.sz := hv'
    obtain ⟨e', hget', hperm, hbyte⟩ := h.page v' hv'
    refine ⟨e', hget', hperm, fun i hi => ?_⟩
    by_cases heq : v' = v
    · subst heq
      rw [hget] at hget'
      cases hget'
      simp only [Kmem.write, Function.update_self, Img.write, patch]
      by_cases hin : off ≤ i ∧ i < off + data.length
      · have hidx : v' * PGSIZE + i - (v' * PGSIZE + off) = i - off := by omega
        rw [if_pos hin, if_pos (by omega), hidx]
      · rw [if_neg hin, if_neg (by omega), hbyte i hi]
    · have hpa : e'.pa ≠ e.pa := fun hpa => heq (pa_inj hnodup (by omega) (by omega) hget' hget hpa)
      have hout : v' * PGSIZE + i < v * PGSIZE + off ∨ v * PGSIZE + off + data.length ≤ v' * PGSIZE + i := by
        simp only [PGSIZE] at *
        omega
      simp only [Kmem.write, Function.update_of_ne hpa, Img.write]
      rw [patch_outside hout, hbyte i hi]
  blank a ha := by
    have hend : v * PGSIZE + PGSIZE ≤ npages I.sz * PGSIZE := by
      rw [← Nat.succ_mul]
      exact Nat.mul_le_mul_right _ hv
    have ha : npages I.sz * PGSIZE ≤ a := ha
    exact (patch_outside (by omega)).trans (h.blank a ha)

theorem Loaded.stock_nodup (h : Loaded G k₀ tf k t I) : (stock k t).Nodup := h.stock.symm ▸ h.nodup

/-- Writing to a page of the image. -/
theorem Loaded.write (h : Loaded G k₀ tf k t I)
    (hv : v < npages I.sz) (hget : t.get v = some e) (hoff : off + data.length ≤ PGSIZE) :
    Loaded G k₀ tf (k.write e.pa (patch (k.page e.pa) off data)) t (I.write (v * PGSIZE + off) data) where
  toBuilding := h.toBuilding.writes (Writes.refl _).of_write
  nodup := h.nodup
  inside := h.inside.write (.inl (h.page_mem (hv.trans_le (npages_le h.below)) hget))
  shows := h.shows.write h.stock_nodup h.below hv hget hoff

/-! ## Growing -/

theorem Shows.congr (h : Shows k t I) (hnodup : (stock k t).Nodup) (hin : Inside k k')
    (hget : ∀ v < npages I.sz, t'.get v = t.get v) : Shows k' t' I where
  page v hv := by
    obtain ⟨e, he, hperm, hbyte⟩ := h.page v hv
    refine ⟨e, (hget v hv).trans he, hperm, fun i hi => ?_⟩
    rw [hin.keeps_page (notMem_free hnodup he), hbyte i hi]
  blank := h.blank

variable {newsz sz' : Nat} {perm : Perm}

/-- The image after a growth that failed. -/
theorem Loaded.not_grown (h : Loaded G k₀ tf k t I)
    (hg : GrownTo G k t I.sz newsz perm k' t' sz') (hin : Inside k k') (hzero : sz' = 0) :
    Loaded G k₀ tf k' t' I := by
  have hget := hg.same_of_zero hzero
  have hlt := npages_lt_vpns
  have hle := npages_le h.below
  exact ⟨⟨hg.kmem, hg.image.trans h.sameImage, hg.table, h.below, h.layout.congr hget, hg.stock.trans h.stock⟩,
    h.nodup, h.inside.trans hin, h.shows.congr h.stock_nodup hin fun v hv => hget v (by omega)⟩

/-- The image after a growth. -/
theorem Loaded.grown (h : Loaded G k₀ tf k t I)
    (hg : GrownTo G k t I.sz newsz perm k' t' sz') (hin : Inside k k')
    (hzeros : Zeroed k k' t' (npages I.sz) (npages sz')) (hr : perm.r = true) (hne : sz' ≠ 0) :
    sz' = (I.grow newsz perm).sz ∧ Loaded G k₀ tf k' t' (I.grow newsz perm) := by
  have hlt := npages_lt_vpns
  have hl := hg.layout h.layout hr hne
  obtain ⟨hzero, -⟩ | ⟨hmax, hfits, hkeep, hnew, -⟩ := hg.result
  · exact absurd hzero hne
  · have hle := npages_le hfits
    subst hmax
    refine ⟨rfl, ⟨hg.kmem, hg.image.trans h.sameImage, hg.table, hfits, hl, hg.stock.trans h.stock⟩,
      h.nodup, h.inside.trans hin, fun v hv => ?_, fun a ha => ?_⟩
    · have hv : v < npages (max I.sz newsz) := hv
      by_cases hold : v < npages I.sz
      · obtain ⟨e, he, hperm, hbyte⟩ := h.shows.page v hold
        refine ⟨e, (hkeep v (by omega) (.inl hold)).trans he, hperm.trans (if_pos hold).symm, fun i hi => ?_⟩
        rw [hin.keeps_page (notMem_free h.stock_nodup he), hbyte i hi]
        rfl
      · obtain ⟨e, he, hperm⟩ := hnew v (by omega) hv
        refine ⟨e, he, hperm.trans (if_neg hold).symm, fun i _ => ?_⟩
        rw [(hzeros v (by omega) hv e he).2.2 i]
        refine (h.shows.blank _ ?_).symm
        exact (Nat.mul_le_mul_right _ (Nat.not_lt.mp hold)).trans (Nat.le_add_right ..)
    · refine h.shows.blank a (le_trans (Nat.mul_le_mul_right _ ?_) ha)
      exact npages_mono (Nat.le_max_left ..)

/-- `uvmalloc` on an image: it fails and leaves the image, or it grows it. -/
theorem wp_uvmalloc_image {w x : Bool} (h : Loaded G k₀ tf k t I)
    (hroom : Room k I.sz) :
    wp (uvmalloc t I.sz newsz w x) (fun r k' =>
      r.2 = 0 ∧ Loaded G k₀ tf k' r.1 I ∨
      r.2 ≠ 0 ∧ r.2 = (I.grow newsz ⟨true, w, x, true⟩).sz ∧
        Loaded G k₀ tf k' r.1 (I.grow newsz ⟨true, w, x, true⟩) ∧ Room k' r.2) E k := by
  have htf : t.get NPAGES ≠ none := by
    rw [h.layout.trapframe]
    exact Option.some_ne_none _
  refine ((wp_uvmalloc h.kmem h.table h.below (.inr (.inl hroom)) fun v hv hlt => h.layout.free hv hlt).also
    (wp_uvmalloc_view h.kmem h.table h.stock_nodup h.below htf)).imp fun r k' hpost => ?_
  obtain ⟨hg, hin, hzeros⟩ := hpost
  by_cases hzero : r.2 = 0
  · exact .inl ⟨hzero, h.not_grown hg hin hzero⟩
  · obtain ⟨hsz, himage⟩ := h.grown hg hin (hzeros hzero) rfl hzero
    refine .inr ⟨hzero, hsz, himage, ?_⟩
    obtain ⟨hz, -⟩ | ⟨-, -, -, -, hlen⟩ := hg.result
    · exact absurd hz hzero
    · simp only [Room] at hroom ⊢
      omega

/-! ## Segments -/

/-- The user may use every page. -/
def Img.Open (I : Img) : Prop := ∀ v < npages I.sz, (I.perm v).u = true

theorem Img.Open.grow (h : I.Open) (hu : perm.u = true) : (I.grow newsz perm).Open := by
  intro v _
  simp only [Img.grow]
  split
  · next hv => exact h v hv
  · exact hu

theorem Img.Open.write {a : Nat} (h : I.Open) : (I.write a data).Open := h

theorem Img.write_nil {a : Nat} : I.write a [] = I := by
  rw [Img.write, patch_nil]

theorem Img.write_append {a : Nat} {xs ys : List UInt8} :
    (I.write a xs).write (a + xs.length) ys = I.write a (xs ++ ys) := by
  simp only [Img.write, patch_append]

variable {file : List UInt8} {va offset size n i : Nat}

/-- The bytes that the loop of `loadseg` copies. -/
def segData (file : List UInt8) (offset size : Nat) : Nat → Nat → List UInt8
  | 0, _ => []
  | n + 1, i =>
    readi file ((offset + i) % UINT) (min (size - i) PGSIZE) ++ segData file offset size n (i + PGSIZE)

theorem length_readi_le : (readi file offset n).length ≤ n := by
  unfold readi
  split
  · exact Nat.zero_le n
  · exact List.length_take_le n _

theorem readi_eq (hfile : file.length < UINT) (hend : offset + n ≤ file.length) :
    readi file offset n = (file.drop offset).take n := by
  rw [readi, if_neg]
  rw [Nat.mod_eq_of_lt (by omega)]
  omega

/-- A segment that lies in the file. -/
theorem segData_eq (hfile : file.length < UINT) (hend : offset + size ≤ file.length)
    (hn : n = turns i size) : segData file offset size n i = (file.drop (offset + i)).take (size - i) := by
  induction n generalizing i with
  | zero =>
    have hi : size - i = 0 := by
      simp only [turns, PGSIZE] at hn
      omega
    rw [segData, hi, List.take_zero]
  | succ n ih =>
    have hi : i < size := by
      simp only [turns, PGSIZE] at hn
      omega
    have hnext : n = turns (i + PGSIZE) size := by
      simp only [turns, PGSIZE] at hn ⊢
      omega
    have hsplit : size - i = min (size - i) PGSIZE + (size - (i + PGSIZE)) := by omega
    rw [segData, Nat.mod_eq_of_lt (by omega), readi_eq hfile (by omega), ih hnext, hsplit, List.take_add,
      List.drop_drop, ← hsplit]
    by_cases hlast : size - i ≤ PGSIZE
    · rw [show size - (i + PGSIZE) = 0 by omega, List.take_zero, List.take_zero]
    · rw [Nat.min_eq_right (by omega), Nat.add_assoc]

theorem wp_loadsegLoop_image (h : Loaded G k₀ tf k t I) (hopen : I.Open) (hva : va % PGSIZE = 0)
    (hi : i % PGSIZE = 0) (hfit : va + size ≤ I.sz) (hn : n = turns i size) :
    wp (loadsegLoop t va file offset size n i) (fun ok k' => ∃ J, Loaded G k₀ tf k' t J ∧ J.sz = I.sz ∧
      (ok = true → J = I.write (va + i) (segData file offset size n i))) E k := by
  induction n generalizing k I i with
  | zero => exact wp_pure.mpr ⟨I, h, rfl, fun _ => Img.write_nil.symm⟩
  | succ n ih =>
    have hlt : i < size := by
      simp only [turns, PGSIZE] at hn
      omega
    have hbelow := h.below
    have hmod : (va + i) % UINT64 = va + i := by
      simp only [TRAPFRAME, TRAMPOLINE, MAXVA, PGSIZE, UINT64] at *
      omega
    have hmax : va + i < MAXVA := by
      simp only [TRAPFRAME, TRAMPOLINE, MAXVA, PGSIZE] at *
      omega
    have hv : (va + i) / PGSIZE < npages I.sz := page_lt_npages (by omega)
    have haddr : (va + i) / PGSIZE * PGSIZE + 0 = va + i := by
      simp only [PGSIZE] at *
      omega
    obtain ⟨e, hget, hperm, -⟩ := h.shows.page _ hv
    simp only [loadsegLoop, hmod]
    rw [wp_bind]
    refine wp_walkaddr hmax hget (by rw [hperm, hopen _ hv]) ?_
    simp only [wp_bind, wp_modify]
    set data := readi file ((offset + i) % UINT) (min (size - i) PGSIZE) with hdata
    have hlen : data.length ≤ min (size - i) PGSIZE := length_readi_le
    have hw : Loaded G k₀ tf (k.write e.pa (patch (k.page e.pa) 0 data)) t (I.write (va + i) data) :=
      haddr ▸ h.write hv hget (by omega)
    rw [wp_ite]
    constructor
    · intro hall
      have hnext : n = turns (i + PGSIZE) size := by
        simp only [turns, PGSIZE] at hn ⊢
        omega
      refine (ih hw hopen (by simp only [PGSIZE] at *; omega) hfit hnext).imp fun ok k' hpost => ?_
      obtain ⟨J, hJ, hsz, heq⟩ := hpost
      refine ⟨J, hJ, hsz, fun hok => ?_⟩
      rw [heq hok, segData, ← hdata, ← Img.write_append]
      cases n with
      | zero => rw [segData, Img.write_nil, Img.write_nil]
      | succ n =>
        -- a turn before the last one fills its page
        have hfull : data.length = PGSIZE := by
          simp only [turns, PGSIZE] at hn hall ⊢
          omega
        rw [hfull, Nat.add_assoc]
    · intro _
      exact wp_pure.mpr ⟨_, hw, rfl, by simp⟩

end

/-! ## Program headers -/

section
variable {I : Img} {file : List UInt8} {ph : Proghdr} {n off : Nat}

/-- The program headers as `exec` reads them. -/
def proghdrs (file : List UInt8) : Nat → Nat → List Proghdr
  | 0, _ => []
  | n + 1, off =>
    Proghdr.ofBytes (readi file off Proghdr.size) :: proghdrs file n ((off + Proghdr.size) % UINT)

/-- The checks of `exec` on the header of a segment. -/
structure Proghdr.Ok (ph : Proghdr) : Prop where
  filesz : ph.filesz ≤ ph.memsz
  wrap : (ph.vaddr + ph.memsz) % UINT64 = ph.vaddr + ph.memsz
  aligned : ph.vaddr % PGSIZE = 0

/-- `flags2perm`, with the permissions that every page of a user has. -/
def Proghdr.perm (ph : Proghdr) : Perm := ⟨true, ph.flags.testBit 1, ph.flags.testBit 0, true⟩

def Proghdr.data (file : List UInt8) (ph : Proghdr) : List UInt8 :=
  segData file (ph.off % UINT) (ph.filesz % UINT) (turns 0 (ph.filesz % UINT)) 0

/-- One turn of the loop over the program headers. -/
def Img.load (file : List UInt8) (I : Img) (ph : Proghdr) : Img :=
  if ph.type = ELF_PROG_LOAD then
    (I.grow (ph.vaddr + ph.memsz) ph.perm).write ph.vaddr (ph.data file)
  else
    I

theorem wp_loadseg_image (h : Loaded G k₀ tf k t I) (hopen : I.Open) (hva : ph.vaddr % PGSIZE = 0)
    (hfit : ph.vaddr + ph.filesz ≤ I.sz) :
    wp (loadseg t ph.vaddr file ph.off ph.filesz) (fun ok k' => ∃ J, Loaded G k₀ tf k' t J ∧ J.sz = I.sz ∧
      (ok = true → J = I.write ph.vaddr (ph.data file))) E k := by
  have hle : ph.filesz % UINT ≤ ph.filesz := Nat.mod_le _ _
  exact wp_loadsegLoop_image h hopen hva rfl (by omega) rfl

/-- The loop over the program headers either fails, or loads the segments of all of them. -/
theorem wp_loadLoop_image (h : Loaded G k₀ tf k t I) (hopen : I.Open) (hroom : Room k I.sz) :
    wp (loadLoop file n off t I.sz) (fun r k' => ∃ J, Loaded G k₀ tf k' r.1 J ∧ J.sz = r.2.1 ∧
      (r.2.2 = true → J.Open ∧ Room k' J.sz ∧ J = (proghdrs file n off).foldl (Img.load file) I ∧
        ∀ ph ∈ proghdrs file n off, ph.type = ELF_PROG_LOAD → ph.Ok)) E k := by
  induction n generalizing k off t I with
  | zero =>
    refine wp_pure.mpr ⟨I, h, rfl, fun _ => ⟨hopen, hroom, rfl, fun ph hph => ?_⟩⟩
    exact absurd hph List.not_mem_nil
  | succ n ih =>
    simp only [loadLoop, proghdrs, List.foldl_cons, List.forall_mem_cons]
    generalize readi file off Proghdr.size = bytes
    generalize (off + Proghdr.size) % UINT = next
    set ph := Proghdr.ofBytes bytes with hph
    rw [wp_ite]
    refine ⟨fun _ => wp_pure.mpr ⟨I, h, rfl, by simp⟩, fun _ => ?_⟩
    rw [wp_ite]
    refine ⟨fun htype => ?_, fun htype => ?_⟩
    · refine (ih h hopen hroom).imp fun r k' hpost => ?_
      rw [Img.load, if_neg htype]
      obtain ⟨J, hJ, hsz, hok⟩ := hpost
      refine ⟨J, hJ, hsz, fun hr => ?_⟩
      obtain ⟨hopen', hroom', heq, hall⟩ := hok hr
      exact ⟨hopen', hroom', heq, fun hload => absurd hload htype, hall⟩
    · rw [wp_ite]
      refine ⟨fun _ => wp_pure.mpr ⟨I, h, rfl, by simp⟩, fun hfile => ?_⟩
      rw [wp_ite]
      refine ⟨fun _ => wp_pure.mpr ⟨I, h, rfl, by simp⟩, fun hwrap => ?_⟩
      rw [wp_ite]
      refine ⟨fun _ => wp_pure.mpr ⟨I, h, rfl, by simp⟩, fun halign => ?_⟩
      have hph_ok : ph.Ok := ⟨by omega, segment_end (field_lt bytes 16 8) (field_lt bytes 40 8) hwrap, by omega⟩
      rw [Img.load, if_pos (not_not.mp htype), hph_ok.wrap, wp_bind]
      refine (wp_uvmalloc_image h hroom).imp fun res k₁ hpost => ?_
      obtain ⟨t₁, sz₁⟩ := res
      obtain ⟨hzero, h₁⟩ | ⟨hne, hsz, h₁, hroom₁⟩ := hpost
      · rw [if_pos hzero]
        exact wp_pure.mpr ⟨I, h₁, rfl, by simp⟩
      · have hopen₁ : (I.grow (ph.vaddr + ph.memsz) ph.perm).Open := hopen.grow rfl
        have hfit : ph.vaddr + ph.filesz ≤ (I.grow (ph.vaddr + ph.memsz) ph.perm).sz :=
          (Nat.add_le_add_left hph_ok.filesz _).trans (Nat.le_max_right ..)
        have hfull : ∀ a, ph.vaddr ≤ a → a < ph.vaddr + ph.filesz →
            ∃ e, t₁.get (a / PGSIZE) = some e ∧ e.perm.u = true := by
          intro a _ ha
          have hv := page_lt_npages (lt_of_lt_of_le ha hfit)
          obtain ⟨e, he, hperm, -⟩ := h₁.shows.page _ hv
          exact ⟨e, he, hperm ▸ hopen₁ _ hv⟩
        rw [if_neg hne, wp_bind]
        refine ((wp_loadseg_image h₁ hopen₁ hph_ok.aligned hfit).also
          (wp_loadseg (hfit.trans h₁.below) hfull)).imp fun ok k₂ hpost => ?_
        obtain ⟨⟨J, hJ, hJsz, hok⟩, hw⟩ := hpost
        cases ok with
        | false => exact wp_pure.mpr ⟨J, hJ, hJsz.trans hsz.symm, by simp⟩
        | true =>
          have heq := hok rfl
          have hopen₂ : J.Open := by
            rw [heq]
            exact hopen₁.write
          have hroom₂ : Room k₂ J.sz := by
            rw [hJsz, ← hsz]
            exact hroom₁.writes hw
          rw [if_pos rfl]
          have hsz₂ : sz₁ = J.sz := hsz.trans hJsz.symm
          rw [hsz₂]
          refine (ih hJ hopen₂ hroom₂).imp fun r k' hpost => ?_
          obtain ⟨J', hJ', hsz', hok'⟩ := hpost
          refine ⟨J', hJ', hsz', fun hr => ?_⟩
          obtain ⟨hopen', hroom', heq', hall⟩ := hok' hr
          rw [heq] at heq'
          exact ⟨hopen', hroom', heq', fun _ => hph_ok, hall⟩

end

end Xv6
