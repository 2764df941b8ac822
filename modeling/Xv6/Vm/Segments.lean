-- SUMMARY: The segments of a program: their bytes are where the headers say, and the rest of the memory below the stack is zero.
import Xv6.Vm.Arguments

/-!
# Segments

Files whose segments are page-aligned, in increasing order, and not in the same pages. The images
of such files have each segment at its place, with its permissions: a page is mapped when the
image grows over it for the first time, and that is for the segment it belongs to.
-/

namespace Xv6

open Prog Radix

/-! ## Files -/

/-- The header of a file. -/
def elfhdr (file : List UInt8) : Elfhdr := Elfhdr.ofBytes (file.take Elfhdr.size)

/-- The program header with index `i`. -/
def proghdr (file : List UInt8) (i : Nat) : Proghdr :=
  Proghdr.ofBytes ((file.drop ((elfhdr file).phoff + i * Proghdr.size)).take Proghdr.size)

/-- The headers of the segments that are to be loaded. -/
def segments (file : List UInt8) : List Proghdr :=
  ((List.range (elfhdr file).phnum).map (proghdr file)).filter fun ph => ph.type = ELF_PROG_LOAD

/-- The first page that is behind a segment. -/
def Proghdr.top (ph : Proghdr) : Nat := npages (ph.vaddr + ph.memsz)

/-- The headers lie in the file, and so do the segments. They are page-aligned, and each begins
in a page after the last page of those before it. -/
structure WellFormed (file : List UInt8) : Prop where
  small : file.length < UINT
  table : (elfhdr file).phoff + (elfhdr file).phnum * Proghdr.size ≤ file.length
  aligned : ∀ ph ∈ segments file, ph.vaddr % PGSIZE = 0
  inFile : ∀ ph ∈ segments file, ph.off + ph.filesz ≤ file.length
  ordered : (segments file).Pairwise fun ph ph' => ph.top * PGSIZE ≤ ph'.vaddr

section
variable {file : List UInt8} {n off : Nat}

/-- Inside the file, `exec` reads the headers one after the other. -/
theorem proghdrs_eq (hfile : file.length < UINT) (hend : off + n * Proghdr.size ≤ file.length) :
    proghdrs file n off =
      (List.range n).map fun i => Proghdr.ofBytes ((file.drop (off + i * Proghdr.size)).take Proghdr.size) := by
  induction n generalizing off with
  | zero => rfl
  | succ n ih =>
    rw [Nat.succ_mul] at hend
    rw [proghdrs, readi_eq hfile (by omega), Nat.mod_eq_of_lt (by omega), ih (by omega), List.range_succ_eq_map,
      List.map_cons, List.map_map, Nat.zero_mul, Nat.add_zero]
    congr 1
    refine List.map_congr_left fun i _ => ?_
    rw [Function.comp_apply, Nat.succ_mul, Nat.add_assoc, Nat.add_comm Proghdr.size]

/-- One segment is loaded. -/
def Img.loadSegment (file : List UInt8) (I : Img) (ph : Proghdr) : Img :=
  (I.grow (ph.vaddr + ph.memsz) ph.perm).write ph.vaddr (ph.data file)

theorem foldl_load {phs : List Proghdr} {I : Img} : phs.foldl (Img.load file) I =
    (phs.filter fun ph => ph.type = ELF_PROG_LOAD).foldl (Img.loadSegment file) I := by
  rw [List.foldl_filter]
  simp only [decide_eq_true_eq]
  rfl

theorem elfhdr_eq : Elfhdr.ofBytes (readi file 0 Elfhdr.size) = elfhdr file := by
  rw [elfhdr, readi, if_neg (by simp), List.drop_zero]

theorem WellFormed.headers (h : WellFormed file) :
    proghdrs file (elfhdr file).phnum ((elfhdr file).phoff % UINT)
      = (List.range (elfhdr file).phnum).map (proghdr file) := by
  have hlt : (elfhdr file).phoff < UINT := (Nat.le_of_add_right_le h.table).trans_lt h.small
  rw [Nat.mod_eq_of_lt hlt, proghdrs_eq h.small h.table]
  rfl

theorem WellFormed.image (h : WellFormed file) :
    fileImage file = (segments file).foldl (Img.loadSegment file) Img.empty := by
  simp only [fileImage, elfhdr_eq]
  rw [h.headers, foldl_load, segments]

theorem WellFormed.data (h : WellFormed file) {ph : Proghdr} (hph : ph ∈ segments file) :
    ph.data file = (file.drop ph.off).take ph.filesz := by
  have hin := h.inFile ph hph
  have hsmall := h.small
  rw [Proghdr.data, Nat.mod_eq_of_lt (by omega : ph.off < UINT), Nat.mod_eq_of_lt (by omega : ph.filesz < UINT),
    segData_eq hsmall hin rfl, Nat.add_zero, Nat.sub_zero]

theorem WellFormed.data_length (h : WellFormed file) {ph : Proghdr} (hph : ph ∈ segments file) :
    (ph.data file).length = ph.filesz := by
  have hin := h.inFile ph hph
  rw [h.data hph, List.length_take, List.length_drop]
  omega

end

/-! ## Loading one segment after the other -/

section
variable {file : List UInt8} {phs : List Proghdr} {ph : Proghdr} {I : Img} {a v : Nat}

theorem npages_max (a b : Nat) : npages (max a b) = max (npages a) (npages b) := by
  rcases Nat.le_total a b with h | h
  · rw [Nat.max_eq_right h, Nat.max_eq_right (npages_mono h)]
  · rw [Nat.max_eq_left h, Nat.max_eq_left (npages_mono h)]

theorem loadSegments_sz : I.sz ≤ (phs.foldl (Img.loadSegment file) I).sz := by
  induction phs generalizing I with
  | nil => exact le_rfl
  | cons ph phs ih => exact (Nat.le_max_left I.sz (ph.vaddr + ph.memsz)).trans (ih (I := I.loadSegment file ph))

theorem loadSegments_end (hph : ph ∈ phs) : ph.vaddr + ph.memsz ≤ (phs.foldl (Img.loadSegment file) I).sz := by
  induction phs generalizing I with
  | nil => exact absurd hph List.not_mem_nil
  | cons ph' phs ih =>
    obtain rfl | hph := List.mem_cons.mp hph
    · exact (Nat.le_max_right I.sz (ph.vaddr + ph.memsz)).trans (loadSegments_sz (I := I.loadSegment file ph))
    · exact ih hph

/-- Pages keep the permissions with which they were mapped. -/
theorem loadSegments_perm (hv : v < npages I.sz) :
    (phs.foldl (Img.loadSegment file) I).perm v = I.perm v := by
  induction phs generalizing I with
  | nil => rfl
  | cons ph phs ih => exact (ih (hv.trans_le (npages_mono (Nat.le_max_left ..)))).trans (if_pos hv)

theorem loadSegments_outside (h : ∀ ph ∈ phs, a < ph.vaddr ∨ ph.vaddr + (ph.data file).length ≤ a) :
    (phs.foldl (Img.loadSegment file) I).byte a = I.byte a := by
  induction phs generalizing I with
  | nil => rfl
  | cons ph phs ih =>
    rw [List.forall_mem_cons] at h
    exact (ih h.2).trans (patch_outside h.1)

theorem Proghdr.le_top : ph.vaddr + ph.memsz ≤ ph.top * PGSIZE := by
  simp only [Proghdr.top, npages, PGSIZE]
  omega

/-- Each segment is where it belongs, also after those behind it have been loaded. -/
theorem loadSegments_placed (hord : phs.Pairwise fun ph ph' => ph.top * PGSIZE ≤ ph'.vaddr)
    (hfirst : ∀ ph ∈ phs, npages I.sz * PGSIZE ≤ ph.vaddr) (hlen : ∀ ph ∈ phs, (ph.data file).length ≤ ph.memsz)
    (hph : ph ∈ phs) :
    (∀ i < (ph.data file).length,
      some ((phs.foldl (Img.loadSegment file) I).byte (ph.vaddr + i)) = (ph.data file)[i]?) ∧
    ∀ v, ph.vaddr ≤ v * PGSIZE → v < ph.top → (phs.foldl (Img.loadSegment file) I).perm v = ph.perm := by
  induction phs generalizing I with
  | nil => exact absurd hph List.not_mem_nil
  | cons ph' phs ih =>
    obtain ⟨hnext, hord⟩ := List.pairwise_cons.mp hord
    rw [List.forall_mem_cons] at hfirst hlen
    rw [List.foldl_cons]
    obtain rfl | hph := List.mem_cons.mp hph
    · refine ⟨fun i hi => ?_, fun v hlo hhi => ?_⟩
      · rw [loadSegments_outside, Img.loadSegment]
        · exact patch_inside hi
        · intro ph' hph'
          have := hnext ph' hph'
          have := ph.le_top
          have := hlen.1
          omega
      · rw [loadSegments_perm (hhi.trans_le (npages_mono (Nat.le_max_right ..)))]
        refine if_neg (Nat.not_lt.mpr (Nat.le_of_mul_le_mul_right (hfirst.1.trans hlo) (by decide)))
    · refine ih hord (fun ph hph => ?_) hlen.2 hph
      have hmax : npages (I.loadSegment file ph').sz = max (npages I.sz) ph'.top := npages_max _ _
      rw [hmax, ← Nat.mul_max_mul_right]
      exact Nat.max_le.mpr ⟨hfirst.2 ph hph, hnext ph hph⟩

end

/-! ## The memory of the program -/

section
variable {k k' : Kmem} {p p' : Proc} {path file : List UInt8} {argv : List Arg} {r : Int} {I : Img} {a v : Nat}

theorem Img.addStack_perm_below (hv : v < npages I.sz) : I.addStack.perm v = I.perm v := by
  simp only [Img.addStack, Img.clear, Img.grow, Img.round, npages_page]
  rw [Function.update_of_ne (by omega), if_pos hv]

/-- The pages of the segments are as in the image of the file. -/
theorem Started.page (h : Started k p path file argv k' (p', r)) (hv : v < npages (fileImage file).sz) :
    ∃ e, p'.pagetable.get v = some e ∧ e.perm = (fileImage file).perm v := by
  have hlt : v < npages (execImage file argv).sz := by
    rw [execImage_sz, ← Nat.add_mul, npages_page]
    omega
  obtain ⟨e, he, hperm, -⟩ := h.shows.page v hlt
  rw [execImage, Img.pushStack_perm, Img.addStack_perm_below hv] at hperm
  exact ⟨e, he, hperm⟩

theorem Started.userByte_eq (h : Started k p path file argv k' (p', r)) (ha : a / PGSIZE < npages (fileImage file).sz)
    (hu : ((fileImage file).perm (a / PGSIZE)).u = true) : userByte k' p' a = some ((fileImage file).byte a) := by
  have hsz := execImage_sz file argv
  have hlow : a < p'.sz - USERSTACK * PGSIZE := by
    rw [h.sz_eq]
    simp only [USERSTACK, PGSIZE] at *
    omega
  have hmax : a < MAXVA := by
    have := h.sz_eq
    have := h.below
    simp only [TRAPFRAME, TRAMPOLINE, MAXVA, PGSIZE] at *
    omega
  obtain ⟨e, he, hperm⟩ := h.page ha
  have hbyte := h.below_stack hlow
  rw [memByte, he, Option.map_some] at hbyte
  rw [userByte, if_pos hmax, he]
  simp only [hperm, hu, if_true, hbyte]

/-- A segment is in memory. -/
structure SegmentAt (k : Kmem) (p : Proc) (file : List UInt8) (ph : Proghdr) : Prop where
  bytes : ∀ i < ph.filesz, userByte k p (ph.vaddr + i) = file[ph.off + i]?
  zeros : ∀ i, ph.filesz ≤ i → i < ph.memsz → userByte k p (ph.vaddr + i) = some 0
  pages : ∀ v, ph.vaddr ≤ v * PGSIZE → v * PGSIZE < ph.vaddr + ph.memsz → ∃ e, p.pagetable.get v = some e ∧
    e.perm = ⟨true, ph.flags.testBit 1, ph.flags.testBit 0, true⟩

theorem WellFormed.apart {ph ph' : Proghdr} (h : WellFormed file) (hph : ph ∈ segments file)
    (hph' : ph' ∈ segments file) :
    ph = ph' ∨ ph.top * PGSIZE ≤ ph'.vaddr ∨ ph'.top * PGSIZE ≤ ph.vaddr := by
  have hsymm : Std.Symm fun ph ph' : Proghdr =>
      ph = ph' ∨ ph.top * PGSIZE ≤ ph'.vaddr ∨ ph'.top * PGSIZE ≤ ph.vaddr := ⟨fun _ _ h => h.imp Eq.symm Or.symm⟩
  have hpairs : (segments file).Pairwise fun ph ph' : Proghdr =>
      ph = ph' ∨ ph.top * PGSIZE ≤ ph'.vaddr ∨ ph'.top * PGSIZE ≤ ph.vaddr := h.ordered.imp fun h => .inr (.inl h)
  exact hpairs.forall_of_forall (fun _ _ => .inl rfl) hph hph'

theorem WellFormed.ok {ph : Proghdr} (hf : WellFormed file) (h : Started k p path file argv k' (p', r))
    (hph : ph ∈ segments file) : ph.Ok := by
  obtain ⟨hmem, htype⟩ := List.mem_filter.mp hph
  have hall := h.headers
  rw [elfhdr_eq, hf.headers] at hall
  exact hall ph hmem (of_decide_eq_true htype)

/-- The bytes of the image outside the parts that come from the file. -/
theorem WellFormed.zero (h : WellFormed file)
    (ha : ∀ ph ∈ segments file, a < ph.vaddr ∨ ph.vaddr + ph.filesz ≤ a) : (fileImage file).byte a = 0 := by
  rw [h.image, loadSegments_outside]
  · rfl
  · intro ph hph
    rw [h.data_length hph]
    exact ha ph hph

theorem Started.segmentAt {ph : Proghdr} (h : Started k p path file argv k' (p', r)) (hf : WellFormed file)
    (hph : ph ∈ segments file) : SegmentAt k' p' file ph := by
  have hlen : ∀ ph ∈ segments file, (ph.data file).length ≤ ph.memsz := by
    intro ph hph
    rw [hf.data_length hph]
    exact (hf.ok h hph).filesz
  have hempty : ∀ ph ∈ segments file, npages Img.empty.sz * PGSIZE ≤ ph.vaddr := fun ph _ => by
    rw [show npages Img.empty.sz = 0 from rfl, Nat.zero_mul]
    exact Nat.zero_le _
  obtain ⟨hbytes, hperms⟩ := loadSegments_placed hf.ordered hempty hlen hph
  rw [← hf.image] at hbytes hperms
  have halign := (hf.ok h hph).aligned
  have hfilesz := (hf.ok h hph).filesz
  have htop : ph.top ≤ npages (fileImage file).sz := by
    rw [hf.image]
    exact npages_mono (loadSegments_end hph)
  -- an address of the segment is in a page with its permissions
  have hpage {i : Nat} (hi : i < ph.memsz) : (ph.vaddr + i) / PGSIZE < ph.top ∧
      (fileImage file).perm ((ph.vaddr + i) / PGSIZE) = ph.perm := by
    have hlt : (ph.vaddr + i) / PGSIZE < ph.top := page_lt_npages (by omega)
    refine ⟨hlt, hperms _ ?_ hlt⟩
    simp only [PGSIZE] at halign ⊢
    omega
  have hbyte {i : Nat} (hi : i < ph.memsz) :
      userByte k' p' (ph.vaddr + i) = some ((fileImage file).byte (ph.vaddr + i)) := by
    obtain ⟨hlt, hperm⟩ := hpage hi
    exact h.userByte_eq (hlt.trans_le htop) (by rw [hperm, Proghdr.perm])
  refine ⟨fun i hi => ?_, fun i hlo hhi => ?_, fun v hlo hhi => ?_⟩
  · rw [hbyte (by omega), hbytes i (by rw [hf.data_length hph]; exact hi), hf.data hph, List.getElem?_take_of_lt hi,
      List.getElem?_drop]
  · rw [hbyte hhi, hf.zero]
    intro ph' hph'
    have hfilesz' := (hf.ok h hph').filesz
    have hle := ph.le_top
    have hle' := ph'.le_top
    obtain rfl | hafter | hbefore := hf.apart hph hph'
    · exact .inr (by omega)
    · exact .inl (by omega)
    · exact .inr (by omega)
  · have hv : v < ph.top := by
      simp only [Proghdr.top, npages, PGSIZE] at hhi ⊢
      omega
    obtain ⟨e, he, hperm⟩ := h.page (hv.trans_le htop)
    exact ⟨e, he, hperm.trans (hperms v hlo hv)⟩

/-- Pages below the stack that belong to no segment are full of zeros. -/
theorem Started.gap (h : Started k p path file argv k' (p', r)) (hf : WellFormed file)
    (hv : (v + 1) * PGSIZE ≤ p'.sz - USERSTACK * PGSIZE)
    (hgap : ∀ ph ∈ segments file, (v + 1) * PGSIZE ≤ ph.vaddr ∨ ph.vaddr + ph.memsz ≤ v * PGSIZE) :
    ∃ e, p'.pagetable.get v = some e ∧ ∀ i < PGSIZE, k'.page e.pa i = 0 := by
  have hmem {i : Nat} (hi : i < PGSIZE) : memByte k' p' (v * PGSIZE + i) = some 0 := by
    rw [h.below_stack (by rw [Nat.succ_mul] at hv; omega), hf.zero]
    intro ph hph
    have hfilesz := (hf.ok h hph).filesz
    have := hgap ph hph
    rw [Nat.succ_mul] at this
    omega
  have hdiv {i : Nat} (hi : i < PGSIZE) : (v * PGSIZE + i) / PGSIZE = v ∧ (v * PGSIZE + i) % PGSIZE = i := by
    simp only [PGSIZE] at hi ⊢
    omega
  have hzero := hmem (by decide : 0 < PGSIZE)
  rw [memByte, (hdiv (by decide)).1] at hzero
  obtain ⟨e, he, -⟩ := Option.map_eq_some_iff.mp hzero
  refine ⟨e, he, fun i hi => ?_⟩
  have hi' := hmem hi
  rw [memByte, (hdiv hi).1, (hdiv hi).2, he] at hi'
  exact Option.some.inj hi'

end

/-- For a file whose segments are page-aligned, in increasing order, in different pages and inside
the file: if `exec` succeeds, each of them is in memory with its permissions, and all other pages
below the stack are zero. -/
theorem kexec_loads_segments {k : Kmem} {p : Proc} {path file : List UInt8} {argv : List Arg}
    (h : Pages k.IsPage k p) (hsz : p.sz ≤ MAXVA) (hf : WellFormed file) :
    ∃ p' r k', kexec p path (some file) argv k = .ok (p', r) k' ∧ (r ≠ -1 →
      (∀ ph ∈ segments file, SegmentAt k' p' file ph) ∧
      ∀ v, (v + 1) * PGSIZE ≤ p'.sz - USERSTACK * PGSIZE →
        (∀ ph ∈ segments file, (v + 1) * PGSIZE ≤ ph.vaddr ∨ ph.vaddr + ph.memsz ≤ v * PGSIZE) →
        ∃ e, p'.pagetable.get v = some e ∧ ∀ i < PGSIZE, k'.page e.pa i = 0) := by
  obtain ⟨p', r, k', hrun, hrefused | ⟨f, hfile, hs⟩⟩ := kexec_returns path (some file) argv h hsz
  · have hr : r = -1 := (Prod.mk.inj hrefused.result).2
    exact ⟨p', r, k', hrun, fun hne => absurd hr hne⟩
  · cases hfile
    exact ⟨p', r, k', hrun, fun _ => ⟨fun ph hph => hs.segmentAt hf hph, fun v hv hgap => hs.gap hf hv hgap⟩⟩

/-- Both segments of the small program are in memory, with zeros behind the text and in the page
between them. -/
theorem kexec_loads_segments_small : ∃ k p p' k', Pages k.IsPage k p ∧ p.sz ≤ MAXVA ∧ WellFormed smallElf ∧
    kexec p [] (some smallElf) smallArgs k = .ok (p', 2) k' ∧
    userByte k' p' 2 = some 3 ∧ userByte k' p' 6 = some 0 ∧ userByte k' p' 8193 = some 6 ∧
    ∃ e, p'.pagetable.get 1 = some e ∧ ∀ i < PGSIZE, k'.page e.pa i = 0 := by
  have hsegments : segments smallElf = [smallText, smallData] := by rfl
  have hf : WellFormed smallElf := by
    refine ⟨by decide +kernel, by decide +kernel, ?_, ?_, ?_⟩ <;> rw [hsegments]
    · decide
    · decide +kernel
    · decide
  obtain ⟨k, p, p', k', howns, hrun, hnew⟩ := exists_exec
  have hsz := howns.proc.sz.trans trapframe_le
  obtain ⟨_, _, _, hrun', hok⟩ := kexec_loads_segments howns.pages hsz hf
  cases hrun.symm.trans hrun'
  obtain ⟨hsegs, hgaps⟩ := hok (by decide)
  rw [hsegments] at hsegs hgaps
  have htext := hsegs smallText (by simp)
  have hdata := hsegs smallData (by simp)
  have hgap := hgaps 1 ?_ ?_
  · exact ⟨k, p, p', k', howns.pages, hsz, hf, hrun, htext.bytes 2 (by decide), htext.zeros 6 (by decide) (by decide),
      hdata.bytes 1 (by decide), hgap⟩
  · rw [hnew]
    decide
  · decide

end Xv6
