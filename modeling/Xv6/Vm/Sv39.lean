-- SUMMARY: Page tables in memory: entries as 64-bit words, and the code of `kernel/vm.c` that follows and changes them.
import Xv6.Vm.PageTable

/-!
# Page tables in memory

The functions of `kernel/vm.c` on the pages that a table consists of. A page has 512 words
of 64 bits. A word of the upper levels is zero, or it has the number of the next page and
`PTE_V`; a word of the last level is zero, or it has the number of a mapped page and its
permissions. A pointer to an entry is the page and the position in it.
-/

namespace Xv6

open Prog Radix

namespace Sv39

abbrev PTE_V : Nat := 1 <<< 0
abbrev PTE_R : Nat := 1 <<< 1
abbrev PTE_W : Nat := 1 <<< 2
abbrev PTE_X : Nat := 1 <<< 3
abbrev PTE_U : Nat := 1 <<< 4

/-- `PA2PTE` -/
def pa2pte (pa : Nat) : Nat := (pa >>> 12) <<< 10

/-- `PTE2PA`, on a `uint64`. -/
def pte2pa (pte : Nat) : Nat := ((pte >>> 10) <<< 12) % UINT64

/-- `PTE_FLAGS` -/
def pteFlags (pte : Nat) : Nat := pte &&& 0x3FF

theorem px_lt (level va : Nat) : (va >>> (12 + 9 * level)) &&& 0x1FF < 512 :=
  Nat.and_lt_two_pow _ (by decide : 0x1FF < 2 ^ 9)

/-- `PX` -/
def px (level va : Nat) : Fin 512 := ⟨(va >>> (12 + 9 * level)) &&& 0x1FF, px_lt level va⟩

/-- `pte & ~PTE_U` -/
def clearU (pte : Nat) : Nat := pte &&& (UINT64 - 1 - PTE_U)

/-! ## Words -/

section
variable {pa f : Nat}

theorem px_eq (level va : Nat) : px level va = digit 512 level (va / PGSIZE) := by
  rw [Fin.ext_iff, digit, Fin.val_ofNat]
  change (va >>> (12 + 9 * level)) &&& (2 ^ 9 - 1) = _
  rw [Nat.and_two_pow_sub_one_eq_mod, Nat.shiftRight_eq_div_pow, pow_add, pow_mul, ← Nat.div_div_eq_div_mul]
  rfl

theorem pa2pte_or (hf : f < 1024) : pa2pte pa ||| f = pa / PGSIZE * 1024 + f := by
  rw [pa2pte, ← Nat.shiftLeft_add_eq_or_of_lt (i := 10) hf, Nat.shiftRight_eq_div_pow,
    Nat.shiftLeft_eq]

theorem pte2pa_eq (hpa : pa < UINT64) (hf : f < 1024) : pte2pa (pa / PGSIZE * 1024 + f) = pgrounddown pa := by
  rw [pte2pa, Nat.shiftRight_eq_div_pow, Nat.shiftLeft_eq, pgrounddown]
  have hdiv : (pa / PGSIZE * 1024 + f) / 2 ^ 10 = pa / PGSIZE := by
    simp only [PGSIZE]
    omega
  rw [hdiv]
  apply Nat.mod_eq_of_lt
  simp only [PGSIZE, UINT64] at *
  omega

theorem pteFlags_eq (q : Nat) (hf : f < 1024) : pteFlags (q * 1024 + f) = f := by
  change (q * 1024 + f) &&& (2 ^ 10 - 1) = f
  rw [Nat.and_two_pow_sub_one_eq_mod]
  omega

theorem and_eq_flags {m : Nat} (hm : m < 1024) (w : Nat) : w &&& m = pteFlags w &&& m := by
  have hmask : m = 0x3FF &&& m := by
    rw [Nat.and_comm]
    exact (Nat.and_two_pow_sub_one_of_lt_two_pow (n := 10) hm).symm
  rw [pteFlags, Nat.and_assoc, ← hmask]

theorem and_concat {a b c d i : Nat} (hb : b < 2 ^ i) (hd : d < 2 ^ i) :
    (a * 2 ^ i + b) &&& (c * 2 ^ i + d) = (a &&& c) * 2 ^ i + (b &&& d) := by
  have hbd : b &&& d < 2 ^ i := Nat.and_lt_two_pow _ hd
  simp only [← Nat.shiftLeft_eq, Nat.shiftLeft_add_eq_or_of_lt hb, Nat.shiftLeft_add_eq_or_of_lt hd,
    Nat.shiftLeft_add_eq_or_of_lt hbd]
  apply Nat.eq_of_testBit_eq
  intro j
  simp only [Nat.testBit_and, Nat.testBit_or, Nat.testBit_shiftLeft]
  by_cases hj : i ≤ j
  · have hbj : b.testBit j = false := Nat.testBit_lt_two_pow (hb.trans_le (Nat.pow_le_pow_right (by decide) hj))
    have hdj : d.testBit j = false := Nat.testBit_lt_two_pow (hd.trans_le (Nat.pow_le_pow_right (by decide) hj))
    simp [hj, hbj, hdj]
  · simp [hj]

theorem clearU_eq {q : Nat} (hq : q < 2 ^ 54) (hf : f < 1024) :
    clearU (q * 1024 + f) = q * 1024 + (f &&& 1007) := by
  have hmask : UINT64 - 1 - PTE_U = (2 ^ 54 - 1) * 2 ^ 10 + 1007 := by decide
  rw [clearU, hmask, show (1024 : Nat) = 2 ^ 10 from rfl, and_concat hf (by decide),
    Nat.and_two_pow_sub_one_of_lt_two_pow hq]

/-- A word of the last level that maps a page. -/
def IsLeaf (w : Nat) : Prop := w < UINT64 ∧ w &&& PTE_V ≠ 0 ∧ w &&& (PTE_R ||| PTE_W ||| PTE_X) ≠ 0

theorem word_and {q m : Nat} (hf : f < 1024) (hm : m < 1024) : (q * 1024 + f) &&& m = f &&& m := by
  rw [and_eq_flags hm, pteFlags_eq q hf]

theorem word_lt (hpa : pa < UINT64) (hf : f < 1024) : pa / PGSIZE * 1024 + f < UINT64 := by
  simp only [PGSIZE, UINT64] at *
  omega

/-- The word that `mappages` writes. -/
theorem leafWord {perm : Nat} (hpa : pa < UINT64) (hperm : perm < 1024) (hr : perm &&& PTE_R ≠ 0) :
    IsLeaf (pa2pte pa ||| perm ||| PTE_V) ∧
    pte2pa (pa2pte pa ||| perm ||| PTE_V) = pgrounddown pa ∧
    pteFlags (pa2pte pa ||| perm ||| PTE_V) = perm ||| PTE_V := by
  have hf : perm ||| PTE_V < 1024 := Nat.or_lt_two_pow (n := 10) hperm (by decide)
  rw [Nat.or_assoc, pa2pte_or hf]
  refine ⟨⟨word_lt hpa hf, ?_, ?_⟩, pte2pa_eq hpa hf, pteFlags_eq _ hf⟩
  · rw [word_and hf (by decide), Nat.and_or_distrib_right]
    intro hzero
    have hone := (Nat.or_eq_zero_iff.mp hzero).2
    cases hone
  · rw [word_and hf (by decide)]
    intro hzero
    apply hr
    have hmask : PTE_R = (PTE_R ||| PTE_W ||| PTE_X) &&& PTE_R := rfl
    have hand : (perm ||| PTE_V) &&& PTE_R = 0 := by rw [hmask, ← Nat.and_assoc, hzero, Nat.zero_and]
    rw [Nat.and_or_distrib_right] at hand
    exact (Nat.or_eq_zero_iff.mp hand).1

/-- The word of an upper level that points to page `c`. -/
theorem dirWord_eq {c : Nat} (hc : c % PGSIZE = 0) (hlt : c < UINT64) :
    pa2pte c ||| PTE_V < UINT64 ∧ (pa2pte c ||| PTE_V) &&& PTE_V ≠ 0 ∧
    (pa2pte c ||| PTE_V) &&& (PTE_R ||| PTE_W ||| PTE_X) = 0 ∧ pte2pa (pa2pte c ||| PTE_V) = c := by
  have hone : PTE_V < 1024 := by decide
  rw [pa2pte_or hone]
  refine ⟨word_lt hlt hone, ?_, ?_, ?_⟩
  · rw [word_and hone hone]
    decide
  · rw [word_and hone (by decide)]
    rfl
  · rw [pte2pa_eq hlt hone, pgrounddown, Nat.div_mul_cancel (Nat.dvd_of_mod_eq_zero hc)]

/-- `uvmclear` clears one flag. -/
theorem clearU_leaf {w : Nat} (h : IsLeaf w) : IsLeaf (clearU w) ∧ pte2pa (clearU w) = pte2pa w ∧
    pteFlags (clearU w) = pteFlags w &&& 1007 := by
  obtain ⟨hlt, hv, hrwx⟩ := h
  have hw : w / 1024 * 1024 + w % 1024 = w := by omega
  have hq : w / 1024 < 2 ^ 54 := by
    simp only [UINT64] at hlt
    omega
  have hf : w % 1024 < 1024 := Nat.mod_lt _ (by decide)
  have hf' : w % 1024 &&& 1007 < 1024 := Nat.and_lt_two_pow (n := 10) _ (by decide)
  have hclear : clearU w = w / 1024 * 1024 + (w % 1024 &&& 1007) := by
    conv_lhs => rw [← hw]
    exact clearU_eq hq hf
  have hkept {m : Nat} (hm : m < 1024) (hmask : 1007 &&& m = m) : clearU w &&& m = w &&& m := by
    rw [hclear, word_and hf' hm, Nat.and_assoc, hmask, ← word_and (q := w / 1024) hf hm, hw]
  refine ⟨⟨?_, ?_, ?_⟩, ?_, ?_⟩
  · rw [hclear]
    simp only [UINT64] at *
    omega
  · rwa [hkept (by decide) rfl]
  · rwa [hkept (by decide) rfl]
  · have hdiv : clearU w / 2 ^ 10 = w / 2 ^ 10 := by omega
    simp only [pte2pa, Nat.shiftRight_eq_div_pow, hdiv]
  · rw [hclear, pteFlags_eq _ hf', ← pteFlags_eq (w / 1024) hf, hw]

end

end Sv39

namespace Kmem

/-- `pagetable[i]` -/
def pte (k : Kmem) (pagetable : Nat) (i : Fin 512) : Nat := Bytes.getLE (k.page pagetable) (8 * i) 8

/-- `pagetable[i] = word` -/
def setPte (k : Kmem) (pagetable : Nat) (i : Fin 512) (word : Nat) : Kmem :=
  k.write pagetable (Bytes.putLE (k.page pagetable) (8 * i) 8 word)

end Kmem

namespace Sv39

/-! ## The code -/

/-- The loop of `walk`. -/
def walkLoop (alloc : Bool) (va : Nat) : Nat → Nat → VmM (Option (Nat × Fin 512))
  | 0, pagetable => pure (some (pagetable, px 0 va))
  | level + 1, pagetable => do
    let pte := (← get).pte pagetable (px (level + 1) va)
    if pte &&& PTE_V ≠ 0 then
      walkLoop alloc va level (pte2pa pte)
    else if alloc then
      match ← kalloc with
      | none => pure none
      | some child => do
        modify (·.memset child 0)
        modify (·.setPte pagetable (px (level + 1) va) (pa2pte child ||| PTE_V))
        walkLoop alloc va level child
    else
      pure none

def walk (pagetable va : Nat) (alloc : Bool) : VmM (Option (Nat × Fin 512)) := do
  stopIf (va ≥ MAXVA) .walk
  walkLoop alloc va 2 pagetable

/-- The loop of `mappages`, for `n` pages. -/
def mapLoop (pagetable perm : Nat) : Nat → Nat → Nat → VmM Bool
  | 0, _, _ => pure true
  | n + 1, a, pa => do
    match ← walk pagetable a true with
    | none => pure false
    | some (page, i) => do
      stopIf ((← get).pte page i &&& PTE_V ≠ 0) .remap
      modify (·.setPte page i (pa2pte pa ||| perm ||| PTE_V))
      mapLoop pagetable perm n (a + PGSIZE) ((pa + PGSIZE) % UINT64)

/-- `mappages`; the result says whether it returns 0. -/
def mappages (pagetable va size pa perm : Nat) : VmM Bool := do
  stopIf (va % PGSIZE ≠ 0) .mapUnaligned
  stopIf (size % PGSIZE ≠ 0) .mapSizeUnaligned
  stopIf (size = 0) .mapSize
  mapLoop pagetable perm (size / PGSIZE) va pa

/-- `uvmcreate`; 0 if there is no memory. -/
def uvmcreate : VmM Nat := do
  match ← kalloc with
  | none => pure 0
  | some pagetable => do
    modify (·.memset pagetable 0)
    pure pagetable

def unmapLoop (pagetable : Nat) (doFree : Bool) : Nat → Nat → VmM Unit
  | 0, _ => pure ()
  | n + 1, a => do
    match ← walk pagetable a false with
    | none => unmapLoop pagetable doFree n (a + PGSIZE)
    | some (page, i) => do
      let pte := (← get).pte page i
      if pte &&& PTE_V = 0 then
        unmapLoop pagetable doFree n (a + PGSIZE)
      else do
        if doFree then kfree (pte2pa pte)
        modify (·.setPte page i 0)
        unmapLoop pagetable doFree n (a + PGSIZE)

def uvmunmap (pagetable va npages : Nat) (doFree : Bool) : VmM Unit := do
  stopIf (va % PGSIZE ≠ 0) .unmapUnaligned
  unmapLoop pagetable doFree (turns va ((va + npages * PGSIZE) % UINT64)) va

def uvmclear (pagetable va : Nat) : VmM Unit := do
  match ← walk pagetable va false with
  | none => throw .uvmclear
  | some (page, i) => modify fun k => k.setPte page i (clearU (k.pte page i))

/-- The body of the loop of `freewalk`, where `free` is for the tables of the next level. -/
def freeEntry (free : Nat → VmM Unit) (pagetable : Nat) (i : Fin 512) : VmM Unit := do
  let pte := (← get).pte pagetable i
  if pte &&& PTE_V ≠ 0 ∧ pte &&& (PTE_R ||| PTE_W ||| PTE_X) = 0 then do
    free (pte2pa pte)
    modify (·.setPte pagetable i 0)
  else
    stopIf (pte &&& PTE_V ≠ 0) .freewalkLeaf

/-- `freewalk`, which needs a stack frame for each level. -/
def freewalk : Nat → Nat → VmM Unit
  | 0, _ => throw .stackOverflow
  | frames + 1, pagetable => do
    (List.finRange 512).forM (freeEntry (freewalk frames) pagetable)
    kfree pagetable

end Sv39

end Xv6
