-- SUMMARY: The stack of a new image: how `exec` adds it, and the strings and addresses that it pushes.
import Xv6.Vm.Image

/-!
# The stack of a new image

After the segments come a guard page that the user cannot use, and the pages of the stack. The
argument strings are pushed first, each at a multiple of 16, and then the array of their
addresses with a null word at its end.
-/

namespace Xv6

open Prog Radix

variable {G : Nat → Prop} {k k' k₀ : Kmem} {t t' : Pagetable} {tf : Nat} {p : Proc} {I : Img}
  {E : Vm.Stop → Kmem → Prop}

/-! ## Pages for the stack -/

/-- Rounding the size up adds no page. -/
def Img.round (I : Img) : Img := { I with sz := npages I.sz * PGSIZE }

/-- The guard page and the stack on top of an image. -/
def Img.addStack (I : Img) : Img :=
  (I.round.grow (npages I.sz * PGSIZE + (USERSTACK + 1) * PGSIZE) ⟨true, true, false, true⟩).clear (npages I.sz)

theorem Loaded.round (h : Loaded G k₀ tf k t I) : Loaded G k₀ tf k t I.round where
  kmem := h.kmem
  sameImage := h.sameImage
  table := h.table
  below := page_le_trapframe (npages_le h.below)
  layout := h.layout.mono (by rw [Img.round, npages_page])
  stock := h.stock
  nodup := h.nodup
  inside := h.inside
  shows := ⟨fun v hv => h.shows.page v (by rwa [Img.round, npages_page] at hv),
    fun a ha => h.shows.blank a (by rwa [Img.round, npages_page] at ha)⟩

theorem wp_uvmclear_image {v : Nat} (h : Loaded G k₀ tf k t I) (hv : v < npages I.sz) :
    wp (uvmclear t (v * PGSIZE)) (fun t' k' => k' = k ∧ Loaded G k₀ tf k t' (I.clear v)) E k := by
  have hlt := npages_lt_vpns
  have hle := npages_le h.below
  obtain ⟨e, hget, hperm, hbyte⟩ := h.shows.page v hv
  refine (wp_uvmclear h.toBuilding (hv.trans_le hle) hget).imp fun t' k' hpost => ?_
  obtain ⟨hk, hb, hget'⟩ := hpost
  refine ⟨hk, hb, h.nodup, h.inside, fun v' hv' => ?_, h.shows.blank⟩
  have hv' : v' < npages I.sz := hv'
  rw [hget' v' (by omega)]
  by_cases heq : v' = v
  · subst heq
    refine ⟨_, if_pos rfl, ?_, hbyte⟩
    simp only [Img.clear, Function.update_self, hperm]
  · obtain ⟨e', he', hperm', hbyte'⟩ := h.shows.page v' hv'
    refine ⟨e', by rw [if_neg heq, he'], ?_, hbyte'⟩
    simp only [Img.clear, Function.update_of_ne heq, hperm']

/-! ## Writing to the stack -/

/-- The user may write to all of `[lo, hi)`. -/
def Img.Writable (I : Img) (lo hi : Nat) : Prop :=
  ∀ a, lo ≤ a → a < hi → (I.perm (a / PGSIZE)).u = true ∧ (I.perm (a / PGSIZE)).w = true

theorem Img.Writable.write {lo hi a : Nat} {data : List UInt8} (h : I.Writable lo hi) :
    (I.write a data).Writable lo hi := h

theorem wp_copyoutLoop_image {fuel dstva lo hi : Nat} {bytes : List UInt8} (h : Loaded G k₀ tf k t I)
    (hw : I.Writable lo hi) (hhi : hi ≤ I.sz) (hlo : lo ≤ dstva) (hend : bytes ≠ [] → dstva + bytes.length ≤ hi)
    (hfuel : bytes.length ≤ fuel) :
    wp (copyoutLoop (fun _ => t) fuel p dstva bytes) (fun r k' => r = (p, true) ∧
      Loaded G k₀ tf k' t (I.write dstva bytes)) E k := by
  induction fuel generalizing k dstva bytes I with
  | zero =>
    have hnil : bytes = [] := List.length_eq_zero_iff.mp (by omega)
    subst hnil
    refine wp_pure.mpr ⟨rfl, ?_⟩
    rwa [Img.write_nil]
  | succ fuel ih =>
    cases bytes with
    | nil =>
      refine wp_pure.mpr ⟨rfl, ?_⟩
      rwa [Img.write_nil]
    | cons b rest =>
      have hlen := hend (List.cons_ne_nil b rest)
      generalize hbytes : b :: rest = bytes at hlen hfuel
      have hpos : 0 < bytes.length := by
        rw [← hbytes, List.length_cons]
        exact Nat.succ_pos _
      have hmax : dstva < MAXVA := by
        have := h.below
        simp only [TRAPFRAME, TRAMPOLINE, MAXVA, PGSIZE] at *
        omega
      have hpage : pgrounddown dstva / PGSIZE = dstva / PGSIZE := page_div
      have hle : pgrounddown dstva ≤ dstva := Nat.div_mul_le_self _ _
      have hnext : dstva < pgrounddown dstva + PGSIZE := by
        simp only [pgrounddown, PGSIZE]
        omega
      have hv : dstva / PGSIZE < npages I.sz := page_lt_npages (by omega)
      obtain ⟨hu, hwr⟩ := hw dstva hlo (by omega)
      obtain ⟨e, hget, hperm, -⟩ := h.shows.page _ hv
      rw [← hperm] at hu hwr
      rw [← hbytes]
      simp only [copyoutLoop]
      rw [hbytes, if_neg (by omega), wp_bind]
      refine wp_walkaddr (by omega) (by rw [hpage, hget]) hu ?_
      simp only [wp_bind, wp_pure]
      refine wp_walk (by omega) ?_
      rw [hpage, find_of_get hget]
      simp only [hwr, if_true, wp_bind, wp_modify]
      set m := min (PGSIZE - (dstva - pgrounddown dstva)) bytes.length with hm
      have hmlen : (bytes.take m).length = m := by
        rw [List.length_take]
        omega
      have haddr : dstva / PGSIZE * PGSIZE + (dstva - pgrounddown dstva) = dstva := by
        rw [← pgrounddown]
        omega
      have hw₁ : Loaded G k₀ tf (k.write e.pa (patch (k.page e.pa) (dstva - pgrounddown dstva) (bytes.take m)))
          t (I.write (dstva / PGSIZE * PGSIZE + (dstva - pgrounddown dstva)) (bytes.take m)) :=
        h.write hv hget (by omega)
      rw [haddr] at hw₁
      have hrest : (I.write dstva (bytes.take m)).write (pgrounddown dstva + PGSIZE) (bytes.drop m)
          = I.write dstva bytes := by
        by_cases hall : bytes.length ≤ m
        · rw [List.drop_eq_nil_of_le hall, List.take_of_length_le hall, Img.write_nil]
        · have hstart : pgrounddown dstva + PGSIZE = dstva + (bytes.take m).length := by omega
          rw [hstart, Img.write_append, List.take_append_drop]
      rw [← hrest]
      refine ih hw₁ hw.write hhi (by omega) (fun hmore => ?_) ?_
      · -- what is left begins where this page ends
        have := List.length_pos_of_ne_nil hmore
        rw [List.length_drop] at this ⊢
        omega
      · rw [List.length_drop]
        omega

theorem wp_copyout_image {dstva lo hi : Nat} {bytes : List UInt8} (h : Loaded G k₀ tf k t I)
    (hw : I.Writable lo hi) (hhi : hi ≤ I.sz) (hlo : lo ≤ dstva) (hend : dstva + bytes.length ≤ hi) :
    wp (copyout (fun _ => t) p dstva bytes) (fun r k' => r = (p, true) ∧
      Loaded G k₀ tf k' t (I.write dstva bytes)) E k :=
  wp_copyoutLoop_image h hw hhi hlo (fun _ => hend) le_rfl

/-! ## Arguments -/

/-- What `n` bytes take on the stack. -/
def aligned16 (n : Nat) : Nat := (n + 15) / 16 * 16

/-- What a string takes, with its null byte. -/
def Arg.use (arg : Arg) : Nat := aligned16 (arg.bytes.length + 1)

def argsUse (args : List Arg) : Nat := (args.map Arg.use).sum

/-- What the strings and the array of their addresses take. -/
def stackUse (args : List Arg) : Nat := argsUse args + aligned16 ((args.length + 1) * 8)

/-- A piece of the stack: its address and its bytes. -/
abbrev Piece : Type := Nat × List UInt8

/-- The strings. -/
def argPieces : List Arg → Nat → List Piece
  | [], _ => []
  | arg :: args, sp => (sp - arg.use, arg.bytes ++ [0]) :: argPieces args (sp - arg.use)

def argAddrs (args : List Arg) (sp : Nat) : List Nat := (argPieces args sp).map Prod.fst

/-- The array of their addresses. -/
def ustackPiece (argv : List Arg) (sz : Nat) : Piece :=
  (sz - stackUse argv, ustackBytes (argAddrs argv sz))

/-- All that is pushed, in this order. -/
def stackPieces (argv : List Arg) (sz : Nat) : List Piece := argPieces argv sz ++ [ustackPiece argv sz]

def Img.writeAll (I : Img) (cs : List Piece) : Img := cs.foldl (fun I c => I.write c.1 c.2) I

def Img.pushStack (I : Img) (argv : List Arg) : Img := I.writeAll (stackPieces argv I.sz)

theorem aligned16_mod (n : Nat) : aligned16 n % 16 = 0 := Nat.mul_mod_left _ _

theorem le_aligned16 (n : Nat) : n ≤ aligned16 n := by
  simp only [aligned16]
  omega

/-- The stack pointer moves down by `n` bytes, and further to a multiple of 16. -/
theorem align_down {sp n : Nat} (hsp : sp % 16 = 0) (hn : n ≤ sp) :
    sp - n - (sp - n) % 16 = sp - aligned16 n := by
  simp only [aligned16]
  omega

theorem length_argPieces {args : List Arg} {sp : Nat} : (argPieces args sp).length = args.length := by
  induction args generalizing sp with
  | nil => rfl
  | cons arg args ih => rw [argPieces, List.length_cons, List.length_cons, ih]

theorem length_argAddrs {args : List Arg} {sp : Nat} : (argAddrs args sp).length = args.length := by
  rw [argAddrs, List.length_map, length_argPieces]

theorem argsUse_cons {arg : Arg} {args : List Arg} : argsUse (arg :: args) = arg.use + argsUse args := by
  rw [argsUse, List.map_cons, List.sum_cons, ← argsUse]

theorem argsUse_mod (args : List Arg) : argsUse args % 16 = 0 := by
  induction args with
  | nil => rfl
  | cons arg args ih =>
    have := aligned16_mod (arg.bytes.length + 1)
    rw [argsUse_cons, Arg.use]
    omega

theorem Img.writeAll_sz {cs : List Piece} : (I.writeAll cs).sz = I.sz := by
  induction cs generalizing I with
  | nil => rfl
  | cons c cs ih => exact ih

theorem Img.writeAll_perm {cs : List Piece} : (I.writeAll cs).perm = I.perm := by
  induction cs generalizing I with
  | nil => rfl
  | cons c cs ih => exact ih

theorem wp_pushArgs_image {base sp : Nat} {args : List Arg} {ustack : List Nat} (h : Loaded G k₀ tf k t I)
    (hw : I.Writable base I.sz) (hbase : PGSIZE ≤ base) (hsp : base ≤ sp) (htop : sp ≤ I.sz)
    (halign : sp % 16 = 0) (hlen : ustack.length ≤ MAXARG) :
    wp (pushArgs (fun _ => t) base args p sp ustack) (fun r k' => r.1 = p ∧ ∃ J, Loaded G k₀ tf k' t J ∧
      J.sz = I.sz ∧ ∀ sp' ustack', r.2 = some (sp', ustack') → sp' + argsUse args = sp ∧ base ≤ sp' ∧
        ustack' = ustack ++ argAddrs args sp ∧ ustack'.length ≤ MAXARG ∧ J = I.writeAll (argPieces args sp)) E k := by
  induction args generalizing k sp ustack I with
  | nil =>
    refine wp_pure.mpr ⟨rfl, I, h, rfl, ?_⟩
    rintro _ _ ⟨rfl⟩
    exact ⟨rfl, hsp, (List.append_nil _).symm, hlen, rfl⟩
  | cons arg args ih =>
    have hfits := arg.fits
    have hmax := h.below
    have hsub : addInt sp (-(arg.bytes.length + 1)) = sp - (arg.bytes.length + 1) := by
      simp only [addInt, UINT64, TRAPFRAME, TRAMPOLINE, MAXVA, PGSIZE] at *
      omega
    have huse : sp - (arg.bytes.length + 1) - (sp - (arg.bytes.length + 1)) % 16 = sp - arg.use :=
      align_down halign (by omega)
    simp only [pushArgs, hsub, huse]
    rw [wp_ite]
    refine ⟨fun _ => wp_pure.mpr ⟨rfl, I, h, rfl, by simp⟩, fun hcount => ?_⟩
    rw [wp_ite]
    refine ⟨fun _ => wp_pure.mpr ⟨rfl, I, h, rfl, by simp⟩, fun hlow => ?_⟩
    have hmod : arg.use % 16 = 0 := aligned16_mod _
    have hle : arg.bytes.length + 1 ≤ arg.use := le_aligned16 _
    have hend : sp - arg.use + (arg.bytes ++ [0]).length ≤ I.sz := by
      rw [List.length_append, List.length_singleton]
      omega
    rw [wp_bind]
    refine (wp_copyout_image h hw le_rfl (by omega) hend).imp fun r k₁ hpost => ?_
    obtain ⟨hr, h₁⟩ := hpost
    subst hr
    dsimp only
    rw [if_pos rfl]
    have hcount' : (ustack ++ [sp - arg.use]).length ≤ MAXARG := by
      rw [List.length_append, List.length_singleton]
      omega
    have htop' : sp - arg.use ≤ I.sz := by omega
    refine (ih h₁ hw.write (by omega) htop' (by omega) hcount').imp fun r k₂ hpost => ?_
    obtain ⟨hp, J, hJ, hsz, hres⟩ := hpost
    refine ⟨hp, J, hJ, hsz, fun sp' ustack' hr => ?_⟩
    obtain ⟨hdown, hlo, hust, hn, heq⟩ := hres sp' ustack' hr
    refine ⟨?_, hlo, ?_, hn, heq⟩
    · rw [argsUse_cons]
      omega
    · rw [hust, List.append_assoc, List.singleton_append]
      rfl

/-- The new stack: it holds the strings and their addresses, or there is no room for them. -/
theorem wp_pushStack_image {argv : List Arg} (h : Loaded G k₀ tf k t I)
    (hw : I.Writable (I.sz - USERSTACK * PGSIZE) I.sz) (hbase : (USERSTACK + 1) * PGSIZE ≤ I.sz)
    (halign : I.sz % PGSIZE = 0) :
    wp (pushStack t I.sz argv p) (fun r k' => r.1 = p ∧ ∃ J, Loaded G k₀ tf k' t J ∧ J.sz = I.sz ∧
      ∀ sp, r.2 = some sp → sp = I.sz - stackUse argv ∧ stackUse argv ≤ USERSTACK * PGSIZE ∧
        J = I.pushStack argv) E k := by
  have hpg : PGSIZE ≤ I.sz - USERSTACK * PGSIZE := by
    simp only [USERSTACK, PGSIZE] at *
    omega
  have halign : I.sz % 16 = 0 := by
    simp only [PGSIZE] at halign
    omega
  simp only [pushStack, wp_bind]
  refine (wp_pushArgs_image h hw hpg (Nat.sub_le _ _) le_rfl halign (Nat.zero_le _)).imp fun res k₁ hpost => ?_
  obtain ⟨p', r⟩ := res
  obtain ⟨hp, J, hJ, hsz, hres⟩ := hpost
  cases r with
  | none => exact wp_pure.mpr ⟨hp, J, hJ, hsz, by simp⟩
  | some r =>
    obtain ⟨sp, ustack⟩ := r
    obtain ⟨hdown, hlo, hust, hcount, heq⟩ := hres sp ustack rfl
    have hust : ustack = argAddrs argv I.sz := hust.trans (List.nil_append _)
    have hargc : ustack.length = argv.length := by rw [hust, length_argAddrs]
    have hbelow := h.below
    have hsub : addInt sp (-((argv.length + 1) * 8)) = sp - (argv.length + 1) * 8 := by
      simp only [addInt, UINT64, TRAPFRAME, TRAMPOLINE, MAXVA, PGSIZE, MAXARG, USERSTACK] at *
      omega
    have hmod := argsUse_mod argv
    have hdown' : sp - (argv.length + 1) * 8 - (sp - (argv.length + 1) * 8) % 16 = I.sz - stackUse argv := by
      rw [align_down (by omega) (by simp only [PGSIZE, MAXARG] at *; omega), stackUse, ← hdown]
      omega
    simp only [hsub, hdown']
    rw [wp_ite]
    refine ⟨fun _ => wp_pure.mpr ⟨hp, J, hJ, hsz, by simp⟩, fun hlow => ?_⟩
    have hle := le_aligned16 ((argv.length + 1) * 8)
    have hfits : stackUse argv ≤ USERSTACK * PGSIZE := by
      simp only [PGSIZE, USERSTACK] at *
      omega
    have hend : I.sz - stackUse argv + (ustackBytes ustack).length ≤ I.sz := by
      rw [length_ustackBytes, hargc]
      simp only [PGSIZE, USERSTACK, stackUse] at *
      omega
    have hwJ : J.Writable (I.sz - USERSTACK * PGSIZE) I.sz := by
      rw [heq, Img.Writable, Img.writeAll_perm]
      exact hw
    simp only [wp_bind]
    refine (wp_copyout_image hJ hwJ hsz.ge (by omega) hend).imp fun r k₂ hpost => ?_
    obtain ⟨hr, h₂⟩ := hpost
    subst hr
    refine wp_pure.mpr ⟨hp, _, h₂, hsz, ?_⟩
    rintro _ ⟨rfl⟩
    refine ⟨rfl, hfits, ?_⟩
    rw [heq, hust, Img.pushStack, stackPieces, Img.writeAll, Img.writeAll, List.foldl_append]
    rfl

/-! ## What is where -/

section
variable {args argv : List Arg} {sp sz : Nat} {c : Piece} {cs : List Piece}

/-- Every piece ends where those before it begin, or below that. -/
def Descending (cs : List Piece) : Prop := cs.Pairwise fun c d => d.1 + d.2.length ≤ c.1

theorem Arg.le_use (arg : Arg) : (arg.bytes ++ [0]).length ≤ arg.use := by
  rw [List.length_append, List.length_singleton]
  exact le_aligned16 _

theorem argPieces_bounds (h : argsUse args ≤ sp) (hc : c ∈ argPieces args sp) :
    sp - argsUse args ≤ c.1 ∧ c.1 + c.2.length ≤ sp := by
  induction args generalizing sp with
  | nil => exact absurd hc List.not_mem_nil
  | cons arg args ih =>
    rw [argsUse_cons] at h ⊢
    have hle := arg.le_use
    obtain rfl | hc := List.mem_cons.mp hc
    · dsimp only
      omega
    · obtain ⟨hlo, hhi⟩ := ih (by omega) hc
      omega

theorem argPieces_descending (h : argsUse args ≤ sp) : Descending (argPieces args sp) := by
  induction args generalizing sp with
  | nil => exact List.Pairwise.nil
  | cons arg args ih =>
    rw [argsUse_cons] at h
    exact List.pairwise_cons.mpr ⟨fun d hd => (argPieces_bounds (by omega) hd).2, ih (by omega)⟩

/-- The array fits between its address and the last string. -/
theorem length_ustackPiece : (ustackPiece argv sz).2.length ≤ stackUse argv - argsUse argv := by
  have := le_aligned16 ((argv.length + 1) * 8)
  rw [ustackPiece, length_ustackBytes, length_argAddrs, stackUse]
  omega

theorem stackPieces_bounds (h : stackUse argv ≤ sz) (hc : c ∈ stackPieces argv sz) :
    sz - stackUse argv ≤ c.1 ∧ c.1 + c.2.length ≤ sz := by
  have hle : argsUse argv ≤ stackUse argv := Nat.le_add_right _ _
  obtain hc | hc := List.mem_append.mp hc
  · obtain ⟨hlo, hhi⟩ := argPieces_bounds (by omega) hc
    omega
  · obtain rfl := List.mem_singleton.mp hc
    have hlen : (ustackPiece argv sz).2.length ≤ _ := length_ustackPiece
    have haddr : (ustackPiece argv sz).1 = sz - stackUse argv := rfl
    omega

theorem stackPieces_descending (h : stackUse argv ≤ sz) : Descending (stackPieces argv sz) := by
  have hle : argsUse argv ≤ stackUse argv := Nat.le_add_right _ _
  refine List.pairwise_append.mpr ⟨argPieces_descending (by omega), List.pairwise_singleton _ _, ?_⟩
  intro c hc d hd
  obtain rfl := List.mem_singleton.mp hd
  have hlo := (argPieces_bounds (by omega) hc).1
  have hlen : (ustackPiece argv sz).2.length ≤ _ := length_ustackPiece
  have haddr : (ustackPiece argv sz).1 = sz - stackUse argv := rfl
  omega

theorem Img.writeAll_outside {b : Nat} (h : ∀ c ∈ cs, b < c.1 ∨ c.1 + c.2.length ≤ b) :
    (I.writeAll cs).byte b = I.byte b := by
  induction cs generalizing I with
  | nil => rfl
  | cons c cs ih =>
    rw [List.forall_mem_cons] at h
    exact (ih h.2).trans (patch_outside h.1)

/-- A piece that lies below the others is not overwritten. -/
theorem Img.writeAll_piece {j : Nat} (h : Descending cs) (hc : c ∈ cs) (hj : j < c.2.length) :
    some ((I.writeAll cs).byte (c.1 + j)) = c.2[j]? := by
  induction cs generalizing I with
  | nil => exact absurd hc List.not_mem_nil
  | cons d cs ih =>
    obtain ⟨hd, hcs⟩ := List.pairwise_cons.mp h
    obtain rfl | hc := List.mem_cons.mp hc
    · have hlater : ∀ d ∈ cs, c.1 + j < d.1 ∨ d.1 + d.2.length ≤ c.1 + j := fun d hmem =>
        .inr ((hd d hmem).trans (Nat.le_add_right _ _))
      calc some ((I.writeAll (c :: cs)).byte (c.1 + j))
          = some ((I.write c.1 c.2).byte (c.1 + j)) := congrArg some (Img.writeAll_outside hlater)
        _ = c.2[j]? := patch_inside hj
    · exact ih hcs hc

theorem argPieces_eq_zip : argPieces args sp = (argAddrs args sp).zip (args.map fun arg => arg.bytes ++ [0]) := by
  induction args generalizing sp with
  | nil => rfl
  | cons arg args ih =>
    rw [argPieces, ih]
    rfl

end

end Xv6
