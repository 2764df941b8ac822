-- SUMMARY: The flat view of user memory, and that `copyin`, `copyout` and `copyinstr` read and write it.
import Xv6.Vm.Ram
import Xv6.Vm.Syscall

/-!
# User memory

To a user program memory is an array of bytes. A page that is not mapped yet counts as zeros
if it starts below the size of the process. The functions that copy go through the page table
page by page and may fault pages in, which the view does not show. They fail at the first page
that the user could not access.
-/

namespace Xv6

open Prog Radix

variable {G : Nat → Prop} {k k' k₁ k₂ : Kmem} {p p' p₁ : Proc} {E : Vm.Stop → Kmem → Prop} {c : Prop}

/-! ## The view -/

/-- The byte that the user sees at an address, if the page may be accessed. -/
def userByte (k : Kmem) (p : Proc) (a : Nat) : Option UInt8 :=
  if a < MAXVA then
    match p.pagetable.get (a / PGSIZE) with
    | some e => if e.perm.u then some (k.page e.pa (a % PGSIZE)) else none
    | none => if pgrounddown a < p.sz then some 0 else none
  else none

/-- The page of an address is a user page, writable if it is to be written, or it is still to be
mapped. -/
def CanAccess (write : Bool) (p : Proc) (a : Nat) : Prop :=
  a < MAXVA ∧ match p.pagetable.get (a / PGSIZE) with
    | some e => e.perm.u = true ∧ (write = true → e.perm.w = true)
    | none => pgrounddown a < p.sz

/-- The pages of a process, of any size: they are laid out below the trapframe, and they and the
free ones are different from each other. -/
structure Pages (G : Nat → Prop) (k : Kmem) (p : Proc) : Prop where
  kmem : k.Ok G
  table : TableOk G p.pagetable
  layout : Layout p.pagetable (min p.sz TRAPFRAME) p.trapframe k.image.trampoline
  nodup : (stock k p.pagetable).Nodup

/-- The same for a process that is well formed. -/
structure Owns (G : Nat → Prop) (k : Kmem) (p : Proc) : Prop where
  kmem : k.Ok G
  proc : ProcOk G k.image.trampoline p
  nodup : (stock k p.pagetable).Nodup

theorem Owns.pages (h : Owns G k p) : Pages G k p :=
  ⟨h.kmem, h.proc.table, (Nat.min_eq_left h.proc.sz).symm ▸ h.proc.layout, h.nodup⟩

/-- A size below the trapframe. -/
theorem Pages.owns (h : Pages G k p) (hsz : p.sz ≤ TRAPFRAME) : Owns G k p :=
  ⟨h.kmem, ⟨hsz, h.table, Nat.min_eq_left hsz ▸ h.layout⟩, h.nodup⟩

theorem Owns.mono {G' : Nat → Prop} (h : Owns G k p) (hG : ∀ x, G x → G' x) (hpage : ∀ x, G' x → k.IsPage x) :
    Owns G' k p where
  kmem := ⟨hpage, fun x hx => hG x (h.kmem.free x hx), fun x hx => hG x (h.kmem.freed x hx)⟩
  proc := ⟨h.proc.sz, ⟨h.proc.table.ne, fun x hx => hG x (h.proc.table.nodes x hx),
    fun v hv e he => hG _ (h.proc.table.user v hv e he)⟩, h.proc.layout⟩
  nodup := h.nodup

/-- A lazy `sbrk` changes the size alone. -/
theorem Owns.resize {sz : Nat} (h : Owns G k p) (hsz : TRAPFRAME ≤ sz) : Pages G k { p with sz := sz } :=
  ⟨h.kmem, h.proc.table, h.proc.layout.mono (npages_mono ((Nat.min_eq_right hsz).symm ▸ h.proc.sz)), h.nodup⟩

section
variable {v v' : Nat} {e e' : Pte}

theorem vpn_lt_vpns {a : Nat} (h : a < MAXVA) : a / PGSIZE < VPNS := by
  simp only [MAXVA, PGSIZE, VPNS] at *
  omega

theorem mem_tablePages {t : Pagetable} (h : t.get v = some e) : e.pa ∈ tablePages t := by
  rw [← pages_put_none h]
  exact Multiset.mem_add.mpr (.inr (Multiset.mem_singleton_self _))

theorem Owns.free_nodup (h : Owns G k p) : k.freelist.Nodup :=
  Multiset.coe_nodup.mp (Multiset.nodup_add.mp h.nodup).1

/-- A page that is mapped is not free. -/
theorem notMem_free {t : Pagetable} (hnodup : (stock k t).Nodup) (hget : t.get v = some e) :
    e.pa ∉ k.freelist := fun hfree =>
  Multiset.disjoint_left.mp (Multiset.nodup_add.mp hnodup).2.2 (Multiset.mem_coe.mpr hfree)
    (mem_tablePages hget)

theorem Owns.notMem_free (h : Owns G k p) (hget : p.pagetable.get v = some e) : e.pa ∉ k.freelist :=
  Xv6.notMem_free h.nodup hget

/-- A table maps a page once. -/
theorem pa_inj {t : Pagetable} (hnodup : (stock k t).Nodup) (hv : v < VPNS) (hv' : v' < VPNS)
    (hget : t.get v = some e) (hget' : t.get v' = some e') (heq : e.pa = e'.pa) : v = v' := by
  by_contra hne
  have hpages := (Multiset.nodup_add.mp hnodup).2.1
  rw [← pages_put_none hget] at hpages
  have hother : (t.put v none).get v' = some e' := by
    rw [get_put_none hget hv hv', if_neg (Ne.symm hne), hget']
  refine Multiset.disjoint_left.mp (Multiset.nodup_add.mp hpages).2.2 (mem_tablePages hother) ?_
  rw [heq]
  exact Multiset.mem_singleton_self _

theorem Owns.keeps (h : Owns G k p) (hk : Keeps G k p k' p') : Owns G k' p' :=
  ⟨hk.kmem, hk.ok, hk.stock.symm ▸ h.nodup⟩

theorem Owns.write {x : Nat} {data : Bytes.Mem} (h : Owns G k p) : Owns G (k.write x data) p :=
  ⟨h.kmem.write, h.proc, h.nodup⟩

end

/-! ## Faults -/

/-- Pages were faulted in, and the user sees no difference. -/
structure Faults (G : Nat → Prop) (k : Kmem) (p : Proc) (k' : Kmem) (p' : Proc) : Prop where
  owns : Owns G k' p'
  image : k'.image = k.image
  sz : p'.sz = p.sz
  name : p'.name = p.name
  trapframe : p'.trapframe = p.trapframe
  byte : ∀ a, userByte k' p' a = userByte k p a
  mapped : ∀ v < VPNS, ∀ e, p.pagetable.get v = some e → p'.pagetable.get v = some e
  new : ∀ v < VPNS, ∀ e, p.pagetable.get v = none → p'.pagetable.get v = some e →
    v * PGSIZE < p.sz ∧ e.perm = ⟨true, true, false, true⟩ ∧ e.pa ∈ k.freelist

namespace Faults

theorem refl (h : Owns G k p) : Faults G k p k p :=
  ⟨h, rfl, rfl, rfl, rfl, fun _ => rfl, fun _ _ _ h => h, fun _ _ _ hnone hsome => by
    rw [hnone] at hsome; cases hsome⟩

theorem trans {p₂ : Proc} (h : Faults G k p k₁ p₁) (h' : Faults G k₁ p₁ k₂ p₂)
    (hfree : ∀ x ∈ k₁.freelist, x ∈ k.freelist) : Faults G k p k₂ p₂ where
  owns := h'.owns
  image := h'.image.trans h.image
  sz := h'.sz.trans h.sz
  name := h'.name.trans h.name
  trapframe := h'.trapframe.trans h.trapframe
  byte a := (h'.byte a).trans (h.byte a)
  mapped v hv e he := h'.mapped v hv e (h.mapped v hv e he)
  new v hv e hnone hsome := by
    cases hmid : p₁.pagetable.get v with
    | none =>
      obtain ⟨hlt, hperm, hpa⟩ := h'.new v hv e hmid hsome
      exact ⟨h.sz ▸ hlt, hperm, hfree _ hpa⟩
    | some e₁ =>
      rw [h'.mapped v hv e₁ hmid] at hsome
      cases hsome
      exact h.new v hv _ hnone hmid

theorem canAccess {write : Bool} (h : Faults G k p k' p') (a : Nat) :
    CanAccess write p' a ↔ CanAccess write p a := by
  refine and_congr_right fun ha => ?_
  have hv := vpn_lt_vpns ha
  cases hget : p.pagetable.get (a / PGSIZE) with
  | some e => rw [h.mapped _ hv e hget]
  | none =>
    cases hget' : p'.pagetable.get (a / PGSIZE) with
    | none => rw [h.sz]
    | some e =>
      obtain ⟨hlt, hperm, -⟩ := h.new _ hv e hget hget'
      simp only [hperm]
      exact iff_of_true ⟨trivial, fun _ => trivial⟩ hlt

end Faults

/-- What a page fault shows to the user. -/
theorem Faulted.faults {va : Nat} {new : Option Nat} (h : Owns G k p) (hf : Faulted G k p va k' p' new) :
    Faults G k p k' p' where
  owns := h.keeps hf.toKeeps
  image := hf.image
  sz := hf.sz
  name := hf.name
  trapframe := hf.trapframe
  byte a := by
    unfold userByte
    split
    · next ha =>
      by_cases hva : a / PGSIZE = va / PGSIZE ∧ new ≠ none
      · obtain ⟨heq, hne⟩ := hva
        obtain ⟨mem, hmem⟩ := Option.ne_none_iff_exists'.mp hne
        rw [pgrounddown, heq, hf.page mem hmem, hf.fresh hne]
        simp only [(hf.zero h.free_nodup mem hmem).2, if_true]
        exact (if_pos ((Nat.div_mul_le_self ..).trans_lt (hf.low hne))).symm
      · rw [hf.same _ (vpn_lt_vpns ha) fun heq => not_not.mp fun hne => hva ⟨heq, hne⟩, hf.sz]
        cases hget : p.pagetable.get (a / PGSIZE) with
        | none => rfl
        | some e => simp only [hf.took.inside.keeps_page (h.notMem_free hget)]
    · rfl
  mapped v' hv' e he := by
    rw [hf.same v' hv' fun heq => ?_, he]
    by_contra hne
    rw [heq, hf.fresh hne] at he
    cases he
  new v' hv' e hnone hsome := by
    by_cases hva : v' = va / PGSIZE ∧ new ≠ none
    · obtain ⟨rfl, hne⟩ := hva
      obtain ⟨mem, hmem⟩ := Option.ne_none_iff_exists'.mp hne
      rw [hf.page mem hmem] at hsome
      cases hsome
      exact ⟨(Nat.div_mul_le_self ..).trans_lt (hf.low hne), rfl, (hf.zero h.free_nodup mem hmem).1⟩
    · rw [hf.same v' hv' fun heq => not_not.mp fun hne => hva ⟨heq, hne⟩, hnone] at hsome
      cases hsome

theorem pgrounddown_div (v : Nat) : pgrounddown (v * PGSIZE) = v * PGSIZE := by
  rw [pgrounddown, page_div]

/-- The address for page `v` of user memory, which is faulted in if it must be. -/
theorem wp_pageOf_view {β : Type} {v : Nat} {f : Proc × Option Nat → VmM β} {Q : β → Kmem → Prop}
    (h : Owns G k p)
    (hf : ∀ p' r k', Faults G k p k' p' → Took 3 k k' (CanAccess false p (v * PGSIZE) → r ≠ none) →
      (∀ pa ∈ r, CanAccess false p (v * PGSIZE) ∧
        ∃ e, p'.pagetable.get v = some e ∧ e.perm.u = true ∧ e.pa = pa) → wp (f (p', r)) Q E k') :
    wp (do
      match ← walkaddr p.pagetable (v * PGSIZE) with
      | some pa => do
        let r ← pure (p, some pa)
        f r
      | none => do
        let r ← vmfault Proc.pagetable p (v * PGSIZE)
        f r) Q E k := by
  have hfault (hno : v * PGSIZE < MAXVA → ∀ e, p.pagetable.get v = some e → e.perm.u = false) :
      wp (do
        let r ← vmfault Proc.pagetable p (v * PGSIZE)
        f r) Q E k := by
    rw [wp_bind]
    refine (wp_vmfault h.kmem h.proc).imp fun r k' hf₁ => ?_
    refine hf r.1 r.2 k' (hf₁.faults h) (hf₁.took.mono le_rfl fun hc hcan => ?_) fun pa hpa => ?_
    · obtain ⟨hva, hcan⟩ := hcan
      rw [page_div] at hc hcan
      cases hget : p.pagetable.get v with
      | some e =>
        rw [hget] at hcan
        exact absurd hcan.1 (by simp [hno hva e hget])
      | none =>
        rw [hget, pgrounddown_div] at hcan
        exact hc hcan hget
    · have hne : r.2 ≠ none := Option.ne_none_iff_exists'.mpr ⟨pa, hpa⟩
      have hva : v * PGSIZE < MAXVA := (hf₁.low hne).trans_le (h.proc.sz.trans (by decide))
      refine ⟨⟨hva, ?_⟩, _, page_div (v := v) ▸ hf₁.page pa hpa, rfl, rfl⟩
      rw [hf₁.fresh hne, pgrounddown_div]
      exact hf₁.low hne
  rw [wp_bind, walkaddr]
  split
  · next hge => exact wp_pure.mpr (hfault fun hlt => absurd hlt (by omega))
  · next hlt =>
    rw [wp_bind]
    refine wp_walk_match (by omega) (fun e he => ?_) fun hnone => ?_
    · rw [page_div] at he
      rw [wp_pure]
      cases hu : e.perm.u with
      | false =>
        refine hfault fun _ e' he' => ?_
        rw [he] at he'
        cases he'
        exact hu
      | true =>
        refine hf p (some e.pa) k (.refl h) ((Took.refl fun _ => Option.some_ne_none _).mono (by omega) id) ?_
        rintro pa ⟨⟩
        refine ⟨⟨by omega, ?_⟩, e, he, hu, rfl⟩
        rw [page_div, he]
        exact ⟨hu, fun hw => by cases hw⟩
    · rw [page_div] at hnone
      refine wp_pure.mpr (hfault fun _ e he => ?_)
      rw [hnone] at he
      cases he

/-! ## Copying out -/

/-- In how many pages do `len` bytes from `a` on lie? -/
def touched (a len : Nat) : Nat := if len = 0 then 0 else (a + len - 1) / PGSIZE - a / PGSIZE + 1

theorem touched_le (a len : Nat) : touched a len ≤ len / PGSIZE + 2 := by
  unfold touched
  split
  · exact Nat.zero_le _
  · simp only [PGSIZE]
    omega

/-- The first page, and the others. -/
theorem touched_step {a len : Nat} (h : len ≠ 0) :
    touched (pgrounddown a + PGSIZE) (len - min (PGSIZE - (a - pgrounddown a)) len) + 1 ≤ touched a len := by
  unfold touched
  by_cases hrest : len - min (PGSIZE - (a - pgrounddown a)) len = 0
  · rw [if_pos hrest, if_neg h]
    exact Nat.le_add_left ..
  · rw [if_neg hrest, if_neg h]
    simp only [pgrounddown, PGSIZE] at hrest ⊢
    omega

/-- Writing to a page of user memory. -/
theorem userByte_write {v off a : Nat} {e : Pte} {data : List UInt8} (h : Owns G k p)
    (hget : p.pagetable.get v = some e) (hu : e.perm.u = true) (hv : v * PGSIZE < MAXVA)
    (hoff : off + data.length ≤ PGSIZE) :
    userByte (k.write e.pa (patch (k.page e.pa) off data)) p a =
      if v * PGSIZE + off ≤ a ∧ a < v * PGSIZE + off + data.length
      then data[a - (v * PGSIZE + off)]? else userByte k p a := by
  have hdiv : a / PGSIZE = v ↔ v * PGSIZE ≤ a ∧ a < v * PGSIZE + PGSIZE := by
    simp only [PGSIZE]
    omega
  have hrange (hin : v * PGSIZE + off ≤ a ∧ a < v * PGSIZE + off + data.length) : a / PGSIZE = v := by
    have hle : v * PGSIZE + off + data.length ≤ v * PGSIZE + PGSIZE := by
      rw [Nat.add_assoc]
      exact Nat.add_le_add_left hoff _
    exact hdiv.mpr ⟨(Nat.le_add_right ..).trans hin.1, hin.2.trans_le hle⟩
  unfold userByte
  by_cases ha : a < MAXVA
  · rw [if_pos ha, if_pos ha]
    by_cases hpage : a / PGSIZE = v
    · have hmod : a = v * PGSIZE + a % PGSIZE := by rw [← hpage, Nat.mul_comm, Nat.div_add_mod]
      rw [hpage, hget]
      simp only [hu, if_true, Kmem.write, Function.update_self, patch]
      by_cases hin : off ≤ a % PGSIZE ∧ a % PGSIZE < off + data.length
      · have hidx : a - (v * PGSIZE + off) = a % PGSIZE - off := by omega
        have hlt : a % PGSIZE - off < data.length := by omega
        rw [if_pos hin, if_pos (by omega), hidx, List.getElem?_eq_getElem hlt, List.getD_eq_getElem?_getD,
          List.getElem?_eq_getElem hlt, Option.getD_some]
      · rw [if_neg hin, if_neg (by omega)]
    · rw [if_neg fun hin => hpage (hrange hin)]
      cases hother : p.pagetable.get (a / PGSIZE) with
      | none => rfl
      | some e' =>
        have hv' : v < VPNS := by
          rw [← Nat.mul_div_cancel v (by decide : 0 < PGSIZE)]
          exact vpn_lt_vpns hv
        have hne : e'.pa ≠ e.pa := fun heq => hpage (pa_inj h.nodup (vpn_lt_vpns ha) hv' hother hget heq)
        simp only [Kmem.write, Function.update_of_ne hne]
  · have hend : v * PGSIZE + PGSIZE ≤ MAXVA := by
      simp only [PGSIZE, MAXVA] at *
      omega
    rw [if_neg ha, if_neg ha, if_neg (by omega)]

/-- What `copyout` does. -/
structure CopiedOut (G : Nat → Prop) (k : Kmem) (p : Proc) (dstva : Nat) (bytes : List UInt8)
    (k' : Kmem) (p' : Proc) (ok : Bool) : Prop where
  owns : Owns G k' p'
  image : k'.image = k.image
  sz : p'.sz = p.sz
  byte : ok = true → ∀ a, userByte k' p' a =
    if dstva ≤ a ∧ a < dstva + bytes.length then bytes[a - dstva]? else userByte k p a
  access : ok = true → ∀ a, dstva ≤ a → a < dstva + bytes.length → CanAccess true p a
  kept : ∀ x ∉ k.freelist, (∀ v < VPNS, ∀ e, p.pagetable.get v = some e →
    e.perm.u = true → e.perm.w = true → e.pa ≠ x) → k'.page x = k.page x
  enough : k.fails = [] → 3 * touched dstva bytes.length ≤ k.freelist.length →
    (∀ a, dstva ≤ a → a < dstva + bytes.length → CanAccess true p a) → ok = true

theorem canAccess_page {write : Bool} {a b : Nat} (h : a / PGSIZE = b / PGSIZE) (hb : b < MAXVA) :
    CanAccess write p a → CanAccess write p b := by
  rintro ⟨-, hacc⟩
  refine ⟨hb, ?_⟩
  rw [← h, pgrounddown, ← h]
  exact hacc

theorem CanAccess.read {write : Bool} {a : Nat} (h : CanAccess write p a) : CanAccess false p a := by
  obtain ⟨ha, hacc⟩ := h
  refine ⟨ha, ?_⟩
  cases hget : p.pagetable.get (a / PGSIZE) with
  | none => rwa [hget] at hacc
  | some e =>
    rw [hget] at hacc
    exact ⟨hacc.1, fun hw => by cases hw⟩

/-- What holds of an address holds of the beginning of its page. -/
theorem CanAccess.page {write : Bool} {a : Nat} (h : CanAccess write p a) :
    CanAccess false p (a / PGSIZE * PGSIZE) :=
  canAccess_page page_div.symm ((Nat.div_mul_le_self ..).trans_lt h.1) h.read

theorem touched_pos {a len : Nat} (h : 0 < len) : 1 ≤ touched a len := by
  rw [touched, if_neg h.ne']
  exact Nat.le_add_left ..

/-- How a turn of the loops cuts `len` bytes from `a` on. -/
theorem chunk {a len m : Nat} (hlen : 0 < len) (hm : m = min (PGSIZE - (a - pgrounddown a)) len) :
    pgrounddown a + (a - pgrounddown a) = a ∧ a - pgrounddown a + m ≤ PGSIZE ∧ 0 < m ∧ m ≤ len ∧
      (len - m = 0 ∨ pgrounddown a + PGSIZE = a + m) := by
  simp only [pgrounddown, PGSIZE] at *
  omega

theorem Faults.notWritable {x : Nat} (h : Faults G k p k' p') (hx : x ∉ k.freelist)
    (hp : ∀ v < VPNS, ∀ e, p.pagetable.get v = some e → e.perm.u = true → e.perm.w = true → e.pa ≠ x) :
    ∀ v < VPNS, ∀ e, p'.pagetable.get v = some e → e.perm.u = true → e.perm.w = true → e.pa ≠ x := by
  intro v hv e he hu hw
  cases hget : p.pagetable.get v with
  | none => exact fun heq => hx (heq ▸ (h.new v hv e hget he).2.2)
  | some e' =>
    rw [h.mapped v hv e' hget] at he
    cases he
    exact hp v hv _ hget hu hw

/-- `copyout` stops at a page. -/
theorem Faults.stopped {dstva : Nat} {bytes : List UInt8} (h : Faults G k p k' p') (hin : Inside k k')
    (hbad : k.fails = [] → 3 * touched dstva bytes.length ≤ k.freelist.length →
      ¬ ∀ a, dstva ≤ a → a < dstva + bytes.length → CanAccess true p a) :
    CopiedOut G k p dstva bytes k' p' false where
  owns := h.owns
  image := h.image
  sz := h.sz
  byte hok := by cases hok
  access hok := by cases hok
  kept x hx _ := hin.keeps_page hx
  enough hf hlen hall := absurd hall (hbad hf hlen)

theorem CopiedOut.nil {dstva : Nat} (h : Owns G k p) : CopiedOut G k p dstva [] k p true where
  owns := h
  image := rfl
  sz := rfl
  byte _ a := (if_neg (by simp only [List.length_nil]; omega)).symm
  access _ a hlo hhi := absurd hhi (by simp only [List.length_nil]; omega)
  kept _ _ _ := rfl
  enough _ _ _ := rfl

/-- One page of a copy, and the rest of it. -/
theorem CopiedOut.step {dstva m : Nat} {bytes : List UInt8} {e : Pte} {p₂ : Proc} {ok : Bool}
    (hbytes : 0 < bytes.length) (hm : m = min (PGSIZE - (dstva - pgrounddown dstva)) bytes.length)
    (hva : pgrounddown dstva < MAXVA) (hf : Faults G k p k₁ p₁) (htook : Took 3 k k₁ c)
    (hget : p₁.pagetable.get (dstva / PGSIZE) = some e) (hu : e.perm.u = true) (hw : e.perm.w = true)
    (hrest : CopiedOut G (k₁.write e.pa (patch (k₁.page e.pa) (dstva - pgrounddown dstva) (bytes.take m)))
      p₁ (pgrounddown dstva + PGSIZE) (bytes.drop m) k₂ p₂ ok) :
    CopiedOut G k p dstva bytes k₂ p₂ ok := by
  obtain ⟨hstart, hfits, hpos, hle, hnext⟩ := chunk hbytes hm
  have hlen : (bytes.take m).length = m := List.length_take_of_le hle
  have hdrop : (bytes.drop m).length = bytes.length - m := List.length_drop ..
  have hvpn : dstva / PGSIZE < VPNS := by
    simp only [pgrounddown, MAXVA, PGSIZE, VPNS] at *
    omega
  have hfirst (a : Nat) (hlo : dstva ≤ a) (hhi : a < dstva + m) : CanAccess true p a := by
    have hpage : a / PGSIZE = dstva / PGSIZE ∧ a < MAXVA := by
      simp only [pgrounddown, MAXVA, PGSIZE] at *
      omega
    refine (hf.canAccess a).mp ⟨hpage.2, ?_⟩
    rw [hpage.1, hget]
    exact ⟨hu, fun _ => hw⟩
  have hkeep : ∀ x ∉ k.freelist, e.pa ≠ x →
      (k₁.write e.pa (patch (k₁.page e.pa) (dstva - pgrounddown dstva) (bytes.take m))).page x = k.page x := by
    intro x hx hne
    exact (Function.update_of_ne (Ne.symm hne) ..).trans (htook.inside.keeps_page hx)
  refine ⟨hrest.owns, hrest.image.trans hf.image, hrest.sz.trans hf.sz, fun hok a => ?_, fun hok a hlo hhi => ?_,
    fun x hx hcond => ?_, fun hfails hroom hall => ?_⟩
  · have hwrite := userByte_write (a := a) hf.owns hget hu hva (by rw [hlen]; exact hfits)
    have hstart' : dstva / PGSIZE * PGSIZE + (dstva - pgrounddown dstva) = dstva := hstart
    rw [hlen, hstart'] at hwrite
    rw [hrest.byte hok a, hdrop]
    by_cases hrange : pgrounddown dstva + PGSIZE ≤ a ∧ a < pgrounddown dstva + PGSIZE + (bytes.length - m)
    · have hidx : m + (a - (pgrounddown dstva + PGSIZE)) = a - dstva := by omega
      rw [if_pos hrange, if_pos (by omega), List.getElem?_drop, hidx]
    · rw [if_neg hrange, hwrite]
      by_cases hin : dstva ≤ a ∧ a < dstva + m
      · rw [if_pos hin, if_pos (by omega), List.getElem?_take_of_lt (by omega)]
      · rw [if_neg hin, if_neg (by omega), hf.byte]
  · by_cases hin : a < dstva + m
    · exact hfirst a hlo hin
    · exact (hf.canAccess a).mp (hrest.access hok a (by omega) (by omega))
  · have hcond₁ := hf.notWritable hx hcond
    exact (hrest.kept x (fun hmem => hx (htook.inside.mem_free hmem)) hcond₁).trans
      (hkeep x hx (hcond₁ _ hvpn e hget hu hw))
  · have hturns : touched (pgrounddown dstva + PGSIZE) (bytes.length - m) + 1 ≤ touched dstva bytes.length :=
      hm ▸ touched_step hbytes.ne'
    obtain ⟨-, hfails₁, hlen₁⟩ := htook.plenty hfails (by omega)
    refine hrest.enough hfails₁ ?_ fun a hlo hhi => ?_
    · rw [hdrop]
      change _ ≤ k₁.freelist.length
      omega
    · exact (hf.canAccess a).mpr (hall a (by omega) (by omega))

theorem wp_copyoutLoop_view {fuel dstva : Nat} {bytes : List UInt8} (h : Owns G k p)
    (hfuel : bytes.length ≤ fuel) :
    wp (copyoutLoop Proc.pagetable fuel p dstva bytes)
      (fun r k' => CopiedOut G k p dstva bytes k' r.1 r.2) E k := by
  induction fuel generalizing k p dstva bytes with
  | zero =>
    have hnil : bytes = [] := List.length_eq_zero_iff.mp (Nat.le_zero.mp hfuel)
    subst hnil
    exact wp_pure.mpr (.nil h)
  | succ fuel ih =>
    cases bytes with
    | nil => exact wp_pure.mpr (.nil h)
    | cons b rest =>
      simp only [copyoutLoop]
      generalize hbytes : b :: rest = bytes at hfuel ⊢
      have hpos : 0 < bytes.length := by
        rw [← hbytes]
        exact Nat.succ_pos _
      have hself : dstva < dstva + bytes.length := by omega
      rw [wp_ite]
      refine ⟨fun hge => wp_pure.mpr ((Faults.refl h).stopped .refl fun _ _ hall => ?_), fun hlt => ?_⟩
      · have hlow := (hall dstva le_rfl hself).1
        have hdown : pgrounddown dstva ≤ dstva := Nat.div_mul_le_self ..
        omega
      · have hpage : dstva / PGSIZE * PGSIZE / PGSIZE = dstva / PGSIZE := page_div
        have hva : pgrounddown dstva < MAXVA := Nat.not_le.mp hlt
        refine wp_pageOf_view h fun p₁ r k₁ hf htook hr => ?_
        cases r with
        | none =>
          refine wp_pure.mpr (hf.stopped htook.inside fun hfails hroom hall => ?_)
          have hturns := touched_pos (a := dstva) hpos
          exact (htook.plenty hfails (by omega)).1 (hall dstva le_rfl hself).page rfl
        | some pa =>
          obtain ⟨-, e, hget, hu, rfl⟩ := hr pa rfl
          simp only [wp_bind]
          refine wp_walk hva ?_
          rw [pgrounddown, hpage, find_of_get hget]
          dsimp only
          rw [wp_ite]
          refine ⟨fun hw => ?_, fun hw => wp_pure.mpr (hf.stopped htook.inside fun _ _ hall => ?_)⟩
          · simp only [wp_bind, wp_modify]
            obtain ⟨-, -, hm, -⟩ := chunk (a := dstva) hpos rfl
            refine (ih hf.owns.write ?_).imp fun r k₂ hrest => ?_
            · change (bytes.drop (min (PGSIZE - (dstva - pgrounddown dstva)) bytes.length)).length ≤ fuel
              rw [List.length_drop]
              omega
            · exact .step hpos rfl hva hf htook hget hu hw hrest
          · obtain ⟨-, hacc⟩ := (hf.canAccess dstva).mpr (hall dstva le_rfl hself)
            rw [hget] at hacc
            exact hw (hacc.2 rfl)

theorem wp_copyout_view {dstva : Nat} {bytes : List UInt8} (h : Owns G k p) :
    wp (copyout Proc.pagetable p dstva bytes)
      (fun r k' => CopiedOut G k p dstva bytes k' r.1 r.2) E k := wp_copyoutLoop_view h le_rfl

/-! ## Copying in -/

theorem userByte_page {a : Nat} {e : Pte} (ha : a < MAXVA) (hget : p.pagetable.get (a / PGSIZE) = some e)
    (hu : e.perm.u = true) : userByte k p a = some (k.page e.pa (a % PGSIZE)) := by
  rw [userByte, if_pos ha, hget]
  exact if_pos hu

/-- The bytes of `n` addresses in one page. -/
def pageBytes (k : Kmem) (pa off n : Nat) : List UInt8 := (List.range n).map fun i => k.page pa (off + i)

theorem userByte_pageBytes {a n i : Nat} {e : Pte} (hva : pgrounddown a < MAXVA)
    (hget : p.pagetable.get (a / PGSIZE) = some e) (hu : e.perm.u = true)
    (hfits : a - pgrounddown a + n ≤ PGSIZE) (hi : i < n) :
    userByte k p (a + i) = (pageBytes k e.pa (a - pgrounddown a) n)[i]? := by
  have hpage : (a + i) / PGSIZE = a / PGSIZE ∧ (a + i) % PGSIZE = a - pgrounddown a + i ∧ a + i < MAXVA := by
    simp only [pgrounddown, MAXVA, PGSIZE] at *
    omega
  rw [userByte_page hpage.2.2 (hpage.1 ▸ hget) hu, pageBytes, List.getElem?_map, List.getElem?_range hi,
    Option.map_some, hpage.2.1]

/-- What `copyin` does, when it has copied `old` already. -/
structure CopiedIn (G : Nat → Prop) (k : Kmem) (p : Proc) (srcva len : Nat) (old : List UInt8)
    (k' : Kmem) (p' : Proc) (r : Option (List UInt8)) : Prop where
  faults : Faults G k p k' p'
  inside : Inside k k'
  bytes : ∀ bs ∈ r, ∃ new, bs = old ++ new ∧ new.length = len ∧ ∀ i < len, userByte k p (srcva + i) = new[i]?
  access : r ≠ none → ∀ a, srcva ≤ a → a < srcva + len → CanAccess false p a
  enough : k.fails = [] → 3 * touched srcva len ≤ k.freelist.length →
    (∀ a, srcva ≤ a → a < srcva + len → CanAccess false p a) → r ≠ none

theorem CopiedIn.nil {srcva : Nat} {old : List UInt8} (h : Owns G k p) :
    CopiedIn G k p srcva 0 old k p (some old) where
  faults := .refl h
  inside := .refl
  bytes := by
    rintro bs ⟨⟩
    exact ⟨[], (List.append_nil old).symm, rfl, fun i hi => absurd hi (Nat.not_lt_zero i)⟩
  access _ a hlo hhi := absurd hhi (by omega)
  enough _ _ _ := Option.some_ne_none old

/-- One page of a copy, and the rest of it. -/
theorem CopiedIn.step {srcva len m : Nat} {old : List UInt8} {e : Pte} {p₂ : Proc} {r : Option (List UInt8)}
    (hlen : 0 < len) (hm : m = min (PGSIZE - (srcva - pgrounddown srcva)) len)
    (hva : pgrounddown srcva < MAXVA) (hf : Faults G k p k₁ p₁) (htook : Took 3 k k₁ c)
    (hget : p₁.pagetable.get (srcva / PGSIZE) = some e) (hu : e.perm.u = true)
    (hrest : CopiedIn G k₁ p₁ (pgrounddown srcva + PGSIZE) (len - m)
      (old ++ pageBytes k₁ e.pa (srcva - pgrounddown srcva) m) k₂ p₂ r) :
    CopiedIn G k p srcva len old k₂ p₂ r := by
  obtain ⟨hstart, hfits, hpos, hle, hnext⟩ := chunk hlen hm
  have hpage : (pageBytes k₁ e.pa (srcva - pgrounddown srcva) m).length = m := by
    rw [pageBytes, List.length_map, List.length_range]
  refine ⟨hf.trans hrest.faults fun _ => htook.inside.mem_free, htook.inside.trans hrest.inside, fun bs hbs => ?_,
    fun hne a hlo hhi => ?_, fun hfails hroom hall => ?_⟩
  · obtain ⟨new, rfl, hnew, hbyte⟩ := hrest.bytes bs hbs
    refine ⟨pageBytes k₁ e.pa (srcva - pgrounddown srcva) m ++ new, List.append_assoc .., ?_, fun i hi => ?_⟩
    · rw [List.length_append, hpage, hnew]
      omega
    · rw [← hf.byte]
      by_cases hin : i < m
      · rw [List.getElem?_append_left (by omega)]
        exact userByte_pageBytes hva hget hu hfits hin
      · have haddr : srcva + i = pgrounddown srcva + PGSIZE + (i - m) := by omega
        rw [List.getElem?_append_right (by omega), hpage, haddr]
        exact hbyte (i - m) (by omega)
  · by_cases hin : a < srcva + m
    · have hsame : a / PGSIZE = srcva / PGSIZE ∧ a < MAXVA := by
        simp only [pgrounddown, MAXVA, PGSIZE] at *
        omega
      refine (hf.canAccess a).mp ⟨hsame.2, ?_⟩
      rw [hsame.1, hget]
      exact ⟨hu, fun hw => by cases hw⟩
    · exact (hf.canAccess a).mp (hrest.access hne a (by omega) (by omega))
  · have hturns : touched (pgrounddown srcva + PGSIZE) (len - m) + 1 ≤ touched srcva len :=
      hm ▸ touched_step hlen.ne'
    obtain ⟨-, hfails₁, hlen₁⟩ := htook.plenty hfails (by omega)
    refine hrest.enough hfails₁ (by omega) fun a hlo hhi => ?_
    exact (hf.canAccess a).mpr (hall a (by omega) (by omega))

theorem wp_copyinLoop_view {fuel srcva len : Nat} {old : List UInt8} (h : Owns G k p) (hfuel : len ≤ fuel) :
    wp (copyinLoop fuel p srcva len old)
      (fun r k' => CopiedIn G k p srcva len old k' r.1 r.2) E k := by
  induction fuel generalizing k p srcva len old with
  | zero =>
    have hzero : len = 0 := Nat.le_zero.mp hfuel
    subst hzero
    exact wp_pure.mpr (.nil h)
  | succ fuel ih =>
    cases len with
    | zero => exact wp_pure.mpr (.nil h)
    | succ n =>
      simp only [copyinLoop]
      generalize hlen : n + 1 = len at hfuel ⊢
      have hpos : 0 < len := by omega
      have hself : srcva < srcva + len := by omega
      refine wp_pageOf_view h fun p₁ r k₁ hf htook hr => ?_
      cases r with
      | none =>
        refine wp_pure.mpr ⟨hf, htook.inside, fun bs hbs => ?_, absurd rfl, fun hfails hroom hall => ?_⟩
        · cases hbs
        · have hturns := touched_pos (a := srcva) hpos
          exact absurd rfl ((htook.plenty hfails (by omega)).1 (hall srcva le_rfl hself).page)
      | some pa =>
        obtain ⟨hcan, e, hget, hu, rfl⟩ := hr pa rfl
        obtain ⟨-, -, hm, -⟩ := chunk (a := srcva) hpos rfl
        simp only [wp_bind, wp_get]
        refine (ih hf.owns ?_).imp fun r k₂ hrest => ?_
        · omega
        · exact .step hpos rfl hcan.1 hf htook hget hu hrest

theorem wp_copyin_view {srcva len : Nat} (h : Owns G k p) :
    wp (copyin p srcva len) (fun r k' => CopiedIn G k p srcva len [] k' r.1 r.2) E k :=
  wp_copyinLoop_view h le_rfl

/-! ## Strings -/

/-- A string that `copyinstr` found, when it has copied `old` already. -/
def IsString (k : Kmem) (p : Proc) (srcva max : Nat) (old s : List UInt8) : Prop :=
  ∃ new, s = old ++ new ∧ new.length + 1 ≤ max ∧ userByte k p (srcva + new.length) = some 0 ∧
    ∀ i < new.length, userByte k p (srcva + i) = new[i]? ∧ new[i]? ≠ some 0

theorem takeWhile_zero {bs : List UInt8} (h : 0 ∈ bs) : ∃ n < bs.length, bs.takeWhile (· ≠ 0) = bs.take n ∧
    bs[n]? = some 0 ∧ ∀ i < n, bs[i]? ≠ some 0 := by
  induction bs with
  | nil => cases h
  | cons b bs ih =>
    by_cases hb : b = 0
    · exact ⟨0, Nat.succ_pos _, by simp [hb], by simp [hb], fun i hi => absurd hi (Nat.not_lt_zero i)⟩
    · obtain ⟨n, hn, htake, hzero, hne⟩ := ih ((List.mem_cons.mp h).resolve_left (Ne.symm hb))
      refine ⟨n + 1, Nat.succ_lt_succ hn, ?_, hzero, fun i hi => ?_⟩
      · rw [List.takeWhile_cons_of_pos (by simpa using hb), htake, List.take_succ_cons]
      · cases i with
        | zero => simpa using hb
        | succ i => exact hne i (Nat.lt_of_succ_lt_succ hi)

/-- A page below the size of the process that has not been mapped yet. -/
def Reserved (p : Proc) (a : Nat) : Prop :=
  a < MAXVA ∧ p.pagetable.get (a / PGSIZE) = none ∧ pgrounddown a < p.sz

/-- `walkaddr` finds user pages, and no others. -/
theorem wp_walkaddr_user {t : Pagetable} {va : Nat} {Q : Option Nat → Kmem → Prop}
    (hsome : ∀ e, va < MAXVA → t.get (va / PGSIZE) = some e → e.perm.u = true → Q (some e.pa) k)
    (hnone : (va < MAXVA → ∀ e, t.get (va / PGSIZE) = some e → e.perm.u = false) → Q none k) :
    wp (walkaddr t va) Q E k := by
  rw [walkaddr, wp_ite]
  refine ⟨fun hge => wp_pure.mpr (hnone fun hlt => absurd hlt (Nat.not_lt.mpr hge)), fun hlt => ?_⟩
  have hva : va < MAXVA := Nat.not_le.mp hlt
  rw [wp_bind]
  refine wp_walk_match hva (fun e he => wp_pure.mpr ?_) fun hget => wp_pure.mpr (hnone fun _ e he => ?_)
  · cases hu : e.perm.u with
    | true => exact hsome e hva he hu
    | false =>
      refine hnone fun _ e' he' => ?_
      rw [he] at he'
      cases he'
      exact hu
  · rw [hget] at he
    cases he

/-- What the user can see in a page that is not mapped for them is reserved. -/
theorem reserved_of_userByte {a : Nat} (hbyte : userByte k p a ≠ none)
    (hno : a < MAXVA → ∀ e, p.pagetable.get (a / PGSIZE) = some e → e.perm.u = false) : Reserved p a := by
  unfold userByte at hbyte
  by_cases ha : a < MAXVA
  · rw [if_pos ha] at hbyte
    cases hget : p.pagetable.get (a / PGSIZE) with
    | none =>
      rw [hget] at hbyte
      exact ⟨ha, hget, by_contra fun hge => hbyte (if_neg hge)⟩
    | some e =>
      rw [hget] at hbyte
      exact absurd (if_neg (Bool.eq_false_iff.mp (hno ha e hget))) hbyte
  · exact absurd (if_neg ha) hbyte

section
variable {srcva max m : Nat} {bs new s : List UInt8}

theorem IsString.first (h : IsString k p srcva max [] s) : userByte k p srcva ≠ none := by
  obtain ⟨_, rfl, -, hnul, hbyte⟩ := h
  cases s with
  | nil =>
    have hnul : userByte k p srcva = some 0 := hnul
    rw [hnul]
    exact Option.some_ne_none 0
  | cons b s =>
    have hfirst : userByte k p srcva = some b := (hbyte 0 (Nat.succ_pos _)).1
    rw [hfirst]
    exact Option.some_ne_none b

/-- The bytes `bs` at `srcva` are the beginning of a string. -/
theorem IsString.append (hbs : ∀ i < bs.length, userByte k p (srcva + i) = bs[i]?) (hne : 0 ∉ bs)
    (h : IsString k p (srcva + bs.length) (max - bs.length) [] new) :
    IsString k p srcva max [] (bs ++ new) := by
  obtain ⟨_, rfl, hlen, hnul, hbyte⟩ := h
  refine ⟨bs ++ new, rfl, ?_, ?_, fun i hi => ?_⟩
  · rw [List.length_append]
    omega
  · rw [List.length_append, ← Nat.add_assoc]
    exact hnul
  · by_cases hin : i < bs.length
    · rw [List.getElem?_append_left hin]
      exact ⟨hbs i hin, fun heq => hne (List.mem_of_getElem? heq)⟩
    · rw [List.length_append] at hi
      have haddr : srcva + i = srcva + bs.length + (i - bs.length) := by omega
      rw [List.getElem?_append_right (by omega), haddr]
      exact hbyte (i - bs.length) (by omega)

/-- A string is longer than the bytes at its beginning that are not null, and goes on after them. -/
theorem IsString.drop (hbs : ∀ i < bs.length, userByte k p (srcva + i) = bs[i]?) (hne : 0 ∉ bs)
    (h : IsString k p srcva max [] s) :
    bs.length ≤ s.length ∧ IsString k p (srcva + bs.length) (max - bs.length) [] (s.drop bs.length) := by
  obtain ⟨_, rfl, hlen, hnul, hbyte⟩ := h
  have hle : bs.length ≤ s.length := by
    by_contra hlt
    rw [hbs _ (by omega)] at hnul
    exact hne (List.mem_of_getElem? hnul)
  have hadd (i : Nat) : srcva + bs.length + i = srcva + (bs.length + i) := Nat.add_assoc ..
  refine ⟨hle, _, rfl, ?_, ?_, fun i hi => ?_⟩
  · rw [List.length_drop]
    omega
  · rw [List.length_drop, hadd, Nat.add_sub_cancel' hle]
    exact hnul
  · rw [List.length_drop] at hi
    rw [hadd, List.getElem?_drop]
    exact hbyte _ (by omega)

/-- A null byte among the bytes at `srcva`: the string up to it. -/
theorem IsString.takeWhile (hbs : ∀ i < bs.length, userByte k p (srcva + i) = bs[i]?) (hzero : 0 ∈ bs)
    (hlen : bs.length ≤ max) : (bs.takeWhile (· ≠ 0)).length < bs.length ∧
      IsString k p srcva max [] (bs.takeWhile (· ≠ 0)) := by
  obtain ⟨j, hj, htake, hnul, hne⟩ := takeWhile_zero hzero
  have htaken : (bs.take j).length = j := List.length_take_of_le hj.le
  rw [htake, htaken]
  refine ⟨hj, bs.take j, rfl, ?_, ?_, fun i hi => ?_⟩
  · rw [htaken]
    omega
  · rw [htaken, hbs j hj, hnul]
  · rw [htaken] at hi
    rw [List.getElem?_take_of_lt hi]
    exact ⟨hbs i (hi.trans hj), hne i hi⟩

/-- What `copyinstr` finds: the string, if no page of it is merely reserved. -/
structure CopiedStr (k : Kmem) (p : Proc) (srcva max : Nat) (old : List UInt8) (r : Option (List UInt8)) :
    Prop where
  found : ∀ s ∈ r, ∃ new, s = old ++ new ∧ IsString k p srcva max [] new ∧
    ∀ i ≤ new.length, ¬ Reserved p (srcva + i)
  missed : r = none → ∀ new, IsString k p srcva max [] new → ∃ i ≤ new.length, Reserved p (srcva + i)

theorem CopiedStr.none {old : List UInt8}
    (h : ∀ new, IsString k p srcva max [] new → Reserved p srcva) : CopiedStr k p srcva max old none where
  found s hs := by cases hs
  missed _ new hnew := ⟨0, Nat.zero_le _, h new hnew⟩

/-- One page of a string, and the rest of it. -/
theorem CopiedStr.step {old : List UInt8} {r : Option (List UInt8)}
    (hbs : ∀ i < bs.length, userByte k p (srcva + i) = bs[i]?) (hne : 0 ∉ bs)
    (hmapped : ∀ i < bs.length, ¬ Reserved p (srcva + i))
    (h : CopiedStr k p (srcva + bs.length) (max - bs.length) (old ++ bs) r) :
    CopiedStr k p srcva max old r where
  found s hs := by
    obtain ⟨new, rfl, hnew, hres⟩ := h.found s hs
    refine ⟨bs ++ new, List.append_assoc .., .append hbs hne hnew, fun i hi => ?_⟩
    by_cases hin : i < bs.length
    · exact hmapped i hin
    · have haddr : srcva + i = srcva + bs.length + (i - bs.length) := by omega
      rw [List.length_append] at hi
      rw [haddr]
      exact hres _ (by omega)
  missed hnone new hnew := by
    obtain ⟨hle, hrest⟩ := hnew.drop hbs hne
    obtain ⟨i, hi, hres⟩ := h.missed hnone _ hrest
    rw [List.length_drop] at hi
    exact ⟨bs.length + i, by omega, by rwa [← Nat.add_assoc]⟩

theorem wp_copyinstrLoop_view {fuel srcva max : Nat} {old : List UInt8} (hfuel : max ≤ fuel) :
    wp (copyinstrLoop p.pagetable fuel srcva max old)
      (fun r k' => k' = k ∧ CopiedStr k p srcva max old r) E k := by
  have hshort {srcva : Nat} {old : List UInt8} : CopiedStr k p srcva 0 old Option.none := by
    refine .none fun new hnew => ?_
    obtain ⟨_, -, hlen, -⟩ := hnew
    omega
  induction fuel generalizing srcva max old with
  | zero =>
    cases Nat.le_zero.mp hfuel
    exact wp_pure.mpr ⟨rfl, hshort⟩
  | succ fuel ih =>
    cases max with
    | zero => exact wp_pure.mpr ⟨rfl, hshort⟩
    | succ n =>
      simp only [copyinstrLoop]
      generalize hmax : n + 1 = max at hfuel ⊢
      have hpos : 0 < max := by omega
      have hdiv : pgrounddown srcva / PGSIZE = srcva / PGSIZE := page_div
      have hdown : pgrounddown srcva ≤ srcva := Nat.div_mul_le_self ..
      obtain ⟨hstart, hfits, hm, hle, hnext⟩ := chunk (a := srcva) hpos rfl
      generalize min (PGSIZE - (srcva - pgrounddown srcva)) max = m at *
      rw [wp_bind]
      refine wp_walkaddr_user (fun e hva he hu => ?_) fun hno => wp_pure.mpr ⟨rfl, .none fun new hnew => ?_⟩
      · rw [hdiv] at he
        have hlen : (pageBytes k e.pa (srcva - pgrounddown srcva) m).length = m := by
          rw [pageBytes, List.length_map, List.length_range]
        have hbyte : ∀ i < (pageBytes k e.pa (srcva - pgrounddown srcva) m).length,
            userByte k p (srcva + i) = (pageBytes k e.pa (srcva - pgrounddown srcva) m)[i]? :=
          fun i hi => userByte_pageBytes hva he hu hfits (hlen ▸ hi)
        have hmapped (i : Nat) (hi : i < m) : ¬ Reserved p (srcva + i) := by
          have hpage : (srcva + i) / PGSIZE = srcva / PGSIZE := by
            simp only [pgrounddown, PGSIZE] at *
            omega
          rintro ⟨-, hget, -⟩
          rw [hpage, he] at hget
          cases hget
        simp only [wp_bind, wp_get]
        rw [← pageBytes]
        generalize pageBytes k e.pa (srcva - pgrounddown srcva) m = bs at hlen hbyte ⊢
        rw [wp_ite]
        refine ⟨fun hzero => wp_pure.mpr ⟨rfl, ?_, fun hnone => by cases hnone⟩, fun hzero => ?_⟩
        · rintro s ⟨⟩
          obtain ⟨hlt, hstr⟩ := IsString.takeWhile hbyte hzero (hlen ▸ hle)
          exact ⟨_, rfl, hstr, fun i hi => hmapped i (by omega)⟩
        · refine (ih (by omega)).imp fun r k' hpost => ⟨hpost.1, ?_⟩
          subst hlen
          obtain hdone | hmore := hnext
          · -- all of `max` was looked at
            have hrest := hpost.2
            refine .step hbyte hzero hmapped ⟨fun s hs => ?_, fun _ new hnew => ?_⟩
            · obtain ⟨new, -, ⟨_, -, hlen', -⟩, -⟩ := hrest.found s hs
              omega
            · obtain ⟨_, -, hlen', -⟩ := hnew
              omega
          · rw [hmore] at hpost
            exact .step hbyte hzero hmapped hpost.2
      · refine reserved_of_userByte hnew.first fun hlt e he => ?_
        rw [← hdiv] at he
        exact hno (hdown.trans_lt hlt) e he

theorem wp_copyinstr_view {srcva max : Nat} :
    wp (copyinstr p.pagetable srcva max) (fun r k' => k' = k ∧ CopiedStr k p srcva max [] r) E k :=
  wp_copyinstrLoop_view le_rfl

end

end Xv6
