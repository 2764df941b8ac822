-- SUMMARY: malloc and free of user programs, with sbrk as the kernel answers it.
import Xv6.Base.Blocks
import Xv6.Base.Cycle
import Xv6.Kernel.Param

/-!
# The allocator of user programs

`user/umalloc.c` keeps the free blocks in a circular list that starts at `base`. A block
begins with a header, which has a pointer to the next block and the size of the block in
headers. Pointers are addresses, and a header is 16 bytes long.

The kernel's side is the size of the process and its answers: memory that it does not
give is not given back either, so the answers are an input.
-/

namespace Xv6.Umalloc

/-! ## The state -/

/-- The fields of the headers in memory, and `freep` (0 before the first call). -/
structure Heap where
  ptr : Nat → Nat
  size : Nat → Nat
  freep : Nat

def Heap.setPtr (h : Heap) (a v : Nat) : Heap := { h with ptr := Function.update h.ptr a v }

def Heap.setSize (h : Heap) (a v : Nat) : Heap := { h with size := Function.update h.size a v }

/-- A process: its heap, its size, the memory that is left for it in the machine, and whether the
kernel will grant what it asks for. `grown` is a record of the calls of `sbrk` in `morecore`: by how
many bytes the process has grown, and the size that was written into the header. -/
structure Proc where
  heap : Heap
  sz : Nat
  left : Nat
  grants : List Bool
  grown : List (Int × Nat)

/-- Why a call does not return: a loop runs for longer than it is given, or an access outside of
the memory of the process. -/
inductive Stop
  | loops
  | fault
deriving DecidableEq

/-! ## `free` -/

/-- The loop of `free`. -/
def findPlace (h : Heap) (bp : Nat) : Nat → Nat → Option Nat
  | 0, _ => none
  | fuel + 1, p =>
    if bp > p ∧ bp < h.ptr p then some p
    else if p ≥ h.ptr p ∧ (bp > p ∨ bp < h.ptr p) then some p
    else findPlace h bp fuel (h.ptr p)

/-- The block at `bp` and the one behind it. -/
def joinUpper (h : Heap) (bp p : Nat) : Heap :=
  if bp + 16 * h.size bp = h.ptr p then
    (h.setSize bp ((h.size bp + h.size (h.ptr p)) % 2 ^ 32)).setPtr bp (h.ptr (h.ptr p))
  else h.setPtr bp (h.ptr p)

/-- The block at `p` and the one at `bp`. -/
def joinLower (h : Heap) (bp p : Nat) : Heap :=
  if p + 16 * h.size p = bp then
    (h.setSize p ((h.size p + h.size bp) % 2 ^ 32)).setPtr p (h.ptr bp)
  else h.setPtr p bp

/-- The block at `bp` is put behind the one at `p`. -/
def link (h : Heap) (bp p : Nat) : Heap := { joinLower (joinUpper h bp p) bp p with freep := p }

/-- `free`. -/
def free (fuel : Nat) (ap : Nat) (h : Heap) : Except Stop Heap :=
  match findPlace h (ap - 16) fuel h.freep with
  | none => .error .loops
  | some p => .ok (link h (ap - 16) p)

/-! ## `sbrk` -/

/-- `uvmdealloc`: the new size, and nothing is done if it is not smaller. -/
def uvmdealloc (oldsz newsz : Nat) : Nat := if newsz ≥ oldsz then oldsz else newsz

/-- `growproc`: whether it succeeds, and the process after it. -/
def growproc (n : Int) (s : Proc) : Bool × Proc :=
  if n > 0 then
    if s.grants.headD false ∧ n.toNat ≤ s.left then
      (true, { s with sz := s.sz + n.toNat, left := s.left - n.toNat, grants := s.grants.tail })
    else (false, { s with grants := s.grants.tail })
  else if n < 0 then
    -- `sz + n` is a number of 64 bits
    (true, { s with sz := uvmdealloc s.sz ((s.sz + n) % 2 ^ 64).toNat })
  else (true, s)

/-- `sbrk(n)`: the old size of the process. -/
def sbrk (n : Int) (s : Proc) : Option Nat × Proc :=
  let r := growproc n s
  (if r.1 then some s.sz else none, r.2)

/-! ## `malloc` -/

/-- The number that `sbrk` gets for its `int`. -/
def toInt32 (n : Nat) : Int := (n : Int).bmod (2 ^ 32)

/-- The header at `a` can be written: its page belongs to the process. -/
def mapped (s : Proc) (a : Nat) : Prop := a + 16 ≤ (s.sz + 4095) / 4096 * 4096

instance (s : Proc) (a : Nat) : Decidable (mapped s a) := inferInstanceAs (Decidable (_ ≤ _))

/-- The number of headers that `morecore` asks for. -/
def rounded (nu : Nat) : Nat := if nu < 4096 then 4096 else nu

/-- `morecore` after `sbrk`; 0 is a null pointer. -/
def install (fuel nu : Nat) (s : Proc) : Option Nat × Proc → Except Stop (Nat × Proc)
  | (none, s') => .ok (0, s')
  | (some p, s') =>
    if mapped s' p then
      (free fuel (p + 16) (s'.heap.setSize p nu)).map fun h =>
        (h.freep, { s' with heap := h, grown := ((s'.sz : Int) - s.sz, nu) :: s.grown })
    else .error .fault

/-- `morecore`. -/
def morecore (fuel nu : Nat) (s : Proc) : Except Stop (Nat × Proc) :=
  install fuel (rounded nu) s (sbrk (toInt32 (rounded nu * 16)) s)

/-- A block of `nunits` at the end of the block at `p`, or the whole block. -/
def take (h : Heap) (nunits prevp p : Nat) : Nat × Heap :=
  if h.size p = nunits then (p + 16, { h.setPtr prevp (h.ptr p) with freep := prevp })
  else
    let h := h.setSize p (h.size p - nunits)
    let p := p + 16 * h.size p
    (p + 16, { h.setSize p nunits with freep := prevp })

/-- The loop of `malloc`. -/
def mallocLoop (nunits : Nat) : Nat → Nat → Nat → Proc → Except Stop (Nat × Proc)
  | 0, _, _, _ => .error .loops
  | fuel + 1, prevp, p, s =>
    if s.heap.size p ≥ nunits then
      .ok ((take s.heap nunits prevp p).1, { s with heap := (take s.heap nunits prevp p).2 })
    else if p = s.heap.freep then
      (morecore fuel nunits s).bind fun r =>
        if r.1 = 0 then .ok (0, r.2) else mallocLoop nunits fuel r.1 (r.2.heap.ptr r.1) r.2
    else mallocLoop nunits fuel p (s.heap.ptr p) s

/-- The number of headers for a block of `nbytes` and its header. -/
def units (nbytes : UInt32) : Nat := ((nbytes.toNat + 16 - 1) / 16 + 1) % 2 ^ 32

/-- The first call makes a list of `base` alone. -/
def start (base : Nat) (h : Heap) : Heap :=
  if h.freep = 0 then { ((h.setPtr base base).setSize base 0) with freep := base } else h

/-- `malloc`; the loop is given `fuel` turns. -/
def malloc (base fuel : Nat) (nbytes : UInt32) (s : Proc) : Except Stop (Nat × Proc) :=
  let h := start base s.heap
  mallocLoop (units nbytes) fuel h.freep (h.ptr h.freep) { s with heap := h }

/-! ## The list of free blocks -/

open Blocks Cycle

/-- The blocks are linked in the heap, and their sizes are in the headers. -/
structure Chain (h : Heap) (l : List Extent) (z : Nat) : Prop where
  linked : Linked h.ptr (l.map Prod.fst) z
  size : ∀ x ∈ l, 16 * h.size x.1 = x.2

section
variable {h h' : Heap} {l l₁ l₂ : List Extent} {x p : Extent} {z base : Nat}

theorem chain_append : Chain h (l₁ ++ l₂) z ↔ Chain h l₁ ((l₂.map Prod.fst).headD z) ∧ Chain h l₂ z := by
  constructor
  · rintro ⟨hlinked, hsize⟩
    rw [List.map_append, linked_append] at hlinked
    exact ⟨⟨hlinked.1, fun x hx => hsize x (List.mem_append_left _ hx)⟩,
      ⟨hlinked.2, fun x hx => hsize x (List.mem_append_right _ hx)⟩⟩
  · rintro ⟨h₁, h₂⟩
    refine ⟨?_, fun x hx => ?_⟩
    · rw [List.map_append, linked_append]
      exact ⟨h₁.linked, h₂.linked⟩
    · rcases List.mem_append.mp hx with hx | hx
      · exact h₁.size x hx
      · exact h₂.size x hx

theorem chain_cons : Chain h (x :: l) z ↔
    h.ptr x.1 = (l.map Prod.fst).headD z ∧ 16 * h.size x.1 = x.2 ∧ Chain h l z := by
  constructor
  · rintro ⟨hlinked, hsize⟩
    rw [List.forall_mem_cons] at hsize
    exact ⟨hlinked.1, hsize.1, hlinked.2, hsize.2⟩
  · rintro ⟨hptr, hsize, hl⟩
    exact ⟨⟨hptr, hl.linked⟩, List.forall_mem_cons.mpr ⟨hsize, hl.size⟩⟩

/-- Headers of other blocks do not matter. -/
theorem Chain.congr (hc : Chain h l z)
    (heq : ∀ x ∈ l, h'.ptr x.1 = h.ptr x.1 ∧ h'.size x.1 = h.size x.1) : Chain h' l z := by
  refine ⟨hc.linked.congr fun a ha => ?_, fun x hx => ?_⟩
  · obtain ⟨x, hx, rfl⟩ := List.mem_map.mp ha
    exact (heq x hx).1
  · rw [(heq x hx).2]
    exact hc.size x hx

/-! ## Joining blocks -/

theorem joinUpper_of_ne {a : Nat} {bp q : Nat} (ha : a ≠ bp) :
    (joinUpper h bp q).ptr a = h.ptr a ∧ (joinUpper h bp q).size a = h.size a := by
  rw [joinUpper]
  split <;> simp [Heap.setPtr, Heap.setSize, ha]

/-- What is behind a block is joined with it. -/
theorem joinUpper_chain (hp : h.ptr p.1 = (l₂.map Prod.fst).headD z) (hl₂ : Chain h l₂ z)
    (hx : 16 * h.size x.1 = x.2) (hz : stop x ≠ z) (hne : ∀ y ∈ l₂, y.1 ≠ x.1)
    (hbound : x.2 + total l₂ < 2 ^ 36) :
    ∃ m t, join x l₂ = (x.1, m) :: t ∧ (∀ y ∈ t, y ∈ l₂) ∧
      Chain (joinUpper h x.1 p.1) ((x.1, m) :: t) z := by
  have hstop : x.1 + 16 * h.size x.1 = stop x := by rw [stop, hx]
  cases l₂ with
  | nil =>
    refine ⟨x.2, [], rfl, fun y hy => hy, ?_⟩
    have hptr : h.ptr p.1 = z := hp
    rw [joinUpper, hstop, hptr, if_neg hz, chain_cons]
    exact ⟨by simp [Heap.setPtr], hx, trivial, fun y hy => absurd hy List.not_mem_nil⟩
  | cons y l₂ =>
    have hptr : h.ptr p.1 = y.1 := hp
    obtain ⟨hy, hysize, hl₂⟩ := chain_cons.mp hl₂
    rw [List.forall_mem_cons] at hne
    rw [total_cons] at hbound
    have hrest : Chain (joinUpper h x.1 p.1) l₂ z := hl₂.congr fun w hw => joinUpper_of_ne (hne.2 w hw)
    rw [joinUpper, hstop, hptr] at hrest ⊢
    rw [join]
    split
    · next htouch =>
      rw [if_pos htouch] at hrest
      refine ⟨x.2 + y.2, l₂, rfl, fun w hw => List.mem_cons_of_mem y hw, chain_cons.mpr ⟨?_, ?_, hrest⟩⟩
      · simpa [Heap.setPtr, Heap.setSize] using hy
      · simp only [Heap.setPtr, Heap.setSize, Function.update_self]
        omega
    · next htouch =>
      rw [if_neg htouch] at hrest
      refine ⟨x.2, y :: l₂, rfl, fun w hw => hw, chain_cons.mpr ⟨?_, hx, chain_cons.mpr ⟨?_, ?_, hrest⟩⟩⟩
      · simp [Heap.setPtr]
      · simpa [Heap.setPtr, hne.1] using hy
      · exact hysize

theorem joinLower_of_ne {a : Nat} {bp q : Nat} (ha : a ≠ q) :
    (joinLower h bp q).ptr a = h.ptr a ∧ (joinLower h bp q).size a = h.size a := by
  rw [joinLower]
  split <;> simp [Heap.setPtr, Heap.setSize, ha]

/-- A block is joined with the one in front of it. -/
theorem joinLower_chain (hl : Chain h (x :: l) z) (hp : 16 * h.size p.1 = p.2) (hne : ∀ y ∈ x :: l, y.1 ≠ p.1)
    (hbound : p.2 + x.2 < 2 ^ 36) : Chain (joinLower h x.1 p.1) (join p (x :: l)) z := by
  have hstop : p.1 + 16 * h.size p.1 = stop p := by rw [stop, hp]
  have hrest : Chain (joinLower h x.1 p.1) (x :: l) z := hl.congr fun w hw => joinLower_of_ne (hne w hw)
  obtain ⟨hx, hxsize, -⟩ := chain_cons.mp hl
  rw [joinLower, hstop] at hrest ⊢
  rw [join]
  split
  · next htouch =>
    rw [if_pos htouch] at hrest
    refine chain_cons.mpr ⟨?_, ?_, (chain_cons.mp hrest).2.2⟩
    · simpa [Heap.setPtr, Heap.setSize] using hx
    · simp only [Heap.setPtr, Heap.setSize, Function.update_self]
      omega
  · next htouch =>
    rw [if_neg htouch] at hrest
    exact chain_cons.mpr ⟨by simp [Heap.setPtr], hp, hrest⟩

theorem link_of_ne {a bp q : Nat} (hbp : a ≠ bp) (hq : a ≠ q) :
    (link h bp q).ptr a = h.ptr a ∧ (link h bp q).size a = h.size a :=
  ⟨(joinLower_of_ne hq).1.trans (joinUpper_of_ne hbp).1, (joinLower_of_ne hq).2.trans (joinUpper_of_ne hbp).2⟩

/-- A block is linked behind another one, and joined with its neighbours. -/
theorem Chain.link (hc : Chain h (l₁ ++ p :: l₂) z) (hx : 16 * h.size x.1 = x.2) (hz : stop x ≠ z)
    (hpx : p.1 ≠ x.1) (hne₁ : ∀ y ∈ l₁, y.1 ≠ x.1 ∧ y.1 ≠ p.1) (hne₂ : ∀ y ∈ l₂, y.1 ≠ x.1 ∧ y.1 ≠ p.1)
    (hbound : p.2 + (x.2 + total l₂) < 2 ^ 36) :
    Chain (link h x.1 p.1) (l₁ ++ join p (join x l₂)) z := by
  rw [chain_append, chain_cons] at hc
  obtain ⟨hc₁, hptr, hpsize, hc₂⟩ := hc
  obtain ⟨m, t, hjoin, ht, hupper⟩ := joinUpper_chain hptr hc₂ hx hz (fun y hy => (hne₂ y hy).1) (by omega)
  have hm : m + total t = x.2 + total l₂ := by
    rw [← total_join, hjoin, total_cons]
  have hpsize' : 16 * (joinUpper h x.1 p.1).size p.1 = p.2 := by
    rw [(joinUpper_of_ne hpx).2, hpsize]
  have hne : ∀ y ∈ (x.1, m) :: t, y.1 ≠ p.1 :=
    List.forall_mem_cons.mpr ⟨hpx.symm, fun y hy => (hne₂ y (ht y hy)).2⟩
  have hlower := joinLower_chain hupper hpsize' hne (by simp only; omega)
  rw [hjoin]
  refine chain_append.mpr ⟨?_, hlower.congr fun y _ => ⟨rfl, rfl⟩⟩
  rw [headD_join]
  exact hc₁.congr fun y hy => link_of_ne (hne₁ y hy).1 (hne₁ y hy).2

end

/-- The free blocks in the order of their addresses. The list starts with `base`, which has no
length. -/
structure Rep (base : Nat) (h : Heap) (fl : List Extent) : Prop where
  chain : Chain h ((base, 0) :: fl) base
  sorted : ((base, 0) :: fl).Pairwise Gap
  freep : h.freep ∈ ((base, 0) :: fl).map Prod.fst

/-! ## The loop of `free` -/

/-- The test of the loop. -/
def Stops (h : Heap) (bp p : Nat) : Prop :=
  bp > p ∧ bp < h.ptr p ∨ p ≥ h.ptr p ∧ (bp > p ∨ bp < h.ptr p)

section
variable {h h' : Heap} {fl l₁ l₂ : List Extent} {x p : Extent} {base bp a fuel k : Nat}

theorem findPlace_walk {S : List Nat} {q : Nat} (hclosed : ∀ b ∈ S, h.ptr b ∈ S)
    (hstop : ∀ b ∈ S, Stops h bp b ↔ b = q) (ha : a ∈ S) (hwalk : h.ptr^[k] a = q) (hfuel : k < fuel) :
    findPlace h bp fuel a = some q := by
  induction k generalizing a fuel with
  | zero =>
    obtain ⟨fuel, rfl⟩ := Nat.exists_eq_add_one_of_ne_zero (Nat.ne_of_gt hfuel)
    obtain rfl : a = q := hwalk
    have hs := (hstop a ha).mpr rfl
    rw [findPlace]
    split
    · rfl
    · next hfirst => rw [if_pos (hs.resolve_left hfirst)]
  | succ k ih =>
    obtain ⟨fuel, rfl⟩ := Nat.exists_eq_add_one_of_ne_zero (Nat.ne_of_gt (Nat.zero_lt_of_lt hfuel))
    rw [findPlace]
    split
    · next hfirst => rw [(hstop a ha).mp (.inl hfirst)]
    split
    · next hsecond => rw [(hstop a ha).mp (.inr hsecond)]
    · exact ih (hclosed a ha) hwalk (Nat.lt_of_succ_lt_succ hfuel)

theorem Rep.base_le (hr : Rep base h fl) (hx : x ∈ (base, 0) :: fl) : base ≤ x.1 := by
  rcases List.mem_cons.mp hx with rfl | hx
  · exact Nat.le_refl _
  · exact Nat.le_of_lt ((List.pairwise_cons.mp hr.sorted).1 x hx)

theorem Rep.ptr_eq (hr : Rep base h fl) (hsplit : (base, 0) :: fl = l₁ ++ x :: l₂) :
    h.ptr x.1 = (l₂.map Prod.fst).headD base := by
  have hc := hr.chain
  rw [hsplit, chain_append, chain_cons] at hc
  exact hc.2.1

/-- The loop stops only at the last block that starts in front of `bp`. -/
theorem Rep.stops_iff (hr : Rep base h fl) (hsplit : (base, 0) :: fl = l₁ ++ p :: l₂) (hp : p.1 < bp)
    (hl₂ : ∀ y ∈ l₂, bp < y.1) (ha : a ∈ ((base, 0) :: fl).map Prod.fst) : Stops h bp a ↔ a = p.1 := by
  have hbase : base ≤ p.1 := hr.base_le (hsplit ▸ List.mem_append_right l₁ List.mem_cons_self)
  constructor
  · intro hs
    obtain ⟨y, hy, rfl⟩ := List.mem_map.mp ha
    obtain ⟨m₁, m₂, hm⟩ := List.append_of_mem hy
    have hptr := hr.ptr_eq hm
    have hsorted := hr.sorted
    rw [hm, List.pairwise_append, List.pairwise_cons] at hsorted
    obtain ⟨-, ⟨hy₂, hm₂⟩, hbefore⟩ := hsorted
    have hmem : p ∈ m₁ ++ y :: m₂ := hm ▸ hsplit ▸ List.mem_append_right l₁ List.mem_cons_self
    rw [Stops, hptr] at hs
    rcases List.mem_append.mp hmem with hmem | hmem
    · -- behind it: `bp` is not greater, and the list goes on or returns to `base`
      have hgap : stop p < y.1 := hbefore p hmem y List.mem_cons_self
      have hbp : bp < y.1 := by
        have hy' := hsplit ▸ hy
        have hsorted := hr.sorted
        rw [hsplit, List.pairwise_append] at hsorted
        rcases List.mem_append.mp hy' with hy' | hy'
        · have hgap' : stop y < p.1 := hsorted.2.2 y hy' p List.mem_cons_self
          simp only [stop] at hgap hgap'
          omega
        · rcases List.mem_cons.mp hy' with rfl | hy'
          · rw [stop] at hgap
            omega
          · exact hl₂ y hy'
      cases m₂ with
      | nil =>
        simp only [List.map_nil, List.headD_nil] at hs
        omega
      | cons w m₂ =>
        have hgap' : stop y < w.1 := hy₂ w List.mem_cons_self
        simp only [List.map_cons, List.headD_cons, stop] at hs hgap'
        omega
    · rcases List.mem_cons.mp hmem with rfl | hmem
      · rfl
      · cases m₂ with
        | nil => exact absurd hmem List.not_mem_nil
        | cons w m₂ =>
          have hgap : stop y < w.1 := hy₂ w List.mem_cons_self
          have hw : w.1 ≤ p.1 := by
            rcases List.mem_cons.mp hmem with rfl | hmem
            · exact Nat.le_refl _
            · have hgap' : stop w < p.1 := (List.pairwise_cons.mp hm₂).1 p hmem
              rw [stop] at hgap'
              omega
          simp only [List.map_cons, List.headD_cons, stop] at hs hgap
          omega
  · rintro rfl
    rw [Stops, hr.ptr_eq hsplit]
    cases l₂ with
    | nil => exact .inr ⟨hbase, .inl hp⟩
    | cons w l₂ => exact .inl ⟨hp, hl₂ w List.mem_cons_self⟩

/-- The loop of `free` finds the last block that starts in front of `bp`. -/
theorem Rep.findPlace (hr : Rep base h fl) (hsplit : (base, 0) :: fl = l₁ ++ p :: l₂) (hp : p.1 < bp)
    (hl₂ : ∀ y ∈ l₂, bp < y.1) (hfuel : fl.length < fuel) :
    Umalloc.findPlace h bp fuel h.freep = some p.1 := by
  have hmem : p.1 ∈ ((base, 0) :: fl).map Prod.fst :=
    List.mem_map_of_mem (hsplit ▸ List.mem_append_right l₁ List.mem_cons_self)
  obtain ⟨k, hk, hwalk⟩ := hr.chain.linked.reach hr.freep hmem
  rw [List.length_map] at hk
  exact findPlace_walk (fun b hb => hr.chain.linked.next_mem hb) (fun b hb => hr.stops_iff hsplit hp hl₂ hb)
    hr.freep hwalk (Nat.lt_of_le_of_lt hk hfuel)

/-- `base` stays the first of the list. -/
theorem Rep.place_base (hr : Rep base h fl) (hbase : base < x.1) :
    place x ((base, 0) :: fl) = (base, 0) :: place x fl := by
  rw [place, if_pos hbase, join_of_ne]
  intro y hy
  have hstop : stop (base, 0) = base := rfl
  rcases start_of_mem_place hy with heq | ⟨z, hz, heq⟩
  · omega
  · have hgap : stop (base, 0) < z.1 := (List.pairwise_cons.mp hr.sorted).1 z hz
    omega

/-- `free` puts a block in its place. -/
theorem Rep.free (hr : Rep base h fl) (hx : 16 * h.size x.1 = x.2) (hbase : base < x.1)
    (hapart : ∀ y ∈ fl, Apart y x) (hpos : ∀ y ∈ fl, 0 < y.2) (hxpos : 0 < x.2)
    (hbound : x.2 + total fl < 2 ^ 36) :
    ∃ h', (∀ fuel > fl.length, Umalloc.free fuel (x.1 + 16) h = .ok h') ∧ Rep base h' (place x fl) ∧
      ∀ a, a ∉ ((base, 0) :: fl).map Prod.fst → a ≠ x.1 → h'.size a = h.size a := by
  have hne : ∀ y ∈ fl, y.1 ≠ x.1 := by
    intro y hy heq
    have hapart := hapart y hy
    have hpos := hpos y hy
    simp only [Apart, stop] at hapart
    omega
  obtain ⟨l₁, p, l₂, hsplit, hp, hl₂⟩ := exists_split hr.sorted hbase hne
  have hsorted := hr.sorted
  rw [hsplit, List.pairwise_append, List.pairwise_cons] at hsorted
  obtain ⟨-, ⟨hafter, -⟩, hbefore⟩ := hsorted
  have hne₁ : ∀ y ∈ l₁, y.1 ≠ x.1 ∧ y.1 ≠ p.1 := by
    intro y hy
    have hgap : stop y < p.1 := hbefore y hy p List.mem_cons_self
    rw [stop] at hgap
    omega
  have hne₂ : ∀ y ∈ l₂, y.1 ≠ x.1 ∧ y.1 ≠ p.1 := by
    intro y hy
    have hlt := hl₂ y hy
    omega
  have htotal := congrArg total hsplit
  rw [total_cons, total_append, total_cons] at htotal
  have hstop : stop x ≠ base := by
    rw [stop]
    omega
  have hchain := Chain.link (hsplit ▸ hr.chain) hx hstop (Nat.ne_of_lt hp) hne₁ hne₂ (by simp only at htotal; omega)
  have hlist : (base, 0) :: place x fl = l₁ ++ join p (join x l₂) := by
    rw [← hr.place_base hbase, hsplit, place_split (hsplit ▸ hr.sorted) hp hl₂]
  refine ⟨link h x.1 p.1, fun fuel hfuel => ?_, ⟨hlist ▸ hchain, List.pairwise_cons.mpr ⟨fun z hz => ?_, ?_⟩, ?_⟩, ?_⟩
  · rw [Umalloc.free, Nat.add_sub_cancel, hr.findPlace hsplit hp hl₂ hfuel]
  · rcases start_of_mem_place hz with heq | ⟨y, hy, heq⟩
    · exact Nat.lt_of_lt_of_eq hbase heq.symm
    · exact Nat.lt_of_lt_of_eq ((List.pairwise_cons.mp hr.sorted).1 y hy) heq.symm
  · exact place_sorted (List.pairwise_cons.mp hr.sorted).2 hapart hpos
  · rw [hlist, List.map_append]
    exact List.mem_append_right _ start_mem_join
  · intro a ha hax
    refine (link_of_ne hax fun hap => ha ?_).2
    rw [hap, hsplit]
    exact List.mem_map_of_mem (List.mem_append_right l₁ List.mem_cons_self)

end

end Xv6.Umalloc
