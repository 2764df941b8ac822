-- SUMMARY: Programs that call malloc and free: the heap in every state, and the requests that malloc cannot serve.
import Xv6.User.Malloc
import Xv6.Base.Transition
import Mathlib.Logic.Relation

/-!
# Programs that use the heap

A program calls `malloc` and `free` in any order, writes into the blocks it has, and may grow on
its own in between. The kernel's answers are arbitrary, but it has less than 2^36 bytes to give.
-/

namespace Xv6.Umalloc

open Blocks Cycle

/-- A process and the pointers that it has got from `malloc` and not yet given back. -/
structure World where
  proc : Proc
  live : List Nat

/-- The block of a pointer, from its header on. -/
def blockOf (h : Heap) (ap : Nat) : Extent := (ap - 16, 16 * h.size (ap - 16))

/-- The header at `a` is outside of what the program may write. -/
def Kept (w : World) (a : Nat) : Prop :=
  ∀ ap ∈ w.live, a + 16 ≤ ap ∨ stop (blockOf w.proc.heap ap) ≤ a

/-- What can happen: calls of `malloc` and `free`, writes of the program into its blocks, and changes of
the process and of the memory that is left which the allocator has no part in. -/
inductive Step (base : Nat) : World → World → Prop
  | malloc {w : World} {nbytes : UInt32} {r : Nat} {s : Proc} (hn : nbytes.toNat < 2 ^ 31 - 64)
      (hcall : Ends (fun fuel => malloc base fuel nbytes w.proc) (r, s)) :
      Step base w ⟨s, if r = 0 then w.live else r :: w.live⟩
  | free {w : World} {ap : Nat} {h : Heap} (hap : ap ∈ w.live)
      (hcall : Ends (fun fuel => free fuel ap w.proc.heap) h) :
      Step base w ⟨{ w.proc with heap := h }, w.live.erase ap⟩
  | write {w : World} {h : Heap} (hfreep : h.freep = w.proc.heap.freep)
      (hkept : ∀ a, Kept w a → h.ptr a = w.proc.heap.ptr a ∧ h.size a = w.proc.heap.size a) :
      Step base w ⟨{ w.proc with heap := h }, w.live⟩
  | other {w : World} {sz left : Nat} {grants : List Bool} (hsz : w.proc.sz ≤ sz)
      (hleft : (w.proc.grown.map Prod.fst).sum + left < 2 ^ 36) :
      Step base w ⟨{ w.proc with sz := sz, left := left, grants := grants }, w.live⟩

/-- A program that has not called `malloc` yet. -/
structure Initial (base : Nat) (w : World) : Prop where
  freep : w.proc.heap.freep = 0
  live : w.live = []
  grown : w.proc.grown = []
  left : w.proc.left < 2 ^ 36
  base_pos : 0 < base
  base_le : base + 16 ≤ w.proc.sz

/-- Either nothing has been allocated yet, or the heap is good. -/
def Inv (base : Nat) (w : World) : Prop :=
  Initial base w ∨ (∀ ap ∈ w.live, 16 ≤ ap) ∧ ∃ fl, Good base w.proc fl (w.live.map (blockOf w.proc.heap))

section
variable {base : Nat} {w w' : World} {s : Proc} {fl out out' : List Extent} {h h' : Heap} {ap : Nat}

theorem Layout.perm {sz : Nat} (hl : Layout base sz fl out) (hp : out.Perm out') : Layout base sz fl out' := by
  have hmem : ∀ x, x ∈ fl ++ out' → x ∈ fl ++ out := fun x hx => (hp.append_left fl).mem_iff.mpr hx
  refine ⟨hl.sorted, fun x hx y hy => hl.apart x hx y (hp.mem_iff.mpr hy), ?_, fun x hx => hl.pos x (hmem x hx),
    fun x hx => hl.inside x (hmem x hx)⟩
  exact (hp.pairwise_iff fun h => h.symm).mp hl.disjoint

theorem Good.perm (hg : Good base s fl out) (hp : out.Perm out') : Good base s fl out' := by
  have htotal : total out' = total out := ((hp.map Prod.snd).sum_eq).symm
  exact ⟨hg.rep, fun x hx => hg.size x (hp.mem_iff.mpr hx), hg.layout.perm hp, htotal ▸ hg.obtained, hg.recorded,
    htotal ▸ hg.bound, hg.base_pos, hg.base_le⟩

/-- The first call of `malloc` makes a good heap. -/
theorem Initial.start (hi : Initial base w) :
    Good base { w.proc with heap := start base w.proc.heap } [] [] := by
  have hne : ∀ x : Extent, x ∉ ([] : List Extent) ++ [] := fun x hx => absurd hx List.not_mem_nil
  rw [Umalloc.start, if_pos hi.freep]
  refine ⟨⟨chain_cons.mpr ⟨?_, ?_, trivial, fun x hx => absurd hx (hne x)⟩, List.pairwise_singleton _ _, ?_⟩,
    fun x hx => absurd hx (hne x), ⟨.nil, fun x hx => absurd hx (hne x), .nil, fun x hx => absurd hx (hne x),
    fun x hx => absurd hx (hne x)⟩, ?_, ?_, ?_, hi.base_pos, hi.base_le⟩
  · simp [Heap.setPtr, Heap.setSize]
  · simp [Heap.setPtr, Heap.setSize]
  · exact List.mem_cons_self
  · rw [hi.grown]
    rfl
  · rw [hi.grown]
    exact fun g hg => absurd hg List.not_mem_nil
  · have hleft := hi.left
    simp only [total_nil]
    omega

theorem Good.start_eq (hg : Good base s fl out) : start base s.heap = s.heap := if_neg hg.freep_ne

theorem Inv.start (hi : Inv base w) :
    ∃ fl, Good base { w.proc with heap := start base w.proc.heap } fl (w.live.map (blockOf w.proc.heap)) := by
  rcases hi with hi | ⟨-, fl, hg⟩
  · refine ⟨[], ?_⟩
    rw [hi.live]
    exact hi.start
  · refine ⟨fl, ?_⟩
    rw [hg.start_eq]
    exact hg

/-! ## The steps -/

/-- The blocks of the pointers, when the headers have kept their sizes. -/
theorem map_blockOf {live : List Nat}
    (hsize : ∀ x ∈ live.map (blockOf h), 16 * h'.size x.1 = x.2) : live.map (blockOf h') = live.map (blockOf h) := by
  refine List.map_congr_left fun ap hap => ?_
  have heq := hsize _ (List.mem_map_of_mem hap)
  exact Prod.ext rfl heq

theorem units_small {nbytes : UInt32} (hn : nbytes.toNat < 2 ^ 31 - 64) : 16 * units nbytes < 2 ^ 31 := by
  rw [units, Nat.mod_eq_of_lt (by omega)]
  omega

/-- A call of `malloc` returns, and the heap is good after it. -/
theorem Inv.malloc (hi : Inv base w) {nbytes : UInt32} (hn : nbytes.toNat < 2 ^ 31 - 64) :
    ∃ r s, Ends (fun fuel => Umalloc.malloc base fuel nbytes w.proc) (r, s) ∧
      (r ≠ 0 → nbytes.toNat + 16 ≤ 16 * s.heap.size (r - 16)) ∧
      Inv base ⟨s, if r = 0 then w.live else r :: w.live⟩ := by
  obtain ⟨fl, hg⟩ := hi.start
  obtain ⟨r, s, hend, hhands⟩ := hg.malloc (.inr (units_small hn))
  have hlive : ∀ ap ∈ w.live, 16 ≤ ap := by
    rcases hi with hi | ⟨hlive, -⟩
    · rw [hi.live]
      exact fun ap hap => absurd hap List.not_mem_nil
    · exact hlive
  refine ⟨r, s, hend, ?_⟩
  rcases hhands.result with ⟨rfl, -, fl', hgood⟩ | ⟨a, fl', rfl, hgood⟩
  · refine ⟨fun h => absurd rfl h, .inr ?_⟩
    rw [if_pos rfl]
    refine ⟨hlive, fl', ?_⟩
    simp only [map_blockOf hgood.size]
    exact hgood
  · have hsize := List.forall_mem_cons.mp hgood.size
    refine ⟨fun _ => ?_, .inr ?_⟩
    · rw [Nat.add_sub_cancel, hsize.1]
      exact le_units nbytes
    · rw [if_neg (Nat.succ_ne_zero _)]
      refine ⟨List.forall_mem_cons.mpr ⟨Nat.le_add_left _ _, hlive⟩, fl', ?_⟩
      have hblock : blockOf s.heap (a + 16) = (a, 16 * units nbytes) := by
        rw [blockOf, Nat.add_sub_cancel, hsize.1]
      simp only [List.map_cons, hblock, map_blockOf hsize.2]
      exact hgood

/-- A call of `free` returns, and the heap is good after it. -/
theorem Inv.free (hi : Inv base w) (hap : ap ∈ w.live) :
    ∃ h, Ends (fun fuel => Umalloc.free fuel ap w.proc.heap) h ∧
      Inv base ⟨{ w.proc with heap := h }, w.live.erase ap⟩ := by
  rcases hi with hi | ⟨hlive, fl, hg⟩
  · rw [hi.live] at hap
    exact absurd hap List.not_mem_nil
  · have hperm := (List.perm_cons_erase hap).map (blockOf w.proc.heap)
    rw [List.map_cons] at hperm
    obtain ⟨h, hfree, hgood⟩ := (hg.perm hperm).free
    have hap' : ap - 16 + 16 = ap := Nat.sub_add_cancel (hlive ap hap)
    refine ⟨h, ⟨fl.length + 1, fun fuel hfuel => ?_⟩, .inr ⟨fun b hb => hlive b (List.mem_of_mem_erase hb),
      place (blockOf w.proc.heap ap) fl, ?_⟩⟩
    · have hcall := hfree fuel hfuel
      simp only [blockOf, hap'] at hcall
      exact hcall
    · simp only [map_blockOf hgood.size]
      exact hgood

/-- The headers of the blocks are outside of what the program may write. -/
theorem Good.kept_fl (hg : Good base w.proc fl (w.live.map (blockOf w.proc.heap))) {x : Extent}
    (hx : x ∈ (base, 0) :: fl) : Kept w x.1 := by
  intro ap hap
  have hmem : blockOf w.proc.heap ap ∈ w.live.map (blockOf w.proc.heap) := List.mem_map_of_mem hap
  rcases List.mem_cons.mp hx with rfl | hx
  · have hin := (hg.layout.inside _ (List.mem_append_right fl hmem)).1
    rw [blockOf] at hin
    simp only at hin ⊢
    omega
  · have hsize := hg.rep.chain.size x (List.mem_cons_of_mem _ hx)
    have hpos := hg.layout.flPos x hx
    rcases hg.layout.apart x hx _ hmem with h | h
    · simp only [stop, blockOf] at h
      omega
    · exact .inr h

theorem Good.kept_live (hg : Good base w.proc fl (w.live.map (blockOf w.proc.heap))) (hap : ap ∈ w.live)
    (h16 : ∀ b ∈ w.live, 16 ≤ b) : Kept w (ap - 16) := by
  intro b hb
  by_cases heq : b = ap
  · have hb16 := h16 b hb
    omega
  · have hmem : blockOf w.proc.heap ap ∈ w.live.map (blockOf w.proc.heap) := List.mem_map_of_mem hap
    have hpos := hg.layout.outPos _ hmem
    have hapart : Apart (blockOf w.proc.heap ap) (blockOf w.proc.heap b) := by
      have hperm := List.perm_cons_erase hap
      have hpair := ((hperm.map (blockOf w.proc.heap)).pairwise_iff fun h => h.symm).mp hg.layout.disjoint
      rw [List.map_cons, List.pairwise_cons] at hpair
      have hb' : b ∈ w.live.erase ap := (List.mem_erase_of_ne heq).mpr hb
      exact hpair.1 _ (List.mem_map_of_mem hb')
    rcases hapart with h | h
    · simp only [stop, blockOf] at h hpos
      omega
    · exact .inr h

theorem Inv.write (hi : Inv base w) (hfreep : h.freep = w.proc.heap.freep)
    (hkept : ∀ a, Kept w a → h.ptr a = w.proc.heap.ptr a ∧ h.size a = w.proc.heap.size a) :
    Inv base ⟨{ w.proc with heap := h }, w.live⟩ := by
  rcases hi with hi | ⟨hlive, fl, hg⟩
  · exact .inl ⟨hfreep.trans hi.freep, hi.live, hi.grown, hi.left, hi.base_pos, hi.base_le⟩
  · have hsize : ∀ x ∈ w.live.map (blockOf w.proc.heap), 16 * h.size x.1 = x.2 := by
      intro x hx
      obtain ⟨ap, hap, rfl⟩ := List.mem_map.mp hx
      have heq := (hkept _ (hg.kept_live hap hlive)).2
      simp only [blockOf, heq]
    refine .inr ⟨hlive, fl, ?_⟩
    simp only [map_blockOf hsize]
    have hchain : Chain h ((base, 0) :: fl) base := hg.rep.chain.congr fun x hx => hkept x.1 (hg.kept_fl hx)
    exact ⟨⟨hchain, hg.rep.sorted, hfreep ▸ hg.rep.freep⟩, hsize, hg.layout, hg.obtained, hg.recorded, hg.bound,
      hg.base_pos, hg.base_le⟩

theorem Inv.other (hi : Inv base w) {sz left : Nat} {grants : List Bool} (hsz : w.proc.sz ≤ sz)
    (hleft : (w.proc.grown.map Prod.fst).sum + left < 2 ^ 36) :
    Inv base ⟨{ w.proc with sz := sz, left := left, grants := grants }, w.live⟩ := by
  rcases hi with hi | ⟨hlive, fl, hg⟩
  · rw [hi.grown] at hleft
    simp only [List.map_nil, List.sum_nil] at hleft
    exact .inl ⟨hi.freep, hi.live, hi.grown, by simp only; omega, hi.base_pos, Nat.le_trans hi.base_le hsz⟩
  · rw [hg.obtained] at hleft
    refine .inr ⟨hlive, fl, hg.rep, hg.size, ?_, hg.obtained, hg.recorded, by simp only; omega, hg.base_pos,
      Nat.le_trans hg.base_le hsz⟩
    exact ⟨hg.layout.sorted, hg.layout.apart, hg.layout.disjoint, hg.layout.pos,
      fun x hx => ⟨(hg.layout.inside x hx).1, Nat.le_trans (hg.layout.inside x hx).2 hsz⟩⟩

theorem Inv.step (hi : Inv base w) (hstep : Step base w w') : Inv base w' := by
  cases hstep with
  | malloc hn hcall =>
    obtain ⟨r, s, hend, -, hinv⟩ := hi.malloc hn
    obtain ⟨rfl, rfl⟩ := Prod.mk.inj (hcall.unique hend)
    exact hinv
  | free hap hcall =>
    obtain ⟨h, hend, hinv⟩ := hi.free hap
    obtain rfl := hcall.unique hend
    exact hinv
  | write hfreep hkept => exact hi.write hfreep hkept
  | other hsz hleft => exact hi.other hsz hleft

theorem Inv.run (hi : Inv base w) (hrun : Relation.ReflTransGen (Step base) w w') : Inv base w' := by
  induction hrun with
  | refl => exact hi
  | tail _ hstep ih => exact ih.step hstep

/-- In every state of a program, the heap is good, `malloc` returns 0 or a block that is large enough,
and `free` returns. -/
theorem heap_run {w₀ : World} (hi : Initial base w₀) (hrun : Relation.ReflTransGen (Step base) w₀ w) :
    (w.proc.heap.freep = 0 ∧ w.live = [] ∨ ∃ fl, Good base w.proc fl (w.live.map (blockOf w.proc.heap))) ∧
    (∀ nbytes : UInt32, nbytes.toNat < 2 ^ 31 - 64 →
      ∃ r s, Ends (fun fuel => malloc base fuel nbytes w.proc) (r, s) ∧
        (r ≠ 0 → nbytes.toNat + 16 ≤ 16 * s.heap.size (r - 16))) ∧
    ∀ ap ∈ w.live, ∃ h, Ends (fun fuel => free fuel ap w.proc.heap) h := by
  have hinv : Inv base w := Inv.run (.inl hi) hrun
  refine ⟨?_, fun nbytes hn => ?_, fun ap hap => ?_⟩
  · exact hinv.imp (fun hi => ⟨hi.freep, hi.live⟩) (fun hg => hg.2)
  · obtain ⟨r, s, hend, hsize, -⟩ := hinv.malloc hn
    exact ⟨r, s, hend, hsize⟩
  · obtain ⟨h, hend, -⟩ := hinv.free hap
    exact ⟨h, hend⟩

end

/-! ## Calls that can be executed -/

section
variable {base fuel fuel' n ap bp p prevp q : Nat} {s : Proc} {h h' : Heap} {r : Nat × Proc} {w w' : World}

theorem findPlace_mono (hle : fuel ≤ fuel') (hfind : findPlace h bp fuel p = some q) :
    findPlace h bp fuel' p = some q := by
  induction fuel generalizing fuel' p with
  | zero => cases hfind
  | succ fuel ih =>
    cases fuel' with
    | zero => exact absurd hle (Nat.not_succ_le_zero fuel)
    | succ fuel' =>
      rw [findPlace] at hfind ⊢
      by_cases hin : bp > p ∧ bp < h.ptr p
      · rwa [if_pos hin] at hfind ⊢
      · rw [if_neg hin] at hfind ⊢
        by_cases hend : p ≥ h.ptr p ∧ (bp > p ∨ bp < h.ptr p)
        · rwa [if_pos hend] at hfind ⊢
        · rw [if_neg hend] at hfind ⊢
          exact ih (Nat.le_of_succ_le_succ hle) hfind

theorem free_mono (hle : fuel ≤ fuel') (hfree : free fuel ap h = .ok h') : free fuel' ap h = .ok h' := by
  rw [free] at hfree ⊢
  cases hfind : findPlace h (ap - 16) fuel h.freep with
  | none =>
    rw [hfind] at hfree
    cases hfree
  | some q =>
    rw [hfind] at hfree
    rw [findPlace_mono hle hfind]
    exact hfree

theorem install_mono {x : Option Nat × Proc} (hle : fuel ≤ fuel') (hmore : install fuel n s x = .ok r) :
    install fuel' n s x = .ok r := by
  obtain ⟨p, s₁⟩ := x
  cases p with
  | none => exact hmore
  | some p =>
    rw [install] at hmore ⊢
    split at hmore
    · next hmapped =>
      rw [if_pos hmapped]
      cases hfree : free fuel (p + 16) (s₁.heap.setSize p n) with
      | error e =>
        rw [hfree] at hmore
        cases hmore
      | ok h' =>
        rw [hfree] at hmore
        rw [free_mono hle hfree]
        exact hmore
    · cases hmore

/-- More turns do not change what is returned. -/
theorem mallocLoop_mono (hle : fuel ≤ fuel') (hloop : mallocLoop n fuel prevp p s = .ok r) :
    mallocLoop n fuel' prevp p s = .ok r := by
  induction fuel generalizing fuel' prevp p s with
  | zero => cases hloop
  | succ fuel ih =>
    cases fuel' with
    | zero => exact absurd hle (Nat.not_succ_le_zero fuel)
    | succ fuel' =>
      have hle := Nat.le_of_succ_le_succ hle
      rw [mallocLoop] at hloop ⊢
      by_cases hsize : s.heap.size p ≥ n
      · rwa [if_pos hsize] at hloop ⊢
      · rw [if_neg hsize] at hloop ⊢
        by_cases hround : p = s.heap.freep
        · rw [if_pos hround] at hloop ⊢
          cases hmore : morecore fuel n s with
          | error e =>
            rw [hmore] at hloop
            cases hloop
          | ok q =>
            rw [hmore] at hloop
            rw [morecore, install_mono hle hmore]
            change (if q.1 = 0 then _ else _) = _ at hloop
            change (if q.1 = 0 then _ else _) = _
            by_cases hnull : q.1 = 0
            · rwa [if_pos hnull] at hloop ⊢
            · rw [if_neg hnull] at hloop ⊢
              exact ih hle hloop
        · rw [if_neg hround] at hloop ⊢
          exact ih hle hloop

inductive Cmd
  | malloc (nbytes : UInt32)
  | free (ap : Nat)

def command (base fuel : Nat) (w : World) : Cmd → Option World
  | .malloc nbytes =>
    match malloc base fuel nbytes w.proc with
    | .ok (r, s) => if nbytes.toNat < 2 ^ 31 - 64 then some ⟨s, if r = 0 then w.live else r :: w.live⟩ else none
    | .error _ => none
  | .free ap =>
    match free fuel ap w.proc.heap with
    | .ok h => if ap ∈ w.live then some ⟨{ w.proc with heap := h }, w.live.erase ap⟩ else none
    | .error _ => none

theorem step_of_command {c : Cmd} (hc : command base fuel w c = some w') : Step base w w' := by
  cases c with
  | malloc nbytes =>
    rw [command] at hc
    split at hc
    · next r s hcall =>
      obtain ⟨hn, heq⟩ := Option.ite_none_right_eq_some.mp hc
      cases heq
      exact .malloc hn ⟨fuel, fun _ hle => mallocLoop_mono hle hcall⟩
    · cases hc
  | free ap =>
    rw [command] at hc
    split at hc
    · next h hcall =>
      obtain ⟨hap, heq⟩ := Option.ite_none_right_eq_some.mp hc
      cases heq
      exact .free hap ⟨fuel, fun _ hle => free_mono hle hcall⟩
    · cases hc

theorem run_commands {cs : List Cmd} (hexec : Sys.exec (command base fuel) w cs = some w') :
    Relation.ReflTransGen (Step base) w w' := by
  have hrun := Sys.exec_run hexec
  clear hexec
  induction hrun with
  | nil => exact .refl
  | snoc _ hstep ih => exact ih.tail (step_of_command hstep)

end

/-- A process of four pages, with `base` at 4096. -/
def smallProc : Proc := ⟨⟨fun _ => 0, fun _ => 0, 0⟩, 16384, 134217728, [true], []⟩

theorem initial_smallProc : Initial 4096 ⟨smallProc, []⟩ :=
  ⟨rfl, rfl, rfl, by decide, by decide, by decide⟩

/-- Two blocks are taken, and given back so that the second one joins what is on both sides. -/
def takeTwo : List Cmd := [.malloc 100, .malloc 200, .free 81808, .free 81584]

theorem heap_run_takeTwo : ∃ w, Relation.ReflTransGen (Step 4096) ⟨smallProc, []⟩ w ∧
    w.live = [] ∧ w.proc.heap.size 16384 = 4096 ∧ w.proc.heap.ptr 16384 = 4096 ∧
    (w.proc.heap.freep = 0 ∧ w.live = [] ∨ ∃ fl, Good 4096 w.proc fl (w.live.map (blockOf w.proc.heap))) := by
  have hcheck : (Sys.exec (command 4096 10) ⟨smallProc, []⟩ takeTwo).any (fun w =>
      decide (w.live = [] ∧ w.proc.heap.size 16384 = 4096 ∧ w.proc.heap.ptr 16384 = 4096)) = true := by
    decide +kernel
  obtain ⟨w, hexec, hw⟩ := Sys.exists_of_any hcheck
  obtain ⟨hlive, hsize, hptr⟩ := of_decide_eq_true hw
  have hrun := run_commands hexec
  exact ⟨w, hrun, hlive, hsize, hptr, (heap_run initial_smallProc hrun).1⟩

/-! ## Requests that are too large for `sbrk` -/

/-- `malloc` returns, what it has got from `sbrk` is what it has written into the header, and it hands out
nothing or a block in the memory of the process that has room for the bytes. -/
def Sound (base : Nat) (nbytes : UInt32) (s : Proc) : Prop :=
  ∃ r s', Ends (fun fuel => malloc base fuel nbytes s) (r, s') ∧
    (∃ new, s'.grown = new ++ s.grown ∧ ∀ g ∈ new, g.1 = 16 * g.2) ∧
    (r ≠ 0 → nbytes.toNat + 16 ≤ 16 * s'.heap.size (r - 16) ∧ stop (blockOf s'.heap r) ≤ s'.sz)

/-- No free block is large enough, the number of bytes is not one for the `int` of `sbrk`, and the kernel
does not refuse the number that it gets. -/
def Overruns (fl : List Extent) (nbytes : UInt32) (s : Proc) : Prop :=
  (∀ x ∈ fl, x.2 < 16 * units nbytes) ∧ 2 ^ 31 ≤ 16 * units nbytes ∧
    (sbrk (toInt32 (16 * units nbytes)) s).1 ≠ none

section
variable {base n fuel prevp p : Nat} {s s' : Proc} {fl out : List Extent} {nbytes : UInt32} {r : Nat}

theorem install_grown {q : Option Nat × Proc} (h : install fuel n s q = .ok (r, s')) :
    q.1 = none ∧ s' = q.2 ∨ q.1 ≠ none ∧ s'.grown = ((q.2.sz : Int) - s.sz, n) :: s.grown := by
  obtain ⟨p, s₁⟩ := q
  cases p with
  | none =>
    rw [install] at h
    obtain ⟨-, rfl⟩ := Prod.mk.inj (Except.ok.inj h)
    exact .inl ⟨rfl, rfl⟩
  | some p =>
    rw [install] at h
    split at h
    · cases hfree : free fuel (p + 16) (s₁.heap.setSize p n) with
      | error e =>
        rw [hfree] at h
        cases h
      | ok h' =>
        rw [hfree] at h
        obtain ⟨-, rfl⟩ := Prod.mk.inj (Except.ok.inj h)
        exact .inr ⟨Option.some_ne_none p, rfl⟩
    · cases h

theorem sbrk_grown (n : Int) (s : Proc) : (sbrk n s).2.grown = s.grown := by
  rw [sbrk, growproc]
  split
  · split <;> rfl
  · split <;> rfl

theorem morecore_grown (h : morecore fuel n s = .ok (r, s')) : ∃ new, s'.grown = new ++ s.grown := by
  rw [morecore] at h
  rcases install_grown h with ⟨-, heq⟩ | ⟨-, hgrown⟩
  · rw [heq, sbrk_grown]
    exact ⟨[], rfl⟩
  · rw [hgrown]
    exact ⟨[_], rfl⟩

/-- The record of `sbrk` only grows. -/
theorem mallocLoop_grown (h : mallocLoop n fuel prevp p s = .ok (r, s')) : ∃ new, s'.grown = new ++ s.grown := by
  induction fuel generalizing prevp p s with
  | zero => cases h
  | succ fuel ih =>
    rw [mallocLoop] at h
    split at h
    · obtain ⟨-, rfl⟩ := Prod.mk.inj (Except.ok.inj h)
      exact ⟨[], rfl⟩
    split at h
    · cases hmore : morecore fuel n s with
      | error e =>
        rw [hmore] at h
        cases h
      | ok q =>
        rw [hmore] at h
        obtain ⟨new, hnew⟩ := morecore_grown hmore
        change (if q.1 = 0 then _ else _) = _ at h
        split at h
        · obtain ⟨-, rfl⟩ := Prod.mk.inj (Except.ok.inj h)
          exact ⟨new, hnew⟩
        · obtain ⟨new', hnew'⟩ := ih h
          exact ⟨new' ++ new, by rw [hnew', hnew, List.append_assoc]⟩
    · exact ih h

/-- The turn in which `malloc` asks for more, for any answer of `morecore`. -/
theorem bind_grown {more : Except Stop (Nat × Proc)}
    (h : (more.bind fun r => if r.1 = 0 then .ok (0, r.2) else mallocLoop n fuel r.1 (r.2.heap.ptr r.1) r.2) =
      .ok (r, s')) : ∃ q, more = .ok q ∧ ∃ later, s'.grown = later ++ q.2.grown := by
  cases more with
  | error e => cases h
  | ok q =>
    refine ⟨q, rfl, ?_⟩
    change (if q.1 = 0 then _ else _) = _ at h
    split at h
    · obtain ⟨-, rfl⟩ := Prod.mk.inj (Except.ok.inj h)
      exact ⟨[], rfl⟩
    · exact mallocLoop_grown h

/-- What `sbrk` gets for a number that does not fit its `int`. -/
theorem toInt32_le {m : Nat} (h : 2 ^ 31 ≤ m) (h' : m ≤ 2 ^ 32 + 16) : toInt32 m ≤ 16 := by
  have hbmod : toInt32 m = if (m : Int) % ((2 ^ 32 : Nat) : Int) < (((2 ^ 32 : Nat) : Int) + 1) / 2
      then (m : Int) % ((2 ^ 32 : Nat) : Int) else (m : Int) % ((2 ^ 32 : Nat) : Int) - ((2 ^ 32 : Nat) : Int) :=
    Int.bmod_def _ _
  rw [hbmod]
  split <;> omega

theorem units_le (nbytes : UInt32) : 16 * units nbytes ≤ 2 ^ 32 + 16 := by
  have hlt := nbytes.toNat_lt
  rw [units, Nat.mod_eq_of_lt (by omega)]
  omega

theorem sbrk_heap (n : Int) (s : Proc) (h : Heap) : (sbrk n { s with heap := h }).1 = (sbrk n s).1 := by
  rw [sbrk, sbrk, growproc, growproc]
  split
  · split <;> rfl
  · split <;> rfl

/-- So the process grows by less than the size in the header. -/
theorem sbrk_overrun (h : 2 ^ 31 ≤ 16 * units nbytes) :
    ((sbrk (toInt32 (16 * units nbytes)) s).2.sz : Int) - s.sz ≠ 16 * (units nbytes : Int) := by
  have hle := toInt32_le h (units_le nbytes)
  generalize toInt32 (16 * units nbytes) = n at hle
  have hgrow : ((sbrk n s).2.sz : Int) - s.sz ≤ 16 := by
    rw [sbrk, growproc]
    split
    · split
      · simp only
        omega
      · simp only
        omega
    · split
      · simp only [uvmdealloc]
        split <;> omega
      · simp only
        omega
  omega

theorem rounded_eq (h : 2 ^ 31 ≤ 16 * n) : rounded n = n := by
  rw [rounded, if_neg (by omega)]

theorem Good.mallocLoop_refused (hg : Good base s fl out) (hnone : ∀ x ∈ fl, x.2 < 16 * n) (hlarge : 2 ^ 31 ≤ 16 * n)
    (hrefused : (sbrk (toInt32 (16 * n)) s).1 = none) :
    Ends (fun fuel => mallocLoop n fuel s.heap.freep (s.heap.ptr s.heap.freep) s)
      (0, (sbrk (toInt32 (16 * n)) s).2) := by
  obtain ⟨k, hloop⟩ := hg.mallocLoop_none (by omega) hnone
  refine ⟨k + 1, fun fuel hfuel => ?_⟩
  obtain ⟨f, rfl⟩ := Nat.exists_eq_add_of_le' hfuel
  have harith : f + (k + 1) = f + 1 + k := by omega
  simp only [harith]
  rw [hloop, Umalloc.morecore, rounded_eq hlarge, Nat.mul_comm]
  generalize sbrk (toInt32 (16 * n)) s = q at hrefused
  obtain ⟨p, s₁⟩ := q
  subst hrefused
  rfl

/-- What `sbrk` has given is in the record, however the search ends. -/
theorem Good.mallocLoop_granted (hg : Good base s fl out) (hnone : ∀ x ∈ fl, x.2 < 16 * n) (hlarge : 2 ^ 31 ≤ 16 * n)
    (hgrant : (sbrk (toInt32 (16 * n)) s).1 ≠ none)
    (hend : Ends (fun fuel => mallocLoop n fuel s.heap.freep (s.heap.ptr s.heap.freep) s) (r, s')) :
    ∃ later, s'.grown = later ++ (((sbrk (toInt32 (16 * n)) s).2.sz : Int) - s.sz, n) :: s.grown := by
  obtain ⟨k, hloop⟩ := hg.mallocLoop_none (by omega) hnone
  obtain ⟨N, hend⟩ := hend
  have hcall := hend (N + 1 + k) (by omega)
  simp only at hcall
  rw [hloop, Umalloc.morecore, rounded_eq hlarge, Nat.mul_comm] at hcall
  obtain ⟨q, hinstall, later, hlater⟩ := bind_grown hcall
  obtain ⟨hrefused, -⟩ | ⟨-, hentry⟩ := install_grown hinstall
  · exact absurd hrefused hgrant
  · exact ⟨later, by rw [hlater, hentry]⟩

/-- A request that overruns is not served soundly. -/
theorem Good.not_sound (hg : Good base { s with heap := start base s.heap } fl out)
    (hover : Overruns fl nbytes s) : ¬ Sound base nbytes s := by
  obtain ⟨hnone, hlarge, hgrant⟩ := hover
  rintro ⟨r, s', hend, ⟨new, hnew, hgood⟩, -⟩
  have hless := sbrk_overrun (s := { s with heap := start base s.heap }) hlarge
  have hgrant' : (sbrk (toInt32 (16 * units nbytes)) { s with heap := start base s.heap }).1 ≠ none := by
    rw [sbrk_heap]
    exact hgrant
  obtain ⟨later, hlater⟩ := hg.mallocLoop_granted hnone hlarge hgrant' hend
  -- the record has an entry that is not as it should be
  generalize (sbrk (toInt32 (16 * units nbytes)) { s with heap := start base s.heap }).2 = s₁ at hlater hless
  generalize units nbytes = n at hlater hless
  rw [hnew, List.append_cons] at hlater
  have hnew' := List.append_cancel_right hlater
  subst hnew'
  exact hless (hgood _ (List.mem_append_right later List.mem_cons_self))

/-- A request that does not overrun is served soundly. -/
theorem Good.sound (hg : Good base { s with heap := start base s.heap } fl out)
    (hover : ¬ Overruns fl nbytes s) : Sound base nbytes s := by
  by_cases hsmall : (∃ x ∈ fl, 16 * units nbytes ≤ x.2) ∨ 16 * units nbytes < 2 ^ 31
  · obtain ⟨r, s', hend, hresult, hgrown⟩ := hg.malloc hsmall
    refine ⟨r, s', hend, hgrown, fun hr => ?_⟩
    rcases hresult with ⟨hzero, -⟩ | ⟨a, fl', rfl, hgood⟩
    · exact absurd hzero hr
    have hsize := hgood.size _ List.mem_cons_self
    have hinside := hgood.layout.inside _ (List.mem_append_right fl' List.mem_cons_self)
    have hroom := le_units nbytes
    generalize units nbytes = n at hsize hinside hroom
    refine ⟨?_, ?_⟩
    · rw [Nat.add_sub_cancel, hsize]
      exact hroom
    · rw [blockOf, Nat.add_sub_cancel, hsize]
      exact hinside.2
  · have hnone : ∀ x ∈ fl, x.2 < 16 * units nbytes := fun x hx =>
      Nat.not_le.mp fun hle => hsmall (.inl ⟨x, hx, hle⟩)
    have hlarge : 2 ^ 31 ≤ 16 * units nbytes := Nat.not_lt.mp fun hlt => hsmall (.inr hlt)
    have hrefused : (sbrk (toInt32 (16 * units nbytes)) { s with heap := start base s.heap }).1 = none := by
      rw [sbrk_heap]
      by_contra hgrant
      exact hover ⟨hnone, hlarge, hgrant⟩
    have hgrown := sbrk_grown (toInt32 (16 * units nbytes)) { s with heap := start base s.heap }
    exact ⟨0, _, hg.mallocLoop_refused hnone hlarge hrefused,
      ⟨[], hgrown, fun g hg => absurd hg List.not_mem_nil⟩, fun h => absurd rfl h⟩

/-- `malloc` is sound just for the requests that do not overrun. -/
theorem malloc_sound_iff (hg : Good base { s with heap := start base s.heap } fl out) :
    Sound base nbytes s ↔ ¬ Overruns fl nbytes s :=
  ⟨fun hsound hover => hg.not_sound hover hsound, hg.sound⟩

end

theorem malloc_sound_iff_small : Sound 4096 100 smallProc ↔ ¬ Overruns [] 100 smallProc :=
  malloc_sound_iff initial_smallProc.start

/-- A request of 2147483648 bytes is a negative number for `sbrk`, which leaves the process as it is, and the
header is written behind its memory. -/
theorem malloc_overrun :
    ¬ Sound 4096 2147483648 smallProc ∧
      (match malloc 4096 10 2147483648 smallProc with
        | .error .fault => true
        | _ => false) = true := by
  refine ⟨Good.not_sound initial_smallProc.start ⟨?_, ?_, ?_⟩, by decide +kernel⟩
  · exact fun x hx => absurd hx List.not_mem_nil
  · decide +kernel
  · decide +kernel

end Xv6.Umalloc
