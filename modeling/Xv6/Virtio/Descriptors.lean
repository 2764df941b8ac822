-- SUMMARY: The descriptors of the virtio disk: allocating and freeing them, their chains, and who owns them.
import Xv6.Virtio.Disk
import Mathlib.Data.List.Nodup
import Mathlib.Data.List.GetD

/-!
# Descriptors

`alloc3_desc` claims three free descriptors or leaves all as they were, `virtio_disk_rw` writes a
chain into them, and `free_chain` frees exactly the descriptors of such a chain.
-/

namespace Xv6.Virtio

variable {B : Type} {n : Nat} {d d' : Disk B} {r r' : Request B} {i : Nat}
  {idx : List Nat} {free : Nat → Bool}

namespace Disk

/-! ## Allocating and freeing descriptors -/

/-- The descriptors of `idx` are in use. -/
def claimed (d : Disk B) (idx : List Nat) : Disk B :=
  { d with free := fun i => if i ∈ idx then false else d.free i }

/-- The descriptors of `idx` are free and empty. -/
def released (d : Disk B) (idx : List Nat) : Disk B := { d with
  desc := fun i => if i ∈ idx then ⟨.null, 0, 0, 0⟩ else d.desc i
  free := fun i => if i ∈ idx then true else d.free i }

theorem claimed_snoc (d : Disk B) (idx : List Nat) (i : Nat) :
    { d.claimed idx with free := Function.update (d.claimed idx).free i false } =
      d.claimed (idx ++ [i]) := by
  simp only [claimed, mk.injEq, true_and, and_true]
  funext j
  by_cases hj : j = i
  · simp [hj]
  · simp [hj]

theorem claimed_free (hi : i ∉ idx) : (d.claimed idx).free i = d.free i := if_neg hi

theorem released_append (d : Disk B) (idx idx' : List Nat) :
    (d.released idx).released idx' = d.released (idx ++ idx') := by
  simp only [released, mk.injEq, true_and, and_true]
  constructor
  · funext j
    by_cases hj : j ∈ idx' <;> simp [hj]
  · funext j
    by_cases hj : j ∈ idx' <;> simp [hj]

theorem released_desc (hi : i ∉ idx) : (d.released idx).desc i = d.desc i := if_neg hi

theorem released_free (hi : i ∉ idx) : (d.released idx).free i = d.free i := if_neg hi

theorem freeDesc_ok (hi : i < NUM) (hfree : d.free i = false) :
    d.freeDesc i = .ok (d.released [i]) := by
  rw [freeDesc, if_neg (Nat.not_le.mpr hi), hfree]
  simp only [Bool.false_eq_true, if_false, released, List.mem_singleton]
  congr 2
  · funext j
    simp [Function.update_apply]
  · funext j
    simp [Function.update_apply]

/-- Freeing descriptors that are in use, one after the other. -/
theorem foldlM_freeDesc (hnodup : idx.Nodup) (hidx : ∀ i ∈ idx, i < NUM ∧ d.free i = false) :
    idx.foldlM freeDesc d = .ok (d.released idx) := by
  induction idx generalizing d with
  | nil => rfl
  | cons i idx ih =>
    obtain ⟨hi, hfree⟩ := hidx i List.mem_cons_self
    rw [List.nodup_cons] at hnodup
    have happend : (d.released [i]).released idx = d.released (i :: idx) := released_append d [i] idx
    rw [List.foldlM_cons, freeDesc_ok hi hfree, ← happend]
    refine ih hnodup.2 fun j hj => ⟨(hidx j (List.mem_cons_of_mem i hj)).1, ?_⟩
    have hne : j ≠ i := fun heq => hnodup.1 (heq ▸ hj)
    simp only [released, List.mem_singleton, if_neg hne]
    exact (hidx j (List.mem_cons_of_mem i hj)).2

theorem allocDesc_some {i : Nat} {d' : Disk B} (h : d.allocDesc = some (i, d')) :
    i < NUM ∧ d.free i = true ∧ d' = { d with free := Function.update d.free i false } := by
  obtain ⟨j, hfind, heq⟩ := Option.map_eq_some_iff.mp h
  cases heq
  exact ⟨List.mem_range.mp (List.mem_of_find?_eq_some hfind), List.find?_some hfind, rfl⟩

/-- Descriptors that were free and are claimed together. -/
structure Fresh (d : Disk B) (idx : List Nat) : Prop where
  nodup : idx.Nodup
  lt : ∀ i ∈ idx, i < NUM
  free : ∀ i ∈ idx, d.free i = true

theorem Fresh.snoc (h : d.Fresh idx) (hi : i < NUM) (hfree : (d.claimed idx).free i = true) :
    d.Fresh (idx ++ [i]) := by
  have hnot : i ∉ idx := fun hmem => by simp [claimed, hmem] at hfree
  simp only [claimed, if_neg hnot] at hfree
  refine ⟨List.nodup_append.mpr ⟨h.nodup, List.nodup_singleton i, ?_⟩, ?_, ?_⟩
  · rintro a ha b hb rfl
    exact hnot (List.mem_singleton.mp hb ▸ ha)
  all_goals
    intro j hj
    rcases List.mem_append.mp hj with hj | hj
  · exact h.lt j hj
  · rwa [List.mem_singleton.mp hj]
  · exact h.free j hj
  · rwa [List.mem_singleton.mp hj]

/-- What `alloc3_desc` does: it claims three descriptors, or it changes at most the contents of
descriptors that are free. -/
inductive Alloc3 (d : Disk B) (k : Nat) : Option (List Nat) × Disk B → Prop
  | got (idx : List Nat) (hlen : idx.length = k) (hfresh : d.Fresh idx) :
      Alloc3 d k (some idx, d.claimed idx)
  | full (desc : Nat → VirtqDesc B) (hdesc : ∀ i, d.free i = false → desc i = d.desc i) :
      Alloc3 d k (none, { d with desc := desc })

theorem released_claimed (h : d.Fresh idx) :
    (d.claimed idx).released idx =
      { d with desc := fun i => if i ∈ idx then ⟨.null, 0, 0, 0⟩ else d.desc i } := by
  simp only [released, claimed, mk.injEq, true_and, and_true]
  funext i
  by_cases hi : i ∈ idx
  · rw [if_pos hi, h.free i hi]
  · rw [if_neg hi, if_neg hi]

theorem alloc3Loop_spec (k : Nat) (h : d.Fresh idx) :
    ∃ res, alloc3Loop k idx (d.claimed idx) = .ok res ∧ Alloc3 d (idx.length + k) res := by
  induction k generalizing idx with
  | zero => exact ⟨_, rfl, .got idx rfl h⟩
  | succ k ih =>
    rw [alloc3Loop]
    split
    · next i d' halloc =>
      obtain ⟨hi, hfree, rfl⟩ := allocDesc_some halloc
      rw [claimed_snoc]
      obtain ⟨res, hres, hspec⟩ := ih (h.snoc hi hfree)
      rw [List.length_append, List.length_singleton, Nat.add_assoc, Nat.add_comm 1] at hspec
      exact ⟨res, hres, hspec⟩
    · -- the descriptors so far are given back
      have hroll : idx.foldlM freeDesc (d.claimed idx) = .ok ((d.claimed idx).released idx) :=
        foldlM_freeDesc h.nodup fun i hi => ⟨h.lt i hi, by simp [claimed, hi]⟩
      rw [hroll, released_claimed h]
      refine ⟨_, rfl, .full _ fun i hused => if_neg fun hi => ?_⟩
      rw [h.free i hi] at hused
      cases hused

theorem alloc3Desc_spec (d : Disk B) : ∃ res, d.alloc3Desc = .ok res ∧ Alloc3 d 3 res := by
  have hnil : d.claimed [] = d := by simp [claimed]
  have hspec := alloc3Loop_spec (d := d) 3 ⟨List.nodup_nil, by simp, by simp⟩
  rwa [hnil] at hspec

/-! ## Chains -/

/-- The request has three descriptors of its own. -/
structure Owns (free : Nat → Bool) (r : Request B) : Prop where
  three : r.idx.length = 3
  nodup : r.idx.Nodup
  lt : ∀ i ∈ r.idx, i < NUM
  used : ∀ i ∈ r.idx, free i = false

/-- The chain of the request is as `virtio_disk_rw` writes it. -/
structure Linked (d : Disk B) (r : Request B) : Prop where
  zero : d.desc (r.at 0) = desc0 r
  one : d.desc (r.at 1) = desc1 r
  two : d.desc (r.at 2) = desc2 r

/-- And so are the header and the pointer to the buffer. -/
structure Formatted (d : Disk B) (r : Request B) : Prop extends Linked d r where
  ops : d.ops (r.at 0) = blkReq r
  buf : (d.info (r.at 0)).b = some r.b

theorem Owns.idx_eq (h : Owns free r) : r.idx = [r.at 0, r.at 1, r.at 2] := by
  obtain ⟨i, j, k, hidx⟩ := List.length_eq_three.mp h.three
  simp [Request.at, hidx]

theorem Owns.mem (h : Owns free r) {k : Nat} (hk : k < 3) : r.at k ∈ r.idx := by
  rw [Request.at, List.getD_eq_getElem _ _ (h.three ▸ hk)]
  exact List.getElem_mem _

theorem Owns.at_lt (h : Owns free r) {k : Nat} (hk : k < 3) : r.at k < NUM := h.lt _ (h.mem hk)

theorem Owns.ne (h : Owns free r) : r.at 0 ≠ r.at 1 ∧ r.at 0 ≠ r.at 2 ∧ r.at 1 ≠ r.at 2 := by
  have hnodup := h.nodup
  rw [h.idx_eq] at hnodup
  simpa [and_assoc] using hnodup

theorem toNat_desc {i : Nat} (hi : i < NUM) : (UInt16.ofNat i).toNat = i := by
  rw [UInt16.toNat_ofNat', Nat.mod_eq_of_lt (by simp only [NUM] at hi; omega)]

theorem desc0_next (r : Request B) : (desc0 r).flags &&& VRING_DESC_F_NEXT ≠ 0 :=
  (by decide : VRING_DESC_F_NEXT &&& VRING_DESC_F_NEXT ≠ 0)

theorem desc2_last (r : Request B) : ¬ (desc2 r).flags &&& VRING_DESC_F_NEXT ≠ 0 :=
  (by decide : ¬ VRING_DESC_F_WRITE &&& VRING_DESC_F_NEXT ≠ 0)

theorem desc1_next (r : Request B) : (desc1 r).flags &&& VRING_DESC_F_NEXT ≠ 0 := by
  rw [desc1]
  cases r.write with
  | true => exact (by decide : (0 ||| VRING_DESC_F_NEXT) &&& VRING_DESC_F_NEXT ≠ 0)
  | false => exact (by decide :
      (VRING_DESC_F_WRITE ||| VRING_DESC_F_NEXT) &&& VRING_DESC_F_NEXT ≠ 0)

/-- A chain that is formatted depends on its own descriptors only. -/
theorem Formatted.congr (h : d.Formatted r) (hown : Owns d.free r)
    (hsame : ∀ i ∈ r.idx, d'.desc i = d.desc i ∧ d'.ops i = d.ops i ∧ (d'.info i).b = (d.info i).b) :
    d'.Formatted r := by
  obtain ⟨hdesc, hops, hbuf⟩ := hsame _ (hown.mem (by decide : 0 < 3))
  exact ⟨⟨hdesc.trans h.zero, (hsame _ (hown.mem (by decide : 1 < 3))).1.trans h.one,
    (hsame _ (hown.mem (by decide : 2 < 3))).1.trans h.two⟩, hops.trans h.ops, hbuf.trans h.buf⟩

/-- The device reads the chain as it was written. -/
theorem Linked.walk (h : d.Linked r) (hown : Owns d.free r) :
    walk d.desc NUM (r.at 0) = [desc0 r, desc1 r, desc2 r] := by
  have h1 := toNat_desc (hown.at_lt (by decide : 1 < 3))
  have h2 := toNat_desc (hown.at_lt (by decide : 2 < 3))
  rw [Virtio.walk, h.zero, if_pos (desc0_next r), desc0, h1, Virtio.walk, h.one,
    if_pos (desc1_next r), desc1, h2, Virtio.walk, h.two, if_neg (desc2_last r)]

theorem format_other [DecidableEq B] (hown : Owns free r) (hi : i ∉ r.idx) :
    (d.format r).desc i = d.desc i ∧ (d.format r).ops i = d.ops i ∧
      ((d.format r).info i).b = (d.info i).b := by
  have hne {k : Nat} (hk : k < 3) : i ≠ r.at k := fun heq => hi (heq ▸ hown.mem hk)
  simp [format, Function.update_of_ne (hne (by decide : 0 < 3)),
    Function.update_of_ne (hne (by decide : 1 < 3)), Function.update_of_ne (hne (by decide : 2 < 3))]

theorem formatted_format [DecidableEq B] (hown : Owns free r) : (d.format r).Formatted r := by
  obtain ⟨h01, h02, h12⟩ := hown.ne
  refine ⟨⟨?_, ?_, ?_⟩, Function.update_self .., ?_⟩
  · simp [format, h01, h02]
  · simp [format, h12]
  · simp [format]
  · simp [format]

theorem freeChainLoop_next (k : Nat) (hi : i < NUM) (hfree : d.free i = false)
    (hnext : (d.desc i).flags &&& VRING_DESC_F_NEXT ≠ 0) :
    freeChainLoop (k + 1) i d = freeChainLoop k (d.desc i).next.toNat (d.released [i]) := by
  rw [freeChainLoop, freeDesc_ok hi hfree]
  exact if_pos hnext

theorem freeChainLoop_last (k : Nat) (hi : i < NUM) (hfree : d.free i = false)
    (hlast : ¬ (d.desc i).flags &&& VRING_DESC_F_NEXT ≠ 0) :
    freeChainLoop (k + 1) i d = .ok (d.released [i]) := by
  rw [freeChainLoop, freeDesc_ok hi hfree]
  exact if_neg hlast

/-- `free_chain` frees the descriptors of the request, and does not panic. -/
theorem Linked.freeChain (h : d.Linked r) (hown : Owns d.free r) :
    d.freeChain (r.at 0) = .ok (d.released r.idx) := by
  obtain ⟨h01, h02, h12⟩ := hown.ne
  have hlt0 := hown.at_lt (by decide : 0 < 3)
  have hlt1 := hown.at_lt (by decide : 1 < 3)
  have hlt2 := hown.at_lt (by decide : 2 < 3)
  have hused0 := hown.used _ (hown.mem (by decide : 0 < 3))
  have hused1 : (d.released [r.at 0]).free (r.at 1) = false := by
    rw [released_free (by simpa using h01.symm)]
    exact hown.used _ (hown.mem (by decide))
  have hused2 : (d.released [r.at 0, r.at 1]).free (r.at 2) = false := by
    rw [released_free (by simp [h02.symm, h12.symm])]
    exact hown.used _ (hown.mem (by decide))
  have hdesc1 : (d.released [r.at 0]).desc (r.at 1) = desc1 r := by
    rw [released_desc (by simpa using h01.symm), h.one]
  have hdesc2 : (d.released [r.at 0, r.at 1]).desc (r.at 2) = desc2 r := by
    rw [released_desc (by simp [h02.symm, h12.symm]), h.two]
  have hnext0 : (d.desc (r.at 0)).flags &&& VRING_DESC_F_NEXT ≠ 0 := h.zero ▸ desc0_next r
  have hnext1 : ((d.released [r.at 0]).desc (r.at 1)).flags &&& VRING_DESC_F_NEXT ≠ 0 :=
    hdesc1 ▸ desc1_next r
  have hlast : ¬ ((d.released [r.at 0, r.at 1]).desc (r.at 2)).flags &&& VRING_DESC_F_NEXT ≠ 0 :=
    hdesc2 ▸ desc2_last r
  have hat1 : (d.desc (r.at 0)).next.toNat = r.at 1 := by rw [h.zero, desc0, toNat_desc hlt1]
  have hat2 : ((d.released [r.at 0]).desc (r.at 1)).next.toNat = r.at 2 := by
    rw [hdesc1, desc1, toNat_desc hlt2]
  rw [Disk.freeChain, freeChainLoop_next _ hlt0 hused0 hnext0, hat1,
    freeChainLoop_next _ hlt1 hused1 hnext1, hat2, released_append,
    List.singleton_append, freeChainLoop_last _ hlt2 hused2 hlast, released_append, hown.idx_eq]
  rfl

/-- The structure when the request has ended. -/
def finished (d : Disk B) (r : Request B) : Disk B :=
  { d with info := Function.update d.info (r.at 0) { d.info (r.at 0) with b := none } }.released r.idx

theorem Formatted.finish (h : d.Formatted r) (hown : Owns d.free r) :
    d.finish r = .ok (d.finished r) := by
  have hlinked : { d with
      info := Function.update d.info (r.at 0) { d.info (r.at 0) with b := none } }.Linked r :=
    ⟨h.zero, h.one, h.two⟩
  exact hlinked.freeChain hown

theorem finished_other (hown : Owns free r) (hi : i ∉ r.idx) :
    (d.finished r).desc i = d.desc i ∧ (d.finished r).ops i = d.ops i ∧
      ((d.finished r).info i).b = (d.info i).b := by
  have hne : i ≠ r.at 0 := fun heq => hi (heq ▸ hown.mem (by decide))
  exact ⟨released_desc hi, rfl, congrArg Info.b (Function.update_of_ne hne ..)⟩

theorem finished_status (i : Nat) : ((d.finished r).info i).status = (d.info i).status := by
  by_cases hi : i = r.at 0
  · subst hi
    simp [finished, released]
  · simp [finished, released, hi]

end Disk

/-! ## Who owns what -/

theorem update_some {α : Type} {f : Fin n → Option α} {p p' : Fin n} {x y : α} :
    Function.update f p (some x) p' = some y ↔ p' = p ∧ x = y ∨ p' ≠ p ∧ f p' = some y := by
  by_cases hp : p' = p
  · subst hp
    simp
  · simp [hp]

theorem update_none {α : Type} {f : Fin n → Option α} {p p' : Fin n} {y : α} :
    Function.update f p none p' = some y ↔ p' ≠ p ∧ f p' = some y := by
  by_cases hp : p' = p
  · subst hp
    simp
  · simp [hp]

/-- Every request has descriptors of its own, and all descriptors in use belong to a request. -/
structure Owners (req : Fin n → Option (Request B)) (free : Nat → Bool) : Prop where
  owns : ∀ p r, req p = some r → Disk.Owns free r
  disjoint : ∀ p p' r r', p ≠ p' → req p = some r → req p' = some r' → r.idx.Disjoint r'.idx
  owned : ∀ i < NUM, free i = false → ∃ p r, req p = some r ∧ i ∈ r.idx

variable {req : Fin n → Option (Request B)} {p p' : Fin n}

/-- Two requests with a common descriptor are the same. -/
theorem Owners.same (h : Owners req free) (hreq : req p = some r) (hreq' : req p' = some r')
    (hi : i ∈ r.idx) (hi' : i ∈ r'.idx) : p = p' := by
  by_contra hne
  exact h.disjoint p p' r r' hne hreq hreq' hi hi'

theorem Owners.used_of_mem (h : Owners req free) (hreq : req p = some r) (hi : i ∈ r.idx) :
    free i = false := (h.owns p r hreq).used i hi

/-- A process gets descriptors that were free. -/
theorem Owners.claim (h : Owners req d.free) (hp : req p = none) (hlen : r.idx.length = 3)
    (hfresh : d.Fresh r.idx) : Owners (Function.update req p (some r)) (d.claimed r.idx).free := by
  have hother {i : Nat} (hi : d.free i = false) : i ∉ r.idx := fun hmem => by
    rw [hfresh.free i hmem] at hi
    cases hi
  refine ⟨fun p' r' hreq => ?_, fun p' p'' r' r'' hne hreq hreq' => ?_, fun i hi hused => ?_⟩
  · obtain ⟨rfl, rfl⟩ | ⟨_, hreq⟩ := update_some.mp hreq
    · exact ⟨hlen, hfresh.nodup, hfresh.lt, fun i hi => if_pos hi⟩
    · obtain ⟨hthree, hnodup, hlt, hused⟩ := h.owns p' r' hreq
      refine ⟨hthree, hnodup, hlt, fun i hi => ?_⟩
      rw [Disk.claimed_free (hother (hused i hi)), hused i hi]
  · obtain ⟨hp', rfl⟩ | ⟨_, hold⟩ := update_some.mp hreq
    · obtain ⟨hp'', _⟩ | ⟨_, hold'⟩ := update_some.mp hreq'
      · exact absurd (hp'.trans hp''.symm) hne
      · exact fun i hi hi' => hother (h.used_of_mem hold' hi') hi
    · obtain ⟨_, rfl⟩ | ⟨_, hold'⟩ := update_some.mp hreq'
      · exact fun i hi hi' => hother (h.used_of_mem hold hi) hi'
      · exact h.disjoint p' p'' r' r'' hne hold hold'
  · by_cases hmem : i ∈ r.idx
    · exact ⟨p, r, Function.update_self .., hmem⟩
    · rw [Disk.claimed_free hmem] at hused
      obtain ⟨p', r', hreq, hmem'⟩ := h.owned i hi hused
      have hne : p' ≠ p := fun heq => by rw [heq, hp] at hreq; cases hreq
      exact ⟨p', r', (Function.update_of_ne hne ..).trans hreq, hmem'⟩

/-- A process gives its descriptors back. -/
theorem Owners.release (h : Owners req d.free) (hp : req p = some r) :
    Owners (Function.update req p none) (d.released r.idx).free := by
  refine ⟨fun p' r' hreq => ?_, fun p' p'' r' r'' hne hreq hreq' => ?_, fun i hi hused => ?_⟩
  · obtain ⟨hne, hreq⟩ := update_none.mp hreq
    obtain ⟨hthree, hnodup, hlt, hused⟩ := h.owns p' r' hreq
    refine ⟨hthree, hnodup, hlt, fun i hi => ?_⟩
    rw [Disk.released_free fun hmem => h.disjoint p' p r' r hne hreq hp hi hmem, hused i hi]
  · exact h.disjoint p' p'' r' r'' hne (update_none.mp hreq).2 (update_none.mp hreq').2
  · by_cases hmem : i ∈ r.idx
    · exact absurd ((if_pos hmem).symm.trans hused) (by decide)
    · rw [Disk.released_free hmem] at hused
      obtain ⟨p', r', hreq, hmem'⟩ := h.owned i hi hused
      have hne : p' ≠ p := by
        rintro rfl
        cases hp.symm.trans hreq
        exact hmem hmem'
      exact ⟨p', r', update_none.mpr ⟨hne, hreq⟩, hmem'⟩

end Xv6.Virtio
