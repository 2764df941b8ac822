-- SUMMARY: The cache invariant that ties buffers, pins and disk to one abstract block store, and the specification of each buffer operation.
import Xv6.Log.Log

/-!
# Coherence of cache, log and disk

`Coherent m store pins` says that the machine represents the abstract block store
`store`, where `pins` are the blocks whose latest version has not reached its
home location. A buffer holds the store's version of its block, every block
outside `pins` is up to date on disk, and a pinned block has a buffer whose
reference count keeps it from being recycled.
-/

namespace Xv6

open Prog

namespace Machine

@[simp] theorem setBuf_setBuf (m : Machine) (i : Fin NBUF) (b c : Buf) :
    (m.setBuf i b).setBuf i c = m.setBuf i c := by
  simp only [setBuf, Function.update_idem]

/-- What the buffer of a block must hold: log blocks are never dirty. -/
def version (m : Machine) (store : Nat → Block) (b : Nat) : Block :=
  if m.log.area b then m.disk b else store b

@[simp] theorem version_setBuf (m : Machine) (i : Fin NBUF) (c : Buf) :
    (m.setBuf i c).version = m.version := rfl

end Machine

structure Coherent (m : Machine) (store : Nat → Block) (pins : List Nat) : Prop where
  /-- The device number tells used buffers from those `binit` left. -/
  dev_ne : m.log.dev ≠ 0
  uniq : ∀ i j, (m.buf i).dev = m.log.dev → (m.buf j).dev = m.log.dev →
    (m.buf i).blockno = (m.buf j).blockno → i = j
  spare : ∀ i, (m.buf i).dev ≠ m.log.dev → (m.buf i).refcnt = 0 ∧ (m.buf i).locked = false
  count : ∀ i, (m.buf i).dev = m.log.dev →
    (m.buf i).refcnt = (m.buf i).locked.toNat + (if (m.buf i).blockno ∈ pins then 1 else 0)
  filled : ∀ i, (m.buf i).dev = m.log.dev → (m.buf i).valid = true
  cached : ∀ i, (m.buf i).dev = m.log.dev → (m.buf i).data = m.version store (m.buf i).blockno
  clean : ∀ b, b ∉ pins → ¬ m.log.area b → m.disk b = store b
  pinned : ∀ b ∈ pins, ∃ i, (m.buf i).dev = m.log.dev ∧ (m.buf i).blockno = b
  home : ∀ b ∈ pins, ¬ m.log.area b

/-- Only the store's home blocks matter. -/
theorem Coherent.congr_home {m : Machine} {store store' : Nat → Block} {pins : List Nat}
    (h : Coherent m store pins) (heq : ∀ b, ¬ m.log.area b → store b = store' b) :
    Coherent m store' pins := by
  refine ⟨h.dev_ne, h.uniq, h.spare, h.count, h.filled, fun i hi => ?_, fun b hb harea => ?_,
    h.pinned, h.home⟩
  · rw [h.cached i hi]
    unfold Machine.version
    split
    · rfl
    · next harea => exact heq _ harea
  · rw [h.clean b hb harea, heq b harea]

/-- Buffer `i` is locked and holds block `b`. -/
structure Holds (m : Machine) (i : Fin NBUF) (b : Nat) : Prop where
  dev : (m.buf i).dev = m.log.dev
  blockno : (m.buf i).blockno = b
  locked : (m.buf i).locked = true

/-- What an operation on buffer `i` leaves alone: the disk, the log, and the
buffers that others hold. -/
structure Frame (m m' : Machine) (i : Fin NBUF) : Prop where
  disk : m'.disk = m.disk
  writes : m'.writes = m.writes
  log : m'.log = m.log
  locked : ∀ j, j ≠ i → (m'.buf j).locked = (m.buf j).locked
  held : ∀ j, j ≠ i → (m.buf j).locked = true → m'.buf j = m.buf j

theorem Frame.setBuf (m : Machine) (i : Fin NBUF) (b : Buf) : Frame m (m.setBuf i b) i where
  disk := rfl
  writes := rfl
  log := rfl
  locked := fun j hj => by rw [Machine.setBuf_buf_ne _ _ _ _ hj]
  held := fun j hj _ => Machine.setBuf_buf_ne _ _ _ _ hj

/-- A buffer that did not change is still held. -/
theorem Holds.same {m m' : Machine} {i : Fin NBUF} {b : Nat} (h : Holds m i b)
    (heq : m'.buf i = m.buf i) (hlog : m'.log = m.log) : Holds m' i b :=
  ⟨by rw [heq, hlog]; exact h.dev, by rw [heq]; exact h.blockno, by rw [heq]; exact h.locked⟩

/-- A buffer someone else holds stays held. -/
theorem Holds.frame {m m' : Machine} {i j : Fin NBUF} {b : Nat} (h : Holds m j b)
    (hf : Frame m m' i) (hj : j ≠ i) : Holds m' j b :=
  h.same (hf.held j hj h.locked) hf.log

variable {m : Machine} {store : Nat → Block} {pins : List Nat}

/-- Only buffers of the log's device are ever locked. -/
theorem Coherent.holds (h : Coherent m store pins) {i : Fin NBUF}
    (hl : (m.buf i).locked = true) : Holds m i (m.buf i).blockno := by
  refine ⟨?_, rfl, hl⟩
  by_contra hdev
  rw [(h.spare i hdev).2] at hl
  cases hl

/-! ## Replacing one buffer -/

/-- The machine stays coherent when a buffer is given a new state that is itself
coherent and takes no pinned block out of the cache. -/
theorem Coherent.setBuf (h : Coherent m store pins) {i : Fin NBUF} {b : Buf}
    (hdev : b.dev = m.log.dev)
    (huniq : ∀ j, j ≠ i → (m.buf j).dev = m.log.dev → (m.buf j).blockno ≠ b.blockno)
    (hpin : (m.buf i).dev = m.log.dev → (m.buf i).blockno ∈ pins →
      (m.buf i).blockno = b.blockno)
    (hcount : b.refcnt = b.locked.toNat + (if b.blockno ∈ pins then 1 else 0))
    (hvalid : b.valid = true) (hdata : b.data = m.version store b.blockno) :
    Coherent (m.setBuf i b) store pins where
  dev_ne := h.dev_ne
  uniq := by
    intro j k hj hk hjk
    by_cases hji : j = i <;> by_cases hki : k = i
    · rw [hji, hki]
    · subst hji
      rw [Machine.setBuf_buf_self, Machine.setBuf_buf_ne _ _ _ _ hki] at hjk
      rw [Machine.setBuf_buf_ne _ _ _ _ hki] at hk
      exact absurd hjk.symm (huniq k hki hk)
    · subst hki
      rw [Machine.setBuf_buf_self, Machine.setBuf_buf_ne _ _ _ _ hji] at hjk
      rw [Machine.setBuf_buf_ne _ _ _ _ hji] at hj
      exact absurd hjk (huniq j hji hj)
    · rw [Machine.setBuf_buf_ne _ _ _ _ hji] at hj hjk
      rw [Machine.setBuf_buf_ne _ _ _ _ hki] at hk hjk
      exact h.uniq j k hj hk hjk
  spare := by
    intro j hj
    by_cases hji : j = i
    · subst hji
      rw [Machine.setBuf_buf_self] at hj
      exact absurd hdev hj
    · rw [Machine.setBuf_buf_ne _ _ _ _ hji] at hj ⊢
      exact h.spare j hj
  count := by
    intro j hj
    by_cases hji : j = i
    · subst hji
      rw [Machine.setBuf_buf_self]
      exact hcount
    · rw [Machine.setBuf_buf_ne _ _ _ _ hji] at hj ⊢
      exact h.count j hj
  filled := by
    intro j hj
    by_cases hji : j = i
    · subst hji
      rw [Machine.setBuf_buf_self]
      exact hvalid
    · rw [Machine.setBuf_buf_ne _ _ _ _ hji] at hj ⊢
      exact h.filled j hj
  cached := by
    intro j hj
    by_cases hji : j = i
    · subst hji
      rw [Machine.setBuf_buf_self]
      exact hdata
    · rw [Machine.setBuf_buf_ne _ _ _ _ hji] at hj ⊢
      exact h.cached j hj
  clean := h.clean
  pinned := by
    intro c hc
    obtain ⟨j, hj, hjc⟩ := h.pinned c hc
    by_cases hji : j = i
    · subst hji
      refine ⟨j, ?_, ?_⟩
      · rw [Machine.setBuf_buf_self]; exact hdev
      · rw [Machine.setBuf_buf_self, ← hpin hj (hjc ▸ hc)]; exact hjc
    · exact ⟨j, by rw [Machine.setBuf_buf_ne _ _ _ _ hji]; exact hj,
        by rw [Machine.setBuf_buf_ne _ _ _ _ hji]; exact hjc⟩
  home := h.home

/-- The case of a buffer that keeps its block and its data. -/
theorem Coherent.relock (h : Coherent m store pins) {i : Fin NBUF} {refcnt : Nat} {locked : Bool}
    (hdev : (m.buf i).dev = m.log.dev)
    (hcount : refcnt = locked.toNat + (if (m.buf i).blockno ∈ pins then 1 else 0)) :
    Coherent (m.setBuf i { m.buf i with refcnt := refcnt, locked := locked }) store pins :=
  h.setBuf hdev
    (fun j hj hjd heq => hj (h.uniq j i hjd hdev heq))
    (fun _ _ => rfl) hcount (h.filled i hdev) (h.cached i hdev)

theorem Coherent.touch (h : Coherent m store pins) (i : Fin NBUF) :
    Coherent (m.touch i) store pins :=
  ⟨h.dev_ne, h.uniq, h.spare, h.count, h.filled, h.cached, h.clean, h.pinned, h.home⟩

/-! ## bread -/

/-- Why `bread` of block `b` does not return: someone holds the block, or it is
not cached and every buffer is referenced. -/
inductive BreadStops (m : Machine) (b : Nat) : Bio.Stop → Prop
  | busy {i : Fin NBUF} : Holds m i b → BreadStops m b .sleep
  | full : (∀ i, (m.buf i).dev = m.log.dev → (m.buf i).blockno ≠ b) →
      (∀ i, (m.buf i).refcnt ≠ 0) → BreadStops m b .noBuffers

theorem mem_mru (m : Machine) (i : Fin NBUF) : i ∈ m.bcache.mru :=
  m.bcache.mru_perm.mem_iff.mpr (List.mem_finRange i)

/-- A cached block: the buffer is referenced once more and locked. -/
theorem bread_hit (h : Coherent m store pins) {i : Fin NBUF} {b : Nat}
    (hdev : (m.buf i).dev = m.log.dev) (hb : (m.buf i).blockno = b) :
    wp (bread m.log.dev b)
      (fun j m' => j = i ∧ (m.buf i).locked = false ∧
        m' = m.setBuf i { m.buf i with refcnt := (m.buf i).refcnt + 1, locked := true })
      (fun e m' => e = .sleep ∧ (m.buf i).locked = true ∧ m'.writes = m.writes) m := by
  have hfind : m.bcache.mru.find?
      (fun j => (m.buf j).dev = m.log.dev ∧ (m.buf j).blockno = b) = some i := by
    cases hf : m.bcache.mru.find?
        (fun j => (m.buf j).dev = m.log.dev ∧ (m.buf j).blockno = b) with
    | none =>
      have := List.find?_eq_none.mp hf i (mem_mru m i)
      simp [hdev, hb] at this
    | some j =>
      have hj : (m.buf j).dev = m.log.dev ∧ (m.buf j).blockno = b := by
        simpa using List.find?_some hf
      rw [h.uniq j i hj.1 hdev (hj.2.trans hb.symm)]
  have hinc : incUint (m.buf i).refcnt = (m.buf i).refcnt + 1 := by
    apply incUint_of_lt
    rw [h.count i hdev]
    have := Bool.toNat_lt (m.buf i).locked
    split <;> simp only [UINT] <;> omega
  have hvalid : (m.buf i).valid = true := h.filled i hdev
  simp only [bread, bget, modifyBuf, acquiresleep, wp_bind, wp_get, hfind, wp_modify, wp_stopIf,
    wp_pure, Machine.setBuf_buf_self, Machine.setBuf_setBuf, hvalid, hinc]
  constructor
  · intro hl
    exact ⟨trivial, hl, rfl⟩
  · intro hl
    simp only [Bool.not_true, Bool.false_eq_true, if_false, wp_pure]
    exact ⟨trivial, by simpa using hl, trivial⟩

/-- A block that is not cached: a buffer nobody references is recycled for it and
filled from disk. -/
theorem bread_miss {b : Nat}
    (hno : ∀ i, (m.buf i).dev = m.log.dev → (m.buf i).blockno ≠ b)
    (hfree : ∀ i, (m.buf i).refcnt = 0 → (m.buf i).locked = false) :
    wp (bread m.log.dev b)
      (fun i m' => (m.buf i).refcnt = 0 ∧
        m' = m.setBuf i ⟨true, m.log.dev, b, true, 1, m.disk b⟩)
      (fun e m' => e = .noBuffers ∧ (∀ i, (m.buf i).refcnt ≠ 0) ∧ m'.writes = m.writes) m := by
  have hfind : m.bcache.mru.find?
      (fun j => (m.buf j).dev = m.log.dev ∧ (m.buf j).blockno = b) = none := by
    apply List.find?_eq_none.mpr
    intro j _
    simp only [decide_eq_true_eq, not_and]
    exact hno j
  simp only [bread, bget, wp_bind, wp_get, hfind]
  cases hfr : m.bcache.mru.reverse.find? (fun i => (m.buf i).refcnt = 0) with
  | none =>
    refine wp_throw.mpr ⟨rfl, fun i hi => ?_, rfl⟩
    have := List.find?_eq_none.mp hfr i (List.mem_reverse.mpr (mem_mru m i))
    simp [hi] at this
  | some i =>
    have hi : (m.buf i).refcnt = 0 := by simpa using List.find?_some hfr
    simp only [modifyBuf, acquiresleep, diskRead, wp_bind, wp_get, wp_modify, wp_stopIf, wp_pure,
      Machine.setBuf_buf_self, Machine.setBuf_setBuf, hfree i hi]
    simp [hi]

theorem wp_bread (h : Coherent m store pins) (b : Nat) :
    wp (bread m.log.dev b)
      (fun i m' => Coherent m' store pins ∧ Holds m' i b ∧ Frame m m' i ∧
        (m.buf i).locked = false)
      (fun e m' => BreadStops m b e ∧ m'.writes = m.writes) m := by
  by_cases hc : ∃ i, (m.buf i).dev = m.log.dev ∧ (m.buf i).blockno = b
  · obtain ⟨i, hdev, hb⟩ := hc
    refine (bread_hit h hdev hb).mono ?_ ?_
    · rintro j m' ⟨rfl, hl, rfl⟩
      have hcount := h.count j hdev
      simp only [hl, Bool.toNat_false, Nat.zero_add] at hcount
      refine ⟨h.relock hdev ?_, ⟨?_, ?_, ?_⟩, Frame.setBuf _ _ _, hl⟩
      · rw [hcount, Bool.toNat_true, Nat.add_comm]
      · rw [Machine.setBuf_buf_self]; exact hdev
      · rw [Machine.setBuf_buf_self]; exact hb
      · rw [Machine.setBuf_buf_self]
    · rintro e m' ⟨rfl, hl, hw⟩
      exact ⟨.busy ⟨hdev, hb, hl⟩, hw⟩
  · have hno : ∀ i, (m.buf i).dev = m.log.dev → (m.buf i).blockno ≠ b :=
      fun i hi hb => hc ⟨i, hi, hb⟩
    have hbp : b ∉ pins := fun hb => hc (h.pinned b hb)
    have hfree : ∀ i, (m.buf i).refcnt = 0 → (m.buf i).locked = false := by
      intro i hi
      by_cases hdev : (m.buf i).dev = m.log.dev
      · have := h.count i hdev
        cases hl : (m.buf i).locked with
        | false => rfl
        | true => rw [hi, hl, Bool.toNat_true] at this; omega
      · exact (h.spare i hdev).2
    refine (bread_miss hno hfree).mono ?_ ?_
    · rintro i m' ⟨hi, rfl⟩
      refine ⟨h.setBuf rfl (fun j _ hj => hno j hj) ?_ ?_ rfl ?_, ⟨?_, ?_, ?_⟩,
        Frame.setBuf _ _ _, hfree i hi⟩
      · -- The recycled buffer was not referenced, so its block was not pinned.
        intro hdev hpin
        have := h.count i hdev
        rw [hi, if_pos hpin] at this
        omega
      · simp [hbp]
      · by_cases ha : m.log.area b
        · simp [Machine.version, ha]
        · simp [Machine.version, ha, h.clean b hbp ha]
      · rw [Machine.setBuf_buf_self]; rfl
      · rw [Machine.setBuf_buf_self]
      · rw [Machine.setBuf_buf_self]
    · rintro e m' ⟨rfl, hall, hw⟩
      exact ⟨.full hno hall, hw⟩

/-- The data of a held buffer is the current version of its block. -/
theorem Coherent.data (h : Coherent m store pins) {i : Fin NBUF} {b : Nat} (hi : Holds m i b) :
    (m.buf i).data = m.version store b := by
  rw [h.cached i hi.dev, hi.blockno]

/-! ## brelse -/

theorem brelse_locked {i : Fin NBUF} :
    wp (brelse i) (fun _ _ => (m.buf i).locked = true) (fun _ _ => True) m := by
  cases hl : (m.buf i).locked <;> simp [brelse, modifyBuf, hl, wp_ite]

theorem wp_brelse (h : Coherent m store pins) {i : Fin NBUF} {b : Nat} (hi : Holds m i b) :
    wp (brelse i)
      (fun _ m' => Coherent m' store pins ∧ Frame m m' i ∧ (m'.buf i).locked = false)
      (fun _ _ => False) m := by
  have hcount := h.count i hi.dev
  simp only [hi.locked, Bool.toNat_true] at hcount
  have hdec : decUint (m.buf i).refcnt = if (m.buf i).blockno ∈ pins then 1 else 0 := by
    rw [hcount, Nat.add_comm]
    apply decUint_succ
    split <;> simp [UINT]
  have hco : Coherent (m.setBuf i
      { m.buf i with refcnt := decUint (m.buf i).refcnt, locked := false }) store pins :=
    h.relock hi.dev (by simpa using hdec)
  simp only [brelse, modifyBuf, wp_bind, wp_get, wp_modify, wp_stopIf, wp_ite, wp_pure,
    Machine.setBuf_buf_self, Machine.setBuf_setBuf, hi.locked]
  refine ⟨by simp, fun _ => ⟨fun _ => ?_, fun _ => ?_⟩⟩
  · refine ⟨hco.touch i, ?_, ?_⟩
    · have hf := Frame.setBuf m i { m.buf i with refcnt := decUint (m.buf i).refcnt, locked := false }
      exact ⟨hf.disk, hf.writes, hf.log, hf.locked, hf.held⟩
    · rw [Machine.touch_buf, Machine.setBuf_buf_self]
  · exact ⟨hco, Frame.setBuf _ _ _, trivial⟩

/-! ## Changing the state of a held block -/

/-- The machine stays coherent when the holder of block `b` changes the buffer's
data or its pin, together with what disk, store and pins say about `b` alone. -/
theorem Coherent.change {m' : Machine} {store' : Nat → Block} {pins' : List Nat}
    (h : Coherent m store pins) {i : Fin NBUF} {b : Nat} (hi : Holds m i b)
    (hdev : m'.log.dev = m.log.dev) (hstart : m'.log.start = m.log.start)
    (hother : ∀ j, j ≠ i → m'.buf j = m.buf j)
    {r : Nat} {v : Block} (hself : m'.buf i = { m.buf i with refcnt := r, data := v })
    (hcount : r = 1 + if b ∈ pins' then 1 else 0) (hdata : v = m'.version store' b)
    (hpins : ∀ c, c ≠ b → (c ∈ pins' ↔ c ∈ pins)) (hstore : ∀ c, c ≠ b → store' c = store c)
    (hdisk : ∀ c, c ≠ b → m'.disk c = m.disk c)
    (hclean : b ∉ pins' → ¬ m.log.area b → m'.disk b = store' b)
    (hhome : b ∈ pins' → ¬ m.log.area b) :
    Coherent m' store' pins' := by
  have harea : ∀ c, m'.log.area c ↔ m.log.area c := by
    intro c
    simp only [Log.area, hstart]
  have hversion : ∀ c, c ≠ b → m'.version store' c = m.version store c := by
    intro c hc
    simp only [Machine.version, harea, hdisk c hc, hstore c hc]
  -- Identity of the buffers: only `i` holds `b`.
  have hid : ∀ j, (m'.buf j).dev = (m.buf j).dev ∧ (m'.buf j).blockno = (m.buf j).blockno := by
    intro j
    by_cases hj : j = i
    · subst hj; rw [hself]; exact ⟨rfl, rfl⟩
    · rw [hother j hj]; exact ⟨rfl, rfl⟩
  have hnot : ∀ j, j ≠ i → (m.buf j).dev = m.log.dev → (m.buf j).blockno ≠ b :=
    fun j hj hjd heq => hj (h.uniq j i hjd hi.dev (heq.trans hi.blockno.symm))
  refine ⟨by rw [hdev]; exact h.dev_ne, ?_, ?_, ?_, ?_, ?_, ?_, ?_, ?_⟩
  · intro j k hj hk hjk
    rw [(hid j).1, hdev] at hj
    rw [(hid k).1, hdev] at hk
    rw [(hid j).2, (hid k).2] at hjk
    exact h.uniq j k hj hk hjk
  · intro j hj
    rw [(hid j).1, hdev] at hj
    have hji : j ≠ i := fun hji => hj (hji ▸ hi.dev)
    rw [hother j hji]
    exact h.spare j hj
  · intro j hj
    by_cases hji : j = i
    · subst hji; rw [hself]; simpa [hi.locked, hi.blockno] using hcount
    · rw [(hid j).1, hdev] at hj
      rw [hother j hji, h.count j hj]
      simp only [hpins _ (hnot j hji hj)]
  · intro j hj
    rw [(hid j).1, hdev] at hj
    by_cases hji : j = i
    · subst hji; rw [hself]; exact h.filled j hj
    · rw [hother j hji]; exact h.filled j hj
  · intro j hj
    by_cases hji : j = i
    · subst hji; rw [hself]; simpa [hi.blockno] using hdata
    · rw [(hid j).1, hdev] at hj
      rw [hother j hji, hversion _ (hnot j hji hj)]
      exact h.cached j hj
  · intro c hc ha
    rw [harea] at ha
    by_cases hcb : c = b
    · subst hcb; exact hclean hc ha
    · rw [hdisk c hcb, hstore c hcb]
      exact h.clean c (fun hc' => hc ((hpins c hcb).mpr hc')) ha
  · intro c hc
    by_cases hcb : c = b
    · exact ⟨i, by rw [(hid i).1, hdev]; exact hi.dev,
        by rw [(hid i).2, hcb]; exact hi.blockno⟩
    · obtain ⟨j, hj, hjc⟩ := h.pinned c ((hpins c hcb).mp hc)
      exact ⟨j, by rw [(hid j).1, hdev]; exact hj, by rw [(hid j).2]; exact hjc⟩
  · intro c hc
    rw [harea]
    by_cases hcb : c = b
    · subst hcb; exact hhome hc
    · exact h.home c ((hpins c hcb).mp hc)

/-- Reference count of a held buffer. -/
theorem Coherent.refcnt (h : Coherent m store pins) {i : Fin NBUF} {b : Nat} (hi : Holds m i b) :
    (m.buf i).refcnt = 1 + if b ∈ pins then 1 else 0 := by
  rw [h.count i hi.dev, hi.locked, hi.blockno, Bool.toNat_true]

/-- Unpinning a block whose home location is up to date. -/
theorem wp_bunpin {b : Nat} {rest : List Nat} (h : Coherent m store (b :: rest)) {i : Fin NBUF}
    (hi : Holds m i b) (hb : b ∉ rest) (hdisk : m.disk b = store b) :
    wp (bunpin i)
      (fun _ m' => Coherent m' store rest ∧ Holds m' i b ∧ Frame m m' i)
      (fun _ _ => False) m := by
  have hrefcnt : (m.buf i).refcnt = 1 + 1 := by simp [h.refcnt hi]
  have hself := Machine.setBuf_buf_self m i { m.buf i with refcnt := 1 }
  simp only [bunpin, modifyBuf, wp_modify]
  rw [hrefcnt, decUint_succ (by simp [UINT])]
  refine ⟨?_, ⟨?_, ?_, ?_⟩, Frame.setBuf _ _ _⟩
  · refine h.change hi rfl rfl (fun j hj => Machine.setBuf_buf_ne _ _ _ _ hj)
      (r := 1) (v := (m.buf i).data) hself (by simp [hb]) (h.data hi) ?_ (fun _ _ => rfl)
      (fun _ _ => rfl) (fun _ _ => hdisk) (fun hc => absurd hc hb)
    intro c hc
    simp [hc]
  · rw [hself]; exact hi.dev
  · rw [hself]; exact hi.blockno
  · rw [hself]; exact hi.locked

/-- The store after a block write: writes to the log area are not part of it. -/
def Log.install (l : Log) (store : Nat → Block) (b : Nat) (v : Block) : Nat → Block :=
  if l.area b then store else Function.update store b v

theorem Log.install_ne {l : Log} {b c : Nat} {v : Block} (h : c ≠ b) :
    l.install store b v c = store c := by
  unfold Log.install
  split
  · rfl
  · exact Function.update_of_ne h ..

/-- Filling a held buffer and writing it out. -/
theorem wp_bwrite (h : Coherent m store pins) {i : Fin NBUF} {b : Nat} (hi : Holds m i b)
    (v : Block) :
    wp (do setData i v; bwrite i)
      (fun _ m' => Coherent m' (m.log.install store b v) pins ∧ Holds m' i b ∧ m'.log = m.log ∧
        m'.disk = Function.update m.disk b v ∧ m'.writes = m.writes ++ [(b, v)] ∧
        ∀ j, j ≠ i → m'.buf j = m.buf j)
      (fun _ _ => False) m := by
  let m' : Machine :=
    { m.setBuf i { m.buf i with data := v } with
      disk := Function.update m.disk b v
      writes := m.writes ++ [(b, v)] }
  have hself : m'.buf i = { m.buf i with data := v } := Machine.setBuf_buf_self m i _
  have hother : ∀ j, j ≠ i → m'.buf j = m.buf j := fun j hj => Machine.setBuf_buf_ne m i j _ hj
  have hco : Coherent m' (m.log.install store b v) pins := by
    refine h.change hi rfl rfl hother (r := (m.buf i).refcnt) (v := v) hself (h.refcnt hi) ?_
      (fun _ _ => Iff.rfl) (fun c hc => Log.install_ne hc)
      (fun c hc => Function.update_of_ne hc ..) ?_ (h.home b)
    · by_cases ha : m.log.area b
      · simp [Machine.version, ha, m', Machine.setBuf]
      · simp [Machine.version, ha, m', Machine.setBuf, Log.install]
    · intro _ ha
      simp [m', Log.install, ha]
  have hholds : Holds m' i b :=
    ⟨by rw [hself]; exact hi.dev, by rw [hself]; exact hi.blockno, by rw [hself]; exact hi.locked⟩
  obtain ⟨-, rfl, hlocked⟩ := hi
  simp only [setData, bwrite, modifyBuf, diskWrite, wp_bind, wp_get, wp_modify, wp_stopIf,
    Machine.setBuf_buf_self]
  exact ⟨by simp [hlocked], fun _ => ⟨hco, hholds, rfl, rfl, rfl, hother⟩⟩

/-- Filling a held buffer and recording it in the log. Between commits the pins
are the entries of the in-memory header. -/
theorem wp_logWrite (h : Coherent m store m.log.lh) {i : Fin NBUF} {b : Nat} (hi : Holds m i b)
    (hb : ¬ m.log.area b) (v : Block) :
    wp (do setData i v; logWrite i)
      (fun _ m' => Coherent m' (Function.update store b v) m'.log.lh ∧ Holds m' i b ∧
        (∃ isNew, m.log.logWrite b = .ok (m'.log, isNew)) ∧
        m'.disk = m.disk ∧ m'.writes = m.writes ∧ ∀ j, j ≠ i → m'.buf j = m.buf j)
      (fun e m' => m.log.logWrite b = .error e ∧ m'.writes = m.writes) m := by
  obtain ⟨hdev, rfl, hlocked⟩ := hi
  have hown : Holds m i (m.buf i).blockno := ⟨hdev, rfl, hlocked⟩
  -- The two outcomes differ in the new header and in the pin that goes with it.
  have key : ∀ (l : Log) (r : Nat) (m' : Machine), l.dev = m.log.dev → l.start = m.log.start →
      (∀ c, c ≠ (m.buf i).blockno → (c ∈ l.lh ↔ c ∈ m.log.lh)) → (m.buf i).blockno ∈ l.lh →
      r = 2 → m' = (m.setBuf i { m.buf i with refcnt := r, data := v }).setLog l →
      Coherent m' (Function.update store (m.buf i).blockno v) m'.log.lh ∧
        Holds m' i (m.buf i).blockno ∧ ∀ j, j ≠ i → m'.buf j = m.buf j := by
    rintro l r m' hldev hlstart hpins hmem hr rfl
    have hself := Machine.setBuf_buf_self m i { m.buf i with refcnt := r, data := v }
    have hother := fun j hj => Machine.setBuf_buf_ne m i j { m.buf i with refcnt := r, data := v } hj
    have harea : ¬ l.area (m.buf i).blockno := by
      simpa only [Log.area, hlstart] using hb
    refine ⟨?_, ⟨?_, ?_, ?_⟩, hother⟩
    · refine h.change hown hldev hlstart hother (r := r) (v := v) hself ?_ ?_ hpins
        (fun c hc => Function.update_of_ne hc ..) (fun _ _ => rfl) (fun hc => absurd hmem hc)
        (fun _ => hb)
      · simp [hr, hmem]
      · simp [Machine.version, harea]
    · exact (congrArg Buf.dev hself).trans (hdev.trans hldev.symm)
    · exact (congrArg Buf.blockno hself).trans rfl
    · exact (congrArg Buf.locked hself).trans hlocked
  simp only [setData, logWrite, modifyBuf, wp_bind, wp_get, wp_modify, Machine.setBuf_log,
    Machine.setBuf_buf_self]
  cases hlw : m.log.logWrite (m.buf i).blockno with
  | error e => exact wp_throw.mpr ⟨rfl, rfl⟩
  | ok res =>
    obtain ⟨l, isNew⟩ := res
    have hrefcnt := h.refcnt hown
    obtain ⟨-, -, ⟨rfl, rfl, hmem⟩ | ⟨rfl, rfl, hmem⟩⟩ := Log.logWrite_ok hlw
    · -- absorbed: the block is pinned already
      obtain ⟨hco, hholds, hother⟩ := key m.log (m.buf i).refcnt _ rfl rfl
        (fun _ _ => Iff.rfl) hmem (by simp [hrefcnt, hmem]) rfl
      simp only [setLog, Bool.false_eq_true, if_false, wp_modify]
      exact ⟨hco, hholds, ⟨false, rfl⟩, rfl, rfl, hother⟩
    · have hinc : incUint (m.buf i).refcnt = 2 := by
        rw [hrefcnt, if_neg hmem]
        exact incUint_of_lt (by simp [UINT])
      obtain ⟨hco, hholds, hother⟩ := key (m.log.setLh (m.log.lh ++ [(m.buf i).blockno]))
        (incUint (m.buf i).refcnt) _ rfl rfl (fun c hc => by simp [hc]) (by simp) hinc rfl
      simp only [bpin, modifyBuf, setLog, wp_bind, wp_modify, if_true, Machine.setBuf_buf_self,
        Machine.setBuf_setBuf]
      exact ⟨hco, hholds, ⟨true, rfl⟩, rfl, rfl, hother⟩

end Xv6
