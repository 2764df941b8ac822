-- SUMMARY: What commit and recovery write to the disk, block by block, and when they find the buffers they need.
import Xv6.Log.Coherence
import Xv6.Base.Writes
import Mathlib.Data.List.Perm.Subperm

/-!
# Commit and recovery as write sequences

Each function of the commit path is specified by the list of block writes it
issues. A run that stops early has issued a prefix of that list. `Cut` also
records why it stopped: another process holds a buffer, or the cache is full of
pinned blocks.
-/

namespace Xv6

open Prog

/-- Nobody holds a buffer. -/
def Quiet (m : Machine) : Prop := ∀ i, (m.buf i).locked = false

/-- The effect of a function that issues the writes `ws` and releases what it
locked. -/
structure Wrote (m m' : Machine) (ws : List (Nat × Block)) : Prop where
  log : m'.log = m.log
  disk : m'.disk = Writes.apply ws m.disk
  writes : m'.writes = m.writes ++ ws
  locked : ∀ i, (m'.buf i).locked = (m.buf i).locked

/-- A function that should issue `ws` stopped: some prefix went out, and the
condition `ok` for it to finish was not met. -/
def Cut (m : Machine) (ws : List (Nat × Block)) (ok : Prop) : Bio.Stop → Machine → Prop :=
  fun _ m' => (∃ ws', ws' <+: ws ∧ m'.writes = m.writes ++ ws') ∧ ¬ ok

variable {m m' : Machine} {store : Nat → Block} {pins : List Nat} {ws ws' : List (Nat × Block)}
  {ok ok' : Prop} {e : Bio.Stop}

theorem Wrote.refl (m : Machine) : Wrote m m [] := ⟨rfl, rfl, by simp, fun _ => rfl⟩

theorem Wrote.trans {m'' : Machine} (h : Wrote m m' ws) (h' : Wrote m' m'' ws') :
    Wrote m m'' (ws ++ ws') where
  log := h'.log.trans h.log
  disk := by rw [h'.disk, h.disk, Writes.apply_append]
  writes := by rw [h'.writes, h.writes, List.append_assoc]
  locked := fun i => (h'.locked i).trans (h.locked i)

theorem Wrote.quiet (h : Wrote m m' ws) (hq : Quiet m) : Quiet m' :=
  fun i => (h.locked i).trans (hq i)

/-- Stopping before anything was written. -/
theorem Cut.none (hw : m'.writes = m.writes) (hok : ¬ ok) : Cut m ws ok e m' :=
  ⟨⟨[], List.nil_prefix, by simp [hw]⟩, hok⟩

/-- Stopping in the first of two parts. -/
theorem Cut.left (h : Cut m ws ok e m') (hok : ok' → ok) : Cut m (ws ++ ws') ok' e m' := by
  obtain ⟨⟨ws₀, hpre, hw⟩, hno⟩ := h
  exact ⟨⟨ws₀, hpre.trans (List.prefix_append ws ws'), hw⟩, fun h' => hno (hok h')⟩

/-- Stopping in the second of two parts. -/
theorem Cut.right {m₁ : Machine} (h : Cut m₁ ws' ok e m') (hw : m₁.writes = m.writes ++ ws)
    (hok : ok' → ok) : Cut m (ws ++ ws') ok' e m' := by
  obtain ⟨⟨ws₀, hpre, hw'⟩, hno⟩ := h
  refine ⟨⟨ws ++ ws₀, ?_, ?_⟩, fun h' => hno (hok h')⟩
  · exact (List.prefix_append_right_inj ws).mpr hpre
  · rw [hw', hw, List.append_assoc]

/-! ## Finding a buffer -/

/-- With fewer pins than buffers, and at most one buffer held, there is a buffer
to recycle. -/
theorem Coherent.exists_free (h : Coherent m store pins) (held : List Nat)
    (hheld : ∀ i, (m.buf i).locked = true → (m.buf i).blockno ∈ held)
    (hroom : pins.length + held.length < NBUF) : ∃ i, (m.buf i).refcnt = 0 := by
  by_contra hall
  push Not at hall
  -- Otherwise every buffer has a block number of its own among pins and held blocks.
  have hdev : ∀ i, (m.buf i).dev = m.log.dev := by
    intro i
    by_contra hne
    exact hall i (h.spare i hne).1
  have hmem : ∀ i, (m.buf i).blockno ∈ pins ++ held := by
    intro i
    cases hl : (m.buf i).locked with
    | true => exact List.mem_append_right _ (hheld i hl)
    | false =>
      have hcount := h.count i (hdev i)
      have := hall i
      rw [hcount, hl] at this
      by_contra hno
      simp only [List.mem_append, not_or] at hno
      simp [hno.1] at this
  have hnodup : ((List.finRange NBUF).map fun i => (m.buf i).blockno).Nodup := by
    apply (List.nodup_finRange NBUF).map_on
    intro i _ j _ hij
    exact h.uniq i j (hdev i) (hdev j) hij
  have hsub : (List.finRange NBUF).map (fun i => (m.buf i).blockno) ⊆ pins ++ held := by
    intro b hb
    obtain ⟨i, -, rfl⟩ := List.mem_map.mp hb
    exact hmem i
  have hle := (hnodup.subperm hsub).length_le
  simp only [List.length_map, List.length_finRange, List.length_append] at hle
  omega

/-- `bread` cannot stop on a quiet machine with room in the cache. -/
theorem BreadStops.not_quiet {b : Nat} (h : Coherent m store pins) (hs : BreadStops m b e) :
    ¬ (Quiet m ∧ pins.length < NBUF) := by
  rintro ⟨hq, hroom⟩
  cases hs with
  | busy hi => simpa [hq _] using hi.locked
  | full _ hall =>
    obtain ⟨i, hi⟩ := h.exists_free [] (fun i hl => by simp [hq i] at hl) (by simpa using hroom)
    exact hall i hi

/-- With one buffer held, `bread` of another block cannot stop if that block is
pinned, or if there is room for one buffer more. -/
theorem BreadStops.not_quiet_held {b c : Nat} {m₁ : Machine} {i : Fin NBUF}
    (h : Coherent m₁ store pins) (hs : BreadStops m₁ b e) (hi : Holds m₁ i c) (hbc : b ≠ c)
    (hf : Frame m m₁ i) :
    ¬ (Quiet m ∧ (b ∈ pins ∨ pins.length + 1 < NBUF)) := by
  rintro ⟨hq, hroom⟩
  have honly : ∀ j, (m₁.buf j).locked = true → j = i := by
    intro j hj
    by_contra hji
    rw [hf.locked j hji, hq j] at hj
    cases hj
  cases hs with
  | busy hj =>
    have := honly _ hj.locked
    subst this
    exact hbc (hj.blockno.symm.trans hi.blockno)
  | full hno hall =>
    rcases hroom with hmem | hroom
    · obtain ⟨j, hj, hjb⟩ := h.pinned b hmem
      exact hno j hj hjb
    · obtain ⟨j, hj⟩ := h.exists_free [c]
        (fun j hj => by rw [honly j hj, hi.blockno]; simp) (by simpa using hroom)
      exact hall j hj

/-! ## A log block and a home block held together -/

/-- From `m`, exactly the buffers `i` and `j` were locked in addition. -/
structure LockedTwo (m m' : Machine) (i j : Fin NBUF) (a b : Nat) : Prop where
  fst : Holds m' i a
  snd : Holds m' j b
  ne : i ≠ j
  free_fst : (m.buf i).locked = false
  free_snd : (m.buf j).locked = false
  locked : ∀ k, k ≠ i → k ≠ j → (m'.buf k).locked = (m.buf k).locked

theorem LockedTwo.symm {i j : Fin NBUF} {a b : Nat} (h : LockedTwo m m' i j a b) :
    LockedTwo m m' j i b a :=
  ⟨h.snd, h.fst, h.ne.symm, h.free_snd, h.free_fst, fun k hk hk' => h.locked k hk' hk⟩

/-- Reading two different blocks and keeping both. -/
theorem wp_breadTwo (h : Coherent m store pins) {a b : Nat} (hab : b ≠ a)
    {Q : Fin NBUF → Fin NBUF → Machine → Prop} {E : Bio.Stop → Machine → Prop}
    (hQ : ∀ i j m', Coherent m' store pins → LockedTwo m m' i j a b → m'.disk = m.disk →
      m'.writes = m.writes → m'.log = m.log → Q i j m')
    (hE : ∀ e m', m'.writes = m.writes →
      ¬ (Quiet m ∧ pins.length < NBUF ∧ (b ∈ pins ∨ pins.length + 1 < NBUF)) → E e m') :
    wp (bread m.log.dev a) (fun i s => wp (bread m.log.dev b) (fun j s' => Q i j s') E s) E m := by
  refine (wp_bread h a).mono ?_ ?_
  · rintro i m₁ ⟨h₁, hi, hf, hfree⟩
    rw [← hf.log]
    refine (wp_bread h₁ b).mono ?_ ?_
    · rintro j m₂ ⟨h₂, hj, hf₂, hfree₂⟩
      have hij : i ≠ j := by
        intro hij
        subst hij
        rw [hi.locked] at hfree₂
        cases hfree₂
      refine hQ i j m₂ h₂ ⟨hi.frame hf₂ hij, hj, hij, hfree, ?_, ?_⟩ (hf₂.disk.trans hf.disk)
        (hf₂.writes.trans hf.writes) (hf₂.log.trans hf.log)
      · rw [← hf.locked j hij.symm]; exact hfree₂
      · intro k hki hkj
        rw [hf₂.locked k hkj, hf.locked k hki]
    · rintro e m' ⟨hs, hw⟩
      refine hE e m' (hw.trans hf.writes) ?_
      rintro ⟨hq, -, hroom⟩
      exact hs.not_quiet_held h₁ hi hab hf ⟨hq, hroom⟩
  · rintro e m' ⟨hs, hw⟩
    refine hE e m' hw ?_
    rintro ⟨hq, hroom, -⟩
    exact hs.not_quiet h ⟨hq, hroom⟩

/-- Releasing both restores the locks. -/
theorem wp_brelseTwo {m₁ : Machine} (h : Coherent m₁ store pins) {i j : Fin NBUF} {a b : Nat}
    (hl : LockedTwo m m₁ i j a b) {Q : Unit → Machine → Prop} {E : Bio.Stop → Machine → Prop}
    (hQ : ∀ m', Coherent m' store pins → (∀ k, (m'.buf k).locked = (m.buf k).locked) →
      m'.disk = m₁.disk → m'.writes = m₁.writes → m'.log = m₁.log → Q () m') :
    wp (brelse i) (fun _ s => wp (brelse j) Q E s) E m₁ := by
  refine (wp_brelse h hl.fst).total ?_
  rintro _ m₂ ⟨h₂, hf₂, hi⟩
  refine (wp_brelse h₂ (hl.snd.frame hf₂ hl.ne.symm)).total ?_
  rintro _ m₃ ⟨h₃, hf₃, hj⟩
  refine hQ m₃ h₃ ?_ (hf₃.disk.trans hf₂.disk) (hf₃.writes.trans hf₂.writes)
    (hf₃.log.trans hf₂.log)
  intro k
  by_cases hkj : k = j
  · rw [hkj, hj, hl.free_snd]
  · rw [hf₃.locked k hkj]
    by_cases hki : k = i
    · rw [hki, hi, hl.free_fst]
    · rw [hf₂.locked k hki, hl.locked k hki hkj]

/-- The locks do not change when the holder only changes data. -/
theorem LockedTwo.step {m₁ m₂ : Machine} {i j k : Fin NBUF} {a b : Nat}
    (hl : LockedTwo m m₁ i j a b) (hi : Holds m₂ i a) (hj : Holds m₂ j b)
    (hother : ∀ l, l ≠ k → (m₂.buf l).locked = (m₁.buf l).locked) (hk : k = i ∨ k = j) :
    LockedTwo m m₂ i j a b where
  fst := hi
  snd := hj
  ne := hl.ne
  free_fst := hl.free_fst
  free_snd := hl.free_snd
  locked := by
    intro l hli hlj
    rw [hother l (by rcases hk with rfl | rfl <;> assumption), hl.locked l hli hlj]

/-! ## write_log -/

/-- The writes of `write_log` from `tail` on. -/
def logWrites (start tail : Nat) : List Block → List (Nat × Block)
  | [] => []
  | v :: vs => (start + tail + 1, v) :: logWrites start (tail + 1) vs

theorem mem_logWrites_keys {start b : Nat} {vs : List Block} :
    ∀ {tail : Nat}, b ∈ (logWrites start tail vs).map Prod.fst →
      start + tail + 1 ≤ b ∧ b ≤ start + tail + vs.length := by
  induction vs with
  | nil => intro tail h; simp [logWrites] at h
  | cons v vs ih =>
    intro tail h
    simp only [logWrites, List.map_cons, List.mem_cons, List.length_cons] at h ⊢
    rcases h with rfl | h
    · omega
    · have := ih h; omega

theorem Log.area_logBlock {l : Log} {tail : Nat} (h : tail < LOGBLOCKS) :
    l.area (l.start + tail + 1) := by
  constructor <;> omega

/-- One block goes from the cache to the log. The copy of a pinned block needs no
buffer to recycle but the one for the log block. -/
theorem wp_copyToLog (h : Coherent m store pins) {tail b : Nat} (hmem : b ∈ pins)
    (htail : tail < LOGBLOCKS) :
    wp (copyToLog tail b)
      (fun _ m' => Coherent m' store pins ∧ Wrote m m' [(m.log.start + tail + 1, store b)])
      (Cut m [(m.log.start + tail + 1, store b)] (Quiet m ∧ pins.length < NBUF)) m := by
  have harea : m.log.area (m.log.start + tail + 1) := Log.area_logBlock htail
  have hne : b ≠ m.log.start + tail + 1 := fun heq => h.home b hmem (heq ▸ harea)
  simp only [copyToLog, wp_bind, wp_get]
  refine wp_breadTwo h hne (fun i j m₂ h₂ hl hd₂ hw₂ hlog₂ => ?_) (fun e m' hw hno => ?_)
  · -- `fromBuf` is the cached version of `b`; writing it to the log area keeps the store.
    have hdata : (m₂.buf j).data = store b := by
      rw [h₂.data hl.snd]
      have : ¬ m₂.log.area b := by rw [hlog₂]; exact h.home b hmem
      simp [Machine.version, this]
    have hbw := wp_bind.mp (wp_bwrite h₂ hl.fst (m₂.buf j).data)
    refine hbw.total fun _ m₃' h₃' => h₃'.total ?_
    rintro _ m₃ ⟨h₃, hi₃, hlog₃, hd₃, hw₃, hother⟩
    have hinst : m₂.log.install store (m.log.start + tail + 1) (m₂.buf j).data = store := by
      rw [Log.install, hlog₂, if_pos harea]
    rw [hinst] at h₃
    have hj₃ : Holds m₃ j b := hl.snd.same (hother j hl.ne.symm) hlog₃
    have hl₃ : LockedTwo m m₃ i j (m.log.start + tail + 1) b :=
      hl.step hi₃ hj₃ (fun l hli => by rw [hother l hli]) (.inl rfl)
    refine wp_brelseTwo h₃ hl₃.symm fun m₅ h₅ hlock₅ hd₅ hw₅ hlog₅ => ?_
    refine ⟨h₅, ?_, ?_, ?_, hlock₅⟩
    · rw [hlog₅, hlog₃, hlog₂]
    · rw [hd₅, hd₃, hd₂, hdata]; rfl
    · rw [hw₅, hw₃, hw₂, hdata]
  · exact Cut.none hw fun hok => hno ⟨hok.1, hok.2, .inl hmem⟩

theorem wp_writeLogFrom (bs : List Nat) : ∀ (tail : Nat) (m : Machine),
    Coherent m store pins → (∀ b ∈ bs, b ∈ pins) → tail + bs.length ≤ LOGBLOCKS →
    wp (writeLogFrom tail bs)
      (fun _ m' => Coherent m' store pins ∧
        Wrote m m' (logWrites m.log.start tail (bs.map store)))
      (Cut m (logWrites m.log.start tail (bs.map store)) (Quiet m ∧ pins.length < NBUF)) m := by
  induction bs with
  | nil => intro tail m h _ _; exact wp_pure.mpr ⟨h, Wrote.refl m⟩
  | cons b bs ih =>
    intro tail m h hpins hlen
    simp only [List.length_cons] at hlen
    have hsplit : logWrites m.log.start tail ((b :: bs).map store)
        = [(m.log.start + tail + 1, store b)] ++ logWrites m.log.start (tail + 1) (bs.map store) := rfl
    rw [writeLogFrom, wp_bind, hsplit]
    refine (wp_copyToLog h (hpins b (by simp)) (by omega)).mono ?_ (fun e m' hcut => hcut.left id)
    rintro _ m₁ ⟨h₁, hwrote⟩
    have hrest := ih (tail + 1) m₁ h₁ (fun c hc => hpins c (by simp [hc])) (by omega)
    rw [hwrote.log] at hrest
    refine hrest.mono ?_ (fun e m' hcut => ?_)
    · rintro _ m₂ ⟨h₂, hwrote₂⟩
      exact ⟨h₂, hwrote.trans hwrote₂⟩
    · exact hcut.right hwrote.writes fun hok => ⟨hwrote.quiet hok.1, hok.2⟩

/-! ## install_trans -/

/-- The writes of `install_trans` from `tail` on: the contents of the log blocks,
to the home locations. -/
def installWrites (disk : Nat → Block) (start tail : Nat) : List Nat → List (Nat × Block)
  | [] => []
  | b :: bs => (b, disk (start + tail + 1)) :: installWrites disk start (tail + 1) bs

theorem installWrites_congr {disk disk' : Nat → Block} {start : Nat} {bs : List Nat} :
    ∀ {tail : Nat}, (∀ t, tail ≤ t → t < tail + bs.length → disk (start + t + 1) = disk' (start + t + 1)) →
      installWrites disk start tail bs = installWrites disk' start tail bs := by
  induction bs with
  | nil => intro tail _; rfl
  | cons b bs ih =>
    intro tail h
    simp only [List.length_cons] at h
    simp only [installWrites, List.cons.injEq, Prod.mk.injEq, true_and]
    exact ⟨h tail (Nat.le_refl _) (by omega), ih fun t h₁ h₂ => h t (by omega) (by omega)⟩

theorem installWrites_keys {disk : Nat → Block} {start : Nat} {bs : List Nat} :
    ∀ {tail : Nat}, (installWrites disk start tail bs).map Prod.fst = bs := by
  induction bs with
  | nil => intro tail; rfl
  | cons b bs ih => intro tail; simp [installWrites, ih]

/-- The blocks that stay pinned while `install_trans` has `bs` still to do. -/
def stillPinned (recovering : Bool) (bs : List Nat) : List Nat := if recovering then [] else bs

/-- One block goes from the log to its home location. -/
theorem wp_copyHome (recovering : Bool) {tail b : Nat} {bs : List Nat}
    (h : Coherent m store (stillPinned recovering (b :: bs))) (hb : ¬ m.log.area b) (hbs : b ∉ bs)
    (htail : tail < LOGBLOCKS) :
    wp (copyHome recovering tail b)
      (fun _ m' => Coherent m' (Function.update store b (m.disk (m.log.start + tail + 1)))
          (stillPinned recovering bs) ∧
        Wrote m m' [(b, m.disk (m.log.start + tail + 1))])
      (Cut m [(b, m.disk (m.log.start + tail + 1))]
        (Quiet m ∧ (stillPinned recovering (b :: bs)).length < NBUF)) m := by
  have harea : m.log.area (m.log.start + tail + 1) := Log.area_logBlock htail
  have hne : b ≠ m.log.start + tail + 1 := fun heq => hb (heq ▸ harea)
  simp only [copyHome, wp_bind, wp_get]
  refine wp_breadTwo h hne (fun i j m₂ h₂ hl hd₂ hw₂ hlog₂ => ?_) (fun e m' hw hno => ?_)
  · have hdata : (m₂.buf i).data = m.disk (m.log.start + tail + 1) := by
      rw [h₂.data hl.fst]
      have : m₂.log.area (m.log.start + tail + 1) := by rw [hlog₂]; exact harea
      simp [Machine.version, this, hd₂]
    have hbw := wp_bind.mp (wp_bwrite h₂ hl.snd (m₂.buf i).data)
    refine hbw.total fun _ m₃' h₃' => h₃'.total ?_
    rintro _ m₃ ⟨h₃, hj₃, hlog₃, hd₃, hw₃, hother⟩
    have hinst : m₂.log.install store b (m₂.buf i).data
        = Function.update store b (m.disk (m.log.start + tail + 1)) := by
      rw [Log.install, hlog₂, if_neg hb, hdata]
    rw [hinst] at h₃
    have hi₃ : Holds m₃ i (m.log.start + tail + 1) := hl.fst.same (hother i hl.ne) hlog₃
    have hl₃ : LockedTwo m m₃ i j (m.log.start + tail + 1) b :=
      hl.step hi₃ hj₃ (fun l hlj => by rw [hother l hlj]) (.inr rfl)
    -- The rest of the turn, once the pin is settled.
    have hrest : ∀ m₄, Coherent m₄ (Function.update store b (m.disk (m.log.start + tail + 1)))
          (stillPinned recovering bs) →
        LockedTwo m m₄ i j (m.log.start + tail + 1) b → m₄.disk = m₃.disk →
        m₄.writes = m₃.writes → m₄.log = m₃.log →
        wp (do brelse i; brelse j)
          (fun _ m' => Coherent m' (Function.update store b (m.disk (m.log.start + tail + 1)))
              (stillPinned recovering bs) ∧
            Wrote m m' [(b, m.disk (m.log.start + tail + 1))])
          (Cut m [(b, m.disk (m.log.start + tail + 1))]
            (Quiet m ∧ (stillPinned recovering (b :: bs)).length < NBUF)) m₄ := by
      intro m₄ h₄ hl₄ hd₄ hw₄ hlog₄
      rw [wp_bind]
      refine wp_brelseTwo h₄ hl₄ fun m₅ h₅ hlock₅ hd₅ hw₅ hlog₅ => ?_
      refine ⟨h₅, ?_, ?_, ?_, hlock₅⟩
      · rw [hlog₅, hlog₄, hlog₃, hlog₂]
      · rw [hd₅, hd₄, hd₃, hd₂, hdata]; rfl
      · rw [hw₅, hw₄, hw₃, hw₂, hdata]
    cases recovering with
    | true =>
      simp only [Bool.not_true, Bool.false_eq_true, if_false]
      exact hrest m₃ h₃ hl₃ rfl rfl rfl
    | false =>
      simp only [Bool.not_false, if_true]
      rw [wp_bind]
      have hclean : m₃.disk b
          = Function.update store b (m.disk (m.log.start + tail + 1)) b := by
        rw [hd₃, hdata]; simp
      refine (wp_bunpin h₃ hj₃ hbs hclean).total ?_
      rintro _ m₄ ⟨h₄, hj₄, hf₄⟩
      exact hrest m₄ h₄
        (hl₃.step (hi₃.frame hf₄ hl.ne) hj₄ (fun l hlj => hf₄.locked l hlj) (.inr rfl))
        hf₄.disk hf₄.writes hf₄.log
  · refine Cut.none hw fun hok => hno ⟨hok.1, hok.2, ?_⟩
    cases recovering <;> simp [stillPinned, NBUF, MAXOPBLOCKS]

theorem wp_installTransFrom (recovering : Bool) (bs : List Nat) :
    ∀ (tail : Nat) (store : Nat → Block) (m : Machine),
    Coherent m store (stillPinned recovering bs) → (∀ b ∈ bs, ¬ m.log.area b) → bs.Nodup →
    tail + bs.length ≤ LOGBLOCKS →
    wp (installTransFrom recovering tail bs)
      (fun _ m' =>
        Coherent m' (Writes.apply (installWrites m.disk m.log.start tail bs) store) [] ∧
        Wrote m m' (installWrites m.disk m.log.start tail bs))
      (Cut m (installWrites m.disk m.log.start tail bs)
        (Quiet m ∧ (stillPinned recovering bs).length < NBUF)) m := by
  induction bs with
  | nil =>
    intro tail store m h _ _ _
    refine wp_pure.mpr ⟨?_, Wrote.refl m⟩
    simpa [stillPinned, installWrites] using h
  | cons b bs ih =>
    intro tail store m h hhome hnd hlen
    simp only [List.length_cons] at hlen
    obtain ⟨hbs, hnd'⟩ := List.nodup_cons.mp hnd
    have hb : ¬ m.log.area b := hhome b (by simp)
    have hsplit : installWrites m.disk m.log.start tail (b :: bs)
        = [(b, m.disk (m.log.start + tail + 1))]
          ++ installWrites m.disk m.log.start (tail + 1) bs := rfl
    rw [installTransFrom, wp_bind, hsplit]
    refine (wp_copyHome recovering h hb hbs (by omega)).mono ?_ (fun e m' hcut => hcut.left id)
    rintro _ m₁ ⟨h₁, hwrote⟩
    -- The home write does not touch the log blocks still to be copied.
    have hsame : installWrites m₁.disk m.log.start (tail + 1) bs
        = installWrites m.disk m.log.start (tail + 1) bs := by
      apply installWrites_congr
      intro t ht₁ ht₂
      rw [hwrote.disk]
      apply Writes.apply_of_not_mem
      simp only [List.map_cons, List.map_nil, List.mem_singleton]
      intro heq
      exact hb (heq ▸ Log.area_logBlock (by omega))
    have hnext := ih (tail + 1) _ m₁ h₁
      (fun c hc => by rw [hwrote.log]; exact hhome c (by simp [hc])) hnd' (by omega)
    rw [hwrote.log, hsame] at hnext
    refine hnext.mono ?_ (fun e m' hcut => ?_)
    · rintro _ m₂ ⟨h₂, hwrote₂⟩
      exact ⟨h₂, hwrote.trans hwrote₂⟩
    · refine hcut.right hwrote.writes fun hok => ⟨hwrote.quiet hok.1, ?_⟩
      have := hok.2
      cases recovering <;> simp [stillPinned] at this ⊢
      omega

/-- After `write_log`, `install_trans` finds in the log what `write_log` put there. -/
theorem installWrites_logWrites {start : Nat} {bs : List Nat} :
    ∀ {tail : Nat} {vs : List Block} {disk : Nat → Block}, bs.length = vs.length →
      installWrites (Writes.apply (logWrites start tail vs) disk) start tail bs = bs.zip vs := by
  induction bs with
  | nil => intro tail vs disk h; simp [installWrites]
  | cons b bs ih =>
    intro tail vs disk h
    cases vs with
    | nil => simp at h
    | cons v vs =>
      have hv : Writes.apply (logWrites start (tail + 1) vs)
          (Function.update disk (start + tail + 1) v) (start + tail + 1) = v := by
        rw [Writes.apply_of_not_mem, Function.update_self]
        intro hmem
        have := mem_logWrites_keys hmem
        omega
      simp only [installWrites, logWrites, Writes.apply_cons, hv, List.zip_cons_cons]
      rw [ih (by simpa using h)]

/-! ## The header block -/

theorem Log.area_start (l : Log) : l.area l.start := ⟨Nat.le_refl _, Nat.le_add_right _ _⟩

/-- Coherence speaks only about where the log is. -/
theorem Coherent.setLog (h : Coherent m store pins) {l : Log} (hdev : l.dev = m.log.dev)
    (hstart : l.start = m.log.start) : Coherent (m.setLog l) store pins := by
  obtain ⟨start, dev, outstanding, committing, lh⟩ := l
  obtain rfl : dev = m.log.dev := hdev
  obtain rfl : start = m.log.start := hstart
  exact ⟨h.dev_ne, h.uniq, h.spare, h.count, h.filled, h.cached, h.clean, h.pinned, h.home⟩

theorem Coherent.setLh (h : Coherent m store pins) (lh : List Nat) :
    Coherent (m.setLog (m.log.setLh lh)) store pins :=
  h.setLog rfl rfl

theorem wp_writeHead (h : Coherent m store pins) :
    wp writeHead
      (fun _ m' => Coherent m' store pins ∧
        Wrote m m' [(m.log.start, LogHeader.encode (m.disk m.log.start) m.log.lh)])
      (Cut m [(m.log.start, LogHeader.encode (m.disk m.log.start) m.log.lh)]
        (Quiet m ∧ pins.length < NBUF)) m := by
  simp only [writeHead, wp_bind, wp_get]
  refine (wp_bread h _).mono ?_ ?_
  · rintro i m₁ ⟨h₁, hi, hf, hfree⟩
    have harea : m₁.log.area m.log.start := by rw [hf.log]; exact m.log.area_start
    have hdata : (m₁.buf i).data = m.disk m.log.start := by
      rw [h₁.data hi]
      simp [Machine.version, harea, hf.disk]
    rw [hdata]
    have hbw := wp_bind.mp
      (wp_bwrite h₁ hi (LogHeader.encode (m.disk m.log.start) m.log.lh))
    refine hbw.total fun _ m₂' h₂' => h₂'.total ?_
    rintro _ m₂ ⟨h₂, hi₂, hlog₂, hd₂, hw₂, hother⟩
    rw [Log.install, if_pos harea] at h₂
    refine (wp_brelse h₂ hi₂).total ?_
    rintro _ m₃ ⟨h₃, hf₃, hlock⟩
    refine ⟨h₃, ?_, ?_, ?_, ?_⟩
    · rw [hf₃.log, hlog₂, hf.log]
    · rw [hf₃.disk, hd₂, hf.disk]; rfl
    · rw [hf₃.writes, hw₂, hf.writes]
    · intro k
      by_cases hk : k = i
      · rw [hk, hlock, hfree]
      · rw [hf₃.locked k hk, hother k hk, hf.locked k hk]
  · rintro e m' ⟨hs, hw⟩
    exact Cut.none hw (hs.not_quiet h)

theorem wp_readHead (h : Coherent m store pins) (hok : Quiet m ∧ pins.length < NBUF) :
    wp readHead
      (fun _ m' => Coherent m' store pins ∧ Quiet m' ∧ m'.disk = m.disk ∧ m'.writes = m.writes ∧
        m'.log = m.log.setLh (LogHeader.decode (m.disk m.log.start)))
      (fun _ _ => False) m := by
  simp only [readHead, setLog, wp_bind, wp_get, wp_modify]
  refine (wp_bread h _).mono ?_ (fun e m' hs => hs.1.not_quiet h hok)
  rintro i m₁ ⟨h₁, hi, hf, -⟩
  have harea : m₁.log.area m.log.start := by rw [hf.log]; exact m.log.area_start
  have hdata : (m₁.buf i).data = m.disk m.log.start := by
    rw [h₁.data hi]
    simp [Machine.version, harea, hf.disk]
  rw [hdata]
  have h₂ := h₁.setLh (LogHeader.decode (m.disk m.log.start))
  rw [hf.log] at h₂
  have hi₂ : Holds (m₁.setLog (m.log.setLh (LogHeader.decode (m.disk m.log.start)))) i m.log.start :=
    ⟨by rw [← hf.log]; exact hi.dev, hi.blockno, hi.locked⟩
  refine (wp_brelse h₂ hi₂).total ?_
  rintro _ m₃ ⟨h₃, hf₃, hlock⟩
  refine ⟨h₃, ?_, hf₃.disk.trans hf.disk, hf₃.writes.trans hf.writes, hf₃.log⟩
  intro k
  by_cases hk : k = i
  · rw [hk, hlock]
  · exact (hf₃.locked k hk).trans ((hf.locked k hk).trans (hok.1 k))

/-! ## commit and recover_from_log -/

/-- Everything `commit` writes for the header entries `lh`. -/
def commitWrites (start : Nat) (disk store : Nat → Block) (lh : List Nat) : List (Nat × Block) :=
  logWrites start 0 (lh.map store) ++ ([(start, LogHeader.encode (disk start) lh)] ++
    (lh.map (fun b => (b, store b)) ++
      [(start, LogHeader.encode (LogHeader.encode (disk start) lh) [])]))

/-- What `commit` leaves behind: the store is on disk, and the log is empty. -/
structure Committed (m m' : Machine) (store : Nat → Block) (ws : List (Nat × Block)) : Prop where
  coherent : Coherent m' store []
  log : m'.log = m.log.setLh []
  disk : m'.disk = Writes.apply ws m.disk
  writes : m'.writes = m.writes ++ ws
  locked : ∀ i, (m'.buf i).locked = (m.buf i).locked

theorem wp_commit (h : Coherent m store m.log.lh) (hnd : m.log.lh.Nodup)
    (hlen : m.log.lh.length ≤ LOGBLOCKS) (hpos : 0 < m.log.lh.length) :
    wp commit
      (fun _ m' => Committed m m' store (commitWrites m.log.start m.disk store m.log.lh))
      (Cut m (commitWrites m.log.start m.disk store m.log.lh)
        (Quiet m ∧ m.log.lh.length < NBUF)) m := by
  simp only [commit, writeLog, installTrans, clearHead, setLog, wp_bind, wp_get, wp_modify, hpos, if_true]
  -- write_log
  refine (wp_writeLogFrom m.log.lh 0 m h (fun _ hb => hb) (by simpa using hlen)).mono ?_
    (fun e m' hcut => hcut.left id)
  rintro _ m₁ ⟨h₁, hwrote₁⟩
  have hstart₁ : m₁.disk m.log.start = m.disk m.log.start := by
    rw [hwrote₁.disk, Writes.apply_of_not_mem]
    intro hmem
    have := mem_logWrites_keys hmem
    omega
  -- write_head
  have hhead := wp_writeHead h₁
  rw [hwrote₁.log, hstart₁] at hhead
  refine hhead.mono ?_ (fun e m' hcut => (hcut.left fun hok =>
    ⟨hwrote₁.quiet hok.1, hok.2⟩).right hwrote₁.writes id)
  rintro _ m₂ ⟨h₂, hwrote₂⟩
  have hwrote₁₂ := hwrote₁.trans hwrote₂
  -- install_trans finds the store's versions in the log
  have hinst : installWrites m₂.disk m.log.start 0 m.log.lh
      = m.log.lh.map fun b => (b, store b) := by
    have hsame : installWrites m₂.disk m.log.start 0 m.log.lh
        = installWrites m₁.disk m.log.start 0 m.log.lh := by
      apply installWrites_congr
      intro t _ _
      rw [hwrote₂.disk]
      apply Writes.apply_of_not_mem
      simp only [List.map_cons, List.map_nil, List.mem_singleton]
      omega
    rw [hsame, hwrote₁.disk, installWrites_logWrites (by simp), ← List.map_prod_left_eq_zip]
  have hstore : Writes.apply (m.log.lh.map fun b => (b, store b)) store = store := by
    apply Writes.apply_same
    intro w hw
    obtain ⟨b, -, rfl⟩ := List.mem_map.mp hw
    rfl
  have hrun := wp_installTransFrom false m.log.lh 0 store m₂ h₂
    (fun b hb => by rw [hwrote₁₂.log]; exact h.home b hb) hnd (by simpa using hlen)
  rw [hwrote₁₂.log, hinst, hstore] at hrun
  rw [hwrote₁₂.log]
  refine hrun.mono ?_ (fun e m' hcut => ?_)
  · rintro _ m₃ ⟨h₃, hwrote₃⟩
    have hwrote₁₃ := hwrote₁₂.trans hwrote₃
    -- the second write_head erases the transaction
    have hstart₃ : m₃.disk m.log.start = LogHeader.encode (m.disk m.log.start) m.log.lh := by
      rw [hwrote₃.disk, Writes.apply_of_not_mem, hwrote₂.disk]
      · simp
      · intro hmem
        simp only [List.map_map, List.mem_map, Function.comp] at hmem
        obtain ⟨b, hb, heq⟩ := hmem
        exact h.home b hb (heq ▸ m.log.area_start)
    have hlast := wp_writeHead (h₃.setLh [])
    simp only [hwrote₁₃.log, Machine.setLog_log, Machine.setLog_disk, Log.setLh_start,
      Log.setLh_lh, hstart₃] at hlast
    rw [hwrote₁₃.log]
    refine hlast.mono ?_ (fun e m' hcut => ?_)
    · rintro _ m₄ ⟨h₄, hwrote₄⟩
      refine ⟨h₄, hwrote₄.log, ?_, ?_, fun i => ?_⟩
      · rw [hwrote₄.disk, commitWrites, ← List.append_assoc, ← List.append_assoc,
          Writes.apply_append, Machine.setLog_disk, hwrote₁₃.disk]
      · rw [hwrote₄.writes, commitWrites, Machine.setLog_writes, hwrote₁₃.writes]
        simp only [List.append_assoc]
      · exact (hwrote₄.locked i).trans (hwrote₁₃.locked i)
    · rw [commitWrites, ← List.append_assoc, ← List.append_assoc]
      exact hcut.right hwrote₁₃.writes fun hok => ⟨hwrote₁₃.quiet hok.1, by simp⟩
  · rw [commitWrites, ← List.append_assoc]
    exact (hcut.left fun hok => ⟨hwrote₁₂.quiet hok.1, hok.2⟩).right hwrote₁₂.writes id

end Xv6
