-- SUMMARY: The descriptors, the rings and the completions of the virtio disk in every run.
import Xv6.Virtio.Descriptors
import Xv6.Base.Ring
import Mathlib.Data.List.Perm.Subperm

/-!
# The descriptor discipline

Every request between its allocation and its end owns three descriptors, and a descriptor that
no request owns is free. The head of a published chain is in the avail ring, with the device, or
in the used ring, until the handler clears the flag of its buffer. As heads are descriptors, there
are never more than `NUM` of them, so no entry of a ring is overwritten too early, and the 16-bit
counters may wrap.
-/

namespace Xv6.Virtio

variable {B : Type} {n : Nat} {d : Disk B} {r r' : Request B} {p p' : Fin n}

/-! ## The invariant -/

namespace Pc

/-- The request whose process needs the lock. -/
def critical : Pc B → Option (Request B)
  | .format r | .publish r => some r
  | _ => none

/-- The request that is in the avail ring, but not published. -/
def entered : Pc B → Option (Request B)
  | .publish r => some r
  | _ => none

/-- The request whose chain is written. -/
def written : Pc B → Option (Request B)
  | .publish r | .wait r => some r
  | _ => none

/-- The request that is published. -/
def waiting : Pc B → Option (Request B)
  | .wait r => some r
  | _ => none

end Pc

variable {s s' : State n B} {q : List Nat} {c : Pc B}

/-- What the places of all processes say. -/
def State.at {α : Type} (s : State n B) (f : Pc B → Option α) (p : Fin n) : Option α := f (s.pc p)

theorem at_goto {α : Type} (f : Pc B → Option α) :
    (s.goto p c d).at f = Function.update (s.at f) p (f c) := by
  funext p'
  by_cases hp : p' = p
  · subst hp
    simp [State.at, State.goto]
  · simp [State.at, State.goto, hp]

theorem at_goto_same {α : Type} {f : Pc B → Option α} {c₀ : Pc B} (hpc : s.pc p = c₀)
    (hf : f c = f c₀) : (s.goto p c d).at f = s.at f := by
  have hold : f c = s.at f p := by rw [hf, State.at, hpc]
  rw [at_goto, hold, Function.update_eq_self]

/-- The handler has seen a completion, and it was for buffer `b`. -/
def State.cleared [DecidableEq B] (s : State n B) (b : B) : State n B := { s with
  disk := { s.disk with
    bufDisk := Function.update s.disk.bufDisk b false
    usedIdx := s.disk.usedIdx + 1 }
  handled := s.handled + 1 }

/-- The heads of all published chains whose completion has not been handled; `q` are those that
the device has not taken. -/
def State.flight (s : State n B) (q : List Nat) : List Nat :=
  q ++ (s.dev.work ++ s.dev.done.drop s.handled).map Work.head

/-- The rings hold the entries between their counters, which count modulo `2^16`. -/
structure Rings (d : Disk B) (dev : Device B) (handled : Nat) (q : List Nat) : Prop where
  avail : d.avail.idx = UInt16.ofNat (dev.taken + q.length)
  queue : Ring.Queue NUM (fun i => (d.avail.ring i).toNat) dev.taken q
  le : handled ≤ dev.done.length
  used : d.used.idx = UInt16.ofNat dev.done.length
  usedIdx : d.usedIdx = UInt16.ofNat handled
  usedQueue : Ring.Queue NUM (fun i => (d.used.ring i).toNat) handled
    ((dev.done.drop handled).map Work.head)

namespace Rings

variable {dev : Device B} {handled k : Nat}

theorem slot (h : Rings d dev handled q) :
    d.avail.idx.toNat % NUM = (dev.taken + q.length) % NUM := by
  rw [h.avail, Ring.toNat_mod (by decide)]

/-- The entry that `virtio_disk_rw` writes is not one that the device has to take. -/
theorem format [DecidableEq B] (h : Rings d dev handled q) (hroom : q.length < NUM) :
    Rings (d.format r) dev handled q := by
  have hring : (fun i => ((d.format r).avail.ring i).toNat) =
      Function.update (fun i => (d.avail.ring i).toNat) ((dev.taken + q.length) % NUM)
        (UInt16.ofNat (r.at 0)).toNat := by
    rw [← h.slot]
    exact Function.comp_update UInt16.toNat _ _ _
  refine { h with queue := ?_ }
  rw [hring]
  exact h.queue.write hroom _

theorem publish (h : Rings d dev handled q) (hroom : q.length < NUM)
    (hentry : (d.avail.ring ((dev.taken + q.length) % NUM)).toNat = k) :
    Rings d.publish dev handled (q ++ [k]) := by
  refine { h with avail := ?_, queue := h.queue.snoc hroom hentry }
  rw [List.length_append, List.length_singleton, ← Nat.add_assoc, ← Ring.succ_count, ← h.avail]
  rfl

/-- The device takes the oldest entry. -/
theorem take (h : Rings d dev handled (k :: q)) {w : List (Work B)} :
    (d.avail.ring (dev.taken % NUM)).toNat = k ∧
      Rings d { dev with taken := dev.taken + 1, work := w } handled q := by
  obtain ⟨hk, hqueue⟩ := h.queue.cons
  refine ⟨hk, { h with avail := ?_, queue := hqueue }⟩
  rw [h.avail, List.length_cons, Nat.add_right_comm, Nat.add_assoc]

/-- There is an entry to take if the counters differ. -/
theorem ne_nil (h : Rings d dev handled q) (hne : d.avail.idx ≠ UInt16.ofNat dev.taken) : q ≠ [] := by
  rintro rfl
  exact hne h.avail

/-- The oldest completion that has not been handled. -/
theorem oldest (h : Rings d dev handled q) (hne : d.usedIdx ≠ d.used.idx) :
    ∃ w, dev.done.drop handled = w :: dev.done.drop (handled + 1) ∧
      (d.used.ring (d.usedIdx.toNat % NUM)).toNat = w.head := by
  have hlt : handled < dev.done.length := by
    refine Nat.lt_of_le_of_ne h.le fun heq => hne ?_
    rw [h.usedIdx, h.used, heq]
  have hdrop := List.drop_eq_getElem_cons hlt
  refine ⟨_, hdrop, ?_⟩
  have hqueue := h.usedQueue
  rw [hdrop, List.map_cons] at hqueue
  rw [h.usedIdx, Ring.toNat_mod (by decide)]
  exact hqueue.cons.1

/-- The handler goes on to the next completion. -/
theorem turn (h : Rings d dev handled q) (hne : d.usedIdx ≠ d.used.idx) {bufDisk : B → Bool} :
    Rings { d with bufDisk := bufDisk, usedIdx := d.usedIdx + 1 } dev (handled + 1) q := by
  obtain ⟨w, hdrop, _⟩ := h.oldest hne
  have hqueue := h.usedQueue
  rw [hdrop, List.map_cons] at hqueue
  have hlen := congrArg List.length hdrop
  rw [List.length_drop, List.length_cons] at hlen
  refine { h with le := by omega, usedIdx := ?_, usedQueue := hqueue.cons.2 }
  rw [← Ring.succ_count, ← h.usedIdx]

/-- The device appends a completion. -/
theorem complete (h : Rings d dev handled q) {w : Work B} {work : List (Work B)}
    (hw : w.head < NUM) (hroom : (dev.done.drop handled).length < NUM) :
    Rings (d.complete w) { dev with work := work, done := dev.done ++ [w] } handled q := by
  have hle := h.le
  have hdrop : (dev.done ++ [w]).drop handled = dev.done.drop handled ++ [w] :=
    List.drop_append_of_le_length h.le
  have hlen : handled + ((dev.done.drop handled).map Work.head).length = dev.done.length := by
    rw [List.length_map, List.length_drop]
    omega
  have hslot : d.used.idx.toNat % NUM =
      (handled + ((dev.done.drop handled).map Work.head).length) % NUM := by
    rw [h.used, Ring.toNat_mod (by decide), hlen]
  have hring : (fun i => ((d.complete w).used.ring i).toNat) =
      Function.update (fun i => (d.used.ring i).toNat) (d.used.idx.toNat % NUM)
        (UInt32.ofNat w.head).toNat := Function.comp_update UInt32.toNat _ _ _
  have hhead : (UInt32.ofNat w.head).toNat = w.head := by
    rw [UInt32.toNat_ofNat', Nat.mod_eq_of_lt (by simp only [NUM] at hw; omega)]
  rw [← List.length_map Work.head] at hroom
  refine { h with le := ?_, used := ?_, usedQueue := ?_ }
  · rw [List.length_append]
    omega
  · rw [List.length_append, List.length_singleton, ← Ring.succ_count, ← h.used]
    rfl
  · rw [hdrop, List.map_append, hring, hslot]
    refine (h.usedQueue.write hroom _).snoc hroom ?_
    rw [Function.update_self, hhead]

end Rings

structure Inv (s : State n B) (q : List Nat) : Prop where
  locked : ∀ p r, s.at Pc.critical p = some r → s.lock = some (.proc p)
  bufs : ∀ p p' b, s.at Pc.buf p = some b → s.at Pc.buf p' = some b → p = p'
  owners : Owners (s.at Pc.request) s.disk.free
  formatted : ∀ p r, s.at Pc.written p = some r → s.disk.Formatted r
  entry : ∀ p r, s.at Pc.entered p = some r → s.disk.bufDisk r.b = true ∧
    (s.disk.avail.ring ((s.dev.taken + q.length) % NUM)).toNat = r.at 0
  rings : Rings s.disk s.dev s.handled q
  /-- The published chains are those of the requests that wait. -/
  flight : ∀ h, h ∈ s.flight q ↔
    ∃ p r, s.at Pc.waiting p = some r ∧ s.disk.bufDisk r.b = true ∧ r.at 0 = h
  nodup : (s.flight q).Nodup
  /-- The device has read the chains as they were written. -/
  chain : ∀ w ∈ s.dev.work ++ s.dev.done.drop s.handled, ∀ p r, s.at Pc.waiting p = some r →
    r.at 0 = w.head → w.chain = [Disk.desc0 r, Disk.desc1 r, Disk.desc2 r]
  status : ∀ w ∈ s.dev.done.drop s.handled, (s.disk.info w.head).status = 0

namespace Inv

theorem init : Inv (State.init : State n B) [] where
  locked p r h := by cases h
  bufs p p' b h := by cases h
  owners := by
    refine ⟨fun p r h => (by cases h), fun p p' r r' _ h => (by cases h), fun i hi h => ?_⟩
    simp [State.init, Disk.init, hi] at h
  formatted p r h := by cases h
  entry p r h := by cases h
  rings := ⟨rfl, .nil, Nat.le_refl 0, rfl, rfl, .nil⟩
  flight h := by simp [State.flight, State.init, State.at, Pc.waiting]
  nodup := List.nodup_nil
  chain w h := by simp [State.init] at h
  status w h := by simp [State.init] at h

/-! ## What the invariant says -/

theorem pc_of_waiting (h : s.at Pc.waiting p = some r) : s.pc p = .wait r := by
  rw [State.at] at h
  cases hpc : s.pc p <;> simp_all [Pc.waiting]

theorem request_of_waiting (h : s.at Pc.waiting p = some r) : s.at Pc.request p = some r := by
  rw [State.at] at h ⊢
  cases hpc : s.pc p <;> simp_all [Pc.waiting, Pc.request]

theorem request_of_written (h : s.at Pc.written p = some r) : s.at Pc.request p = some r := by
  rw [State.at] at h ⊢
  cases hpc : s.pc p <;> simp_all [Pc.written, Pc.request]

theorem buf_of_waiting (h : s.at Pc.waiting p = some r) : s.at Pc.buf p = some r.b := by
  rw [State.at] at h ⊢
  cases hpc : s.pc p <;> simp_all [Pc.waiting, Pc.buf]

theorem head_mem {w : Work B} (hw : w ∈ s.dev.work ++ s.dev.done.drop s.handled) :
    w.head ∈ s.flight q := List.mem_append_right _ (List.mem_map_of_mem hw)

theorem queue_length_le (s : State n B) (q : List Nat) : q.length ≤ (s.flight q).length := by
  rw [State.flight, List.length_append]
  exact Nat.le_add_right _ _

theorem critical_of_entered (h : s.at Pc.entered p = some r) : s.at Pc.critical p = some r := by
  rw [State.at] at h ⊢
  cases hpc : s.pc p <;> simp_all [Pc.entered, Pc.critical]

/-- Only the holder of the lock can be about to publish. -/
theorem entered_eq (h : Inv s q) (hlock : s.lock = some (.proc p))
    (hentered : s.at Pc.entered p' = some r) : p' = p := by
  have hlock' := h.locked p' r (critical_of_entered hentered)
  rw [hlock] at hlock'
  cases hlock'
  rfl

theorem written_of_waiting (h : s.at Pc.waiting p = some r) : s.at Pc.written p = some r := by
  rw [State.at] at h ⊢
  cases hpc : s.pc p <;> simp_all [Pc.waiting, Pc.written]

theorem owns_written (h : Inv s q) (hw : s.at Pc.written p = some r) : Disk.Owns s.disk.free r :=
  h.owners.owns p r (request_of_written hw)

theorem head_lt (h : Inv s q) (hreq : s.at Pc.request p = some r) : r.at 0 < NUM :=
  (h.owners.owns p r hreq).at_lt (by decide)

theorem same_head (h : Inv s q) (hw : s.at Pc.waiting p = some r) (hw' : s.at Pc.waiting p' = some r')
    (hat : r.at 0 = r'.at 0) : p = p' := by
  have hreq := request_of_waiting hw
  have hreq' := request_of_waiting hw'
  exact h.owners.same hreq hreq' ((h.owners.owns p r hreq).mem (by decide))
    (hat ▸ (h.owners.owns p' r' hreq').mem (by decide))

theorem flight_lt (h : Inv s q) {k : Nat} (hk : k ∈ s.flight q) : k < NUM := by
  obtain ⟨p, r, hwait, _, rfl⟩ := (h.flight k).mp hk
  exact h.head_lt (request_of_waiting hwait)

/-- Different heads of chains are at most `NUM`. -/
theorem length_le {l : List Nat} (hnodup : l.Nodup) (hlt : ∀ k ∈ l, k < NUM) : l.length ≤ NUM := by
  have hsub : l ⊆ List.range NUM := fun k hk => List.mem_range.mpr (hlt k hk)
  have hle := (hnodup.subperm hsub).length_le
  rwa [List.length_range] at hle

theorem flight_length (h : Inv s q) : (s.flight q).length ≤ NUM :=
  length_le h.nodup fun _ hk => h.flight_lt hk

/-- The head of a request that does not wait for its completion is in no ring. -/
theorem head_notMem (h : Inv s q) (hreq : s.at Pc.request p = some r)
    (hidle : s.at Pc.waiting p = some r → s.disk.bufDisk r.b = false) : r.at 0 ∉ s.flight q := by
  intro hmem
  obtain ⟨p', r', hwait, hbusy, hat⟩ := (h.flight _).mp hmem
  have hreq' := request_of_waiting hwait
  obtain rfl : p = p' := h.owners.same hreq hreq' ((h.owners.owns p r hreq).mem (by decide))
    (hat ▸ (h.owners.owns p' r' hreq').mem (by decide))
  obtain rfl : r = r' := Option.some.inj (hreq.symm.trans hreq')
  rw [hidle hwait] at hbusy
  cases hbusy

/-- While a request is not published, the rings have room for it. -/
theorem room (h : Inv s q) (hreq : s.at Pc.request p = some r) (hwait : s.at Pc.waiting p = none) :
    (s.flight q).length < NUM := by
  have hnot : r.at 0 ∉ s.flight q := h.head_notMem hreq fun hw => by rw [hwait] at hw; cases hw
  refine length_le (List.nodup_cons.mpr ⟨hnot, h.nodup⟩) fun k hk => ?_
  rcases List.mem_cons.mp hk with rfl | hk
  · exact h.head_lt hreq
  · exact h.flight_lt hk

/-! ## Steps of the driver -/

/-- The lock changes hands while its holder does not need it. -/
theorem setLock (h : Inv s q) (lock : Option (Holder n))
    (hquiet : ∀ p, s.lock = some (.proc p) → s.at Pc.critical p = none) :
    Inv { s with lock := lock } q :=
  { h with
    locked := by
      intro p r hcrit
      have hnone := hquiet p (h.locked p r hcrit)
      rw [show s.at Pc.critical p = some r from hcrit] at hnone
      cases hnone }

theorem call (h : Inv s q) {b : B} {blockno : UInt32} {write : Bool} (hpc : s.pc p = .out)
    (hb : ∀ p', (s.pc p').buf ≠ some b) : Inv (s.goto p (.alloc b blockno write) s.disk) q where
  locked := by
    rw [at_goto_same hpc]
    exacts [h.locked, rfl]
  bufs p' p'' b' := by
    rw [at_goto]
    intro hbuf hbuf'
    obtain ⟨hp', hb'⟩ | ⟨_, hold⟩ := update_some.mp hbuf
    · obtain ⟨hp'', _⟩ | ⟨_, hold'⟩ := update_some.mp hbuf'
      · rw [hp', hp'']
      · exact absurd (hb' ▸ hold') (hb p'')
    · obtain ⟨_, hb'⟩ | ⟨_, hold'⟩ := update_some.mp hbuf'
      · exact absurd (hb' ▸ hold) (hb p')
      · exact h.bufs p' p'' b' hold hold'
  owners := by
    rw [at_goto_same hpc]
    exacts [h.owners, rfl]
  formatted := by
    rw [at_goto_same hpc]
    exacts [h.formatted, rfl]
  entry := by
    rw [at_goto_same hpc]
    exacts [h.entry, rfl]
  rings := h.rings
  flight := by
    rw [at_goto_same hpc]
    exacts [h.flight, rfl]
  nodup := h.nodup
  chain := by
    rw [at_goto_same hpc]
    exacts [h.chain, rfl]
  status := h.status

/-- Three descriptors are allocated. -/
theorem alloc (h : Inv s q) {b : B} {blockno : UInt32} {write : Bool}
    (hpc : s.pc p = .alloc b blockno write) (hlock : s.lock = some (.proc p))
    (hlen : idx.length = 3) (hfresh : s.disk.Fresh idx) :
    Inv (s.goto p (.format ⟨b, blockno, write, idx⟩) (s.disk.claimed idx)) q where
  locked p' r := by
    rw [at_goto]
    intro hcrit
    obtain ⟨rfl, _⟩ | ⟨_, hcrit⟩ := update_some.mp hcrit
    · exact hlock
    · exact h.locked p' r hcrit
  bufs := by
    rw [at_goto_same hpc]
    exacts [h.bufs, rfl]
  owners := by
    rw [at_goto]
    exact h.owners.claim (by rw [State.at, hpc]; rfl) hlen hfresh
  formatted := by
    rw [at_goto_same hpc]
    · exact fun p' r hwritten => (h.formatted p' r hwritten).congr (h.owns_written hwritten) fun i hi => ⟨rfl, rfl, rfl⟩
    · rfl
  entry := by
    rw [at_goto_same hpc]
    exacts [h.entry, rfl]
  rings := { h.rings with }
  flight := by
    rw [at_goto_same hpc]
    exacts [h.flight, rfl]
  nodup := h.nodup
  chain := by
    rw [at_goto_same hpc]
    exacts [h.chain, rfl]
  status := h.status

/-- Descriptors were allocated and given back: only free ones changed. -/
theorem setDesc (h : Inv s q) {desc : Nat → VirtqDesc B}
    (hdesc : ∀ i, s.disk.free i = false → desc i = s.disk.desc i) :
    Inv { s with disk := { s.disk with desc := desc } } q :=
  { h with
    formatted := fun _ _ hwritten => (h.formatted _ _ hwritten).congr (h.owns_written hwritten)
      fun i hi => ⟨hdesc i ((h.owns_written hwritten).used i hi), rfl, rfl⟩
    rings := { h.rings with } }

/-- The chain is written, and its head is put into the avail ring. -/
theorem format (h : Inv s q) [DecidableEq B] (hpc : s.pc p = .format r)
    (hlock : s.lock = some (.proc p)) : Inv (s.goto p (.publish r) (s.disk.format r)) q := by
  have hreq : s.at Pc.request p = some r := by rw [State.at, hpc]; rfl
  have hown := h.owners.owns p r hreq
  have hwait : s.at Pc.waiting p = none := by rw [State.at, hpc]; rfl
  have hroom : q.length < NUM := Nat.lt_of_le_of_lt (queue_length_le s q) (h.room hreq hwait)
  have hnot : r.at 0 ∉ s.flight q := h.head_notMem hreq fun hw => by rw [hwait] at hw; cases hw
  exact {
    locked := by
      rw [at_goto_same hpc]
      exacts [h.locked, rfl]
    bufs := by
      rw [at_goto_same hpc]
      exacts [h.bufs, rfl]
    owners := by
      rw [at_goto_same hpc]
      exacts [h.owners, rfl]
    formatted := by
      rw [at_goto]
      intro p' r' hwritten
      obtain ⟨_, rfl⟩ | ⟨hne, hwritten⟩ := update_some.mp hwritten
      · exact Disk.formatted_format hown
      · refine (h.formatted p' r' hwritten).congr (h.owns_written hwritten) fun i hi => ?_
        have hnotMem : i ∉ r.idx :=
          fun hmem => h.owners.disjoint p' p r' r hne (request_of_written hwritten) hreq hi hmem
        exact Disk.format_other hown hnotMem
    entry := by
      rw [at_goto]
      intro p' r' hentered
      obtain ⟨_, rfl⟩ | ⟨hne, hentered⟩ := update_some.mp hentered
      · refine ⟨Function.update_self .., ?_⟩
        simp only [State.goto, Disk.format, h.rings.slot, Function.update_self]
        exact Disk.toNat_desc (h.head_lt hreq)
      · exact absurd (h.entered_eq hlock hentered) hne
    rings := h.rings.format hroom
    flight := by
      rw [at_goto_same hpc]
      · -- the buffers of the requests that wait are others
        have hbuf {p' : Fin n} {r' : Request B} (hw : s.at Pc.waiting p' = some r') :
            (s.disk.format r).bufDisk r'.b = s.disk.bufDisk r'.b := by
          refine Function.update_of_ne (fun heq => ?_) ..
          have hp : p' = p := h.bufs p' p r.b (heq ▸ buf_of_waiting hw) (by rw [State.at, hpc]; rfl)
          rw [hp, hwait] at hw
          cases hw
        refine fun k => (h.flight k).trans (exists₂_congr fun p' r' => and_congr_right fun hw => ?_)
        rw [← hbuf hw]
        rfl
      · rfl
    nodup := h.nodup
    chain := by
      rw [at_goto_same hpc]
      exacts [h.chain, rfl]
    status := fun w hw => by
      have hne : w.head ≠ r.at 0 := fun heq => hnot (heq ▸ head_mem (List.mem_append_right _ hw))
      rw [← h.status w hw]
      exact congrArg Info.status (Function.update_of_ne hne ..) }

/-- `disk.avail->idx += 1`: the entry belongs to the device now. -/
theorem publish (h : Inv s q) (hpc : s.pc p = .publish r) (hlock : s.lock = some (.proc p)) :
    Inv (s.goto p (.wait r) s.disk.publish) (q ++ [r.at 0]) := by
  have hreq : s.at Pc.request p = some r := by rw [State.at, hpc]; rfl
  have hwait : s.at Pc.waiting p = none := by rw [State.at, hpc]; rfl
  have hroom : q.length < NUM := Nat.lt_of_le_of_lt (queue_length_le s q) (h.room hreq hwait)
  have hnot : r.at 0 ∉ s.flight q := h.head_notMem hreq fun hw => by rw [hwait] at hw; cases hw
  obtain ⟨hbusy, hentry⟩ := h.entry p r (by rw [State.at, hpc]; rfl)
  have hperm : ((s.goto p (.wait r) s.disk.publish).flight (q ++ [r.at 0])).Perm
      (r.at 0 :: s.flight q) := by
    rw [State.flight, List.append_assoc, List.singleton_append]
    exact List.perm_middle
  exact {
    locked := by
      rw [at_goto]
      exact fun p' r' hcrit => h.locked p' r' (update_none.mp hcrit).2
    bufs := by
      rw [at_goto_same hpc]
      exacts [h.bufs, rfl]
    owners := by
      rw [at_goto_same hpc]
      exacts [h.owners, rfl]
    formatted := by
      rw [at_goto_same hpc]
      · exact fun p' r' hw => (h.formatted p' r' hw).congr (h.owns_written hw)
          fun i hi => ⟨rfl, rfl, rfl⟩
      · rfl
    entry := by
      rw [at_goto]
      intro p' r' hentered
      obtain ⟨hne, hentered⟩ := update_none.mp hentered
      exact absurd (h.entered_eq hlock hentered) hne
    rings := h.rings.publish hroom hentry
    flight := by
      rw [at_goto]
      intro k
      rw [hperm.mem_iff, List.mem_cons, h.flight]
      constructor
      · rintro (rfl | ⟨p', r', hw, hb, hk⟩)
        · exact ⟨p, r, Function.update_self .., hbusy, rfl⟩
        · have hne : p' ≠ p := fun heq => by rw [heq, hwait] at hw; cases hw
          exact ⟨p', r', update_some.mpr (.inr ⟨hne, hw⟩), hb, hk⟩
      · rintro ⟨p', r', hw, hb, hk⟩
        obtain ⟨_, rfl⟩ | ⟨_, hw⟩ := update_some.mp hw
        · exact .inl hk.symm
        · exact .inr ⟨p', r', hw, hb, hk⟩
    nodup := hperm.nodup_iff.mpr (List.nodup_cons.mpr ⟨hnot, h.nodup⟩)
    chain := by
      rw [at_goto]
      intro w hmem p' r' hw hat
      obtain ⟨_, rfl⟩ | ⟨_, hw⟩ := update_some.mp hw
      · exact absurd (head_mem hmem) (hat ▸ hnot)
      · exact h.chain w hmem p' r' hw hat
    status := h.status }

/-- The request is done, and its descriptors are free again. -/
theorem finish (h : Inv s q) (hpc : s.pc p = .wait r) (hlock : s.lock = some (.proc p))
    (hidle : s.disk.bufDisk r.b = false) :
    ∃ d, s.disk.finish r = .ok d ∧ Inv (s.goto p .out d) q := by
  have hreq : s.at Pc.request p = some r := by rw [State.at, hpc]; rfl
  have hwritten : s.at Pc.written p = some r := by rw [State.at, hpc]; rfl
  have hown := h.owners.owns p r hreq
  have hother {p' : Fin n} {r' : Request B} (hne : p' ≠ p) (hr : s.at Pc.request p' = some r')
      {i : Nat} (hi : i ∈ r'.idx) : i ∉ r.idx :=
    fun hmem => h.owners.disjoint p' p r' r hne hr hreq hi hmem
  refine ⟨_, (h.formatted p r hwritten).finish hown, ?_⟩
  exact {
    locked := by
      rw [at_goto]
      exact fun p' r' hcrit => h.locked p' r' (update_none.mp hcrit).2
    bufs := by
      rw [at_goto]
      exact fun p' p'' b hb hb' => h.bufs p' p'' b (update_none.mp hb).2 (update_none.mp hb').2
    owners := by
      rw [at_goto]
      exact h.owners.release hreq
    formatted := by
      rw [at_goto]
      intro p' r' hw
      obtain ⟨hne, hw⟩ := update_none.mp hw
      exact (h.formatted p' r' hw).congr (h.owns_written hw)
        fun i hi => Disk.finished_other hown (hother hne (request_of_written hw) hi)
    entry := by
      rw [at_goto]
      intro p' r' hentered
      obtain ⟨hne, hentered⟩ := update_none.mp hentered
      exact absurd (h.entered_eq hlock hentered) hne
    rings := { h.rings with }
    flight := by
      rw [at_goto]
      intro k
      refine (h.flight k).trans (exists₂_congr fun p' r' => ?_)
      rw [show Pc.waiting (.out : Pc B) = none from rfl, update_none]
      constructor
      · rintro ⟨hw, hb, hk⟩
        refine ⟨⟨?_, hw⟩, hb, hk⟩
        rintro rfl
        rw [State.at, hpc] at hw
        cases hw
        exact absurd hb (by rw [hidle]; decide)
      · rintro ⟨⟨_, hw⟩, hb, hk⟩
        exact ⟨hw, hb, hk⟩
    nodup := h.nodup
    chain := by
      rw [at_goto]
      exact fun w hmem p' r' hw hat => h.chain w hmem p' r' (update_none.mp hw).2 hat
    status := fun w hw => (Disk.finished_status w.head).trans (h.status w hw) }

/-! ## Steps of the handler and of the device -/

/-- What is in flight has a request that waits, and its chain is the one of that request. -/
theorem owner (h : Inv s q) {w : Work B} (hw : w ∈ s.dev.work ++ s.dev.done.drop s.handled) :
    ∃ p r, s.at Pc.waiting p = some r ∧ s.disk.bufDisk r.b = true ∧ r.at 0 = w.head ∧
      w.chain = [Disk.desc0 r, Disk.desc1 r, Disk.desc2 r] := by
  obtain ⟨p, r, hwait, hbusy, hat⟩ := (h.flight _).mp (head_mem hw)
  exact ⟨p, r, hwait, hbusy, hat, h.chain w hw p r hwait hat⟩

/-- One turn of the handler clears the flag of the buffer of the completed request. -/
theorem turn (h : Inv s q) [DecidableEq B]
    (hne : s.disk.usedIdx ≠ s.disk.used.idx) :
    ∃ w p r, s.dev.done.drop s.handled = w :: s.dev.done.drop (s.handled + 1) ∧
      s.at Pc.waiting p = some r ∧ s.disk.bufDisk r.b = true ∧ r.at 0 = w.head ∧
      w.chain = [Disk.desc0 r, Disk.desc1 r, Disk.desc2 r] ∧
      s.disk.intrTurn = .ok (s.cleared r.b).disk := by
  obtain ⟨w, hdrop, hring⟩ := h.rings.oldest hne
  have hmem : w ∈ s.dev.done.drop s.handled := hdrop ▸ List.mem_cons_self
  obtain ⟨p, r, hwait, hbusy, hat, hchain⟩ := h.owner (List.mem_append_right _ hmem)
  refine ⟨w, p, r, hdrop, hwait, hbusy, hat, hchain, ?_⟩
  have hbuf : (s.disk.info w.head).b = some r.b :=
    hat ▸ (h.formatted p r (written_of_waiting hwait)).buf
  rw [Disk.intrTurn, hring, h.status w hmem, hbuf]
  rfl

theorem cleared (h : Inv s q) [DecidableEq B] {w : Work B} (hlock : s.lock = some .intr)
    (hne : s.disk.usedIdx ≠ s.disk.used.idx)
    (hdrop : s.dev.done.drop s.handled = w :: s.dev.done.drop (s.handled + 1))
    (hwait : s.at Pc.waiting p = some r) (hat : r.at 0 = w.head) :
    Inv (s.cleared r.b) q := by
  have hperm : (s.flight q).Perm (w.head :: (s.cleared r.b).flight q) := by
    simp only [State.flight, State.cleared, hdrop, List.map_append, List.map_cons]
    rw [← List.append_assoc, ← List.append_assoc]
    exact List.perm_middle
  have hnodup := hperm.nodup_iff.mp h.nodup
  rw [List.nodup_cons] at hnodup
  have hmem {w' : Work B} (hw' : w' ∈ s.dev.done.drop (s.handled + 1)) :
      w' ∈ s.dev.done.drop s.handled := hdrop ▸ List.mem_cons_of_mem w hw'
  exact { h with
    formatted := fun p' r' hw => (h.formatted p' r' hw).congr (h.owns_written hw)
      fun i hi => ⟨rfl, rfl, rfl⟩
    entry := fun p' r' hentered => by
      have hlock' := h.locked p' r' (critical_of_entered hentered)
      rw [hlock] at hlock'
      cases hlock'
    rings := h.rings.turn hne
    flight := fun k => by
      -- the completed request is the only one with its head and the only one with its buffer
      have honly {p' : Fin n} {r' : Request B} (hw : s.at Pc.waiting p' = some r') :
          r'.b = r.b ↔ r'.at 0 = w.head := by
        constructor
        · intro hb
          obtain rfl := h.bufs p' p r.b (hb ▸ buf_of_waiting hw) (buf_of_waiting hwait)
          cases hw.symm.trans hwait
          exact hat
        · intro hat'
          obtain rfl := h.same_head hw hwait (hat'.trans hat.symm)
          cases hw.symm.trans hwait
          rfl
      have hold := h.flight k
      rw [hperm.mem_iff, List.mem_cons] at hold
      constructor
      · intro hk
        obtain ⟨p', r', hw, hb, hat'⟩ := hold.mp (.inr hk)
        have hne' : r'.b ≠ r.b := fun hb => hnodup.1 ((honly hw).mp hb ▸ hat' ▸ hk)
        exact ⟨p', r', hw, (Function.update_of_ne hne' ..).trans hb, hat'⟩
      · rintro ⟨p', r', hw, hb, hat'⟩
        have hb : Function.update s.disk.bufDisk r.b false r'.b = true := hb
        have hne' : r'.b ≠ r.b := by
          intro heq
          rw [heq, Function.update_self] at hb
          cases hb
        rw [Function.update_of_ne hne'] at hb
        refine (hold.mpr ⟨p', r', hw, hb, hat'⟩).resolve_left fun hk => ?_
        exact hne' ((honly hw).mpr (hat'.trans hk))
    nodup := hnodup.2
    chain := fun w' hw' => by
      refine h.chain w' ?_
      rcases List.mem_append.mp hw' with hw' | hw'
      · exact List.mem_append_left _ hw'
      · exact List.mem_append_right _ (hmem hw')
    status := fun w' hw' => h.status w' (hmem hw') }

theorem handle (h : Inv s q) [DecidableEq B] (hlock : s.lock = some .intr) :
    ∃ s', s.handle = .ok s' ∧ Inv s' q := by
  rw [State.handle]
  split
  · next hne =>
    obtain ⟨w, p, r, hdrop, hwait, hbusy, hat, _, hturn⟩ := h.turn hne
    exact ⟨_, by rw [hturn]; rfl, h.cleared hlock hne hdrop hwait hat⟩
  · refine ⟨_, rfl, h.setLock none fun p hp => ?_⟩
    rw [hlock] at hp
    cases hp

theorem take (h : Inv s q) (hne : s.disk.avail.idx ≠ UInt16.ofNat s.dev.taken) :
    ∃ q', Inv s.take q' := by
  cases q with
  | nil => exact absurd rfl (h.rings.ne_nil hne)
  | cons k q =>
    obtain ⟨hk, hrings⟩ := h.rings.take (w := s.dev.work ++ [⟨k, walk s.disk.desc NUM k⟩])
    have htake : s.take = { s with dev := { s.dev with
        taken := s.dev.taken + 1
        work := s.dev.work ++ [⟨k, walk s.disk.desc NUM k⟩] } } := by
      rw [State.take, hk]
    have hperm : (s.take.flight q).Perm (s.flight (k :: q)) := by
      rw [htake]
      simp only [State.flight, List.map_append, List.map_cons, List.append_assoc,
        List.cons_append, List.nil_append]
      rw [← List.append_assoc]
      refine List.perm_middle.trans ?_
      rw [List.append_assoc]
    rw [htake] at hperm ⊢
    refine ⟨q, { h with
      formatted := h.formatted
      entry := fun p r hentered => ?_
      rings := hrings
      flight := fun k' => hperm.mem_iff.trans (h.flight k')
      nodup := hperm.nodup_iff.mpr h.nodup
      chain := fun w hw p r hwait hat => ?_ }⟩
    · have hentry := h.entry p r hentered
      rwa [List.length_cons, Nat.add_comm q.length, ← Nat.add_assoc] at hentry
    · rw [List.append_assoc, List.singleton_append, List.mem_append, List.mem_cons] at hw
      rcases hw with hw | rfl | hw
      · exact h.chain w (List.mem_append_left _ hw) p r hwait hat
      · have hwritten := written_of_waiting hwait
        have hwalk := (h.formatted p r hwritten).walk (h.owns_written hwritten)
        rwa [hat] at hwalk
      · exact h.chain w (List.mem_append_right _ hw) p r hwait hat

theorem complete (h : Inv s q) [DecidableEq B] {w : Work B} (hw : w ∈ s.dev.work) :
    Inv (s.complete w) q := by
  have hmem : w ∈ s.dev.work ++ s.dev.done.drop s.handled := List.mem_append_left _ hw
  obtain ⟨p, r, hwait, hbusy, hat, hchain⟩ := h.owner hmem
  have hstatus : w.statusAddr = .status w.head := by
    rw [Work.statusAddr, hchain, ← hat]
    rfl
  have hinfo : (s.disk.complete w).info =
      Function.update s.disk.info w.head { s.disk.info w.head with status := 0 } := by
    rw [Disk.complete, hstatus]
  have hbuf (i : Nat) : ((s.disk.complete w).info i).b = (s.disk.info i).b := by
    rw [hinfo]
    by_cases hi : i = w.head
    · rw [hi, Function.update_self]
    · rw [Function.update_of_ne hi]
  have hdrop : (s.dev.done ++ [w]).drop s.handled = s.dev.done.drop s.handled ++ [w] :=
    List.drop_append_of_le_length h.rings.le
  have hwork : (s.dev.work.erase w ++ (s.dev.done ++ [w]).drop s.handled).Perm
      (s.dev.work ++ s.dev.done.drop s.handled) := by
    rw [hdrop, ← List.append_assoc]
    refine (List.perm_append_singleton w _).trans ?_
    exact (List.perm_cons_erase hw).symm.append_right _
  have hperm : ((s.complete w).flight q).Perm (s.flight q) := (hwork.map _).append_left q
  have hroom : (s.dev.done.drop s.handled).length < NUM := by
    have hlen := h.flight_length
    have hpos := List.length_pos_of_mem hw
    rw [State.flight, List.length_append, List.length_map, List.length_append] at hlen
    omega
  exact { h with
    formatted := fun p' r' hwritten => (h.formatted p' r' hwritten).congr (h.owns_written hwritten)
      fun i hi => ⟨rfl, rfl, hbuf i⟩
    rings := h.rings.complete (h.flight_lt (head_mem hmem)) hroom
    flight := fun k => hperm.mem_iff.trans (h.flight k)
    nodup := hperm.nodup_iff.mpr h.nodup
    chain := fun w' hw' => h.chain w' (hwork.mem_iff.mp hw')
    status := fun w' hw' => by
      rw [State.complete, hinfo]
      by_cases hhead : w'.head = w.head
      · rw [hhead, Function.update_self]
      · rw [Function.update_of_ne hhead]
        simp only [State.complete, hdrop, List.mem_append, List.mem_singleton] at hw'
        rcases hw' with hw' | rfl
        · exact h.status w' hw'
        · exact absurd rfl hhead }

variable [DecidableEq B]

theorem run (h : Inv s q) (hlock : s.lock = some (.proc p)) {res : Except Panic (State n B)}
    (hrun : s.run p (s.pc p) = some res) : ∃ s' q', res = .ok s' ∧ Inv s' q' := by
  cases hpc : s.pc p with
  | out =>
    rw [hpc] at hrun
    cases hrun
  | alloc b blockno write =>
    obtain ⟨out, halloc, hspec⟩ := s.disk.alloc3Desc_spec
    rw [hpc, State.run, halloc] at hrun
    cases hrun
    cases hspec with
    | got idx hlen hfresh => exact ⟨_, q, rfl, h.alloc hpc hlock hlen hfresh⟩
    | full desc hdesc =>
      refine ⟨_, q, rfl, (h.setDesc hdesc).setLock none fun p' hlock' => ?_⟩
      cases hlock.symm.trans hlock'
      rw [State.at, hpc]
      rfl
  | format r =>
    rw [hpc] at hrun
    cases hrun
    exact ⟨_, q, rfl, h.format hpc hlock⟩
  | publish r =>
    rw [hpc] at hrun
    cases hrun
    exact ⟨_, _, rfl, h.publish hpc hlock⟩
  | wait r =>
    rw [hpc, State.run] at hrun
    split at hrun
    · cases hrun
      refine ⟨_, q, rfl, h.setLock none fun p' hlock' => ?_⟩
      cases hlock.symm.trans hlock'
      rw [State.at, hpc]
      rfl
    · next hidle =>
      obtain ⟨d, hfinish, hinv⟩ := h.finish hpc hlock (Bool.eq_false_iff.mpr hidle)
      rw [hfinish] at hrun
      cases hrun
      refine ⟨_, q, rfl, hinv.setLock none fun p' hlock' => ?_⟩
      cases hlock.symm.trans hlock'
      rw [at_goto, Function.update_self]
      rfl

/-- No step panics, and every step keeps the invariant. -/
theorem next (h : Inv s q) {a : Act n B} {res : Except Panic (State n B)}
    (hnext : next s a = some res) : ∃ s' q', res = .ok s' ∧ Inv s' q' := by
  cases a with
  | call p b blockno write =>
    obtain ⟨⟨hpc, hb⟩, hres⟩ := Option.ite_none_right_eq_some.mp hnext
    cases hres
    exact ⟨_, q, rfl, h.call hpc hb⟩
  | acquire p =>
    obtain ⟨⟨hfree, _⟩, hres⟩ := Option.ite_none_right_eq_some.mp hnext
    cases hres
    exact ⟨_, q, rfl, h.setLock _ fun p' hlock => by rw [hfree] at hlock; cases hlock⟩
  | run p =>
    obtain ⟨hlock, hres⟩ := Option.ite_none_right_eq_some.mp hnext
    exact h.run hlock hres
  | intr =>
    obtain ⟨hfree, hres⟩ := Option.ite_none_right_eq_some.mp hnext
    cases hres
    exact ⟨_, q, rfl, h.setLock _ fun p' hlock => by rw [hfree] at hlock; cases hlock⟩
  | handle =>
    obtain ⟨hlock, hres⟩ := Option.ite_none_right_eq_some.mp hnext
    obtain ⟨s', hhandle, hinv⟩ := h.handle hlock
    cases hres
    exact ⟨s', q, hhandle, hinv⟩
  | take =>
    obtain ⟨hne, hres⟩ := Option.ite_none_right_eq_some.mp hnext
    cases hres
    obtain ⟨q', hinv⟩ := h.take hne
    exact ⟨_, q', rfl, hinv⟩
  | complete w =>
    obtain ⟨hw, hres⟩ := Option.ite_none_right_eq_some.mp hnext
    cases hres
    exact ⟨_, q, rfl, h.complete hw⟩

theorem run_inv {as : List (Act n B)} (hrun : Sys.Run Step .init as s) : ∃ q, Inv s q := by
  refine hrun.invariant (I := fun s => ∃ q, Inv s q) (fun t a u hI hstep => ?_) ⟨[], init⟩
  obtain ⟨q, hinv⟩ := hI
  obtain ⟨u', q', heq, hinv'⟩ := hinv.next hstep
  cases heq
  exact ⟨q', hinv'⟩

end Inv

/-! ## The discipline -/

/-- The number of entries of the avail ring that the device has not taken. -/
def State.pending (s : State n B) : Nat := (s.disk.avail.idx - UInt16.ofNat s.dev.taken).toNat

/-- The next turn of the handler is for the oldest completion that it has not seen. It clears
the flag of the buffer of the request whose chain the device has completed, and no other. -/
def State.Clears (s : State n B) [DecidableEq B] : Prop :=
  ∃ w p r s', s.dev.done[s.handled]? = some w ∧ s.pc p = .wait r ∧ w.head = r.at 0 ∧
    w.chain = [Disk.desc0 r, Disk.desc1 r, Disk.desc2 r] ∧
    s.disk.bufDisk r.b = true ∧ next s .handle = some (.ok s') ∧
    s'.disk.bufDisk = Function.update s.disk.bufDisk r.b false ∧ s'.handled = s.handled + 1

structure Discipline (s : State n B) [DecidableEq B] : Prop where
  three : ∀ p r, (s.pc p).request = some r →
    r.idx.length = 3 ∧ r.idx.Nodup ∧ ∀ i ∈ r.idx, i < NUM
  disjoint : ∀ p p' r r', p ≠ p' → (s.pc p).request = some r → (s.pc p').request = some r' →
    r.idx.Disjoint r'.idx
  free : ∀ i < NUM, s.disk.free i = true ↔ ∀ p r, (s.pc p).request = some r → i ∉ r.idx
  slot : ∀ p r, s.pc p = .format r → ∀ k < s.pending,
    (s.dev.taken + k) % NUM ≠ s.disk.avail.idx.toNat % NUM
  clears : s.lock = some .intr → s.disk.usedIdx ≠ s.disk.used.idx → s.Clears
  safe : ∀ a e, next s a ≠ some (.error e)

theorem Rings.pending (h : Rings s.disk s.dev s.handled q) : s.pending = q.length := by
  have hfits := h.queue.fits
  rw [State.pending, h.avail, UInt16.toNat_sub, UInt16.toNat_ofNat', UInt16.toNat_ofNat']
  simp only [NUM] at hfits
  omega

/-- In every run, of any length, the driver keeps the discipline. -/
theorem driver_keeps_discipline [DecidableEq B] {as : List (Act n B)} (hrun : Sys.Run Step .init as s) :
    Discipline s := by
  obtain ⟨q, h⟩ := Inv.run_inv hrun
  refine ⟨fun p r hreq => ?_, h.owners.disjoint, fun i hi => ?_, fun p r hpc k hk => ?_,
    fun hlock hne => ?_, fun a e hnext => ?_⟩
  · have hown := h.owners.owns p r hreq
    exact ⟨hown.three, hown.nodup, hown.lt⟩
  · constructor
    · intro hfree p r hreq hmem
      rw [h.owners.used_of_mem hreq hmem] at hfree
      cases hfree
    · intro hnone
      by_contra hused
      obtain ⟨p, r, hreq, hmem⟩ := h.owners.owned i hi (Bool.eq_false_iff.mpr hused)
      exact hnone p r hreq hmem
  · rw [h.rings.pending] at hk
    rw [h.rings.slot]
    have hreq : s.at Pc.request p = some r := by rw [State.at, hpc]; rfl
    have hwait : s.at Pc.waiting p = none := by rw [State.at, hpc]; rfl
    exact Ring.Queue.fresh
      (Nat.lt_of_le_of_lt (Inv.queue_length_le s q) (h.room hreq hwait)) hk
  · obtain ⟨w, p, r, hdrop, hwait, hbusy, hat, hchain, hturn⟩ := h.turn hne
    refine ⟨w, p, r, s.cleared r.b, ?_, Inv.pc_of_waiting hwait, hat.symm, hchain, hbusy, ?_, rfl, rfl⟩
    · rw [← List.head?_drop, hdrop]
      rfl
    · rw [next, if_pos hlock, State.handle, if_pos hne, hturn]
      rfl
  · obtain ⟨s', q', heq, _⟩ := h.next hnext
    cases heq

/-- Two processes publish requests, the device completes the second one first, and the handler
is entered. -/
def twoRequests (p p' : Fin n) (w : Work Bool) : List (Act n Bool) :=
  [.call p false 5 true, .acquire p, .run p, .run p, .run p, .run p,
   .call p' true 6 false, .acquire p', .run p', .take, .run p', .run p', .run p',
   .take, .complete w, .intr]

def secondRequest : Request Bool := ⟨true, 6, false, [3, 4, 5]⟩

theorem driver_keeps_discipline_twoRequests :
    ∃ s : State 2 Bool, Discipline s ∧ s.lock = some .intr ∧ s.disk.usedIdx ≠ s.disk.used.idx ∧
      (s.disk.bufDisk false = true ∧ s.disk.bufDisk true = true) := by
  have hexec : (Sys.exec (fun s a => (next s a).bind Except.toOption) State.init
      (twoRequests (0 : Fin 2) 1 ⟨3, [Disk.desc0 secondRequest, Disk.desc1 secondRequest,
        Disk.desc2 secondRequest]⟩)).any (fun s => s.lock = some .intr ∧
          s.disk.usedIdx ≠ s.disk.used.idx ∧ s.disk.bufDisk false ∧ s.disk.bufDisk true) = true := by
    decide +kernel
  obtain ⟨s, hs, hP⟩ := Sys.exists_of_any hexec
  obtain ⟨hlock, hne, hfalse, htrue⟩ := of_decide_eq_true hP
  have hrun := (Sys.exec_run hs).mono fun s a t hstep => Sys.eq_ok_of_toOption hstep
  exact ⟨s, driver_keeps_discipline hrun, hlock, hne, hfalse, htrue⟩

end Xv6.Virtio
