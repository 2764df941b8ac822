-- SUMMARY: When the last reference to an unlinked inode goes away, the inode is freed, unless its number is reused inside `iput`.
import Xv6.Inode.Entry

/-!
# The last reference

`iput` frees an inode whose last reference goes away while it has no links. It lets go of
`itable.lock` to do so, and only afterwards decrements `ref`. As long as nobody reuses the
inode number in between, an inode goes through four phases, and an orphan on the disk
always has somebody who will link or free it.
-/

namespace Xv6.Inode

variable {n : Nat} {s s' : State n} {p q : Fin n} {a : Act}

namespace Pc

/-- The reference that the process holds. -/
def weight : Pc → Int
  | idle | allocated => 0
  | _ => 1

/-- A reference to an inode in use. -/
def live : Pc → Bool
  | held | locking false | locked false => true
  | _ => false

/-- `create` has the inode, and has not given it a link yet. -/
def new : Pc → Bool
  | allocated | fresh | locking true | locked true => true
  | _ => false

/-- No business with the inode, apart from the end of an `iput`. -/
def quiet : Pc → Bool
  | idle | freed | dropping => true
  | _ => false

def holdsLock : Pc → Bool
  | locking _ | locked _ | freeing | freed => true
  | _ => false

end Pc

/-! ## References and the lock -/

/-- `ref` counts the references, and the sleep lock has the holder that it names. -/
structure Counted (s : State n) : Prop where
  count : (s.entry.ref : Int) = s.entry.pool + Sys.total Pc.weight s.pc
  lock : ∀ p, (s.pc p).holdsLock = true ↔ s.entry.lock = some p

theorem weight_nonneg (c : Pc) : 0 ≤ c.weight := by
  unfold Pc.weight
  split <;> decide

theorem Counted.init (h : Init s) : Counted s where
  count := by
    have hpc : s.pc = fun _ => .idle := funext h.pc
    simp [h.ref, h.pool, Sys.total, hpc, Pc.weight]
  lock := by
    intro p
    simp [h.pc p, h.lock, Pc.holdsLock]

/-- Whoever holds a reference keeps `ref` positive. -/
theorem Counted.pos (h : Counted s) (hp : (s.pc p).weight = 1) : 0 < s.entry.ref := by
  have hle := Sys.le_total (f := s.pc) weight_nonneg p
  have hcount := h.count
  omega

/-- If there is one reference at most, nobody else holds one. -/
theorem Counted.alone (h : Counted s) (href : s.entry.ref ≤ 1) (hp : (s.pc p).weight = 1) :
    s.entry.pool = 0 ∧ ∀ q, q ≠ p → (s.pc q).weight = 0 := by
  have hcount := h.count
  constructor
  · have hle := Sys.le_total (f := s.pc) weight_nonneg p
    omega
  · intro q hq
    have hle := Sys.add_le_total (f := s.pc) weight_nonneg hq
    have hnonneg := weight_nonneg (s.pc q)
    omega

theorem Counted.holder (h : Counted s) (hp : (s.pc p).holdsLock = true)
    (hq : (s.pc q).holdsLock = true) : p = q := by
  have hp := (h.lock p).mp hp
  rw [(h.lock q).mp hq] at hp
  cases hp
  rfl

/-- A step takes as many references as it adds to `ref`. -/
theorem Local.count {x x' : Entry n} {c c' : Pc} (h : Local x p c a x' c')
    (hpos : c.weight = 1 → 0 < x.ref) :
    (x'.ref : Int) - x'.pool - c'.weight = x.ref - x.pool - c.weight := by
  have higet : (x.iget.ref : Int) = x.ref + 1 := by
    unfold Entry.iget
    split
    · rfl
    · next hnot => dsimp only; omega
  have hpool : x.iget.pool = x.pool := by unfold Entry.iget; split <;> rfl
  cases h with
  | iget | lookup =>
    rw [higet, hpool]
    simp only [Pc.weight]
    omega
  | idup | store | take =>
    simp only [Entry.idup, Entry.setRef, Entry.setPool, Pc.weight]
    omega
  | iput | drop =>
    have hpos := hpos rfl
    simp only [Entry.setRef, Pc.weight]
    omega
  | _ => rfl

/-- The lock changes hands only through `none`. -/
theorem Local.lock {x x' : Entry n} {c c' : Pc} (h : Local x p c a x' c') :
    (x'.lock = x.lock ∧ c'.holdsLock = c.holdsLock) ∨
    (x.lock = none ∧ x'.lock = some p ∧ c'.holdsLock = true) ∨
    (c.holdsLock = true ∧ x'.lock = none ∧ c'.holdsLock = false) := by
  have higet : x.iget.lock = x.lock := by unfold Entry.iget; split <;> rfl
  cases h with
  | iget | lookup => exact .inl ⟨higet, rfl⟩
  | acquire hlock | acquireNew hlock => exact .inr (.inl ⟨hlock, rfl, rfl⟩)
  | iputLast hlast hlock => exact .inr (.inl ⟨hlock, rfl, rfl⟩)
  | iunlock | releasesleep => exact .inr (.inr ⟨rfl, rfl, rfl⟩)
  | _ => exact .inl ⟨rfl, rfl⟩

theorem Step.counted (h : Counted s) (hstep : Step s (p, a) s') : Counted s' := by
  obtain ⟨c, hlocal, hpc⟩ := hstep.cases
  constructor
  · have hcount := h.count
    have hmove := hlocal.count h.pos
    rw [hpc, Sys.total_update]
    omega
  · intro q
    have hp := h.lock p
    rw [hpc]
    by_cases hq : q = p
    · subst hq
      rw [Function.update_self]
      rcases hlocal.lock with ⟨hx, hc⟩ | ⟨-, hx, hc⟩ | ⟨-, hx, hc⟩
      · rw [hx, hc, hp]
      · simp [hx, hc]
      · simp [hx, hc]
    · rw [Function.update_of_ne hq, h.lock q]
      rcases hlocal.lock with ⟨hx, hc⟩ | ⟨hfree, hx, hc⟩ | ⟨hheld, hx, hc⟩
      · rw [hx]
      · simp [hx, hfree, Ne.symm hq]
      · simp [hx, hp.mp hheld, Ne.symm hq]

/-! ## Phases -/

section
variable {x x' : Entry n} {f : Fin n → Pc} {c c' : Pc}

/-- The inode is free, and there is no reference that could still be used. -/
structure Free (x : Entry n) (f : Fin n → Pc) : Prop where
  disk : x.disk = ⟨0, 0⟩
  pool : x.pool = 0
  pc : ∀ q, (f q).quiet = true
  valid : x.valid = true → 0 < x.ref → ∃ q, f q = .freed

/-- `create` of process `p` has the inode for itself. -/
structure New (x : Entry n) (f : Fin n → Pc) (p : Fin n) : Prop where
  disk : x.disk.Orphan
  pool : x.pool = 0
  new : (f p).new = true
  others : ∀ q, q ≠ p → (f q).quiet = true
  locked : f p = .locked true → x.valid = true
  coherent : x.valid = true → 0 < x.ref → x.mem = x.disk ∨ ∃ q, f q = .freed

/-- `iput` of process `p` has the inode for itself. -/
structure Freeing (x : Entry n) (f : Fin n → Pc) (p : Fin n) : Prop where
  disk : x.disk.Orphan
  pool : x.pool = 0
  freeing : f p = .freeing
  others : ∀ q, q ≠ p → f q = .idle
  coherent : x.mem = x.disk

/-- An inode in use. If it has no links, then there is a reference that will free it. -/
structure InUse (x : Entry n) (f : Fin n → Pc) : Prop where
  type : x.disk.type ≠ 0
  pc : ∀ q, (f q).live = true ∨ f q = .idle ∨ f q = .dropping
  locked : ∀ q, f q = .locked false → x.valid = true
  coherent : x.valid = true → 0 < x.ref → x.mem = x.disk
  orphan : x.disk.nlink = 0 → x.valid = true ∧ (0 < x.pool ∨ ∃ q, (f q).live = true)

inductive Phase (x : Entry n) (f : Fin n → Pc) : Prop
  | free (h : Free x f)
  | new (p : Fin n) (h : New x f p)
  | freeing (p : Fin n) (h : Freeing x f p)
  | inUse (h : InUse x f)

/-- Nobody but `p` uses a reference. -/
def LastUser (x : Entry n) (f : Fin n → Pc) (p : Fin n) : Prop :=
  x.pool = 0 ∧ ∀ q, q ≠ p → (f q).live = false

/-- What must hold when a process takes a step. A lookup follows a directory entry that is
counted in `nlink`. An `iput` of the last user of an unlinked inode does not meet another
`iput` between its check and its decrement, and `ref` does not go to 0 while an `ialloc`
of the same number is on its way to `iget`. -/
def Careful (x : Entry n) (f : Fin n → Pc) (p : Fin n) : Act → Prop
  | .lookup => x.disk.nlink ≠ 0
  | .iput => x.valid = true → x.mem.nlink = 0 → LastUser x f p → x.ref = 1
  | .drop => x.ref = 1 → ∀ q, f q ≠ .allocated
  | _ => True

/-- Somebody other than `p` stays where they are when `p` moves. -/
theorem exists_update {P : Pc → Prop} (hp : ¬ P (f p)) (h : ∃ q, P (f q)) :
    ∃ q, P (Function.update f p c q) := by
  obtain ⟨q, hq⟩ := h
  have hne : q ≠ p := by
    rintro rfl
    exact hp hq
  exact ⟨q, by rwa [Function.update_of_ne hne]⟩

theorem Free.step (h : Free x f) (hl : Local x p c a x' c') (hc : f p = c)
    (hcare : Careful x f p a) : Phase x' (Function.update f p c') := by
  have hq := h.pc p
  rw [hc] at hq
  have hpc : ∀ {c'}, c'.quiet = true → ∀ q, (Function.update f p c' q).quiet = true := by
    intro c' hc'
    rw [Function.forall_update_iff f (fun _ c => c.quiet = true)]
    exact ⟨hc', fun q _ => h.pc q⟩
  cases hl with
  | ialloc hfree htype =>
    refine .new p ⟨⟨htype, rfl⟩, h.pool, by simp [Pc.new], ?_, by simp, ?_⟩
    · intro q hq
      rw [Function.update_of_ne hq]
      exact h.pc q
    · intro hvalid href
      exact .inr (exists_update (P := (· = .freed)) (by simp [hc]) (h.valid hvalid href))
  | lookup => exact absurd (by rw [h.disk]) hcare
  | idup hdup =>
    rw [h.pool] at hdup
    rcases hdup with rfl | rfl | ⟨-, hpool⟩
    · cases hq
    · cases hq
    · cases hpool
  | take hpool =>
    rw [h.pool] at hpool
    cases hpool
  | releasesleep => exact .free ⟨h.disk, h.pool, hpc rfl, fun h => by cases h⟩
  | drop =>
    refine .free ⟨h.disk, h.pool, hpc rfl, ?_⟩
    intro hvalid href
    have href : 0 < x.ref - 1 := href
    exact exists_update (P := (· = .freed)) (by simp [hc]) (h.valid hvalid (by omega))
  | _ => cases hq

/-- The steps of the other processes while `create` or `iput` has the inode. -/
theorem quiet_step (hl : Local x p c a x' c') (hq : c.quiet = true) (htype : x.disk.type ≠ 0)
    (hnlink : x.disk.nlink = 0) (hpool : x.pool = 0) (hcare : Careful x f p a) :
    (c = .freed ∧ x' = x.invalidate.setLock none ∧ c' = .dropping) ∨
    (c = .dropping ∧ x' = x.setRef (x.ref - 1) ∧ c' = .idle) := by
  cases hl with
  | ialloc hfree => exact absurd hfree htype
  | lookup => exact absurd hnlink hcare
  | idup hdup =>
    rw [hpool] at hdup
    rcases hdup with rfl | rfl | ⟨-, hpool⟩
    · cases hq
    · cases hq
    · cases hpool
  | take hpool' =>
    rw [hpool] at hpool'
    cases hpool'
  | releasesleep => exact .inl ⟨rfl, rfl, rfl⟩
  | drop => exact .inr ⟨rfl, rfl, rfl⟩
  | _ => cases hq

/-- `iget` finds a valid entry only if it was there before. -/
theorem iget_valid (hvalid : x.iget.valid = true) :
    0 < x.ref ∧ x.valid = true := by
  unfold Entry.iget at hvalid
  split at hvalid
  · next href => exact ⟨href, hvalid⟩
  · cases hvalid

@[simp] theorem iget_disk (x : Entry n) : x.iget.disk = x.disk := by
  unfold Entry.iget; split <;> rfl
@[simp] theorem iget_mem (x : Entry n) : x.iget.mem = x.mem := by
  unfold Entry.iget; split <;> rfl
@[simp] theorem iget_pool (x : Entry n) : x.iget.pool = x.pool := by
  unfold Entry.iget; split <;> rfl

/-- The steps of the `create` that has the inode. -/
theorem New.step_self (h : New x f p) (hcount : Counted ⟨x, f⟩) (hl : Local x p c a x' c')
    (hc : f p = c) : Phase x' (Function.update f p c') := by
  have hnew := h.new
  have hother : ∀ q, q ≠ p → (Function.update f p c' q).quiet = true := by
    intro q hq
    rw [Function.update_of_ne hq]
    exact h.others q hq
  have hcoh : x.valid = true → 0 < x.ref →
      x.mem = x.disk ∨ ∃ q, Function.update f p c' q = .freed := by
    intro hvalid href
    refine (h.coherent hvalid href).imp_right (exists_update (P := (· = .freed)) ?_)
    intro hf
    rw [hf] at hnew
    cases hnew
  rw [hc] at hnew
  cases hl with
  | iget =>
    refine .new p ⟨by simpa using h.disk, by simpa using h.pool, by simp [Pc.new], hother,
      by simp, ?_⟩
    intro hvalid _
    obtain ⟨href, hvalid⟩ := iget_valid hvalid
    simpa using hcoh hvalid href
  | acquireNew => exact .new p ⟨h.disk, h.pool, by simp [Pc.new], hother, by simp, hcoh⟩
  | @loaded new hvalid =>
    cases new with
    | false => cases hnew
    | true => exact .new p ⟨h.disk, h.pool, by simp [Pc.new], hother, fun _ => hvalid, hcoh⟩
  | @load new hvalid htype =>
    cases new with
    | false => cases hnew
    | true =>
      exact .new p ⟨h.disk, h.pool, by simp [Pc.new], hother, fun _ => rfl, fun _ _ => .inl rfl⟩
  | create =>
    -- no `iput` has the lock, so the copy in memory is the inode on the disk
    have hfreed : ∀ q, f q ≠ .freed := by
      intro q hq
      have := hcount.holder (p := p) (q := q) (by simp [hc, Pc.holdsLock]) (by simp [hq, Pc.holdsLock])
      rw [this, hq] at hc
      cases hc
    have hpos : 0 < x.ref := hcount.pos (p := p) (by simp [hc, Pc.weight])
    have hmem := (h.coherent (h.locked hc) hpos).resolve_right (fun hq => hq.elim hfreed)
    refine .inUse ⟨?_, ?_, fun _ _ => h.locked hc, fun _ _ => rfl, fun h => by cases h⟩
    · simpa only [Entry.iupdate, hmem] using h.disk.1
    · intro q
      by_cases hq : q = p
      · simp [hq, Pc.live]
      · have hquiet := h.others q hq
        have hfreed := hfreed q
        rw [Function.update_of_ne hq]
        generalize f q = d at *
        cases d <;> simp_all [Pc.quiet]
  | idup hdup =>
    rw [h.pool] at hdup
    rcases hdup with rfl | rfl | ⟨-, hpool⟩
    · cases hnew
    · cases hnew
    · cases hpool
  | _ => cases hnew

/-- The steps of the other processes. -/
theorem New.step_other {o : Fin n} (h : New x f o) (hcount : Counted ⟨x, f⟩) (hp : o ≠ p)
    (hl : Local x p c a x' c') (hc : f p = c) (hcare : Careful x f p a) :
    Phase x' (Function.update f p c') := by
  have hquiet := hc ▸ h.others p hp.symm
  have hmove := quiet_step hl hquiet h.disk.1 h.disk.2 h.pool hcare
  have hnew : (Function.update f p c' o).new = true := by
    rw [Function.update_of_ne hp]
    exact h.new
  have hother : c'.quiet = true → ∀ q, q ≠ o → (Function.update f p c' q).quiet = true := by
    intro hc' q hq
    by_cases hqp : q = p
    · rw [hqp, Function.update_self]
      exact hc'
    · rw [Function.update_of_ne hqp]
      exact h.others q hq
  rcases hmove with ⟨hd, rfl, rfl⟩ | ⟨hd, rfl, rfl⟩
  · refine .new o ⟨h.disk, h.pool, hnew, hother rfl, ?_, fun h => by cases h⟩
    intro ho
    rw [Function.update_of_ne hp] at ho
    exact absurd (hcount.holder (by simp [ho, Pc.holdsLock]) (by simp [hc, hd, Pc.holdsLock])) hp
  · refine .new o ⟨h.disk, h.pool, hnew, hother rfl, ?_, ?_⟩
    · rw [Function.update_of_ne hp]
      exact h.locked
    · intro hvalid href
      have href : 0 < x.ref - 1 := href
      refine (h.coherent hvalid (by omega)).imp_right (exists_update (P := (· = .freed)) ?_)
      simp [hc, hd]

theorem Freeing.step {o : Fin n} (h : Freeing x f o) (hl : Local x p c a x' c') (hc : f p = c)
    (hcare : Careful x f p a) : Phase x' (Function.update f p c') := by
  by_cases hp : p = o
  · subst hp
    have hfreeing := h.freeing
    rw [hc] at hfreeing
    subst hfreeing
    cases hl with
    | free =>
      refine .free ⟨?_, h.pool, ?_, fun _ _ => ⟨p, by simp⟩⟩
      · simp [Entry.iupdate, h.coherent, h.disk.2]
      · rw [Function.forall_update_iff f (fun _ c => c.quiet = true)]
        exact ⟨rfl, fun q hq => by rw [h.others q hq]; rfl⟩
    | idup hdup =>
      rw [h.pool] at hdup
      rcases hdup with hdup | hdup | hdup
      · cases hdup
      · cases hdup
      · cases hdup.1
  · have hidle := h.others p hp
    rw [hc] at hidle
    subst hidle
    rcases quiet_step hl rfl h.disk.1 h.disk.2 h.pool hcare with hmove | hmove
    · cases hmove.1
    · cases hmove.1

/-- Where the processes may stand while the inode is in use. -/
theorem InUse.pc_update (h : InUse x f) (hc' : c'.live = true ∨ c' = .idle ∨ c' = .dropping) :
    ∀ q, (Function.update f p c' q).live = true ∨ Function.update f p c' q = .idle ∨
      Function.update f p c' q = .dropping := by
  rw [Function.forall_update_iff f (fun _ c => c.live = true ∨ c = .idle ∨ c = .dropping)]
  exact ⟨hc', fun q _ => h.pc q⟩

theorem live_update (hc' : c'.live = true) : ∃ q, (Function.update f p c' q).live = true :=
  ⟨p, by rw [Function.update_self]; exact hc'⟩

/-- A step that leaves the inode alone, and a reference to it if it has no links. -/
theorem InUse.keep (h : InUse x f) (hdisk : x'.disk = x.disk) (hmem : x'.mem = x.mem)
    (hvalid : x'.valid = x.valid) (href : 0 < x'.ref → 0 < x.ref)
    (hc' : c'.live = true ∨ c' = .idle ∨ c' = .dropping)
    (hlocked : c' = .locked false → x.valid = true)
    (horphan : x.disk.nlink = 0 → 0 < x'.pool ∨ ∃ q, (Function.update f p c' q).live = true) :
    InUse x' (Function.update f p c') where
  type := by rw [hdisk]; exact h.type
  pc := h.pc_update hc'
  locked := by
    rw [Function.forall_update_iff f (fun _ c => c = .locked false → x'.valid = true), hvalid]
    exact ⟨hlocked, fun q _ => h.locked q⟩
  coherent := by
    rw [hdisk, hmem, hvalid]
    exact fun hv hr => h.coherent hv (href hr)
  orphan := by
    rw [hdisk, hvalid]
    exact fun hnlink => ⟨(h.orphan hnlink).1, horphan hnlink⟩

/-- An `iput` that does not free the inode leaves a reference behind if there are no links. -/
theorem InUse.iput (h : InUse x f) (hcount : Counted ⟨x, f⟩) (hp : f p = .held)
    (hlast : ¬ (x.ref = 1 ∧ x.valid = true ∧ x.mem.nlink = 0)) (hcare : Careful x f p .iput)
    (hnlink : x.disk.nlink = 0) :
    0 < x.pool ∨ ∃ q, (Function.update f p .idle q).live = true := by
  have hpos : 0 < x.ref := hcount.pos (p := p) (by simp [hp, Pc.weight])
  have hvalid := (h.orphan hnlink).1
  have hmem : x.mem.nlink = 0 := by rw [h.coherent hvalid hpos, hnlink]
  have hnot : ¬ LastUser x f p := fun hu => hlast ⟨hcare hvalid hmem hu, hvalid, hmem⟩
  simp only [LastUser, not_and, not_forall, Bool.not_eq_false] at hnot
  by_cases hpool : x.pool = 0
  · obtain ⟨q, hq, hlive⟩ := hnot hpool
    exact .inr ⟨q, by rwa [Function.update_of_ne hq]⟩
  · exact .inl (by omega)

theorem InUse.step (h : InUse x f) (hcount : Counted ⟨x, f⟩) (hl : Local x p c a x' c')
    (hc : f p = c) (hcare : Careful x f p a) : Phase x' (Function.update f p c') := by
  have hp := h.pc p
  rw [hc] at hp
  have hpos : c.weight = 1 → 0 < x.ref := by
    rw [← hc]
    exact hcount.pos (p := p)
  cases hl with
  | ialloc hfree => exact absurd hfree h.type
  | lookup =>
    refine .inUse ⟨by simpa using h.type, h.pc_update (.inl rfl), ?_, ?_, ?_⟩
    · intro q hq
      have hqp : q ≠ p := by
        rintro rfl
        simp at hq
      rw [Function.update_of_ne hqp] at hq
      have href : 0 < x.ref := hcount.pos (p := q) (by simp [hq, Pc.weight])
      rw [Entry.iget, if_pos href]
      exact h.locked q hq
    · intro hvalid _
      obtain ⟨href, hvalid⟩ := iget_valid hvalid
      simpa using h.coherent hvalid href
    · intro hnlink
      exact absurd (by simpa using hnlink) hcare
  | idup hdup =>
    have href : 0 < x.ref := by
      rcases hdup with rfl | rfl | ⟨-, hpool⟩
      · exact hpos rfl
      · exact hpos rfl
      · have hcnt := hcount.count
        have hnonneg := Sys.total_nonneg (f := f) weight_nonneg
        dsimp only at hcnt
        omega
    exact .inUse (h.keep rfl rfl rfl (fun _ => href) hp (fun h' => h.locked p (hc.trans h'))
      fun _ => .inl (Nat.succ_pos _))
  | store =>
    exact .inUse (h.keep rfl rfl rfl id (.inr (.inl rfl)) (by simp) fun _ => .inl (Nat.succ_pos _))
  | take =>
    exact .inUse (h.keep rfl rfl rfl id (.inl rfl) (by simp) fun _ => .inr (live_update rfl))
  | acquire =>
    exact .inUse (h.keep rfl rfl rfl id (.inl rfl) (by simp) fun _ => .inr (live_update rfl))
  | iunlock =>
    exact .inUse (h.keep rfl rfl rfl id (.inl rfl) (by simp) fun _ => .inr (live_update rfl))
  | @loaded new hvalid =>
    cases new with
    | true => simp [Pc.live] at hp
    | false =>
      exact .inUse (h.keep rfl rfl rfl id (.inl rfl) (fun _ => hvalid)
        fun _ => .inr (live_update rfl))
  | @load new hvalid htype =>
    cases new with
    | true => simp [Pc.live] at hp
    | false =>
      exact .inUse ⟨h.type, h.pc_update (.inl rfl), fun _ _ => rfl, fun _ _ => rfl,
        fun _ => ⟨rfl, .inr (live_update rfl)⟩⟩
  | update k =>
    have hvalid := h.locked p hc
    have hmem := h.coherent hvalid (hpos rfl)
    refine .inUse ⟨?_, h.pc_update (.inl rfl), fun _ _ => hvalid, fun _ _ => rfl,
      fun _ => ⟨hvalid, .inr (live_update rfl)⟩⟩
    simpa only [Entry.iupdate, hmem] using h.type
  | iputLast hlast hlock =>
    obtain ⟨href, hvalid, hnlink⟩ := hlast
    have hmem := h.coherent hvalid (hpos rfl)
    obtain ⟨hpool, halone⟩ := hcount.alone (p := p) (le_of_eq href) (by simp [hc, Pc.weight])
    refine .freeing p ⟨⟨h.type, ?_⟩, hpool, by simp, ?_, hmem⟩
    · simpa [Entry.setLock, ← hmem] using hnlink
    · intro q hq
      have hweight := halone q hq
      have hq' := h.pc q
      dsimp only at hweight
      rw [Function.update_of_ne hq]
      generalize f q = d at *
      cases d <;> simp_all [Pc.weight, Pc.live]
  | iput hlast =>
    exact .inUse (h.keep rfl rfl rfl (fun _ => hpos rfl) (.inr (.inl rfl)) (by simp)
      (h.iput hcount hc hlast hcare))
  | drop =>
    refine .inUse (h.keep rfl rfl rfl (fun _ => hpos rfl) (.inr (.inl rfl)) (by simp) ?_)
    intro hnlink
    refine (h.orphan hnlink).2.imp_right (exists_update (P := (·.live = true)) ?_)
    simp [hc, Pc.live]
  | _ => simp [Pc.live] at hp

theorem Phase.step (h : Phase x f) (hcount : Counted ⟨x, f⟩) (hl : Local x p c a x' c')
    (hc : f p = c) (hcare : Careful x f p a) : Phase x' (Function.update f p c') := by
  cases h with
  | free h => exact h.step hl hc hcare
  | new o h =>
    by_cases ho : o = p
    · subst ho
      exact h.step_self hcount hl hc
    · exact h.step_other hcount ho hl hc hcare
  | freeing o h => exact h.step hl hc hcare
  | inUse h => exact h.step hcount hl hc hcare

theorem Phase.init (h : Init s) : Phase s.entry s.pc := by
  rcases h.disk with hfree | ⟨htype, hnlink⟩
  · refine .free ⟨hfree, h.pool, fun q => by simp [h.pc q, Pc.quiet], fun _ href => ?_⟩
    rw [h.ref] at href
    cases href
  · refine .inUse ⟨htype, fun q => by simp [h.pc q], fun q hq => ?_, fun _ href => ?_,
      fun h0 => absurd h0 hnlink⟩
    · rw [h.pc q] at hq
      cases hq
    · rw [h.ref] at href
      cases href

/-! ## Runs -/

/-- Without references, only an `ialloc` can have an orphan in its hands. -/
theorem Phase.unreferenced (h : Phase x f) (hcount : Counted ⟨x, f⟩) (href : x.ref = 0)
    (horphan : x.disk.Orphan) : ∃ q, f q = .allocated := by
  have hzero : ∀ q, (f q).weight ≠ 1 := fun q hq => by
    have := hcount.pos (p := q) hq
    dsimp only at this
    omega
  cases h with
  | free h => exact absurd (by rw [h.disk]) horphan.1
  | new q h =>
    refine ⟨q, ?_⟩
    have hnew := h.new
    have hweight := hzero q
    generalize f q = d at *
    cases d <;> simp_all [Pc.new, Pc.weight]
  | freeing q h => exact absurd (by rw [h.freeing]; rfl) (hzero q)
  | inUse h =>
    rcases (h.orphan horphan.2).2 with hpool | ⟨q, hq⟩
    · have hcnt := hcount.count
      have hnonneg := Sys.total_nonneg (f := f) weight_nonneg
      dsimp only at hcnt
      omega
    · have hweight := hzero q
      generalize f q = d at *
      cases d <;> simp_all [Pc.live, Pc.weight]

/-- While `ialloc` has the inode, nobody else uses a reference. -/
theorem Phase.allocated (h : Phase x f) (hq : f q = .allocated) (hp : p ≠ q) :
    (f p).quiet = true := by
  cases h with
  | free h => exact h.pc p
  | new o h =>
    by_cases ho : q = o
    · exact h.others p (ho ▸ hp)
    · have hquiet := h.others q ho
      rw [hq] at hquiet
      cases hquiet
  | freeing o h =>
    by_cases ho : q = o
    · have hfreeing := h.freeing
      rw [← ho, hq] at hfreeing
      cases hfreeing
    · have hidle := h.others q ho
      rw [hq] at hidle
      cases hidle
  | inUse h =>
    have hpc := h.pc q
    simp [hq, Pc.live] at hpc

/-- `ref` goes to 0 only in `iput`. -/
theorem Local.ref_zero (h : Local x p c a x' c') (href : x.ref ≠ 0) (href' : x'.ref = 0) :
    (c = .held ∨ c = .dropping ∧ a = .drop) ∧ x.ref = 1 ∧ c' = .idle := by
  have higet : x.iget.ref ≠ 0 := by
    unfold Entry.iget
    split <;> simp
  cases h with
  | iget | lookup => exact absurd href' higet
  | idup => cases href'
  | iput =>
    have href' : x.ref - 1 = 0 := href'
    exact ⟨.inl rfl, by omega, rfl⟩
  | drop =>
    have href' : x.ref - 1 = 0 := href'
    exact ⟨.inr ⟨rfl, rfl⟩, by omega, rfl⟩
  | _ => exact absurd href' href

end

/-- The condition of `Careful`, for the steps of a run. -/
def CarefulStep (s : State n) (e : Fin n × Act) : Prop := Careful s.entry s.pc e.1 e.2

theorem run_phase {s₀ : State n} {es : List (Fin n × Act)} (hinit : Init s₀)
    (h : Sys.RunWhere Step CarefulStep s₀ es s) : Counted s ∧ Phase s.entry s.pc := by
  refine h.invariant (I := fun s => Counted s ∧ Phase s.entry s.pc) ?_ ⟨.init hinit, .init hinit⟩
  rintro t ⟨p, a⟩ u ⟨hcount, hphase⟩ hcare hstep
  refine ⟨hstep.counted hcount, ?_⟩
  obtain ⟨c, hlocal, hpc⟩ := hstep.cases
  rw [hpc]
  exact hphase.step hcount hlocal rfl hcare

/-- In a run whose steps are all careful, an inode whose `ref` becomes 0 is not left
allocated without links. -/
theorem last_reference_frees {s₀ : State n} {es : List (Fin n × Act)} {e : Fin n × Act}
    (hinit : Init s₀) (hrun : Sys.RunWhere Step CarefulStep s₀ es s) (hcare : CarefulStep s e)
    (hstep : Step s e s') (href : s.entry.ref ≠ 0) (href' : s'.entry.ref = 0) :
    ¬ s'.entry.disk.Orphan := by
  intro horphan
  obtain ⟨hcount, hphase⟩ := run_phase hinit hrun
  obtain ⟨hcount', hphase'⟩ := run_phase hinit (hrun.snoc hcare hstep)
  obtain ⟨q, hq⟩ := hphase'.unreferenced hcount' href' horphan
  obtain ⟨p, a⟩ := e
  obtain ⟨c, hlocal, hpc⟩ := hstep.cases
  obtain ⟨hc, hone, rfl⟩ := hlocal.ref_zero href href'
  have hqp : q ≠ p := by
    rintro rfl
    simp [hpc] at hq
  rw [hpc, Function.update_of_ne hqp] at hq
  rcases hc with hc | ⟨-, rfl⟩
  · have hquiet := hphase.allocated hq hqp.symm
    rw [hc] at hquiet
    cases hquiet
  · exact hcare hone q hq

/-- Nobody uses the inode, which is free. -/
def unused : State n := ⟨⟨⟨0, 0⟩, 0, false, ⟨0, 0⟩, none, 0⟩, fun _ => .idle⟩

/-- A file is created and removed again. -/
def createUnlink (p : Fin n) : List (Fin n × Act) :=
  [(p, .ialloc 2), (p, .iget), (p, .acquiresleep), (p, .load), (p, .create), (p, .unlink),
    (p, .iunlock), (p, .iput), (p, .free), (p, .releasesleep)]

instance (s : State n) (e : Fin n × Act) : Decidable (CarefulStep s e) := by
  unfold CarefulStep Careful LastUser
  split <;> infer_instance

theorem last_reference_frees_createUnlink :
    ∃ s s' : State 2, Sys.RunWhere Step CarefulStep unused (createUnlink 0) s ∧ Step s (0, .drop) s' ∧
      s'.entry.ref = 0 ∧ ¬ s'.entry.disk.Orphan := by
  have hinit : Init (unused : State 2) := ⟨rfl, rfl, rfl, fun _ => rfl, .inl rfl⟩
  have hrun : ((Sys.exec (fun s e => if CarefulStep s e then next s e else none) (unused : State 2)
      (createUnlink 0)).any fun s => CarefulStep s (0, .drop) ∧ s.entry.ref ≠ 0 ∧
        (next s (0, .drop)).any fun s' => s'.entry.ref = 0) = true := by
    decide +kernel
  obtain ⟨s, hs, hlast⟩ := Sys.exists_of_any hrun
  obtain ⟨hcare, href, hdrop⟩ := of_decide_eq_true hlast
  obtain ⟨s', hstep, hzero⟩ := Sys.exists_of_any hdrop
  have hzero := of_decide_eq_true hzero
  have hwhere := Sys.exec_runWhere hs
  exact ⟨s, s', hwhere, hstep, hzero,
    last_reference_frees hinit hwhere hcare hstep href hzero⟩

/-- Process `p` creates and removes a file; before its `iput` is finished, process `q` gets the
same inode number for a new file, opens, removes and closes it. -/
def reuse (p q : Fin n) : List (Fin n × Act) :=
  (createUnlink p) ++
  [(q, .ialloc 2), (q, .iget), (q, .acquiresleep), (q, .load), (q, .create), (q, .iunlock),
    (q, .store), (q, .lookup), (q, .acquiresleep), (q, .load), (q, .unlink), (q, .iunlock),
    (q, .iput), (q, .take), (q, .iput)]

/-- The inode of the second file is never freed. -/
theorem reuse_leaves_orphan :
    ∃ s s' : State 2, Sys.Run Step unused (reuse 0 1) s ∧ Step s (0, .drop) s' ∧
      s.entry.ref = 1 ∧ s'.entry.ref = 0 ∧ s'.entry.disk.Orphan := by
  have hrun : ((Sys.exec next (unused : State 2) (reuse 0 1)).any fun s => s.entry.ref = 1 ∧
      (next s (0, .drop)).any fun s' => s'.entry.ref = 0 ∧ s'.entry.disk.Orphan) = true := by
    decide +kernel
  obtain ⟨s, hs, hlast⟩ := Sys.exists_of_any hrun
  obtain ⟨href, hdrop⟩ := of_decide_eq_true hlast
  obtain ⟨s', hstep, horphan⟩ := Sys.exists_of_any hdrop
  exact ⟨s, s', Sys.exec_run hs, hstep, href, of_decide_eq_true horphan⟩

end Xv6.Inode
