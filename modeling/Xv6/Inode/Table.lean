-- SUMMARY: The inode table of `kernel/fs.c` with its sleep locks under concurrency: `iput` never waits for a sleep lock.
import Xv6.Base.Tokens
import Xv6.Inode.Entry
import Xv6.Kernel.Param

/-!
# The inode table

All entries of `itable` and any number of processes. A process calls `iget`, `idup`, `ilock`,
`iunlock` and `iput` in any order, but it locks only what it has a reference to, and keeps a
reference to what it has locked. A step is what a process does while it holds `itable.lock`,
except that `iput` takes the lock, looks at the entry, and may go for the sleep lock, in
three steps.
-/

namespace Xv6.Itable

open Xv6.Inode (Dinode)
open Token (refs uses own change)

structure Slot (n : Nat) where
  dev : Nat
  inum : Nat
  ref : Nat
  valid : Bool
  /-- The copy of the inode. -/
  mem : Dinode
  /-- Who holds the sleep lock? -/
  lock : Option (Fin n)

/-- A pointer to an entry that is counted in `ref`: a local variable or the current directory
of one process, or an open file, which processes may share. -/
abbrev Ref (n : Nat) : Type := Token (Fin NINODE) (Fin n)

/-- Where a process stands. -/
inductive Pc
  /-- In no function of the table. -/
  | out
  /-- `ilock` has the sleep lock, and is about to read the inode. -/
  | loading (i : Fin NINODE)
  /-- `iput` has `itable.lock`. -/
  | testing (i : Fin NINODE)
  /-- It saw the last reference to an unlinked inode, and calls `acquiresleep`. -/
  | last (i : Fin NINODE)
  /-- It has the sleep lock, and has released `itable.lock`. -/
  | freeing (i : Fin NINODE)
  | freed (i : Fin NINODE)
  /-- It has released the sleep lock, and needs `itable.lock` again. -/
  | dropping (i : Fin NINODE)
  deriving DecidableEq

inductive Act (n : Nat)
  | ialloc (dev inum type : Nat)
  | iget (dev inum : Nat)
  | idup (i : Fin NINODE)
  /-- Another process gets an open file, by `fork`. -/
  | share (r : Ref n) (q : Fin n)
  /-- One of several processes closes an open file. -/
  | leave (r : Ref n)
  | acquiresleep (i : Fin NINODE)
  | load
  | write (i : Fin NINODE) (d : Dinode)
  | iupdate (i : Fin NINODE)
  | iunlock (i : Fin NINODE)
  | iput (i : Fin NINODE)
  | test
  | lockLast
  | free
  | releasesleep
  | drop

structure State (n : Nat) where
  disk : Nat → Nat → Dinode
  slot : Fin NINODE → Slot n
  /-- Who holds `itable.lock` between two steps? -/
  lock : Option (Fin n)
  refs : Multiset (Ref n)
  pc : Fin n → Pc

variable {n : Nat}

namespace State

def setSlot (s : State n) (i : Fin NINODE) (x : Slot n) : State n :=
  { s with slot := Function.update s.slot i x }

def setDisk (s : State n) (dev inum : Nat) (d : Dinode) : State n :=
  { s with disk := Function.update s.disk dev (Function.update (s.disk dev) inum d) }

def setRefs (s : State n) (rs : Multiset (Ref n)) : State n := { s with refs := rs }

def setLock (s : State n) (holder : Option (Fin n)) : State n := { s with lock := holder }

def goto (s : State n) (p : Fin n) (c : Pc) : State n := { s with pc := Function.update s.pc p c }

/-- The sleep lock of an entry changes hands. -/
def setSleep (s : State n) (i : Fin NINODE) (holder : Option (Fin n)) : State n :=
  s.setSlot i { s.slot i with lock := holder }

/-- `ref` changes, together with the reference that it counts. -/
def setRef (s : State n) (i : Fin NINODE) (k : Nat) : State n := s.setSlot i { s.slot i with ref := k }

/-- The entry that has the inode already. -/
def cached (s : State n) (dev inum : Nat) : Option (Fin NINODE) :=
  (List.finRange NINODE).find? fun i =>
    (s.slot i).ref > 0 && (s.slot i).dev == dev && (s.slot i).inum == inum

/-- The first entry that nobody uses. -/
def empty (s : State n) : Option (Fin NINODE) :=
  (List.finRange NINODE).find? fun i => (s.slot i).ref == 0

/-- `iget`, which panics if the table is full. -/
def iget (s : State n) (dev inum : Nat) : Option (State n × Fin NINODE) :=
  match s.cached dev inum with
  | some i => some (s.setRef i ((s.slot i).ref + 1), i)
  | none => s.empty.map fun i =>
      (s.setSlot i { s.slot i with dev := dev, inum := inum, ref := 1, valid := false }, i)

/-- `iupdate`. -/
def iupdate (s : State n) (i : Fin NINODE) : State n :=
  s.setDisk (s.slot i).dev (s.slot i).inum (s.slot i).mem

/-- The part of `ilock` that reads the inode, which panics if that is free. -/
def load (s : State n) (i : Fin NINODE) : Option (State n) :=
  let d := s.disk (s.slot i).dev (s.slot i).inum
  if (s.slot i).valid then some s
  else if d.type = 0 then none
  else some (s.setSlot i { s.slot i with mem := d, valid := true })

/-- `ip->ref == 1 && ip->valid && ip->nlink == 0`. -/
def Last (s : State n) (i : Fin NINODE) : Prop :=
  (s.slot i).ref = 1 ∧ (s.slot i).valid = true ∧ (s.slot i).mem.nlink = 0

instance (s : State n) (i : Fin NINODE) : Decidable (s.Last i) := inferInstanceAs (Decidable (_ ∧ _))

/-- Process `p` can do without one of its references: it has another one if it holds the lock. -/
def Spare (s : State n) (p : Fin n) (i : Fin NINODE) : Prop :=
  (s.slot i).lock = some p → 1 < uses s.refs p i

instance (s : State n) (p : Fin n) (i : Fin NINODE) : Decidable (s.Spare p i) :=
  inferInstanceAs (Decidable (_ → _))

/-- The end of `iput`. -/
def drop (s : State n) (p : Fin n) (i : Fin NINODE) : State n :=
  (((s.setRef i ((s.slot i).ref - 1)).setRefs (s.refs.erase (own p i))).setLock none).goto p .out

end State

/-- One step of process `p`. A panic is not a step, and neither is waiting for a lock. -/
def localStep (s : State n) (p : Fin n) : Pc → Act n → Option (State n)
  | .out, .ialloc dev inum type =>
    if (s.disk dev inum).type = 0 ∧ type ≠ 0 then some (s.setDisk dev inum ⟨type, 0⟩) else none
  | .out, .iget dev inum =>
    if s.lock = none then (s.iget dev inum).map fun r => r.1.setRefs (own p r.2 ::ₘ s.refs) else none
  | .out, .idup i =>
    if s.lock = none ∧ 0 < uses s.refs p i then
      some ((s.setRef i ((s.slot i).ref + 1)).setRefs (own p i ::ₘ s.refs))
    else none
  | .out, .share r q =>
    if r ∈ s.refs ∧ p ∈ r.users then
      some (s.setRefs (change s.refs r ⟨r.slot, insert q r.users⟩))
    else none
  | .out, .leave r =>
    if r ∈ s.refs ∧ p ∈ r.users ∧ r.users ≠ {p} ∧ s.Spare p r.slot then
      some (s.setRefs (change s.refs r ⟨r.slot, r.users.erase p⟩))
    else none
  | .out, .acquiresleep i =>
    if 0 < uses s.refs p i ∧ (s.slot i).lock = none then
      some ((s.setSleep i (some p)).goto p (.loading i))
    else none
  | .loading i, .load => (s.load i).map fun s' => s'.goto p .out
  | .out, .write i d =>
    if (s.slot i).lock = some p then some (s.setSlot i { s.slot i with mem := d }) else none
  | .out, .iupdate i => if (s.slot i).lock = some p then some (s.iupdate i) else none
  | .out, .iunlock i => if (s.slot i).lock = some p then some ((s.setSleep i none).goto p .out) else none
  | .out, .iput i =>
    if s.lock = none ∧ own p i ∈ s.refs ∧ s.Spare p i then
      some ((s.setLock (some p)).goto p (.testing i))
    else none
  | .testing i, .test => if s.Last i then some (s.goto p (.last i)) else some (s.drop p i)
  | .last i, .lockLast =>
    if (s.slot i).lock = none then
      some (((s.setSleep i (some p)).setLock none).goto p (.freeing i))
    else none
  | .freeing i, .free =>
    let d := { (s.slot i).mem with type := 0 }
    some (((s.setSlot i { s.slot i with mem := d, valid := false }).setDisk (s.slot i).dev
      (s.slot i).inum d).goto p (.freed i))
  | .freed i, .releasesleep => some ((s.setSleep i none).goto p (.dropping i))
  | .dropping i, .drop => if s.lock = none then some (s.drop p i) else none
  | _, _ => none

def next (s : State n) : Fin n × Act n → Option (State n)
  | (p, a) => localStep s p (s.pc p) a

def Step (s : State n) (e : Fin n × Act n) (s' : State n) : Prop := next s e = some s'

/-- After `iinit`, with any inodes on the disk. -/
def iinit (n : Nat) (disk : Nat → Nat → Dinode) : State n :=
  ⟨disk, fun _ => ⟨0, 0, 0, false, ⟨0, 0⟩, none⟩, none, 0, fun _ => .out⟩

/-! ## What a step leaves to the others -/

variable {s s' s'' : State n} {p q : Fin n} {i j : Fin NINODE} {x : Slot n} {c : Pc} {r : Ref n}

/-- A step of `p`, as the other processes see it. -/
structure Frame (p : Fin n) (s s' : State n) : Prop where
  own : ∀ q ≠ p, ∀ i, own q i ∈ s.refs → own q i ∈ s'.refs
  uses : ∀ q ≠ p, ∀ i, uses s.refs q i ≤ uses s'.refs q i
  sleep : ∀ q ≠ p, ∀ i, (s'.slot i).lock = some q ↔ (s.slot i).lock = some q
  table : ∀ q ≠ p, s.lock = some q → s'.lock = some q ∧ ∀ i, (s'.slot i).ref = (s.slot i).ref
  pc : ∀ q ≠ p, s'.pc q = s.pc q

namespace Frame

theorem trans (h : Frame p s s') (h' : Frame p s' s'') : Frame p s s'' where
  own q hq i hown := h'.own q hq i (h.own q hq i hown)
  uses q hq i := (h.uses q hq i).trans (h'.uses q hq i)
  sleep q hq i := (h'.sleep q hq i).trans (h.sleep q hq i)
  table q hq hlock := by
    obtain ⟨hlock', href⟩ := h.table q hq hlock
    obtain ⟨hlock'', href'⟩ := h'.table q hq hlock'
    exact ⟨hlock'', fun i => (href' i).trans (href i)⟩
  pc q hq := (h'.pc q hq).trans (h.pc q hq)

/-- Neither references nor locks change. -/
theorem of_eq (hrefs : s'.refs = s.refs) (hsleep : ∀ i, (s'.slot i).lock = (s.slot i).lock)
    (href : ∀ i, (s'.slot i).ref = (s.slot i).ref) (hlock : s'.lock = s.lock)
    (hpc : ∀ q ≠ p, s'.pc q = s.pc q) : Frame p s s' where
  own q _ i hown := hrefs ▸ hown
  uses q _ i := (congrArg (Token.uses · q i) hrefs).ge
  sleep q _ i := by rw [hsleep]
  table q _ h := ⟨hlock.trans h, href⟩
  pc := hpc

theorem goto (s : State n) (p : Fin n) (c : Pc) : Frame p s (s.goto p c) :=
  of_eq rfl (fun _ => rfl) (fun _ => rfl) rfl fun _ hq => Function.update_of_ne hq _ _

end Frame

theorem setSlot_slot : (s.setSlot i x).slot j = if j = i then x else s.slot j :=
  Function.update_apply s.slot i x j

theorem setSlot_ref (h : x.ref = (s.slot i).ref) : ((s.setSlot i x).slot j).ref = (s.slot j).ref := by
  rw [setSlot_slot]
  split
  · next hj => rw [h, hj]
  · rfl

theorem setSlot_lock (h : x.lock = (s.slot i).lock) : ((s.setSlot i x).slot j).lock = (s.slot j).lock := by
  rw [setSlot_slot]
  split
  · next hj => rw [h, hj]
  · rfl

theorem setSleep_ref {holder : Option (Fin n)} : ((s.setSleep i holder).slot j).ref = (s.slot j).ref :=
  setSlot_ref rfl

theorem setSleep_lock {holder : Option (Fin n)} :
    ((s.setSleep i holder).slot j).lock = if j = i then holder else (s.slot j).lock := by
  rw [State.setSleep, setSlot_slot, apply_ite Slot.lock]

theorem setRef_lock {k : Nat} : ((s.setRef i k).slot j).lock = (s.slot j).lock := setSlot_lock rfl

theorem goto_setLock_goto {holder : Option (Fin n)} {c' : Pc} :
    ((s.goto p c).setLock holder).goto p c' = (s.setLock holder).goto p c' := by
  simp only [State.goto, State.setLock, Function.update_idem]

namespace Frame

/-- An entry whose `ref` changes while nobody else has `itable.lock`. -/
theorem count (hlock : s.lock = none ∨ s.lock = some p) (hsleep : x.lock = (s.slot i).lock) :
    Frame p s (s.setSlot i x) where
  own _ _ _ hown := hown
  uses _ _ _ := le_rfl
  sleep q _ j := by rw [setSlot_lock hsleep]
  table q hq h := by
    obtain hnone | hself := hlock
    · cases hnone.symm.trans h
    · exact absurd (Option.some.inj (hself.symm.trans h)).symm hq
  pc _ _ := rfl

theorem acquiresleep (hfree : (s.slot i).lock = none ∨ (s.slot i).lock = some p)
    {holder : Option (Fin n)} (hholder : holder = none ∨ holder = some p) :
    Frame p s (s.setSleep i holder) where
  own _ _ _ hown := hown
  uses _ _ _ := le_rfl
  sleep q hq j := by
    rw [setSleep_lock]
    split
    · next h =>
      have hother {o : Option (Fin n)} (ho : o = none ∨ o = some p) : o ≠ some q := by
        obtain rfl | rfl := ho
        · exact (Option.some_ne_none q).symm
        · exact fun heq => hq (Option.some.inj heq).symm
      exact iff_of_false (hother hholder) (h ▸ hother hfree)
    · rfl
  table q _ h := ⟨h, fun _ => setSleep_ref⟩
  pc _ _ := rfl

theorem setLock (hfree : s.lock = none ∨ s.lock = some p) (holder : Option (Fin n)) :
    Frame p s (s.setLock holder) where
  own _ _ _ hown := hown
  uses _ _ _ := le_rfl
  sleep _ _ _ := Iff.rfl
  table q hq h := by
    obtain hnone | hself := hfree
    · cases hnone.symm.trans h
    · exact absurd (Option.some.inj (hself.symm.trans h)).symm hq
  pc _ _ := rfl

theorem setRefs {rs : Multiset (Ref n)} (hown : ∀ q ≠ p, ∀ i, Token.own q i ∈ s.refs → Token.own q i ∈ rs)
    (huses : ∀ q ≠ p, ∀ i, Token.uses s.refs q i ≤ Token.uses rs q i) : Frame p s (s.setRefs rs) where
  own := hown
  uses := huses
  sleep _ _ _ := Iff.rfl
  table _ _ h := ⟨h, fun _ => rfl⟩
  pc _ _ := rfl

/-- A further reference. -/
theorem addRef : Frame p s (s.setRefs (Token.own p i ::ₘ s.refs)) := by
  refine setRefs (fun q _ j h => Multiset.mem_cons_of_mem h) fun q _ j => ?_
  rw [Token.uses_cons]
  exact Nat.le_add_right _ _

theorem dropRef (h : Token.own p i ∈ s.refs) : Frame p s (s.setRefs (s.refs.erase (Token.own p i))) := by
  refine setRefs (fun q hq j hown => ?_) fun q hq j => ?_
  · exact (Multiset.mem_erase_of_ne (Token.own_ne (Finset.mem_singleton_self p) hq)).mpr hown
  · rw [← Token.uses_erase h, if_neg fun hmem => hq (Finset.mem_singleton.mp hmem.2)]
    exact le_rfl

/-- A reference gets other users. -/
theorem changeRef {users : Finset (Fin n)} (h : r ∈ s.refs) (hp : p ∈ r.users)
    (husers : ∀ q ≠ p, q ∈ r.users → q ∈ users) :
    Frame p s (s.setRefs (change s.refs r ⟨r.slot, users⟩)) := by
  refine setRefs (fun q hq j hown => ?_) fun q hq j => ?_
  · exact Token.mem_change hown (Token.own_ne hp hq) _
  · exact Token.uses_le_change h rfl (husers q hq)

end Frame

/-! ## The invariant -/

/-- What holds at each point of `ilock` and `iput`. -/
def PcOk (s : State n) (p : Fin n) : Pc → Prop
  | .out | .loading _ => True
  | .testing i => s.lock = some p ∧ own p i ∈ s.refs ∧ s.Spare p i
  | .last i => s.lock = some p ∧ own p i ∈ s.refs ∧ (s.slot i).lock ≠ some p ∧ (s.slot i).ref = 1
  | .freeing i | .freed i => own p i ∈ s.refs ∧ (s.slot i).lock = some p
  | .dropping i => own p i ∈ s.refs ∧ s.Spare p i

/-- `ref` counts the references, and whoever holds a sleep lock has one. -/
structure Inv (s : State n) : Prop where
  count : ∀ i, (s.slot i).ref = refs s.refs i
  holder : ∀ i p, (s.slot i).lock = some p → 0 < uses s.refs p i
  pc : ∀ p, PcOk s p (s.pc p)

theorem inv_iinit (n : Nat) (disk : Nat → Nat → Dinode) : Inv (iinit n disk) where
  count _ := rfl
  holder _ _ h := by cases h
  pc _ := trivial

theorem Frame.spare (h : Frame p s s') (hq : q ≠ p) (hspare : s.Spare q i) : s'.Spare q i :=
  fun hlock => (hspare ((h.sleep q hq i).mp hlock)).trans_le (h.uses q hq i)

/-- A step of `p` does not disturb the others. -/
theorem Frame.pcOk (h : Frame p s s') (hq : q ≠ p) (hok : PcOk s q c) : PcOk s' q c := by
  cases c with
  | out | loading i => trivial
  | testing i =>
    obtain ⟨hlock, hown, hspare⟩ := hok
    exact ⟨(h.table q hq hlock).1, h.own q hq i hown, h.spare hq hspare⟩
  | last i =>
    obtain ⟨hlock, hown, hsleep, href⟩ := hok
    obtain ⟨hlock', href'⟩ := h.table q hq hlock
    exact ⟨hlock', h.own q hq i hown, fun hs => hsleep ((h.sleep q hq i).mp hs), (href' i).trans href⟩
  | freeing i | freed i => exact ⟨h.own q hq i hok.1, (h.sleep q hq i).mpr hok.2⟩
  | dropping i => exact ⟨h.own q hq i hok.1, h.spare hq hok.2⟩

namespace Inv

/-- What is left to show for the process that takes the step. -/
theorem of_frame (h : Inv s) (hf : Frame p s s') (hcount : ∀ i, (s'.slot i).ref = refs s'.refs i)
    (hholder : ∀ i, (s'.slot i).lock = some p → 0 < uses s'.refs p i) (hpc : PcOk s' p (s'.pc p)) :
    Inv s' where
  count := hcount
  holder i q hlock := by
    by_cases hq : q = p
    · exact hq ▸ hholder i (hq ▸ hlock)
    · exact (h.holder i q ((hf.sleep q hq i).mp hlock)).trans_le (hf.uses q hq i)
  pc q := by
    by_cases hq : q = p
    · exact hq ▸ hpc
    · rw [hf.pc q hq]
      exact hf.pcOk hq (h.pc q)

/-- The last reference is not to a locked entry. -/
theorem sleep_free (h : Inv s) (hown : own p i ∈ s.refs) (hp : (s.slot i).lock ≠ some p)
    (href : (s.slot i).ref = 1) : (s.slot i).lock = none := by
  cases hlock : (s.slot i).lock with
  | none => rfl
  | some q =>
    have hq : q ≠ p := fun heq => hp (heq ▸ hlock)
    have htwo := Token.two_le_refs hown (h.holder i q hlock) hq
    rw [← h.count i, href] at htwo
    omega

/-- Whoever can spare the last reference does not hold the lock. -/
theorem not_locked (h : Inv s) (hspare : s.Spare p i) (href : (s.slot i).ref = 1) :
    (s.slot i).lock ≠ some p := by
  intro hlock
  have hmany := (hspare hlock).trans_le Token.uses_le_refs
  rw [← h.count i, href] at hmany
  omega

/-! ### Steps -/

/-- The process goes on to `c`, and nothing else that matters changes. -/
theorem quiet (h : Inv s) (hrefs : s'.refs = s.refs) (hsleep : ∀ i, (s'.slot i).lock = (s.slot i).lock)
    (href : ∀ i, (s'.slot i).ref = (s.slot i).ref) (hlock : s'.lock = s.lock)
    (hpc : ∀ q ≠ p, s'.pc q = s.pc q) (hself : s'.pc p = c) (hp : PcOk s' p c) : Inv s' := by
  refine h.of_frame (.of_eq hrefs hsleep href hlock hpc) (fun i => ?_) (fun i hheld => ?_) (hself ▸ hp)
  · rw [href, hrefs, h.count]
  · rw [hrefs]
    exact h.holder i p ((hsleep i).symm.trans hheld)

/-- One more reference to entry `i`. -/
theorem addRef (h : Inv s) (hlock : s.lock = none) (hpc : s.pc p = .out)
    (href : x.ref = (s.slot i).ref + 1) (hsleep : x.lock = (s.slot i).lock) :
    Inv ((s.setSlot i x).setRefs (own p i ::ₘ s.refs)) := by
  have hf : Frame p s ((s.setSlot i x).setRefs (own p i ::ₘ s.refs)) :=
    (Frame.count (.inl hlock) hsleep).trans .addRef
  refine h.of_frame hf (fun j => ?_) (fun j hheld => ?_) ?_
  · change ((s.setSlot i x).slot j).ref = refs (own p i ::ₘ s.refs) j
    rw [setSlot_slot, Token.refs_cons, ← h.count]
    by_cases hj : j = i
    · rw [if_pos hj, if_pos hj.symm, href, hj]
    · rw [if_neg hj, if_neg (Ne.symm hj), Nat.add_zero]
  · change 0 < uses (own p i ::ₘ s.refs) p j
    have hheld : (s.slot j).lock = some p := by
      rwa [← setSlot_lock hsleep]
    rw [Token.uses_cons]
    exact Nat.add_pos_left (h.holder j p hheld) _
  · change PcOk _ p (s.pc p)
    rw [hpc]
    trivial

/-- A reference gets other users. -/
theorem changeRef {users : Finset (Fin n)} (h : Inv s) (hpc : s.pc p = .out) (hr : r ∈ s.refs)
    (hp : p ∈ r.users) (husers : ∀ q ≠ p, q ∈ r.users → q ∈ users)
    (hself : p ∈ users ∨ s.Spare p r.slot) : Inv (s.setRefs (change s.refs r ⟨r.slot, users⟩)) := by
  refine h.of_frame (.changeRef hr hp husers) (fun i => ?_) (fun i hheld => ?_) ?_
  · change (s.slot i).ref = _
    rw [h.count]
    exact (Token.refs_change ⟨r.slot, users⟩ hr rfl).symm
  · have huses := Token.uses_change (q := p) (i := i) ⟨r.slot, users⟩ hr
    have hpos := h.holder i p hheld
    change 0 < uses (change s.refs r ⟨r.slot, users⟩) p i
    by_cases hi : r.slot = i
    · rw [if_pos ⟨hi, hp⟩] at huses
      obtain hmem | hspare := hself
      · rw [if_pos ⟨hi, hmem⟩] at huses
        omega
      · have hmany := hspare (hi ▸ hheld)
        rw [hi] at hmany
        omega
    · rw [if_neg fun hc => hi hc.1, if_neg fun hc => hi hc.1] at huses
      omega
  · change PcOk _ p (s.pc p)
    rw [hpc]
    trivial

/-- The sleep lock of entry `i` is taken or released by `p`, which goes to `c`. -/
theorem setSleep {holder : Option (Fin n)} (h : Inv s)
    (hfree : (s.slot i).lock = none ∨ (s.slot i).lock = some p)
    (hholder : holder = none ∨ holder = some p ∧ 0 < uses s.refs p i)
    (hpc : PcOk ((s.setSleep i holder).goto p c) p c) : Inv ((s.setSleep i holder).goto p c) := by
  have hf : Frame p s ((s.setSleep i holder).goto p c) :=
    (Frame.acquiresleep hfree (hholder.imp_right And.left)).trans (.goto _ p c)
  refine h.of_frame hf (fun j => ?_) (fun j hheld => ?_) ?_
  · exact setSleep_ref.trans (h.count j)
  · change ((s.setSleep i holder).slot j).lock = some p at hheld
    change 0 < uses s.refs p j
    rw [setSleep_lock] at hheld
    split at hheld
    · next hj =>
      obtain hnone | ⟨-, hpos⟩ := hholder
      · cases hnone.symm.trans hheld
      · exact hj ▸ hpos
    · exact h.holder j p hheld
  · change PcOk _ p (Function.update s.pc p c p)
    rw [Function.update_self]
    exact hpc

theorem setLock {holder : Option (Fin n)} (h : Inv s) (hfree : s.lock = none ∨ s.lock = some p)
    (hpc : PcOk ((s.setLock holder).goto p c) p c) : Inv ((s.setLock holder).goto p c) := by
  refine h.of_frame ((Frame.setLock hfree holder).trans (.goto _ p c)) h.count (fun i => h.holder i p) ?_
  change PcOk _ p (Function.update s.pc p c p)
  rw [Function.update_self]
  exact hpc

theorem drop (h : Inv s) (hlock : s.lock = none ∨ s.lock = some p) (hown : own p i ∈ s.refs)
    (hspare : s.Spare p i) : Inv (s.drop p i) := by
  have hcount : Frame p s (s.setRef i ((s.slot i).ref - 1)) := Frame.count hlock rfl
  have hdrop := hcount.trans (Frame.dropRef (s := s.setRef i ((s.slot i).ref - 1)) hown)
  have hf : Frame p s (s.drop p i) := by
    refine (hdrop.trans (Frame.setLock ?_ none)).trans (.goto _ p .out)
    exact hlock
  refine h.of_frame hf (fun j => ?_) (fun j hheld => ?_) ?_
  · change ((s.setSlot i _).slot j).ref = refs (s.refs.erase (own p i)) j
    have hrefs := Token.refs_erase (i := j) hown
    rw [setSlot_slot]
    rw [← h.count] at hrefs
    by_cases hj : j = i
    · rw [if_pos hj]
      rw [if_pos hj.symm, hj] at hrefs
      rw [hj]
      exact (Nat.eq_sub_of_add_eq hrefs).symm
    · rw [if_neg hj]
      rw [if_neg (Ne.symm hj)] at hrefs
      exact hrefs.symm
  · change 0 < uses (s.refs.erase (own p i)) p j
    have huses := Token.uses_erase (p := p) (i := j) hown
    have hheld : (s.slot j).lock = some p := setRef_lock.symm.trans hheld
    have hpos := h.holder j p hheld
    by_cases hj : j = i
    · have hmany := hspare (hj ▸ hheld)
      rw [← hj] at hmany
      split at huses <;> omega
    · rw [if_neg fun hc => hj hc.1.symm] at huses
      omega
  · change PcOk _ p (Function.update s.pc p .out p)
    rw [Function.update_self]
    trivial

/-- A step of the table. -/
theorem step {a : Act n} (h : Inv s) (hstep : Step s (p, a) s') : Inv s' := by
  have hp := h.pc p
  replace hstep : localStep s p (s.pc p) a = some s' := hstep
  generalize hpc : s.pc p = c at hstep hp
  unfold localStep at hstep
  split at hstep
  case h_1 =>
    split at hstep
    · cases hstep
      exact h.quiet rfl (fun _ => rfl) (fun _ => rfl) rfl (fun _ _ => rfl) hpc trivial
    · cases hstep
  case h_2 =>
    split at hstep
    · next hlock =>
      obtain ⟨⟨s₁, i⟩, hget, rfl⟩ := Option.map_eq_some_iff.mp hstep
      unfold State.iget at hget
      split at hget
      · cases hget
        exact h.addRef hlock hpc rfl rfl
      · obtain ⟨j, hempty, heq⟩ := Option.map_eq_some_iff.mp hget
        cases heq
        have hzero := List.find?_some hempty
        exact h.addRef hlock hpc (by simpa using hzero) rfl
    · cases hstep
  case h_3 =>
    split at hstep
    · next hok =>
      cases hstep
      exact h.addRef hok.1 hpc rfl rfl
    · cases hstep
  case h_4 =>
    split at hstep
    · next hok =>
      cases hstep
      exact h.changeRef hpc hok.1 hok.2 (fun q _ => Finset.mem_insert_of_mem)
        (.inl (Finset.mem_insert_of_mem hok.2))
    · cases hstep
  case h_5 =>
    split at hstep
    · next hok =>
      cases hstep
      exact h.changeRef hpc hok.1 hok.2.1 (fun q hq hmem => Finset.mem_erase.mpr ⟨hq, hmem⟩)
        (.inr hok.2.2.2)
    · cases hstep
  case h_6 =>
    split at hstep
    · next hok =>
      cases hstep
      exact h.setSleep (.inl hok.2) (.inr ⟨rfl, hok.1⟩) trivial
    · cases hstep
  case h_7 i =>
    obtain ⟨s₁, hload, rfl⟩ := Option.map_eq_some_iff.mp hstep
    simp only [State.load] at hload
    have hgoto {u : State n} (hu : u.pc = s.pc) (q : Fin n) (hq : q ≠ p) : (u.goto p .out).pc q = s.pc q :=
      (Function.update_of_ne hq _ _).trans (congrFun hu q)
    split at hload
    · cases hload
      exact h.quiet rfl (fun _ => rfl) (fun _ => rfl) rfl (hgoto rfl) (Function.update_self ..) trivial
    · split at hload
      · cases hload
      · cases hload
        exact h.quiet rfl (fun _ => setSlot_lock rfl) (fun _ => setSlot_ref rfl) rfl (hgoto rfl)
          (Function.update_self ..) trivial
  case h_8 =>
    split at hstep
    · cases hstep
      exact h.quiet rfl (fun _ => setSlot_lock rfl) (fun _ => setSlot_ref rfl) rfl (fun _ _ => rfl) hpc trivial
    · cases hstep
  case h_9 =>
    split at hstep
    · cases hstep
      exact h.quiet rfl (fun _ => rfl) (fun _ => rfl) rfl (fun _ _ => rfl) hpc trivial
    · cases hstep
  case h_10 =>
    split at hstep
    · next hheld =>
      cases hstep
      exact h.setSleep (.inr hheld) (.inl rfl) trivial
    · cases hstep
  case h_11 =>
    split at hstep
    · next hok =>
      cases hstep
      exact h.setLock (.inl hok.1) ⟨rfl, hok.2⟩
    · cases hstep
  case h_12 i =>
    obtain ⟨hlock, hown, hspare⟩ := hp
    split at hstep
    · next hlast =>
      cases hstep
      refine h.quiet rfl (fun _ => rfl) (fun _ => rfl) rfl (fun q hq => Function.update_of_ne hq _ _)
        (Function.update_self ..) ?_
      exact ⟨hlock, hown, h.not_locked hspare hlast.1, hlast.1⟩
    · cases hstep
      exact h.drop (.inr hlock) hown hspare
  case h_13 i =>
    obtain ⟨hlock, hown, -, -⟩ := hp
    split at hstep
    · next hfree =>
      cases hstep
      have hpos : 0 < uses s.refs p i := Token.uses_pos hown (Finset.mem_singleton_self p)
      have h₁ : Inv ((s.setSleep i (some p)).goto p .out) :=
        h.setSleep (.inl hfree) (.inr ⟨rfl, hpos⟩) trivial
      rw [← goto_setLock_goto]
      exact h₁.setLock (.inr hlock) ⟨hown, setSleep_lock.trans (if_pos rfl)⟩
    · cases hstep
  case h_14 i =>
    cases hstep
    refine h.quiet rfl (fun _ => setSlot_lock rfl) (fun _ => setSlot_ref rfl) rfl
      (fun q hq => Function.update_of_ne hq _ _) (Function.update_self ..) ⟨hp.1, ?_⟩
    change ((s.setSlot i _).slot i).lock = some p
    rw [setSlot_slot, if_pos rfl]
    exact hp.2
  case h_15 i =>
    cases hstep
    refine h.setSleep (.inr hp.2) (.inl rfl) ⟨hp.1, fun hheld => ?_⟩
    have hnone : ((s.setSleep i none).slot i).lock = none := setSleep_lock.trans (if_pos rfl)
    cases hnone.symm.trans hheld
  case h_16 =>
    split at hstep
    · next hlock =>
      cases hstep
      exact h.drop (.inl hlock) hp.1 hp.2
    · cases hstep
  case h_17 => cases hstep

end Inv

/-- `iput` never waits for the sleep lock: if it sees the last reference to an unlinked inode,
the lock is free, also at the moment when `acquiresleep` asks for it with `itable.lock` held. -/
theorem iput_never_blocks {disk : Nat → Nat → Dinode} {es : List (Fin n × Act n)}
    (hrun : Sys.Run Step (iinit n disk) es s) :
    (s.pc p = .testing i → s.lock = some p ∧ (s.Last i → (s.slot i).lock = none)) ∧
    (s.pc p = .last i → s.lock = some p ∧ (s.slot i).lock = none ∧ ∃ s', Step s (p, .lockLast) s') := by
  have hinv : Inv s := by
    refine hrun.invariant (fun t e u ht hstep => ?_) (inv_iinit n disk)
    exact ht.step (p := e.1) (a := e.2) hstep
  have hp := hinv.pc p
  refine ⟨fun hpc => ?_, fun hpc => ?_⟩
  · rw [hpc] at hp
    obtain ⟨hlock, hown, hspare⟩ := hp
    exact ⟨hlock, fun hlast => hinv.sleep_free hown (hinv.not_locked hspare hlast.1) hlast.1⟩
  · rw [hpc] at hp
    obtain ⟨hlock, hown, hsleep, href⟩ := hp
    have hfree := hinv.sleep_free hown hsleep href
    refine ⟨hlock, hfree, ((s.setSleep i (some p)).setLock none).goto p (.freeing i), ?_⟩
    change localStep s p (s.pc p) .lockLast = _
    rw [hpc]
    exact if_pos hfree

/-- A process opens an inode, removes its link, and closes it. -/
def openUnlink (p : Fin n) (i : Fin NINODE) : List (Fin n × Act n) :=
  [(p, .iget 1 7), (p, .acquiresleep i), (p, .load), (p, .write i ⟨2, 0⟩), (p, .iupdate i),
    (p, .iunlock i), (p, .iput i), (p, .test)]

theorem iput_never_blocks_openUnlink : ∃ s : State 2,
    Sys.Run Step (iinit 2 fun _ _ => ⟨2, 1⟩) (openUnlink 0 0) s ∧ s.pc 0 = .last 0 ∧
    (s.slot 0).lock = none := by
  have hexec : (Sys.exec next (iinit 2 fun _ _ => ⟨2, 1⟩) (openUnlink 0 0)).any
      (fun s => s.pc 0 = .last 0) = true := by decide +kernel
  obtain ⟨s, hs, hlast⟩ := Sys.exists_of_any hexec
  have hlast := of_decide_eq_true hlast
  have hrun : Sys.Run Step (iinit 2 fun _ _ => ⟨2, 1⟩) (openUnlink 0 0) s := Sys.exec_run hs
  exact ⟨s, hrun, hlast, ((iput_never_blocks hrun).2 hlast).2.1⟩

end Xv6.Itable
