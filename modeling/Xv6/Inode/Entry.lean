-- SUMMARY: One inode number shared by any number of processes: its entry in the inode table, its sleep lock and its dinode.
import Xv6.Base.Transition
import Xv6.Base.Total

/-!
# An inode under concurrency

The entry that `itable` keeps for one inode number, and the inode on the disk. A step is
what a process does while it holds `itable.lock`, what it does between two operations on
the sleep lock, or one update of the inode block. References that no system call uses at
the moment (open files, current directories, a second reference in a path walk) are in
a pool, from which any process may take one.
-/

namespace Xv6.Inode

/-- The fields of an inode that decide whether it is freed. `nlink` is a C `short`. -/
structure Dinode where
  type : Nat
  nlink : Int
  deriving DecidableEq

/-- `ip->nlink += k`. -/
def Dinode.addLinks (d : Dinode) (k : Int) : Dinode := { d with nlink := (d.nlink + k).bmod (2 ^ 16) }

structure Entry (n : Nat) where
  disk : Dinode
  ref : Nat
  valid : Bool
  /-- The copy of the inode in the table entry. -/
  mem : Dinode
  /-- Who holds the sleep lock? -/
  lock : Option (Fin n)
  pool : Nat

/-- Where a process stands with the inode. -/
inductive Pc
  | idle
  /-- `ialloc` has written the type, and is about to call `iget`. -/
  | allocated
  /-- A reference that `ialloc` returned to `create`. -/
  | fresh
  | held
  /-- `ilock` has the sleep lock, and is about to read the inode; `new` in `create`. -/
  | locking (new : Bool)
  | locked (new : Bool)
  /-- `iput` saw the last reference to an unlinked inode, and has the sleep lock. -/
  | freeing
  /-- The type on the disk is 0. -/
  | freed
  /-- The sleep lock is released, and `ref` still to be decremented. -/
  | dropping
  deriving DecidableEq

inductive Act
  | ialloc (type : Nat)
  | iget
  /-- `dirlookup` found a directory entry with this inode number. -/
  | lookup
  /-- `idup`, or a lookup of `.` in a directory that the process uses. -/
  | idup
  | store
  | take
  | acquiresleep
  | load
  /-- `create` sets `nlink` to 1, or takes that back. -/
  | create
  | fail
  | link
  | unlink
  | iunlock
  | iput
  | free
  | releasesleep
  | drop
  deriving DecidableEq

variable {n : Nat}

namespace Entry

/-- `iget`: an entry with `ref = 0` is recycled. -/
def iget (x : Entry n) : Entry n :=
  if x.ref > 0 then { x with ref := x.ref + 1 } else { x with ref := 1, valid := false }

/-- Change the copy in memory, and `iupdate` the disk. -/
def iupdate (x : Entry n) (d : Dinode) : Entry n := { x with mem := d, disk := d }

def setLock (x : Entry n) (holder : Option (Fin n)) : Entry n := { x with lock := holder }

def setPool (x : Entry n) (k : Nat) : Entry n := { x with pool := k }

def setRef (x : Entry n) (k : Nat) : Entry n := { x with ref := k }

/-- A further reference, into the pool. -/
def idup (x : Entry n) : Entry n := (x.setRef (x.ref + 1)).setPool (x.pool + 1)

def setDisk (x : Entry n) (d : Dinode) : Entry n := { x with disk := d }

def invalidate (x : Entry n) : Entry n := { x with valid := false }

/-- The reading part of `ilock`. -/
def load (x : Entry n) : Entry n := { x with mem := x.disk, valid := true }

end Entry

/-- One step of process `p`. A panic is not a step, and neither is waiting for a lock. -/
def localStep (x : Entry n) (p : Fin n) : Pc → Act → Option (Entry n × Pc)
  -- `create` calls `ialloc` with one of the three types, which are not 0
  | .idle, .ialloc type =>
    if x.disk.type = 0 ∧ type ≠ 0 then some (x.setDisk ⟨type, 0⟩, .allocated) else none
  | .allocated, .iget => some (x.iget, .fresh)
  | .idle, .lookup => some (x.iget, .held)
  | .idle, .idup => if 0 < x.pool then some (x.idup, .idle) else none
  | .held, .idup => some (x.idup, .held)
  | .locked false, .idup => some (x.idup, .locked false)
  | .held, .store => some (x.setPool (x.pool + 1), .idle)
  | .idle, .take => if 0 < x.pool then some (x.setPool (x.pool - 1), .held) else none
  | .held, .acquiresleep => if x.lock = none then some (x.setLock (some p), .locking false) else none
  | .fresh, .acquiresleep => if x.lock = none then some (x.setLock (some p), .locking true) else none
  | .locking new, .load =>
    if x.valid then some (x, .locked new)
    -- `ilock: no type`
    else if x.disk.type = 0 then none
    else some (x.load, .locked new)
  | .locked true, .create => some (x.iupdate { x.mem with nlink := 1 }, .locked false)
  | .locked false, .fail => some (x.iupdate { x.mem with nlink := 0 }, .locked false)
  | .locked false, .link => some (x.iupdate (x.mem.addLinks 1), .locked false)
  | .locked false, .unlink => some (x.iupdate (x.mem.addLinks (-1)), .locked false)
  | .locked false, .iunlock => some (x.setLock none, .held)
  | .held, .iput =>
    if x.ref = 1 ∧ x.valid ∧ x.mem.nlink = 0 then
      if x.lock = none then some (x.setLock (some p), .freeing) else none
    else some (x.setRef (x.ref - 1), .idle)
  | .freeing, .free => some (x.iupdate { x.mem with type := 0 }, .freed)
  | .freed, .releasesleep => some (x.invalidate.setLock none, .dropping)
  | .dropping, .drop => some (x.setRef (x.ref - 1), .idle)
  | _, _ => none

structure State (n : Nat) where
  entry : Entry n
  pc : Fin n → Pc

def next (s : State n) : Fin n × Act → Option (State n)
  | (p, a) => (localStep s.entry p (s.pc p) a).map fun r => ⟨r.1, Function.update s.pc p r.2⟩

def Step (s : State n) (e : Fin n × Act) (s' : State n) : Prop := next s e = some s'

/-- Allocated, and linked nowhere. -/
def Dinode.Orphan (d : Dinode) : Prop := d.type ≠ 0 ∧ d.nlink = 0

instance (d : Dinode) : Decidable d.Orphan := inferInstanceAs (Decidable (_ ∧ _))

/-- Nobody uses the inode, which is free or has links. -/
structure Init (s : State n) : Prop where
  ref : s.entry.ref = 0
  lock : s.entry.lock = none
  pool : s.entry.pool = 0
  pc : ∀ p, s.pc p = .idle
  disk : s.entry.disk = ⟨0, 0⟩ ∨ (s.entry.disk.type ≠ 0 ∧ s.entry.disk.nlink ≠ 0)

/-! ## Inversion -/

/-- What a process can do. -/
inductive Local (x : Entry n) (p : Fin n) : Pc → Act → Entry n → Pc → Prop
  | ialloc {type : Nat} (hfree : x.disk.type = 0) (htype : type ≠ 0) :
      Local x p .idle (.ialloc type) (x.setDisk ⟨type, 0⟩) .allocated
  | iget : Local x p .allocated .iget x.iget .fresh
  | lookup : Local x p .idle .lookup x.iget .held
  | idup {c : Pc} (hc : c = .held ∨ c = .locked false ∨ c = .idle ∧ 0 < x.pool) :
      Local x p c .idup x.idup c
  | store : Local x p .held .store (x.setPool (x.pool + 1)) .idle
  | take (hpool : 0 < x.pool) : Local x p .idle .take (x.setPool (x.pool - 1)) .held
  | acquire (hlock : x.lock = none) :
      Local x p .held .acquiresleep (x.setLock (some p)) (.locking false)
  | acquireNew (hlock : x.lock = none) :
      Local x p .fresh .acquiresleep (x.setLock (some p)) (.locking true)
  | loaded {new : Bool} (hvalid : x.valid = true) : Local x p (.locking new) .load x (.locked new)
  | load {new : Bool} (hvalid : x.valid = false) (htype : x.disk.type ≠ 0) :
      Local x p (.locking new) .load x.load (.locked new)
  | create : Local x p (.locked true) .create (x.iupdate { x.mem with nlink := 1 }) (.locked false)
  /-- Any other change of `nlink`. -/
  | update {a : Act} (k : Int) :
      Local x p (.locked false) a (x.iupdate { x.mem with nlink := k }) (.locked false)
  | iunlock : Local x p (.locked false) .iunlock (x.setLock none) .held
  | iputLast (hlast : x.ref = 1 ∧ x.valid = true ∧ x.mem.nlink = 0) (hlock : x.lock = none) :
      Local x p .held .iput (x.setLock (some p)) .freeing
  | iput (hlast : ¬ (x.ref = 1 ∧ x.valid = true ∧ x.mem.nlink = 0)) :
      Local x p .held .iput (x.setRef (x.ref - 1)) .idle
  | free : Local x p .freeing .free (x.iupdate { x.mem with type := 0 }) .freed
  | releasesleep : Local x p .freed .releasesleep (x.invalidate.setLock none) .dropping
  | drop : Local x p .dropping .drop (x.setRef (x.ref - 1)) .idle

theorem localStep_local {x x' : Entry n} {p : Fin n} {c c' : Pc} {a : Act}
    (h : localStep x p c a = some (x', c')) : Local x p c a x' c' := by
  unfold localStep at h
  split at h
  case h_1 =>
    split at h
    · next hok => cases h; exact .ialloc hok.1 hok.2
    · cases h
  case h_4 =>
    split at h
    · next hpool => cases h; exact .idup (.inr (.inr ⟨rfl, hpool⟩))
    · cases h
  case h_5 => cases h; exact .idup (.inl rfl)
  case h_6 => cases h; exact .idup (.inr (.inl rfl))
  case h_8 =>
    split at h
    · next hpool => cases h; exact .take hpool
    · cases h
  case h_9 =>
    split at h
    · next hlock => cases h; exact .acquire hlock
    · cases h
  case h_10 =>
    split at h
    · next hlock => cases h; exact .acquireNew hlock
    · cases h
  case h_11 =>
    split at h
    · next hvalid => cases h; exact .loaded hvalid
    · next hvalid =>
      split at h
      · cases h
      · next htype => cases h; exact .load (by simpa using hvalid) htype
  case h_13 => cases h; exact .update _
  case h_14 => cases h; exact .update _
  case h_15 => cases h; exact .update _
  case h_17 =>
    split at h
    · next hlast =>
      split at h
      · next hlock => cases h; exact .iputLast hlast hlock
      · cases h
    · next hlast => cases h; exact .iput hlast
  all_goals cases h
  all_goals constructor

theorem Step.cases {s s' : State n} {p : Fin n} {a : Act} (h : Step s (p, a) s') :
    ∃ c, Local s.entry p (s.pc p) a s'.entry c ∧ s'.pc = Function.update s.pc p c := by
  obtain ⟨⟨x, c⟩, hlocal, hs'⟩ := Option.map_eq_some_iff.mp h
  subst hs'
  exact ⟨c, localStep_local hlocal, rfl⟩

end Xv6.Inode
