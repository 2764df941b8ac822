-- SUMMARY: `kernel/fs.c`: directories, and what `dirlookup` finds in them.
import Xv6.Fs.Itable

/-!
# Directories

The bytes of a directory are entries of 16 bytes: a number of an inode, and a name of 14 bytes at
most. A name of 14 bytes has no end mark. An entry with the number 0 is free.
-/

namespace Xv6.Fs

open Prog

abbrev T_DIR : Int16 := 1

/-- `sizeof(struct dirent)` -/
abbrev DIRENT : Nat := 16

/-! ## Names -/

/-- `strncmp`; what is behind the end of a list is never compared. -/
def strncmp : List UInt8 → List UInt8 → Nat → Int
  | _, _, 0 => 0
  | p, q, n + 1 =>
    if p.headD 0 ≠ 0 ∧ p.headD 0 = q.headD 0 then strncmp p.tail q.tail n
    else ((p.headD 0).toNat : Int) - (q.headD 0).toNat

def namecmp (s t : List UInt8) : Int := strncmp s t DIRSIZ

/-- The bytes before the end mark, `n` at most. -/
def cstr (n : Nat) (l : List UInt8) : List UInt8 := (l.take n).takeWhile (· ≠ 0)

structure Entry where
  inum : Nat
  name : List UInt8
  deriving DecidableEq

/-- `de.inum` -/
def deInum (de : List UInt8) : Nat := (de.getD 0 0).toNat + 256 * (de.getD 1 0).toNat

/-- `de.name` -/
def deName (de : List UInt8) : List UInt8 := de.drop 2

def entryOf (de : List UInt8) : Entry := ⟨deInum de, cstr DIRSIZ (deName de)⟩

/-- The entries of a directory, free ones included. -/
def entries (bytes : List UInt8) : List Entry :=
  (List.range (bytes.length / DIRENT)).map fun k => entryOf ((bytes.drop (DIRENT * k)).take DIRENT)

/-- The first entry with a name, and its offset. -/
def findEntry (name : List UInt8) : List Entry → Nat → Option (Nat × Nat)
  | [], _ => none
  | e :: es, off =>
    if e.inum ≠ 0 ∧ e.name = name then some (e.inum, off) else findEntry name es (off + DIRENT)

/-- What a name denotes in a directory. -/
def lookup (bytes name : List UInt8) : Option (Nat × Nat) := findEntry name (entries bytes) 0

section

variable {bytes : List UInt8} {k : Nat}

end

/-! ## `dirlookup` -/

section

variable (sb : Superblock)

/-- `readi` into kernel memory. -/
def readIp (ip : Ip) (off n : Nat) : FsM (Int × List UInt8) := do
  let s ← get
  let (r, bytes, d) ← disk (readi sb (fun _ => false) (s.itable ip).d off n)
  setIp ip fun x => { x with d := d }
  pure (r, bytes)

/-- The loop of `dirlookup`: the inode, and the offset of its entry. -/
def dirlookupLoop (dp : Ip) (name : List UInt8) : Nat → Nat → FsM (Option (Ip × Nat))
  | 0, _ => pure none
  | fuel + 1, off => do
    let s ← get
    if off < (s.itable dp).d.size.toNat then
      let (r, de) ← readIp sb dp off DIRENT
      stopIf (r ≠ DIRENT) .dirlookupRead
      if deInum de = 0 then
        dirlookupLoop dp name fuel (off + DIRENT)
      else if namecmp name (deName de) = 0 then
        let ip ← iget (deInum de)
        pure (some (ip, off))
      else
        dirlookupLoop dp name fuel (off + DIRENT)
    else
      pure none

def dirlookup (dp : Ip) (name : List UInt8) : FsM (Option (Ip × Nat)) := do
  let s ← get
  stopIf ((s.itable dp).d.type ≠ T_DIR) .dirlookupNotDir
  dirlookupLoop sb dp name ((s.itable dp).d.size.toNat + 1) 0

end

section

variable {sb : Superblock} {s s₀ : State} {ip dp : Ip} {i off n fuel : Nat} {held : List (Ip × Nat)}
  {locks : List Ip} {nd : Node} {name : List UInt8} {E : Stop → State → Prop}

/-- The copy of a locked inode is what its number denotes. -/
theorem Holding.copy (h : Holding sb s₀ held locks s) (hmem : (ip, i) ∈ held) (hlock : ip ∈ locks)
    (hnode : node sb s.core.blk i = some nd) : Filled s.core.blk (s.itable ip).d ∧
      nd = ⟨(s.itable ip).d.type, (s.itable ip).d.major, (s.itable ip).d.minor, (s.itable ip).d.nlink,
        content s.core.blk (s.itable ip).d⟩ := by
  obtain ⟨halloc, hd⟩ := h.inode_eq hmem hlock
  have hlive : Live sb s.core i (s.itable ip).d := ⟨h.tidy.sound, halloc.1, hd ▸ halloc.2, hd.symm⟩
  rw [hlive.node_eq, Option.some.injEq] at hnode
  exact ⟨hlive.filled, hnode.symm⟩

end

end Xv6.Fs
