-- SUMMARY: `kernel/fs.c`: allocating blocks, and reading, writing and truncating the contents of an inode.
import Xv6.Base.Wp
import Xv6.Fs.Layout

/-!
# Blocks and the contents of inodes

The part of `fs.c` below directories, on the disk as it is seen through the buffer cache. The
functions get the copy of the inode that `struct inode` holds and return it as they leave it;
the caller has the sleep lock of the inode. A buffer is changed in place, and `log_write` is a
step of its own.
-/

namespace Xv6.Fs

open Prog

/-- The panics of `fs.c` and of `log_write`, and a process that waits for itself. -/
inductive Stop
  | logWriteOutside
  | freeingFreeBlock
  | bmapOutOfRange
  | igetNoInodes
  | ilock
  | ilockNoType
  | iunlock
  | dirlookupNotDir
  | dirlookupRead
  | deadlock
  deriving DecidableEq

/-- The disk as it is seen through the buffer cache, and the current transaction. -/
structure Core where
  blk : Disk
  /-- The blocks that were passed to `log_write`. -/
  logged : List Nat
  outstanding : Nat

abbrev CoreM : Type → Type := EStateM Stop Core

namespace Core

/-- The contents of a buffer change. -/
def put (s : Core) (b : Nat) (x : Block) : Core := { s with blk := Function.update s.blk b x }

/-- A block joins the transaction, unless it is in it. -/
def log (s : Core) (b : Nat) : Core :=
  { s with logged := if b ∈ s.logged then s.logged else s.logged ++ [b] }

end Core

def setBuf (b : Nat) (x : Block) : CoreM PUnit := modify fun s => s.put b x

/-- `log_write`, without its panic for a transaction that is too big: how many blocks a transaction
may have is the business of the log (`Xv6.Log.logWrite`). -/
def logWrite (b : Nat) : CoreM PUnit := do
  let s ← get
  stopIf (s.outstanding < 1) .logWriteOutside
  set (s.log b)

section

variable (sb : Superblock)

/-! ## Blocks -/

def bzero (b : Nat) : CoreM PUnit := do
  setBuf b fun _ => 0
  logWrite b

/-- The two loops of `balloc` go through all blocks in order. -/
def balloc : CoreM Nat := do
  let s ← get
  match (List.range sb.size).find? fun b => !used sb s.blk b with
  | none => pure 0
  | some b =>
    set { s with blk := setUsed sb s.blk b }
    logWrite (sb.bblock b)
    bzero b
    pure b

def bfree (b : Nat) : CoreM PUnit := do
  let s ← get
  stopIf (used sb s.blk b = false) .freeingFreeBlock
  set { s with blk := setFree sb s.blk b }
  logWrite (sb.bblock b)

/-! ## Inodes -/

def iupdate (i : Nat) (d : Dinode) : CoreM PUnit := do
  modify fun s => { s with blk := setDinode sb s.blk i d }
  logWrite (sb.iblock i)

/-- `ip->addrs[k]`, and a new block if it is zero. -/
def addrOrAlloc (d : Dinode) (k : Nat) : CoreM (Nat × Dinode) := do
  if d.addr k = 0 then
    let addr ← balloc sb
    if addr = 0 then
      pure (0, d)
    else
      pure (addr, d.setAddr k addr)
  else
    pure (d.addr k, d)

/-- Entry `j` of the indirect block `ind`, and a new block if it is zero. -/
def entryOrAlloc (ind j : Nat) : CoreM Nat := do
  let s ← get
  if getUint (s.blk ind) j = 0 then
    let addr ← balloc sb
    if addr ≠ 0 then
      let s ← get
      setBuf ind (putUint (s.blk ind) j addr)
      logWrite ind
    pure addr
  else
    pure (getUint (s.blk ind) j)

def bmap (d : Dinode) (bn : Nat) : CoreM (Nat × Dinode) := do
  if bn < NDIRECT then
    addrOrAlloc sb d bn
  else if bn - NDIRECT < NINDIRECT then
    let (ind, d) ← addrOrAlloc sb d NDIRECT
    if ind = 0 then
      pure (0, d)
    else
      let addr ← entryOrAlloc sb ind (bn - NDIRECT)
      pure (addr, d)
  else
    throw .bmapOutOfRange

/-- One turn of the first loop of `itrunc`. -/
def freeAddr (d : Dinode) (k : Nat) : CoreM Dinode := do
  if d.addr k ≠ 0 then
    bfree sb (d.addr k)
    pure (d.setAddr k 0)
  else
    pure d

/-- One turn of the second loop of `itrunc`. -/
def freeEntry (ind j : Nat) : CoreM PUnit := do
  let s ← get
  if getUint (s.blk ind) j ≠ 0 then
    bfree sb (getUint (s.blk ind) j)

/-- The part of `itrunc` about the indirect block. -/
def freeIndirect (d : Dinode) : CoreM Dinode := do
  if d.addr NDIRECT ≠ 0 then
    (List.range NINDIRECT).forM (freeEntry sb (d.addr NDIRECT))
    bfree sb (d.addr NDIRECT)
    pure (d.setAddr NDIRECT 0)
  else
    pure d

def itrunc (i : Nat) (d : Dinode) : CoreM Dinode := do
  let d ← (List.range NDIRECT).foldlM (freeAddr sb) d
  let d ← freeIndirect sb d
  let d := { d with size := 0 }
  iupdate sb i d
  pure d

/-! ## Contents -/

/-- `m` bytes that `readi` copies out of a block. -/
def slice (x : Block) (off m : Nat) : List UInt8 := (List.range m).map fun k => x (off + k)

/-- The loop of `readi`, with `rem` bytes left to read; `fails off` says whether the copy of the
bytes at `off` fails. The results are whether no copy failed, and the bytes of the copies that
succeeded. -/
def readLoop (fails : Nat → Bool) : Nat → Dinode → Nat → Nat → List UInt8 →
    CoreM (Bool × List UInt8 × Dinode)
  | 0, d, _, _, out => pure (true, out, d)
  | fuel + 1, d, off, rem, out => do
    if rem = 0 then
      pure (true, out, d)
    else
      let (addr, d) ← bmap sb d (off / BSIZE)
      if addr = 0 then
        pure (true, out, d)
      else
        let s ← get
        let m := min rem (BSIZE - off % BSIZE)
        if fails off then
          pure (false, out, d)
        else
          readLoop fails fuel d (off + m) (rem - m) (out ++ slice (s.blk addr) (off % BSIZE) m)

/-- `readi(ip, user_dst, dst, off, n)`: the value returned, and the bytes copied to `dst`. -/
def readi (fails : Nat → Bool) (d : Dinode) (off n : Nat) : CoreM (Int × List UInt8 × Dinode) := do
  let size := d.size.toNat
  if off > size ∨ (off + n) % UINT < off then
    pure (0, [], d)
  else
    let n := if off + n > size then size - off else n
    let (ok, out, d) ← readLoop sb fails n d off n []
    pure (if ok then out.length else -1, out, d)

/-- Where `writei` copies from: the bytes, and which of them are in pages that can be read. -/
structure Source where
  byte : Nat → UInt8
  ok : Nat → Bool

/-- A source in the kernel. -/
def Source.kernel (l : List UInt8) : Source := ⟨fun k => l.getD k 0, fun _ => true⟩

/-- How many of the bytes `p`, …, `p + m - 1` `copyin` copies: it stops at the first page that
it cannot read. -/
def Source.good (src : Source) (p m : Nat) : Nat :=
  ((List.range m).find? fun k => !src.ok (p + k)).getD m

/-- The block with `m` bytes of the source, from number `p` on, at offset `o`. -/
def paste (x : Block) (src : Source) (o p m : Nat) : Block := fun k =>
  if o ≤ k ∧ k < o + m then src.byte (p + (k - o)) else x k

/-- The loop of `writei`, with `rem` bytes left to write. -/
def writeLoop (src : Source) : Nat → Dinode → Nat → Nat → Nat → CoreM (Nat × Dinode)
  | 0, d, _, tot, _ => pure (tot, d)
  | fuel + 1, d, off, tot, rem => do
    if rem = 0 then
      pure (tot, d)
    else
      let (addr, d) ← bmap sb d (off / BSIZE)
      if addr = 0 then
        pure (tot, d)
      else
        let s ← get
        let m := min rem (BSIZE - off % BSIZE)
        setBuf addr (paste (s.blk addr) src (off % BSIZE) tot (src.good tot m))
        if src.good tot m < m then
          pure (tot, d)
        else
          logWrite addr
          writeLoop src fuel d (off + m) (tot + m) (rem - m)

/-- `if(off > ip->size) ip->size = off` -/
def Dinode.extendTo (d : Dinode) (off : Nat) : Dinode :=
  if off > d.size.toNat then { d with size := UInt32.ofNat off } else d

/-- `writei(ip, user_src, src, off, n)` -/
def writei (i : Nat) (d : Dinode) (src : Source) (off n : Nat) : CoreM (Int × Dinode) := do
  let size := d.size.toNat
  if off > size ∨ (off + n) % UINT < off then
    pure (-1, d)
  else if off + n > MAXFILE * BSIZE then
    pure (-1, d)
  else
    let (tot, d) ← writeLoop sb src n d off 0 n
    let d := d.extendTo (off + tot)
    iupdate sb i d
    pure (tot, d)

end

end Xv6.Fs
