-- SUMMARY: The buffer cache of `kernel/bio.c` over a disk of blocks, with the redo log's in-memory state beside it.
import Xv6.Base.Wp
import Xv6.Kernel.Param
import Mathlib.Data.List.FinRange
import Mathlib.Data.List.Perm.Basic

/-!
# Buffer cache

`Machine` is the state that `bio.c` and `log.c` work on: the disk, the `NBUF`
buffers with their recently-used list, and `struct log`. The disk also keeps the
sequence of block writes it has received, which is what a crash cuts short.

Code runs in `BioM`. A computation stops at a panic, and it stops with `sleep`
where the calling process would wait for another one.
-/

namespace Xv6

open Prog

/-- Why a computation on buffers or the log stops. -/
inductive Bio.Stop
  /-- `bget: no buffers` -/
  | noBuffers
  /-- `bwrite`, the buffer is not locked -/
  | bwrite
  /-- `brelse`, the buffer is not locked -/
  | brelse
  /-- `too big a transaction` -/
  | tooBigTransaction
  /-- `log_write outside of trans` -/
  | outsideTrans
  /-- `log.committing` -/
  | logCommitting
  /-- not a panic: the process sleeps until another one acts -/
  | sleep
  deriving DecidableEq, Repr

/-- `struct buf`, without the links of the recently-used list. -/
structure Buf where
  /-- Has data been read from disk? -/
  valid : Bool
  dev : Nat
  blockno : Nat
  /-- Is the sleep-lock of the buffer held? -/
  locked : Bool
  refcnt : Nat
  data : Block

/-- The cache: its buffers, and the list through `head.next`, most recently used
first. -/
structure Bcache where
  buf : Fin NBUF → Buf
  mru : List (Fin NBUF)
  mru_perm : mru.Perm (List.finRange NBUF)

/-- `struct log`. Of `lh.block` the list holds the first `lh.n` entries, the only
ones that are read. -/
structure Log where
  start : Nat
  dev : Nat
  /-- How many FS sys calls are executing. -/
  outstanding : Int
  /-- In `commit()`, please wait. -/
  committing : Bool
  lh : List Nat

structure Machine where
  disk : Nat → Block
  /-- The block writes the disk has received, oldest first. -/
  writes : List (Nat × Block)
  bcache : Bcache
  log : Log

abbrev BioM := EStateM Bio.Stop Machine

namespace Machine

abbrev buf (m : Machine) (i : Fin NBUF) : Buf := m.bcache.buf i

/-- Replace one buffer. -/
def setBuf (m : Machine) (i : Fin NBUF) (b : Buf) : Machine :=
  { m with bcache := { m.bcache with buf := Function.update m.bcache.buf i b } }

/-- Move a buffer to the head of the recently-used list. -/
def touch (m : Machine) (i : Fin NBUF) : Machine :=
  { m with bcache :=
    { m.bcache with
      mru := i :: m.bcache.mru.erase i
      mru_perm := ((List.perm_cons_erase
        (m.bcache.mru_perm.mem_iff.mpr (List.mem_finRange i))).symm).trans m.bcache.mru_perm } }

section
variable (m : Machine) (i j : Fin NBUF) (b : Buf)

@[simp] theorem setBuf_buf_self : (m.setBuf i b).buf i = b := Function.update_self ..
theorem setBuf_buf_ne (h : j ≠ i) : (m.setBuf i b).buf j = m.buf j := Function.update_of_ne h ..
@[simp] theorem setBuf_disk : (m.setBuf i b).disk = m.disk := rfl
@[simp] theorem setBuf_writes : (m.setBuf i b).writes = m.writes := rfl
@[simp] theorem setBuf_log : (m.setBuf i b).log = m.log := rfl
@[simp] theorem touch_buf : (m.touch i).buf j = m.buf j := rfl
@[simp] theorem touch_disk : (m.touch i).disk = m.disk := rfl
@[simp] theorem touch_writes : (m.touch i).writes = m.writes := rfl
@[simp] theorem touch_log : (m.touch i).log = m.log := rfl

end

end Machine

def modifyBuf (i : Fin NBUF) (f : Buf → Buf) : BioM Unit :=
  modify fun m => m.setBuf i (f (m.buf i))

/-- `acquiresleep`: wait for the lock of a buffer and take it. -/
def acquiresleep (i : Fin NBUF) : BioM Unit := do
  stopIf ((← get).buf i).locked .sleep
  modifyBuf i fun b => { b with locked := true }

/-- Look through buffer cache for block on device `dev`. If not found, recycle
the least recently used buffer that nobody references. In either case, return a
locked buffer. -/
def bget (dev blockno : Nat) : BioM (Fin NBUF) := do
  let m ← get
  match m.bcache.mru.find? fun i => (m.buf i).dev = dev ∧ (m.buf i).blockno = blockno with
  | some i =>
    modifyBuf i fun b => { b with refcnt := incUint b.refcnt }
    acquiresleep i
    return i
  | none =>
    -- from `head.prev` backwards
    match m.bcache.mru.reverse.find? fun i => (m.buf i).refcnt = 0 with
    | some i =>
      modifyBuf i fun b => { b with dev := dev, blockno := blockno, valid := false, refcnt := 1 }
      acquiresleep i
      return i
    | none => throw .noBuffers

/-- `virtio_disk_rw(b, 0)`: fill a buffer from its disk block. -/
def diskRead (i : Fin NBUF) : BioM Unit :=
  modify fun m => m.setBuf i { m.buf i with data := m.disk (m.buf i).blockno }

/-- `virtio_disk_rw(b, 1)`: store a buffer to its disk block. -/
def diskWrite (i : Fin NBUF) : BioM Unit :=
  modify fun m =>
    { m with
      disk := Function.update m.disk (m.buf i).blockno (m.buf i).data
      writes := m.writes ++ [((m.buf i).blockno, (m.buf i).data)] }

/-- Return a locked buf with the contents of the indicated block. -/
def bread (dev blockno : Nat) : BioM (Fin NBUF) := do
  let i ← bget dev blockno
  if !((← get).buf i).valid then
    diskRead i
    modifyBuf i fun b => { b with valid := true }
  return i

/-- Write b's contents to disk. Must be locked. -/
def bwrite (i : Fin NBUF) : BioM Unit := do
  stopIf (!((← get).buf i).locked) .bwrite
  diskWrite i

/-- Release a locked buffer. Move it to the head of the recently-used list once
nobody references it. -/
def brelse (i : Fin NBUF) : BioM Unit := do
  stopIf (!((← get).buf i).locked) .brelse
  modifyBuf i fun b => { b with locked := false }
  modifyBuf i fun b => { b with refcnt := decUint b.refcnt }
  if ((← get).buf i).refcnt = 0 then
    modify fun m => m.touch i

def bpin (i : Fin NBUF) : BioM Unit :=
  modifyBuf i fun b => { b with refcnt := incUint b.refcnt }

def bunpin (i : Fin NBUF) : BioM Unit :=
  modifyBuf i fun b => { b with refcnt := decUint b.refcnt }

/-- The holder of a buffer replaces its contents. -/
def setData (i : Fin NBUF) (data : Block) : BioM Unit :=
  modifyBuf i fun b => { b with data := data }

/-- `binit`: every buffer is zero, and each was inserted at the head in turn. -/
def binit : Bcache where
  buf := fun _ => ⟨false, 0, 0, false, 0, fun _ => 0⟩
  mru := (List.finRange NBUF).reverse
  mru_perm := List.reverse_perm _

end Xv6
