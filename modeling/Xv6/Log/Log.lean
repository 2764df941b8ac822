-- SUMMARY: The redo log of `kernel/log.c`: admission, absorption, commit, and recovery.
import Xv6.Bio.Cache

/-!
# Redo log

The functions of `log.c` over `Machine`. What a function does under `log.lock` is
a function on `struct log` of its own, so that the interleaving model can take
it as one step.

`start` is the header block; the log blocks follow it.
-/

namespace Xv6

open Prog

/-! ## The header block -/

namespace LogHeader

/-- The entries a header block lists: the first `n` of `block`, with `n` read as a
C `int`. -/
def decode (b : Block) : List Nat :=
  let n := Bytes.getLE b 0 4
  (List.range (if n < 2 ^ 31 then n else 0)).map fun i => Bytes.getLE b (4 + 4 * i) 4

/-- Store `n` and the entries. The rest of the block stays as it was. -/
def encode (b : Block) (lh : List Nat) : Block :=
  Bytes.putAll 4 (Bytes.putLE b 0 4 lh.length) 4 lh

/-- A header that lists at most `LOGBLOCKS` block numbers is read back. -/
theorem decode_encode {b : Block} {lh : List Nat} (hlen : lh.length ≤ LOGBLOCKS)
    (hfit : ∀ x ∈ lh, x < UINT) : decode (encode b lh) = lh := by
  have hn : Bytes.getLE (encode b lh) 0 4 = lh.length := by
    rw [encode, Bytes.getLE_putAll_before (by omega), Bytes.getLE_putLE_of_lt]
    simp only [LOGBLOCKS, MAXOPBLOCKS] at hlen
    omega
  have hlt : lh.length < 2 ^ 31 := by
    simp only [LOGBLOCKS, MAXOPBLOCKS] at hlen
    omega
  simp only [decode, hn, hlt, if_true]
  exact Bytes.map_getLE_putAll hfit

end LogHeader

/-! ## Sections under log.lock -/

/-- The header block and the log blocks. -/
def logArea (start b : Nat) : Prop := start ≤ b ∧ b ≤ start + LOGBLOCKS

instance (start b : Nat) : Decidable (logArea start b) := inferInstanceAs (Decidable (_ ∧ _))

namespace Log

abbrev area (l : Log) (b : Nat) : Prop := logArea l.start b

/-- Replace the in-memory header. -/
def setLh (l : Log) (lh : List Nat) : Log := { l with lh := lh }

@[simp] theorem setLh_lh (l : Log) (lh : List Nat) : (l.setLh lh).lh = lh := rfl
@[simp] theorem setLh_start (l : Log) (lh : List Nat) : (l.setLh lh).start = l.start := rfl
@[simp] theorem setLh_dev (l : Log) (lh : List Nat) : (l.setLh lh).dev = l.dev := rfl
@[simp] theorem setLh_outstanding (l : Log) (lh : List Nat) :
    (l.setLh lh).outstanding = l.outstanding := rfl
@[simp] theorem setLh_committing (l : Log) (lh : List Nat) :
    (l.setLh lh).committing = l.committing := rfl
@[simp] theorem setLh_setLh (l : Log) (lh lh' : List Nat) : (l.setLh lh).setLh lh' = l.setLh lh' := rfl

/-- One turn of the loop in `begin_op`: `none` is a turn that sleeps. -/
def beginOp (l : Log) : Option Log :=
  if l.committing then none
  -- this op might exhaust log space; wait for commit.
  else if (l.lh.length : Int) + (l.outstanding + 1) * MAXOPBLOCKS > LOGBLOCKS then none
  else some { l with outstanding := l.outstanding + 1 }

/-- The first section of `end_op`. The flag is `do_commit`. -/
def endOp (l : Log) : Except Bio.Stop (Log × Bool) :=
  let l := { l with outstanding := l.outstanding - 1 }
  if l.committing then .error .logCommitting
  else if l.outstanding = 0 then .ok ({ l with committing := true }, true)
  else .ok (l, false)

/-- The last section of `end_op`, after a commit. -/
def commitDone (l : Log) : Log := { l with committing := false }

theorem beginOp_some {l l' : Log} (h : l.beginOp = some l') :
    l.committing = false ∧ (l.lh.length : Int) + (l.outstanding + 1) * MAXOPBLOCKS ≤ LOGBLOCKS ∧
      l' = ⟨l.start, l.dev, l.outstanding + 1, l.committing, l.lh⟩ := by
  unfold beginOp at h
  split at h
  · cases h
  · next hcom =>
    split at h
    · cases h
    · next hroom =>
      cases h
      exact ⟨by simpa using hcom, not_lt.mp hroom, rfl⟩

theorem endOp_ok {l l' : Log} {doCommit : Bool} (h : l.endOp = .ok (l', doCommit)) :
    l.committing = false ∧
      ((doCommit = true ∧ l.outstanding = 1 ∧ l' = ⟨l.start, l.dev, 0, true, l.lh⟩) ∨
        (doCommit = false ∧ l.outstanding ≠ 1 ∧
          l' = ⟨l.start, l.dev, l.outstanding - 1, l.committing, l.lh⟩)) := by
  unfold endOp at h
  dsimp only at h
  split at h
  · cases h
  · next hcom =>
    refine ⟨by simpa using hcom, ?_⟩
    split at h
    · next hzero =>
      cases h
      refine .inl ⟨rfl, by omega, ?_⟩
      rw [hzero]
    · cases h
      exact .inr ⟨rfl, by omega, rfl⟩

/-- `log_write` for block `blockno`. The flag says that the block is new in the
header, and not absorbed. -/
def logWrite (l : Log) (blockno : Nat) : Except Bio.Stop (Log × Bool) :=
  if l.lh.length ≥ LOGBLOCKS then .error .tooBigTransaction
  else if l.outstanding < 1 then .error .outsideTrans
  else if blockno ∈ l.lh then .ok (l, false)
  else .ok (l.setLh (l.lh ++ [blockno]), true)

theorem logWrite_ok {l l' : Log} {b : Nat} {isNew : Bool} (h : l.logWrite b = .ok (l', isNew)) :
    l.lh.length < LOGBLOCKS ∧ 1 ≤ l.outstanding ∧
      ((isNew = false ∧ l' = l ∧ b ∈ l.lh) ∨
        (isNew = true ∧ l' = l.setLh (l.lh ++ [b]) ∧ b ∉ l.lh)) := by
  unfold logWrite at h
  split at h
  · cases h
  · next hroom =>
    split at h
    · cases h
    · next hin =>
      refine ⟨by omega, by omega, ?_⟩
      split at h
      · next hmem => cases h; exact .inl ⟨rfl, rfl, hmem⟩
      · next hmem => cases h; exact .inr ⟨rfl, rfl, hmem⟩

end Log

/-! ## Transactions -/

def Machine.setLog (m : Machine) (l : Log) : Machine := { m with log := l }

@[simp] theorem Machine.setLog_log (m : Machine) (l : Log) : (m.setLog l).log = l := rfl
@[simp] theorem Machine.setLog_disk (m : Machine) (l : Log) : (m.setLog l).disk = m.disk := rfl
@[simp] theorem Machine.setLog_writes (m : Machine) (l : Log) : (m.setLog l).writes = m.writes := rfl
@[simp] theorem Machine.setLog_buf (m : Machine) (l : Log) (i : Fin NBUF) :
    (m.setLog l).buf i = m.buf i := rfl

def setLog (l : Log) : BioM Unit := modify fun m => m.setLog l

/-- `begin_op`. -/
def beginOp : BioM Unit := do
  match (← get).log.beginOp with
  | some l => setLog l
  | none => throw .sleep

theorem wp_beginOp {m : Machine} :
    wp beginOp (fun _ m' => ∃ l, m.log.beginOp = some l ∧ m' = m.setLog l)
      (fun e m' => e = .sleep ∧ m' = m) m := by
  simp only [beginOp, wp_bind, wp_get]
  cases h : m.log.beginOp with
  | none => exact wp_throw.mpr ⟨rfl, rfl⟩
  | some l => exact wp_modify.mpr ⟨l, rfl, rfl⟩

/-- Caller has modified b->data and is done with the buffer. Record the block
number and pin in the cache by increasing refcnt. -/
def logWrite (i : Fin NBUF) : BioM Unit := do
  let m ← get
  match m.log.logWrite (m.buf i).blockno with
  | .error e => throw e
  | .ok (l, isNew) =>
    if isNew then bpin i
    setLog l

/-- One turn of the loop in `write_log`, for the header entry `b` at `tail`. -/
def copyToLog (tail b : Nat) : BioM Unit := do
  let l := (← get).log
  let toBuf ← bread l.dev (l.start + tail + 1)
  let fromBuf ← bread l.dev b
  setData toBuf ((← get).buf fromBuf).data
  bwrite toBuf
  brelse fromBuf
  brelse toBuf

/-- Copy modified blocks from cache to log: the loop of `write_log` from `tail`
on, with the header entries still to do. -/
def writeLogFrom (tail : Nat) : List Nat → BioM Unit
  | [] => pure ()
  | b :: bs => do
    copyToLog tail b
    writeLogFrom (tail + 1) bs

def writeLog : BioM Unit := do
  writeLogFrom 0 (← get).log.lh

/-- One turn of the loop in `install_trans`, for the header entry `b` at `tail`. -/
def copyHome (recovering : Bool) (tail b : Nat) : BioM Unit := do
  let l := (← get).log
  let lbuf ← bread l.dev (l.start + tail + 1)
  let dbuf ← bread l.dev b
  setData dbuf ((← get).buf lbuf).data
  bwrite dbuf
  if !recovering then bunpin dbuf
  brelse lbuf
  brelse dbuf

/-- Copy committed blocks from log to their home location: the loop of
`install_trans` from `tail` on. -/
def installTransFrom (recovering : Bool) (tail : Nat) : List Nat → BioM Unit
  | [] => pure ()
  | b :: bs => do
    copyHome recovering tail b
    installTransFrom recovering (tail + 1) bs

def installTrans (recovering : Bool) : BioM Unit := do
  installTransFrom recovering 0 (← get).log.lh

/-- Read the log header from disk into the in-memory log header. -/
def readHead : BioM Unit := do
  let l := (← get).log
  let i ← bread l.dev l.start
  setLog (l.setLh (LogHeader.decode ((← get).buf i).data))
  brelse i

/-- Write in-memory log header to disk. This is the true point at which the
current transaction commits. -/
def writeHead : BioM Unit := do
  let l := (← get).log
  let i ← bread l.dev l.start
  setData i (LogHeader.encode ((← get).buf i).data l.lh)
  bwrite i
  brelse i

/-- `log.lh.n = 0`. -/
def clearHead : BioM Unit := do
  setLog ((← get).log.setLh [])

def recoverFromLog : BioM Unit := do
  readHead
  installTrans true -- if committed, copy from log to disk
  clearHead
  writeHead -- clear the log

def commit : BioM Unit := do
  if (← get).log.lh.length > 0 then
    writeLog -- Write modified blocks from cache to log
    writeHead -- Write header to disk -- the real commit
    installTrans false -- Now install writes to home locations
    clearHead
    writeHead -- Erase the transaction from the log

/-- `end_op`: commits if this was the last outstanding operation. -/
def endOp : BioM Unit := do
  match (← get).log.endOp with
  | .error e => throw e
  | .ok (l, doCommit) =>
    setLog l
    if doCommit then
      commit
      setLog (← get).log.commitDone

/-- The machine `initlog` finds: nothing cached, and an empty in-memory header. -/
def boot (start : Nat) (disk : Nat → Block) : Machine where
  disk := disk
  writes := []
  bcache := binit
  log := ⟨start, ROOTDEV, 0, false, []⟩

@[simp] theorem boot_disk (start : Nat) (disk : Nat → Block) : (boot start disk).disk = disk := rfl
@[simp] theorem boot_writes (start : Nat) (disk : Nat → Block) : (boot start disk).writes = [] := rfl
@[simp] theorem boot_log (start : Nat) (disk : Nat → Block) :
    (boot start disk).log = ⟨start, ROOTDEV, 0, false, []⟩ := rfl

end Xv6
