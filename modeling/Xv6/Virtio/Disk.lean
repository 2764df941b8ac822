-- SUMMARY: `kernel/virtio_disk.c`: the driver, its processes and its interrupt handler, with the device.
import Xv6.Base.Transition
import Xv6.Kernel.Param

/-!
# The virtio disk

Any number of processes call `virtio_disk_rw`; the interrupt handler and the device run at the
same time. A step is what a process or the handler does under `vdisk_lock` between two accesses
that the device can see, and the device may take steps between any two of them. A process that
sleeps may wake up at any time.

The caller of `virtio_disk_rw` has the sleep lock of the buffer, so a buffer is in at most one
call. The device takes each available chain once, completes what it has taken in any order
with status 0, and appends the head of each completed chain to the used ring.
-/

namespace Xv6.Virtio

abbrev NUM : Nat := 8

abbrev VRING_DESC_F_NEXT : UInt16 := 1
abbrev VRING_DESC_F_WRITE : UInt16 := 2

abbrev VIRTIO_BLK_T_IN : UInt32 := 0
abbrev VIRTIO_BLK_T_OUT : UInt32 := 1

/-- What a descriptor can point to. -/
inductive Addr (B : Type)
  | null
  | ops (i : Nat)
  | data (b : B)
  | status (i : Nat)
  deriving DecidableEq

structure VirtqDesc (B : Type) where
  addr : Addr B
  len : UInt32
  flags : UInt16
  next : UInt16
  deriving DecidableEq

structure VirtqAvail where
  idx : UInt16
  ring : Nat → UInt16

structure VirtqUsed where
  idx : UInt16
  /-- The field `id` of each entry. -/
  ring : Nat → UInt32

structure VirtioBlkReq where
  type : UInt32
  reserved : UInt32
  sector : UInt64
  deriving DecidableEq

structure Info (B : Type) where
  b : Option B
  status : UInt8

/-- `struct disk` with the queues that it points to, and the field `disk` of every buffer. -/
structure Disk (B : Type) where
  desc : Nat → VirtqDesc B
  avail : VirtqAvail
  used : VirtqUsed
  free : Nat → Bool
  usedIdx : UInt16
  info : Nat → Info B
  ops : Nat → VirtioBlkReq
  bufDisk : B → Bool

/-- How the driver stops. `wild` is a null pointer to a buffer, and `loops` a chain without end. -/
inductive Panic
  | freeDesc1
  | freeDesc2
  | intrStatus
  | wild
  | loops
  deriving DecidableEq

/-- A call of `virtio_disk_rw`: the buffer, its block, and the variables `write` and `idx`. -/
structure Request (B : Type) where
  b : B
  blockno : UInt32
  write : Bool
  idx : List Nat
  deriving DecidableEq

def Request.at (r : Request B) (k : Nat) : Nat := r.idx.getD k 0

/-! ## The driver -/

variable {B : Type} [DecidableEq B]

namespace Disk

/-- `virtio_disk_init`. -/
def init : Disk B where
  desc _ := ⟨.null, 0, 0, 0⟩
  avail := ⟨0, fun _ => 0⟩
  used := ⟨0, fun _ => 0⟩
  free i := i < NUM
  usedIdx := 0
  info _ := ⟨none, 0⟩
  ops _ := ⟨0, 0, 0⟩
  bufDisk _ := false

def allocDesc (d : Disk B) : Option (Nat × Disk B) :=
  ((List.range NUM).find? d.free).map fun i => (i, { d with free := Function.update d.free i false })

def freeDesc (d : Disk B) (i : Nat) : Except Panic (Disk B) :=
  if i ≥ NUM then
    .error .freeDesc1
  else if d.free i then
    .error .freeDesc2
  else
    .ok { d with
      desc := Function.update d.desc i ⟨.null, 0, 0, 0⟩
      free := Function.update d.free i true }

/-- The loop of `free_chain`; every turn frees a descriptor, so `NUM + 1` turns are enough. -/
def freeChainLoop : Nat → Nat → Disk B → Except Panic (Disk B)
  | 0, _, _ => .error .loops
  | fuel + 1, i, d => do
    let flag := (d.desc i).flags
    let nxt := (d.desc i).next
    let d ← d.freeDesc i
    if flag &&& VRING_DESC_F_NEXT ≠ 0 then
      freeChainLoop fuel nxt.toNat d
    else
      pure d

def freeChain (d : Disk B) (i : Nat) : Except Panic (Disk B) := freeChainLoop (NUM + 1) i d

/-- The loop of `alloc3_desc`, with the descriptors that it has; `k` are left. -/
def alloc3Loop : Nat → List Nat → Disk B → Except Panic (Option (List Nat) × Disk B)
  | 0, idx, d => pure (some idx, d)
  | k + 1, idx, d =>
    match d.allocDesc with
    | some (i, d) => alloc3Loop k (idx ++ [i]) d
    | none => do
      let d ← idx.foldlM freeDesc d
      pure (none, d)

def alloc3Desc (d : Disk B) : Except Panic (Option (List Nat) × Disk B) := alloc3Loop 3 [] d

/-- The header of a request, and its three descriptors. -/
def blkReq (r : Request B) : VirtioBlkReq where
  type := if r.write then VIRTIO_BLK_T_OUT else VIRTIO_BLK_T_IN
  reserved := 0
  sector := (r.blockno * (UInt32.ofNat (BSIZE / 512))).toUInt64

def desc0 (r : Request B) : VirtqDesc B :=
  ⟨.ops (r.at 0), 16, VRING_DESC_F_NEXT, UInt16.ofNat (r.at 1)⟩

def desc1 (r : Request B) : VirtqDesc B :=
  ⟨.data r.b, UInt32.ofNat BSIZE, (if r.write then 0 else VRING_DESC_F_WRITE) ||| VRING_DESC_F_NEXT,
    UInt16.ofNat (r.at 2)⟩

def desc2 (r : Request B) : VirtqDesc B := ⟨.status (r.at 0), 1, VRING_DESC_F_WRITE, 0⟩

/-- `virtio_disk_rw` from the allocation to the entry in the avail ring. -/
def format (d : Disk B) (r : Request B) : Disk B := { d with
  ops := Function.update d.ops (r.at 0) (blkReq r)
  desc := Function.update (Function.update (Function.update d.desc
    (r.at 0) (desc0 r)) (r.at 1) (desc1 r)) (r.at 2) (desc2 r)
  info := Function.update d.info (r.at 0) ⟨some r.b, 0xff⟩
  bufDisk := Function.update d.bufDisk r.b true
  avail := { d.avail with
    ring := Function.update d.avail.ring (d.avail.idx.toNat % NUM) (UInt16.ofNat (r.at 0)) } }

/-- `disk.avail->idx += 1` -/
def publish (d : Disk B) : Disk B := { d with avail := { d.avail with idx := d.avail.idx + 1 } }

/-- The end of `virtio_disk_rw`. -/
def finish (d : Disk B) (r : Request B) : Except Panic (Disk B) :=
  { d with info := Function.update d.info (r.at 0) { d.info (r.at 0) with b := none } }.freeChain (r.at 0)

/-- One turn of the loop of `virtio_disk_intr`. -/
def intrTurn (d : Disk B) : Except Panic (Disk B) :=
  let id := (d.used.ring (d.usedIdx.toNat % NUM)).toNat
  if (d.info id).status ≠ 0 then
    .error .intrStatus
  else
    match (d.info id).b with
    | none => .error .wild
    | some b => .ok { d with
        bufDisk := Function.update d.bufDisk b false
        usedIdx := d.usedIdx + 1 }

end Disk

/-! ## The device -/

/-- A chain that the device has taken, with the descriptors as it read them. -/
structure Work (B : Type) where
  head : Nat
  chain : List (VirtqDesc B)
  deriving DecidableEq

structure Device (B : Type) where
  /-- The number of entries of the avail ring that were taken. -/
  taken : Nat
  work : List (Work B)
  /-- All chains that were completed, in the order of the used ring. -/
  done : List (Work B)

/-- The descriptors of a chain, at most `k` of them. -/
def walk (desc : Nat → VirtqDesc B) : Nat → Nat → List (VirtqDesc B)
  | 0, _ => []
  | k + 1, i =>
    desc i :: if (desc i).flags &&& VRING_DESC_F_NEXT ≠ 0 then walk desc k (desc i).next.toNat else []

/-- Where the status of a chain goes. -/
def Work.statusAddr (w : Work B) : Addr B := (w.chain.getLast?.map VirtqDesc.addr).getD .null

/-- The device writes status 0 and appends the head of the chain to the used ring. -/
def Disk.complete (d : Disk B) (w : Work B) : Disk B := { d with
  info := match w.statusAddr with
    | .status i => Function.update d.info i { d.info i with status := 0 }
    | _ => d.info
  used := ⟨d.used.idx + 1,
    Function.update d.used.ring (d.used.idx.toNat % NUM) (UInt32.ofNat w.head)⟩ }

/-! ## The system -/

/-- Where a process stands. Before the allocation and while it waits, it may have the lock or
not; in between it has it. -/
inductive Pc (B : Type)
  | out
  | alloc (b : B) (blockno : UInt32) (write : Bool)
  | format (r : Request B)
  | publish (r : Request B)
  | wait (r : Request B)
  deriving DecidableEq

/-- The request that has descriptors. -/
def Pc.request : Pc B → Option (Request B)
  | .format r | .publish r | .wait r => some r
  | _ => none

/-- The buffer of a call. -/
def Pc.buf : Pc B → Option B
  | .out => none
  | .alloc b _ _ => some b
  | .format r | .publish r | .wait r => some r.b

/-- Can a process at this place take the lock? -/
def Pc.wants : Pc B → Bool
  | .alloc _ _ _ | .wait _ => true
  | _ => false

inductive Holder (n : Nat)
  | proc (p : Fin n)
  | intr
  deriving DecidableEq

inductive Act (n : Nat) (B : Type)
  | call (p : Fin n) (b : B) (blockno : UInt32) (write : Bool)
  | acquire (p : Fin n)
  | run (p : Fin n)
  | intr
  | handle
  | take
  | complete (w : Work B)

structure State (n : Nat) (B : Type) where
  disk : Disk B
  dev : Device B
  lock : Option (Holder n)
  pc : Fin n → Pc B
  /-- Not in the source: the number of entries of the used ring that were handled. -/
  handled : Nat

variable {n : Nat}

namespace State

def init : State n B := ⟨.init, ⟨0, [], []⟩, none, fun _ => .out, 0⟩

/-- Process `p` goes on to `c`, and leaves the structure as `d`. -/
def goto (s : State n B) (p : Fin n) (c : Pc B) (d : Disk B) : State n B :=
  { s with pc := Function.update s.pc p c, disk := d }

def unlock (s : State n B) : State n B := { s with lock := none }

/-- What process `p` does with the lock. A `sleep` releases it. -/
def run (s : State n B) (p : Fin n) : Pc B → Option (Except Panic (State n B))
  | .out => none
  | .alloc b blockno write =>
    some <| s.disk.alloc3Desc.map fun
      | (some idx, d) => s.goto p (.format ⟨b, blockno, write, idx⟩) d
      | (none, d) => { s with disk := d }.unlock
  | .format r => some (.ok (s.goto p (.publish r) (s.disk.format r)))
  | .publish r => some (.ok (s.goto p (.wait r) s.disk.publish))
  | .wait r =>
    if s.disk.bufDisk r.b then
      some (.ok s.unlock)
    else
      some <| (s.disk.finish r).map fun d => (s.goto p .out d).unlock

/-- `virtio_disk_intr` after the acquire: one turn, or the release. -/
def handle (s : State n B) : Except Panic (State n B) :=
  if s.disk.usedIdx ≠ s.disk.used.idx then
    s.disk.intrTurn.map fun d => { s with disk := d, handled := s.handled + 1 }
  else
    .ok s.unlock

/-- The device takes the next entry of the avail ring. -/
def take (s : State n B) : State n B :=
  let head := (s.disk.avail.ring (s.dev.taken % NUM)).toNat
  { s with dev := { s.dev with
      taken := s.dev.taken + 1
      work := s.dev.work ++ [⟨head, walk s.disk.desc NUM head⟩] } }

/-- The device completes a chain. -/
def complete (s : State n B) (w : Work B) : State n B := { s with
  disk := s.disk.complete w
  dev := { s.dev with work := s.dev.work.erase w, done := s.dev.done ++ [w] } }

end State

/-- One step, if it is possible; it may be a panic. -/
def next (s : State n B) : Act n B → Option (Except Panic (State n B))
  | .call p b blockno write =>
    if s.pc p = .out ∧ ∀ q, (s.pc q).buf ≠ some b then
      some (.ok (s.goto p (.alloc b blockno write) s.disk))
    else none
  | .acquire p =>
    if s.lock = none ∧ (s.pc p).wants = true then some (.ok { s with lock := some (.proc p) }) else none
  | .run p => if s.lock = some (.proc p) then s.run p (s.pc p) else none
  | .intr => if s.lock = none then some (.ok { s with lock := some .intr }) else none
  | .handle => if s.lock = some .intr then some s.handle else none
  | .take =>
    if s.disk.avail.idx ≠ UInt16.ofNat s.dev.taken then some (.ok s.take) else none
  | .complete w => if w ∈ s.dev.work then some (.ok (s.complete w)) else none

def Step (s : State n B) (a : Act n B) (s' : State n B) : Prop := next s a = some (.ok s')

end Xv6.Virtio
