-- SUMMARY: Physical memory: the memory layout, and the page allocator of `kernel/kalloc.c`.
import Xv6.Base.Wp
import Xv6.Base.Bytes
import Mathlib.Algebra.Group.Nat.Even
import Mathlib.Tactic.NormNum

/-!
# Pages

The address layout of `kernel/riscv.h` and `kernel/memlayout.h`, and the allocator of
physical pages. Physical memory is a function from page addresses to their bytes. All
code about user memory runs in `VmM`, and stops where the kernel panics.

Other CPUs may empty the free list at any moment. Therefore the state has an oracle that
says which calls of `kalloc` fail although the list that is seen here has a page.
-/

namespace Xv6

open Prog

abbrev UINT64 : Nat := 2 ^ 64

/-- Bytes per page. -/
abbrev PGSIZE : Nat := 4096

/-- One beyond the highest virtual address. -/
abbrev MAXVA : Nat := 2 ^ 38

abbrev TRAMPOLINE : Nat := MAXVA - PGSIZE

abbrev TRAPFRAME : Nat := TRAMPOLINE - PGSIZE

abbrev KERNBASE : Nat := 0x80000000

abbrev PHYSTOP : Nat := KERNBASE + 128 * 1024 * 1024

/-- `PGROUNDUP`, on a `uint64`. -/
def pgroundup (sz : Nat) : Nat := (sz + (PGSIZE - 1)) % UINT64 / PGSIZE * PGSIZE

def pgrounddown (a : Nat) : Nat := a / PGSIZE * PGSIZE

/-- Add a signed number to a `uint64`. -/
def addInt (a : Nat) (n : Int) : Nat := ((a + n) % (UINT64 : Int)).toNat

/-- Why a computation on user memory stops. -/
inductive Vm.Stop
  | kfree
  | walk
  /-- `mappages: va not aligned` -/
  | mapUnaligned
  /-- `mappages: size not aligned` -/
  | mapSizeUnaligned
  /-- `mappages: size` -/
  | mapSize
  /-- `mappages: remap` -/
  | remap
  /-- `uvmunmap: not aligned` -/
  | unmapUnaligned
  /-- `freewalk: leaf` -/
  | freewalkLeaf
  | uvmclear
  /-- `loadseg: address should exist` -/
  | loadseg
  /-- a null pointer is followed -/
  | nullPointer
  /-- the kernel stack is used up -/
  | stackOverflow
  deriving DecidableEq, Repr

/-- Where the kernel lies in memory: the end of its data, and the trampoline page in its
text. -/
structure KernelImage where
  kend : Nat
  trampoline : Nat
  trampoline_aligned : trampoline % PGSIZE = 0
  trampoline_lt : trampoline + PGSIZE ≤ kend
  kend_le : kend ≤ PHYSTOP

structure Kmem where
  image : KernelImage
  freelist : List Nat
  /-- The contents of physical pages. -/
  page : Nat → Bytes.Mem
  fails : List Bool
  /-- The pages that `kfree` has got, the last one first. Nothing reads this. -/
  freed : List Nat

abbrev VmM := EStateM Vm.Stop Kmem

namespace Kmem

/-- Replace the contents of a page. -/
def write (k : Kmem) (pa : Nat) (data : Bytes.Mem) : Kmem :=
  { k with page := Function.update k.page pa data }

/-- `memset` of a whole page. -/
def memset (k : Kmem) (pa : Nat) (c : UInt8) : Kmem := k.write pa fun _ => c

def setFreelist (k : Kmem) (l : List Nat) : Kmem := { k with freelist := l }

/-- What a call of `kalloc` takes from the oracle. -/
def setFails (k : Kmem) (l : List Bool) : Kmem := { k with fails := l }

def push (k : Kmem) (pa : Nat) : Kmem := { k with freelist := pa :: k.freelist, freed := pa :: k.freed }

/-- An address that `kfree` accepts. -/
def IsPage (k : Kmem) (pa : Nat) : Prop := pa % PGSIZE = 0 ∧ k.image.kend ≤ pa ∧ pa < PHYSTOP

instance (k : Kmem) (pa : Nat) : Decidable (k.IsPage pa) := inferInstanceAs (Decidable (_ ∧ _ ∧ _))

end Kmem

def kalloc : VmM (Option Nat) := do
  let k ← get
  let refused := k.fails.headD false
  set (k.setFails k.fails.tail)
  if refused then
    pure none
  else
    match k.freelist with
    | [] => pure none
    | r :: rest => do
      modify fun k => (k.setFreelist rest).memset r 5
      pure (some r)

def kfree (pa : Nat) : VmM Unit := do
  let k ← get
  stopIf (¬ k.IsPage pa) .kfree
  modify fun k => (k.memset pa 1).push pa

/-- The pages that `freerange(end, PHYSTOP)` frees, in this order. -/
def ramPages (image : KernelImage) : List Nat :=
  (List.range ((PHYSTOP - pgroundup image.kend) / PGSIZE)).map fun i =>
    pgroundup image.kend + i * PGSIZE

/-- `kinit`: the last page comes first. -/
def kinit (image : KernelImage) : Kmem where
  image := image
  freelist := (ramPages image).reverse
  page := fun _ _ => 1
  fails := []
  freed := []

end Xv6
