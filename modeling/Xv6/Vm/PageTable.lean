-- SUMMARY: User page tables of `kernel/vm.c`: walking, mapping, unmapping, growing, shrinking, copying and freeing.
import Xv6.Base.Radix
import Xv6.Kernel.Param
import Xv6.Vm.Kmem

/-!
# Page tables

A page table is a radix tree with 512 slots in a node and three levels. A pointer to a page
of a table is the tree below it, which keeps the address of that page; the null pointer is
the absent tree. The slots of the last level hold the valid entries.

Functions take the table and return it as they leave it. The loops over pages count the
turns that the address makes before it reaches the limit; the address cannot wrap around
before that, because `walk` panics first.
-/

namespace Xv6

open Prog Radix

/-- The permission bits of an entry. -/
structure Perm where
  r : Bool
  w : Bool
  x : Bool
  u : Bool
  deriving DecidableEq, Repr

/-- A valid entry of the last level. -/
structure Pte where
  pa : Nat
  perm : Perm
  deriving DecidableEq

/-- What a pointer to a table of level `l` points to. -/
abbrev Ptable (l : Nat) : Type := Trie 512 Pte l

abbrev Pagetable : Type := Ptable 2

/-! ## Walking -/

/-- `walk` with `alloc` 0: the entry, if the tables on the way to it are there. -/
def walk (t : Pagetable) (va : Nat) : VmM (Option (Option Pte)) := do
  stopIf (va ≥ MAXVA) .walk
  pure (t.find (va / PGSIZE))

/-- The table a directory entry points to, or a new one. -/
def ensure {l : Nat} : Ptable l → VmM (Option (Ptable l))
  | .nil => do
    match ← kalloc with
    | none => pure none
    | some pa => do
      modify (·.memset pa 0)
      pure (some (Trie.empty 512 Pte pa l))
  | t => pure (some t)

/-- The loop of `walk` with `alloc` 1 from level `l` on. -/
def fill : {l : Nat} → Ptable l → Nat → VmM (Ptable l × Bool)
  | _, .nil, _ => throw .nullPointer
  | _, .leaf a slot, _ => pure (.leaf a slot, true)
  | l + 1, .node a slot, v => do
    match ← ensure (slot (digit 512 (l + 1) v)) with
    | none => pure (.node a slot, false)
    | some c => do
      let (c, ok) ← fill c v
      pure (.node a (Function.update slot (digit 512 (l + 1) v) c), ok)

/-- `walk` with `alloc` 1: the table, and whether the entry is there. -/
def walkAlloc (t : Pagetable) (va : Nat) : VmM (Pagetable × Bool) := do
  stopIf (va ≥ MAXVA) .walk
  fill t (va / PGSIZE)

def walkaddr (t : Pagetable) (va : Nat) : VmM (Option Nat) := do
  if va ≥ MAXVA then
    pure none
  else
    match ← walk t va with
    | some (some pte) => pure (if pte.perm.u then some pte.pa else none)
    | _ => pure none

def ismapped (t : Pagetable) (va : Nat) : VmM Bool := do
  match ← walk t va with
  | some (some _) => pure true
  | _ => pure false

/-! ## Mapping -/

/-- The loop of `mappages`, for `k` pages. -/
def mapLoop (perm : Perm) : Nat → Pagetable → Nat → Nat → VmM (Pagetable × Bool)
  | 0, t, _, _ => pure (t, true)
  | k + 1, t, a, pa => do
    let (t, ok) ← walkAlloc t a
    if ok then
      stopIf (t.get (a / PGSIZE) ≠ none) .remap
      mapLoop perm k (t.put (a / PGSIZE) (some ⟨pa, perm⟩)) (a + PGSIZE) (pa + PGSIZE)
    else
      pure (t, false)

/-- `mappages`; the result says whether it returns 0. -/
def mappages (t : Pagetable) (va size pa : Nat) (perm : Perm) : VmM (Pagetable × Bool) := do
  stopIf (va % PGSIZE ≠ 0) .mapUnaligned
  stopIf (size % PGSIZE ≠ 0) .mapSizeUnaligned
  stopIf (size = 0) .mapSize
  mapLoop perm (size / PGSIZE) t va pa

def uvmcreate : VmM Pagetable := do
  match ← kalloc with
  | none => pure .nil
  | some pa => do
    modify (·.memset pa 0)
    pure (Trie.empty 512 Pte pa 2)

/-- How often `for(a = from; a < to; a += PGSIZE)` turns. -/
def turns (start limit : Nat) : Nat := (limit - start + (PGSIZE - 1)) / PGSIZE

def unmapLoop (doFree : Bool) : Nat → Pagetable → Nat → VmM Pagetable
  | 0, t, _ => pure t
  | k + 1, t, a => do
    match ← walk t a with
    | some (some pte) => do
      if doFree then kfree pte.pa
      unmapLoop doFree k (t.put (a / PGSIZE) none) (a + PGSIZE)
    | _ => unmapLoop doFree k t (a + PGSIZE)

def uvmunmap (t : Pagetable) (va npages : Nat) (doFree : Bool) : VmM Pagetable := do
  stopIf (va % PGSIZE ≠ 0) .unmapUnaligned
  unmapLoop doFree (turns va ((va + npages * PGSIZE) % UINT64)) t va

/-- `npages` of `uvmdealloc` is an `int`, and then converted to `uint64`. -/
def uvmdealloc (t : Pagetable) (oldsz newsz : Nat) : VmM (Pagetable × Nat) := do
  if newsz ≥ oldsz then
    pure (t, oldsz)
  else if pgroundup newsz < pgroundup oldsz then do
    let npages := Int.bmod ((pgroundup oldsz - pgroundup newsz) / PGSIZE : Nat) (2 ^ 32)
    let t ← uvmunmap t (pgroundup newsz) (addInt 0 npages) true
    pure (t, newsz)
  else
    pure (t, newsz)

/-- The loop of `uvmalloc`. The result is the new size, and 0 on error. -/
def allocLoop (oldsz newsz : Nat) (perm : Perm) : Nat → Pagetable → Nat → VmM (Pagetable × Nat)
  | 0, t, _ => pure (t, newsz)
  | k + 1, t, a => do
    match ← kalloc with
    | none => do
      let (t, _) ← uvmdealloc t a oldsz
      pure (t, 0)
    | some mem => do
      modify (·.memset mem 0)
      let (t, ok) ← mappages t a PGSIZE mem perm
      if ok then
        allocLoop oldsz newsz perm k t (a + PGSIZE)
      else do
        kfree mem
        let (t, _) ← uvmdealloc t a oldsz
        pure (t, 0)

/-- `uvmalloc`, where `w` and `x` are the bits of `xperm`. -/
def uvmalloc (t : Pagetable) (oldsz newsz : Nat) (w x : Bool) : VmM (Pagetable × Nat) :=
  if newsz < oldsz then
    pure (t, oldsz)
  else
    let oldsz := pgroundup oldsz
    allocLoop oldsz newsz ⟨true, w, x, true⟩ (turns oldsz newsz) t oldsz

/-! ## Freeing and copying -/

/-- Every entry of a last-level table is a leaf, because all mappings have `PTE_R`. -/
def freewalk : {l : Nat} → Ptable l → VmM Unit
  | _, .nil => throw .nullPointer
  | _, .leaf a slot => do
    (List.finRange 512).forM fun i => stopIf (slot i ≠ none) .freewalkLeaf
    kfree a
  | _, .node a slot => do
    (List.finRange 512).forM fun i => if (slot i).isNil then pure () else freewalk (slot i)
    kfree a

def uvmfree (t : Pagetable) (sz : Nat) : VmM Unit := do
  if sz > 0 then do
    let t ← uvmunmap t 0 (pgroundup sz / PGSIZE) true
    freewalk t
  else
    freewalk t

/-- The loop of `uvmcopy`: the new table, and whether 0 is returned. -/
def copyLoop (old : Pagetable) : Nat → Pagetable → Nat → VmM (Pagetable × Bool)
  | 0, new, _ => pure (new, true)
  | k + 1, new, i => do
    match ← walk old i with
    | some (some pte) => do
      match ← kalloc with
      | none => do
        let new ← uvmunmap new 0 (i / PGSIZE) true
        pure (new, false)
      | some mem => do
        modify fun m => m.write mem (m.page pte.pa)
        let (new, ok) ← mappages new i PGSIZE mem pte.perm
        if ok then
          copyLoop old k new (i + PGSIZE)
        else do
          kfree mem
          let new ← uvmunmap new 0 (i / PGSIZE) true
          pure (new, false)
    | _ => copyLoop old k new (i + PGSIZE)

def uvmcopy (old new : Pagetable) (sz : Nat) : VmM (Pagetable × Bool) :=
  copyLoop old (turns 0 sz) new 0

def uvmclear (t : Pagetable) (va : Nat) : VmM Pagetable := do
  match ← walk t va with
  | none => throw .uvmclear
  | some none => pure t
  | some (some pte) => pure (t.put (va / PGSIZE) (some { pte with perm := { pte.perm with u := false } }))

end Xv6
