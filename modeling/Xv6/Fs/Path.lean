-- SUMMARY: `kernel/fs.c`: path names. `namei` and `nameiparent` follow the elements of a path from directory to directory.
import Xv6.Fs.Dir
import Mathlib.Data.List.DropRight
import Mathlib.Data.List.TakeWhile

/-!
# Path names

A path is split into its elements by `skipelem`, one at a time, which copies them into a buffer
of 14 bytes without an end mark if they fill it. `namex` looks up one element after another, and
has at most one inode locked and two referenced.
-/

namespace Xv6.Fs

open Prog

abbrev slash : UInt8 := 47

/-! ## Elements -/

/-- `skipelem`: the path after the next element, and the buffer with the element. A path ends at
its first zero, or at the end of the list. -/
def skipelem (path name : List UInt8) : Option (List UInt8 × List UInt8) :=
  let path := path.dropWhile (· = slash)
  if path.headD 0 = 0 then
    none
  else
    let elem := path.takeWhile fun c => c ≠ slash ∧ c ≠ 0
    let path := path.dropWhile fun c => c ≠ slash ∧ c ≠ 0
    let name :=
      if elem.length ≥ DIRSIZ then elem.take DIRSIZ ++ name.drop DIRSIZ
      else elem ++ 0 :: name.drop (elem.length + 1)
    some (path.dropWhile (· = slash), name)

section

variable {path rest name name' word : List UInt8}

end

/-! ## `namex` -/

section

variable (sb : Superblock)

/-- The loop of `namex`; every turn takes an element off the path. -/
def namexLoop (parent : Bool) : Nat → Ip → List UInt8 → List UInt8 → FsM (Option Ip × List UInt8)
  | 0, ip, _, name => pure (some ip, name)
  | fuel + 1, ip, path, name => do
    match skipelem path name with
    | none =>
      if parent then
        iput sb ip
        pure (none, name)
      else
        pure (some ip, name)
    | some (path, name) =>
      ilock sb ip
      let s ← get
      if (s.itable ip).d.type ≠ T_DIR then
        iunlockput sb ip
        pure (none, name)
      else if parent = true ∧ path.headD 0 = 0 then
        iunlock ip
        pure (some ip, name)
      else
        match ← dirlookup sb ip name with
        | none =>
          iunlockput sb ip
          pure (none, name)
        | some (next, _) =>
          iunlockput sb ip
          namexLoop parent fuel next path name

/-- Where `namex` starts. -/
def namexStart (cwd : Ip) (path : List UInt8) : FsM Ip :=
  if path.headD 0 = slash then iget ROOTINO else idup cwd

/-- `namex(path, nameiparent, name)`, by a process with the current directory `cwd`. The results
are the inode and the buffer `name`. -/
def namex (cwd : Ip) (path : List UInt8) (parent : Bool) (name : List UInt8) : FsM (Option Ip × List UInt8) := do
  let ip ← namexStart cwd path
  namexLoop sb parent (path.length + 1) ip path name

/-- `namei(path)`; `name` is the buffer on the stack. -/
def namei (cwd : Ip) (path name : List UInt8) : FsM (Option Ip) := do
  let (ip, _) ← namex sb cwd path false name
  pure ip

end

/-! ## Resolution -/

/-- Follow the elements of a path, one after another. -/
def resolve (nodes : Nat → Option Node) : Nat → List (List UInt8) → Option Nat
  | i, [] => some i
  | i, c :: cs => do
    let nd ← nodes i
    if nd.type = T_DIR then
      let (j, _) ← lookup nd.bytes c
      resolve nodes j cs
    else
      none

/-- The directory in which the last element is to be looked up. -/
def resolveParent (nodes : Nat → Option Node) : Nat → List (List UInt8) → Option Nat
  | _, [] => none
  | i, c :: cs => do
    let nd ← nodes i
    if nd.type = T_DIR then
      if cs = [] then
        some i
      else
        let (j, _) ← lookup nd.bytes c
        resolveParent nodes j cs
    else
      none

/-- Somebody refers to the inode. -/
def Referenced (s : State) (i : Nat) : Prop := ∃ ip, 0 < (s.itable ip).ref ∧ (s.itable ip).inum = i

/-- The directories on the way are in order: they are allocated, have links or are kept by references,
and consist of whole entries. -/
def Walkable (nodes : Nat → Option Node) (kept : Nat → Prop) : Nat → List (List UInt8) → Prop
  | _, [] => True
  | i, c :: cs => ∃ nd, nodes i = some nd ∧ (nd.nlink ≠ 0 ∨ kept i) ∧
      (nd.type = T_DIR → DIRENT ∣ nd.bytes.length ∧
        ∀ j off, lookup nd.bytes c = some (j, off) → Walkable nodes kept j cs)

/-- Where the walk is to end. -/
def target (parent : Bool) (nodes : Nat → Option Node) (i : Nat) (cs : List (List UInt8)) : Option Nat :=
  if parent then resolveParent nodes i cs else resolve nodes i cs

/-- Where a walk starts. -/
def start (s : State) (cwd : Ip) (path : List UInt8) : Nat :=
  if path.headD 0 = slash then ROOTINO else (s.itable cwd).inum

section

variable {parent : Bool} {nodes : Nat → Option Node} {i : Nat} {c : List UInt8} {cs : List (List UInt8)} {nd : Node}

end

section

variable {sb : Superblock} {s s₀ : State} {ip cwd : Ip} {i fuel : Nat} {parent : Bool} {path name : List UInt8}
  {E : Stop → State → Prop} {held : List (Ip × Nat)} {locks : List Ip} {nd : Node}

theorem node_allocated (h : node sb s.core.blk i = some nd) :
    Allocated sb s.core.blk i ∧ nd.nlink = (dinode sb s.core.blk i).nlink := by
  simp only [node] at h
  split at h
  · next halloc =>
    rw [Option.some.injEq] at h
    exact ⟨halloc, h ▸ rfl⟩
  · cases h

/-- The inodes that are referred to besides. -/
def Kept (s₀ : State) (held : List (Ip × Nat)) (i : Nat) : Prop :=
  Referenced s₀ i ∨ ∃ ip, (ip, i) ∈ held

/-- An inode that is referred to besides is not dropped. -/
theorem Holding.keeps (h : Holding sb s₀ ((ip, i) :: held) locks s) (hnode : node sb s.core.blk i = some nd)
    (hkeep : nd.nlink ≠ 0 ∨ Kept s₀ held i) :
    1 < (s.itable ip).ref ∨ (dinode sb s.core.blk i).nlink ≠ 0 := by
  obtain hlinks | ⟨jp, hpos, hinum⟩ | ⟨jp, hmem⟩ := hkeep
  · rw [(node_allocated hnode).2] at hlinks
    exact .inr hlinks
  · have hj : 0 < (s.itable jp).ref := by
      have := h.ref jp
      omega
    obtain rfl : jp = ip := h.tidy.unique jp ip hj (h.ref_pos List.mem_cons_self)
      ((h.others jp hpos).trans (hinum.trans (h.inum _ List.mem_cons_self).symm))
    exact .inl (h.one_lt_ref (.inl hpos))
  · have hmem' : (jp, i) ∈ (ip, i) :: held := List.mem_cons_of_mem _ hmem
    obtain rfl : jp = ip := h.tidy.unique jp ip (h.ref_pos hmem') (h.ref_pos List.mem_cons_self)
      ((h.inum _ hmem').trans (h.inum _ List.mem_cons_self).symm)
    exact .inl (h.one_lt_ref (.inr ⟨i, hmem⟩))

theorem Kept.cons {x : Ip × Nat} (h : nd.nlink ≠ 0 ∨ Kept s₀ held i) : nd.nlink ≠ 0 ∨ Kept s₀ (x :: held) i :=
  h.imp_right (Or.imp_right fun hmem => hmem.imp fun _ => List.mem_cons_of_mem _)

end

/-! ## `namei` and `nameiparent` -/

section

variable {nodes : Nat → Option Node} {kept : Nat → Prop} {i j : Nat} {c : List UInt8} {cs : List (List UInt8)} {nd : Node}

theorem Walkable.mono {kept' : Nat → Prop} (h : Walkable nodes kept i cs) (hkept : ∀ i, kept i → kept' i) :
    Walkable nodes kept' i cs := by
  induction cs generalizing i with
  | nil => trivial
  | cons c cs ih =>
    obtain ⟨nd, hnode, hkeep, hnext⟩ := h
    refine ⟨nd, hnode, hkeep.imp_right (hkept i), fun hdir => ⟨(hnext hdir).1, fun j off hlookup => ?_⟩⟩
    exact ih ((hnext hdir).2 j off hlookup)

theorem Walkable.parent (h : Walkable nodes kept i cs) (hparent : resolveParent nodes i cs = some j) :
    ∃ nd, nodes j = some nd ∧ nd.type = T_DIR ∧ DIRENT ∣ nd.bytes.length := by
  induction cs generalizing i with
  | nil => cases hparent
  | cons c cs ih =>
    obtain ⟨nd, hnode, -, hnext⟩ := h
    obtain ⟨nd', hnode', hparent⟩ := Option.bind_eq_some_iff.mp hparent
    obtain rfl : nd = nd' := Option.some.inj (hnode.symm.trans hnode')
    split at hparent
    · next hdir =>
      obtain ⟨hsize, hnext⟩ := hnext hdir
      split at hparent
      · obtain rfl : i = j := Option.some.inj hparent
        exact ⟨nd, hnode, hdir, hsize⟩
      · obtain ⟨x, hlookup, hparent⟩ := Option.bind_eq_some_iff.mp hparent
        exact ih (hnext x.1 x.2 hlookup) hparent
    · cases hparent

end

section

variable {sb : Superblock} {s s' s₀ : State} {cwd dp : Ip} {path name : List UInt8} {r : Option Ip} {o : Option Nat}
  {held : List (Ip × Nat)}

end

/-! ## The small disk -/

/-- The directory `b`, without a link. -/
def orphan : Dinode := { oneBlock 1 32 4 with nlink := 0 }

end Xv6.Fs
