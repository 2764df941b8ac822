-- SUMMARY: `kernel/fs.c`: the table of inodes in memory, as one process uses it while no other runs.
import Xv6.Fs.Node
import Mathlib.Data.Fintype.Card

/-!
# Inodes in memory

An operation gets inodes from the table with `iget`, locks them to use their contents, and drops
them. The table is in order if it has one entry for an inode, and if what it holds of an inode is
what is on the disk. While an operation runs it has some references and some locks more than at
its start, and it gives them back in the end.

There is one disk, so entries are found by the number of the inode alone.
-/

namespace Xv6.Fs

open Prog

/-- `struct inode`. -/
structure Inode where
  inum : Nat
  ref : Nat
  valid : Bool
  /-- Is `lock` held? -/
  locked : Bool
  d : Dinode

/-- An inode pointer. -/
abbrev Ip : Type := Fin NINODE

structure State where
  core : Core
  itable : Ip → Inode

abbrev FsM : Type → Type := EStateM Stop State

namespace State

def setIp (s : State) (ip : Ip) (x : Inode) : State :=
  { s with itable := Function.update s.itable ip x }

/-- The entry that has the inode already. -/
def cached (s : State) (inum : Nat) : Option Ip :=
  (List.finRange NINODE).find? fun ip => decide ((s.itable ip).ref > 0 ∧ (s.itable ip).inum = inum)

/-- The first entry that nobody uses. -/
def empty (s : State) : Option Ip :=
  (List.finRange NINODE).find? fun ip => decide ((s.itable ip).ref = 0)

end State

/-- A computation on the disk. -/
def disk {α : Type} (m : CoreM α) : FsM α := zoom State.core (fun s c => { s with core := c }) id m

def setIp (ip : Ip) (f : Inode → Inode) : FsM PUnit := modify fun s => s.setIp ip (f (s.itable ip))

section

variable (sb : Superblock)

def iget (inum : Nat) : FsM Ip := do
  let s ← get
  match s.cached inum with
  | some ip =>
    setIp ip fun x => { x with ref := x.ref + 1 }
    pure ip
  | none =>
    match s.empty with
    | none => throw .igetNoInodes
    | some ip =>
      setIp ip fun x => { x with inum := inum, ref := 1, valid := false }
      pure ip

def idup (ip : Ip) : FsM Ip := do
  setIp ip fun x => { x with ref := x.ref + 1 }
  pure ip

def ilock (ip : Ip) : FsM PUnit := do
  let s ← get
  stopIf ((s.itable ip).ref < 1) .ilock
  stopIf ((s.itable ip).locked = true) .deadlock
  setIp ip fun x => { x with locked := true }
  if (s.itable ip).valid = false then
    let d := dinode sb s.core.blk (s.itable ip).inum
    setIp ip fun x => { x with d := d, valid := true }
    stopIf (d.type = 0) .ilockNoType

def iunlock (ip : Ip) : FsM PUnit := do
  let s ← get
  stopIf ((s.itable ip).locked = false ∨ (s.itable ip).ref < 1) .iunlock
  setIp ip fun x => { x with locked := false }

/-- The branch of `iput` for the last reference to an inode without links. It has the lock for
the time. -/
def ifree (ip : Ip) : FsM PUnit := do
  let s ← get
  stopIf ((s.itable ip).locked = true) .deadlock
  let d ← disk (itrunc sb (s.itable ip).inum (s.itable ip).d)
  disk (iupdate sb (s.itable ip).inum { d with type := 0 })
  setIp ip fun x => { x with d := { d with type := 0 }, valid := false }

def iput (ip : Ip) : FsM PUnit := do
  let s ← get
  if (s.itable ip).ref = 1 ∧ (s.itable ip).valid = true ∧ (s.itable ip).d.nlink = 0 then
    ifree sb ip
  setIp ip fun x => { x with ref := x.ref - 1 }

def iunlockput (ip : Ip) : FsM PUnit := do
  iunlock ip
  iput sb ip

end

/-! ## The table -/

section

variable {sb : Superblock} {s s' s₀ : State} {ip : Ip} {i : Nat}

/-- The inode is allocated. -/
def Allocated (sb : Superblock) (blk : Disk) (i : Nat) : Prop :=
  i < sb.ninodes ∧ (dinode sb blk i).type ≠ 0

/-- There is one entry for an inode, and what it holds of the inode is on the disk. -/
structure Tidy (sb : Superblock) (s : State) : Prop where
  sound : Sound sb s.core.blk
  unique : ∀ ip jp, 0 < (s.itable ip).ref → 0 < (s.itable jp).ref →
    (s.itable ip).inum = (s.itable jp).inum → ip = jp
  coherent : ∀ ip, 0 < (s.itable ip).ref → (s.itable ip).valid = true →
    Allocated sb s.core.blk (s.itable ip).inum ∧
      (s.itable ip).d = dinode sb s.core.blk (s.itable ip).inum

/-- Since `s₀` the operation has taken references to inodes, and has locked some entries. -/
structure Holding (sb : Superblock) (s₀ : State) (held : List (Ip × Nat)) (locks : List Ip) (s : State) :
    Prop where
  tidy : Tidy sb s
  ref : ∀ ip, (s.itable ip).ref = (s₀.itable ip).ref + (held.map Prod.fst).count ip
  others : ∀ ip, 0 < (s₀.itable ip).ref → (s.itable ip).inum = (s₀.itable ip).inum
  inum : ∀ x ∈ held, (s.itable x.1).inum = x.2
  locked : ∀ ip, (s.itable ip).locked = decide (ip ∈ locks)
  valid : ∀ ip ∈ locks, (s.itable ip).valid = true
  used : ∀ ip ∈ locks, 0 < (s.itable ip).ref

/-- Somebody else refers to the entry, or the inode has not been read yet. -/
def State.Shared (s : State) (ip : Ip) : Prop := 1 < (s.itable ip).ref ∨ (s.itable ip).valid = false

/-- The number of entries that nobody uses. -/
def State.spare (s : State) : Nat := (Finset.univ.filter fun ip => (s.itable ip).ref = 0).card

@[simp] theorem State.setIp_self {x : Inode} : (s.setIp ip x).itable ip = x := Function.update_self ..

theorem State.setIp_of_ne {jp : Ip} {x : Inode} (h : jp ≠ ip) : (s.setIp ip x).itable jp = s.itable jp :=
  Function.update_of_ne h ..

@[simp] theorem wp_setIp {f : Inode → Inode} {Q : PUnit → State → Prop} {E : Stop → State → Prop} :
    wp (setIp ip f) Q E s ↔ Q ⟨⟩ (s.setIp ip (f (s.itable ip))) := wp_modify

theorem State.setIp_setIp {x y : Inode} : (s.setIp ip x).setIp ip y = s.setIp ip y := by
  simp only [State.setIp, Function.update_idem]

/-- A field that an update of an entry does not change. -/
theorem State.setIp_field {β : Type} {f : Inode → β} {x : Inode} (h : f x = f (s.itable ip)) (jp : Ip) :
    f ((s.setIp ip x).itable jp) = f (s.itable jp) := by
  by_cases hjp : jp = ip
  · rw [hjp, setIp_self, h]
  · rw [setIp_of_ne hjp]

@[simp] theorem State.setIp_core {x : Inode} : (s.setIp ip x).core = s.core := rfl

theorem State.cached_eq_none (h : s.cached i = none) (href : 0 < (s.itable ip).ref) :
    (s.itable ip).inum ≠ i := by
  have := List.find?_eq_none.mp h ip (List.mem_finRange ip)
  simp only [decide_eq_true_eq, not_and] at this
  exact this href

/-- An update of one entry that keeps the table in order. -/
theorem Tidy.setIp {x : Inode} (h : Tidy sb s) (hunique : ∀ jp ≠ ip, 0 < x.ref → 0 < (s.itable jp).ref →
      (s.itable jp).inum ≠ x.inum)
    (hcoherent : 0 < x.ref → x.valid = true →
      Allocated sb s.core.blk x.inum ∧ x.d = dinode sb s.core.blk x.inum) : Tidy sb (s.setIp ip x) := by
  refine ⟨h.sound, fun jp kp hj hk heq => ?_, fun jp hj hvalid => ?_⟩
  · by_cases hjp : jp = ip
    · subst hjp
      by_cases hkp : kp = jp
      · exact hkp.symm
      · rw [State.setIp_of_ne hkp] at hk heq
        rw [State.setIp_self] at hj heq
        exact absurd heq.symm (hunique kp hkp hj hk)
    · rw [State.setIp_of_ne hjp] at hj heq
      by_cases hkp : kp = ip
      · subst hkp
        rw [State.setIp_self] at hk heq
        exact absurd heq (hunique jp hjp hk hj)
      · rw [State.setIp_of_ne hkp] at hk heq
        exact h.unique jp kp hj hk heq
  · by_cases hjp : jp = ip
    · subst hjp
      rw [State.setIp_self] at hj hvalid ⊢
      exact hcoherent hj hvalid
    · rw [State.setIp_of_ne hjp] at hj hvalid ⊢
      exact h.coherent jp hj hvalid

end

/-! ## References and locks -/

namespace Holding

variable {sb : Superblock} {s s₀ : State} {ip jp : Ip} {i j : Nat} {held held' : List (Ip × Nat)}
  {locks locks' : List Ip} {E : Stop → State → Prop}

theorem init (h : Tidy sb s) (hlocked : ∀ ip, (s.itable ip).locked = false) : Holding sb s [] [] s where
  tidy := h
  ref _ := rfl
  others _ _ := rfl
  inum _ hx := absurd hx List.not_mem_nil
  locked ip := (hlocked ip).trans (decide_eq_false List.not_mem_nil).symm
  valid _ hx := absurd hx List.not_mem_nil
  used _ hx := absurd hx List.not_mem_nil

theorem perm (h : Holding sb s₀ held locks s) (hheld : held.Perm held') : Holding sb s₀ held' locks s :=
  { h with
    ref ip := by rw [h.ref, (hheld.map Prod.fst).count_eq]
    inum x hx := h.inum x (hheld.mem_iff.mpr hx) }

theorem mem_count (hmem : (ip, i) ∈ held) : 0 < (held.map Prod.fst).count ip :=
  List.count_pos_iff.mpr (List.mem_map_of_mem hmem)

theorem ref_pos (h : Holding sb s₀ held locks s) (hmem : (ip, i) ∈ held) : 0 < (s.itable ip).ref := by
  have := mem_count hmem
  have := h.ref ip
  omega

/-- The copy of a locked inode. -/
theorem inode_eq (h : Holding sb s₀ held locks s) (hmem : (ip, i) ∈ held) (hlock : ip ∈ locks) :
    Allocated sb s.core.blk i ∧ (s.itable ip).d = dinode sb s.core.blk i := by
  have := h.tidy.coherent ip (h.ref_pos hmem) (h.valid ip hlock)
  rwa [h.inum _ hmem] at this

/-- The first reference to an entry that nobody used. -/
theorem fresh (h : Holding sb s₀ held locks s) (href : (s.itable ip).ref = 0) (hnew : s.cached i = none) :
    Holding sb s₀ ((ip, i) :: held) locks
      (s.setIp ip { s.itable ip with inum := i, ref := 1, valid := false }) where
  tidy := h.tidy.setIp (fun jp _ _ hj => State.cached_eq_none hnew hj) fun _ hvalid => by cases hvalid
  ref jp := by
    by_cases hjp : jp = ip
    · subst hjp
      have hzero := h.ref jp
      rw [href] at hzero
      rw [State.setIp_self, List.map_cons, List.count_cons_self, ← Nat.add_assoc, ← hzero]
    · rw [State.setIp_of_ne hjp, List.map_cons, List.count_cons_of_ne (Ne.symm hjp), h.ref]
  others jp hj := by
    have := h.ref jp
    rw [State.setIp_of_ne (by rintro rfl; omega)]
    exact h.others jp hj
  inum x hx := by
    obtain rfl | hx := List.mem_cons.mp hx
    · rw [State.setIp_self]
    · have := h.ref_pos hx
      rw [State.setIp_of_ne (by rintro rfl; omega)]
      exact h.inum x hx
  locked jp := (State.setIp_field (f := Inode.locked) (by rfl) jp).trans (h.locked jp)
  valid jp hj := by
    have := h.used jp hj
    rw [State.setIp_of_ne (by rintro rfl; omega)]
    exact h.valid jp hj
  used jp hj := by
    by_cases hjp : jp = ip
    · rw [hjp, State.setIp_self]
      exact Nat.one_pos
    · rw [State.setIp_of_ne hjp]
      exact h.used jp hj

/-- A reference that was held before, or that is held once more. -/
theorem one_lt_ref (h : Holding sb s₀ ((ip, i) :: held) locks s)
    (hmore : 0 < (s₀.itable ip).ref ∨ ∃ j, (ip, j) ∈ held) : 1 < (s.itable ip).ref := by
  have href := h.ref ip
  rw [List.map_cons, List.count_cons_self] at href
  obtain hmore | ⟨j, hmore⟩ := hmore
  · omega
  · have := mem_count hmore
    omega

/-- An entry is locked, and its copy of the inode is read if it has none. -/
theorem lock {x : Inode} (h : Holding sb s₀ held locks s) (hmem : (ip, i) ∈ held) (href : x.ref = (s.itable ip).ref)
    (hinum : x.inum = (s.itable ip).inum) (hlocked : x.locked = true) (hvalid : x.valid = true)
    (hd : Allocated sb s.core.blk i ∧ x.d = dinode sb s.core.blk i) :
    Holding sb s₀ held (ip :: locks) (s.setIp ip x) where
  tidy := by
    have hpos := h.ref_pos hmem
    refine h.tidy.setIp (fun jp hjp _ hj heq => ?_) fun _ _ => ?_
    · exact hjp (h.tidy.unique jp ip hj hpos (heq.trans hinum))
    · rw [hinum, h.inum _ hmem]
      exact hd
  ref jp := (State.setIp_field href jp).trans (h.ref jp)
  others jp hj := (State.setIp_field hinum jp).trans (h.others jp hj)
  inum y hy := (State.setIp_field hinum y.1).trans (h.inum y hy)
  locked jp := by
    by_cases hjp : jp = ip
    · rw [hjp, State.setIp_self, hlocked, decide_eq_true List.mem_cons_self]
    · rw [State.setIp_of_ne hjp, h.locked]
      simp [hjp]
  valid jp hj := by
    by_cases hjp : jp = ip
    · rw [hjp, State.setIp_self, hvalid]
    · rw [State.setIp_of_ne hjp]
      exact h.valid jp ((List.mem_cons.mp hj).resolve_left hjp)
  used jp hj := by
    by_cases hjp : jp = ip
    · rw [hjp, State.setIp_self, href]
      exact h.ref_pos hmem
    · rw [State.setIp_of_ne hjp]
      exact h.used jp ((List.mem_cons.mp hj).resolve_left hjp)

theorem unlock (h : Holding sb s₀ held (ip :: locks) s) (hnot : ip ∉ locks) :
    Holding sb s₀ held locks (s.setIp ip { s.itable ip with locked := false }) where
  tidy := by
    have href := h.used ip List.mem_cons_self
    exact h.tidy.setIp (fun jp hjp _ hj heq => hjp (h.tidy.unique jp ip hj href heq))
      fun _ => h.tidy.coherent ip href
  ref jp := (State.setIp_field (f := Inode.ref) (by rfl) jp).trans (h.ref jp)
  others jp hj := (State.setIp_field (f := Inode.inum) (by rfl) jp).trans (h.others jp hj)
  inum x hx := (State.setIp_field (f := Inode.inum) (by rfl) x.1).trans (h.inum x hx)
  locked jp := by
    by_cases hjp : jp = ip
    · rw [hjp, State.setIp_self, decide_eq_false hnot]
    · rw [State.setIp_of_ne hjp, h.locked]
      simp [hjp]
  valid jp hj := (State.setIp_field (f := Inode.valid) (by rfl) jp).trans (h.valid jp (List.mem_cons_of_mem _ hj))
  used jp hj := by
    rw [State.setIp_field (f := Inode.ref) (by rfl) jp]
    exact h.used jp (List.mem_cons_of_mem _ hj)

/-! ## The operations -/

theorem wp_ilock (h : Holding sb s₀ held locks s) (hmem : (ip, i) ∈ held) (hnot : ip ∉ locks)
    (halloc : Allocated sb s.core.blk i) :
    wp (ilock sb ip) (fun _ s' => s'.core = s.core ∧ Holding sb s₀ held (ip :: locks) s') E s := by
  have hinum : (s.itable ip).inum = i := h.inum _ hmem
  have hlocked : ¬ (s.itable ip).locked = true := by simp [h.locked ip, hnot]
  have href := h.ref_pos hmem
  simp only [ilock, wp_bind, wp_get, wp_stopIf, wp_setIp]
  refine ⟨fun hlt => by omega, fun _ => ⟨fun htrue => absurd htrue hlocked, fun _ => ?_⟩⟩
  cases hvalid : (s.itable ip).valid with
  | true =>
    rw [if_neg (by simp), wp_pure]
    have hd := h.tidy.coherent ip href hvalid
    rw [hinum] at hd
    exact ⟨rfl, h.lock hmem rfl rfl rfl rfl hd⟩
  | false =>
    rw [if_pos rfl, wp_bind, wp_setIp, wp_stopIf, State.setIp_setIp, State.setIp_self, hinum]
    exact ⟨fun hzero => absurd hzero halloc.2,
      fun _ => ⟨rfl, h.lock hmem rfl hinum.symm rfl rfl ⟨halloc, rfl⟩⟩⟩

end Holding

end Xv6.Fs
