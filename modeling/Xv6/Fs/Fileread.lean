-- SUMMARY: `fileread` for files, pipes and the console, and when it stores no more bytes than it was asked for.
import Xv6.Console.Console
import Xv6.Fs.Node
import Xv6.Pipe.Read

/-!
# fileread

A read stores bytes into a buffer in user memory. The count is an `int` for pipes and the
console, but a `uint` for `readi`, so a negative count is a large one there. It has an effect
unless the sum of the offset and the count wraps, there is nothing to read, or the first byte of
the buffer cannot be written.
-/

namespace Xv6.Fileread

open Prog Fs

abbrev Mem : Type := Nat → UInt8

/-- A buffer in user memory: its address, and which of its bytes are in pages that can be
written. -/
structure Buffer where
  addr : Nat
  ok : Nat → Bool

/-- `bytes` is stored in memory from `a` on. -/
def store (mem : Mem) (a : Nat) : List UInt8 → Mem
  | [] => mem
  | c :: bytes => store (Function.update mem (a % UINT64) c) (a + 1) bytes

/-- How many of the bytes `p`, …, `p + m - 1` `copyout` stores: it stops at the first page that
it cannot write. -/
def Buffer.good (u : Buffer) (p m : Nat) : Nat := Source.good ⟨fun _ => 0, u.ok⟩ p m

section

variable (sb : Superblock)

/-- The loop of `readi` into user memory, with `tot` bytes read and `rem` bytes left to read. -/
def readLoop (u : Buffer) : Nat → Dinode → Nat → Nat → Nat → Mem → CoreM (Nat × Mem × Dinode)
  | 0, d, _, tot, _, mem => pure (tot, mem, d)
  | fuel + 1, d, off, tot, rem, mem => do
    if rem = 0 then
      pure (tot, mem, d)
    else
      let (addr, d) ← bmap sb d (off / BSIZE)
      if addr = 0 then
        pure (tot, mem, d)
      else
        let s ← get
        let m := min rem (BSIZE - off % BSIZE)
        let mem := store mem (u.addr + tot) (slice (s.blk addr) (off % BSIZE) (u.good tot m))
        if u.good tot m < m then
          -- the `uint` -1
          pure (UINT - 1, mem, d)
        else
          readLoop u fuel d (off + m) (tot + m) (rem - m) mem

/-- `readi(ip, 1, dst, off, n)`: the value returned, and user memory. -/
def readi (u : Buffer) (d : Dinode) (off n : Nat) (mem : Mem) : CoreM (Int32 × Mem × Dinode) := do
  let size := d.size.toNat
  if off > size ∨ (off + n) % UINT < off then
    pure (0, mem, d)
  else
    let n := if off + n > size then size - off else n
    let (tot, mem, d) ← readLoop sb u n d off 0 n mem
    pure ((UInt32.ofNat tot).toInt32, mem, d)

/-! ## `file.c` -/

abbrev NDEV : Int16 := 10

abbrev CONSOLE : Int16 := 1

/-- `f->type` -/
inductive Filetype
  | none
  | pipe
  | inode
  | device
  deriving DecidableEq

/-- The fields of `struct file` that `fileread` reads. -/
structure File where
  type : Filetype
  readable : Bool
  off : UInt32
  major : Int16

/-- What the call finds when it has the lock of the inode, of the pipe or of the console. -/
structure Found where
  ip : Dinode
  pipe : List Pipe.Read.Look
  cons : Cons
  naps : List Console.Nap

/-- A panic of `fs.c`, or that of `fileread`. -/
inductive Stop
  | fs (e : Fs.Stop)
  | fileread

/-- The outcome of a call: what it returns, unless it sleeps, `f->off`, and user memory. -/
structure Outcome where
  ret : Option Int
  off : UInt32
  mem : Mem

/-- `devsw[major].read`, which `consoleinit` sets for the console alone. -/
def devswRead (major : Int16) : Bool := major = CONSOLE

/-- `fileread(f, addr, n)` -/
def fileread (f : File) (x : Found) (u : Buffer) (n : Int32) (mem : Mem) : EStateM Stop Core Outcome := do
  if f.readable = false then
    pure ⟨some (-1), f.off, mem⟩
  else
    match f.type with
    | .pipe =>
      match Pipe.Read.piperead x.pipe (fun i => !u.ok i) u.addr n.toInt mem with
      | none => pure ⟨none, f.off, mem⟩
      | some out => pure ⟨some out.ret, f.off, out.mem⟩
    | .device =>
      if f.major < 0 ∨ f.major ≥ NDEV ∨ devswRead f.major = false then
        pure ⟨some (-1), f.off, mem⟩
      else
        let out := Console.consoleread (fun i => !u.ok i) u.addr n x.cons x.naps mem
        pure ⟨out.ret.map Int32.toInt, f.off, out.mem⟩
    | .inode =>
      -- the conversion of `n` to `uint`
      let (r, mem, _) ← zoom id (fun _ s => s) Stop.fs (readi sb u x.ip f.off.toNat n.toUInt32.toNat mem)
      pure ⟨some r.toInt, if r > 0 then f.off + r.toUInt32 else f.off, mem⟩
    | .none => throw .fileread

end

/-! ## Memory -/

section

variable {mem : Mem} {a b : Nat} {bytes : List UInt8} {c : UInt8}

theorem store_append {mem : Mem} {a : Nat} {l l' : List UInt8} :
    store mem a (l ++ l') = store (store mem a l) (a + l.length) l' := by
  induction l generalizing mem a with
  | nil => rfl
  | cons c l ih =>
    rw [List.cons_append, store, ih, store, List.length_cons, Nat.add_assoc, Nat.add_comm 1]

theorem store_others (h : ∀ j < bytes.length, b ≠ (a + j) % UINT64) : store mem a bytes b = mem b := by
  induction bytes generalizing mem a with
  | nil => rfl
  | cons c bytes ih =>
    have hfirst : b ≠ a % UINT64 := h 0 (Nat.succ_pos _)
    rw [store, ih, Function.update_of_ne hfirst]
    intro j hj
    rw [Nat.add_assoc, Nat.add_comm 1]
    exact h (j + 1) (Nat.succ_lt_succ hj)

theorem store_first (h : bytes.length < UINT64) : store mem a (c :: bytes) (a % UINT64) = c := by
  rw [store, store_others, Function.update_self]
  intro j hj
  simp only [UINT64] at h ⊢
  omega

end

/-! ## `readi` -/

section

variable {sb : Superblock} {s : Core} {d : Dinode} {u : Buffer} {mem : Mem} {off tot rem fuel n : Nat}
  {E : Fs.Stop → Core → Prop}

/-- A read that stores `g` bytes of the file: all that it was asked for, or fewer if a copy fails.
It changes nothing else. -/
structure Reads (u : Buffer) (s : Core) (d : Dinode) (mem : Mem) (off tot rem : Nat)
    (r : Nat × Mem × Dinode) (s' : Core) (g : Nat) : Prop where
  state : s' = s
  le : g ≤ rem
  mem_eq : r.2.1 = store mem (u.addr + tot) ((List.range g).map fun k => byteAt s.blk d (off + k))
  ret : r.1 = tot + g ∨ r.1 = UINT - 1
  pos : 0 < g ↔ 0 < rem ∧ u.ok tot = true

theorem wp_readLoop (hd : Filled s.blk d) (hrem : rem ≤ fuel) (hsize : off + rem ≤ d.size.toNat) :
    wp (readLoop sb u fuel d off tot rem mem) (fun r s' => ∃ g, Reads u s d mem off tot rem r s' g) E s := by
  have hdone : Reads u s d mem off tot 0 (tot, mem, d) s 0 :=
    ⟨rfl, Nat.le_refl 0, rfl, .inl rfl, by simp⟩
  induction fuel generalizing off tot rem mem with
  | zero =>
    obtain rfl : rem = 0 := Nat.le_zero.mp hrem
    exact wp_pure.mpr ⟨0, hdone⟩
  | succ fuel ih =>
    rw [readLoop]
    split
    · next hzero =>
      subst hzero
      exact wp_pure.mpr ⟨0, hdone⟩
    · next hpos =>
      have hne := hd.below off (by omega)
      have hbn : off / BSIZE < MAXFILE := by
        have := hd.size_le
        exact Nat.div_lt_of_lt_mul (by rw [Nat.mul_comm]; omega)
      have hmod := Nat.mod_lt off (by decide : 0 < BSIZE)
      rw [wp_bind, wp_bmap_hit hbn hne]
      dsimp only
      rw [if_neg hne, wp_bind, wp_get]
      obtain ⟨hle, hok, hstop⟩ := Source.good_spec ⟨fun _ => 0, u.ok⟩ tot (min rem (BSIZE - off % BSIZE))
      rw [← Buffer.good] at hle hok hstop
      generalize hm : min rem (BSIZE - off % BSIZE) = m at *
      have hslice : slice (s.blk (slot s.blk d (fileSlot (off / BSIZE)))) (off % BSIZE) (u.good tot m) =
          (List.range (u.good tot m)).map fun k => byteAt s.blk d (off + k) := slice_eq (by omega)
      rw [hslice]
      generalize hg : u.good tot m = g at *
      have hfirst : 0 < g ↔ 0 < rem ∧ u.ok tot = true := by
        constructor
        · exact fun hlt => ⟨by omega, hok 0 hlt⟩
        · rintro ⟨-, hgood⟩
          refine Nat.pos_of_ne_zero fun hzero => ?_
          have hbad : u.ok (tot + g) = false := hstop (by omega)
          rw [hzero, Nat.add_zero, hgood] at hbad
          cases hbad
      split
      · exact wp_pure.mpr ⟨g, rfl, by omega, rfl, .inr rfl, hfirst⟩
      · next hall =>
        obtain rfl : g = m := by omega
        refine (ih (by omega) (by omega) ⟨rfl, Nat.le_refl 0, rfl, .inl rfl, by simp⟩).imp fun r s' h => ?_
        obtain ⟨g', h⟩ := h
        have := h.le
        refine ⟨g + g', h.state, by omega, ?_, ?_, ?_⟩
        · rw [h.mem_eq, List.range_add, List.map_append, store_append, List.map_map, List.length_map,
            List.length_range, Nat.add_assoc]
          simp only [Function.comp_def, Nat.add_assoc]
        · rw [← Nat.add_assoc]
          exact h.ret
        · rw [← hfirst]
          omega

/-- If all of the buffer can be written, the loop stores what the loop into kernel memory
delivers. -/
theorem wp_readLoop_kernel {out : List UInt8} {Q : Nat × Mem × Dinode → Core → Prop} (hok : ∀ k, u.ok k = true)
    (h : wp (Fs.readLoop sb (fun _ => false) fuel d off rem out)
      (fun r s' => Q (r.2.1.length, store mem u.addr r.2.1, r.2.2) s') E s) :
    wp (readLoop sb u fuel d off out.length rem (store mem u.addr out)) Q E s := by
  induction fuel generalizing d off rem out s with
  | zero =>
    rw [Fs.readLoop] at h
    rw [readLoop]
    rw [wp_pure] at h ⊢
    exact h
  | succ fuel ih =>
    rw [Fs.readLoop] at h
    rw [readLoop]
    split at h
    · next hzero =>
      rw [if_pos hzero]
      rw [wp_pure] at h ⊢
      exact h
    · next hpos =>
      rw [if_neg hpos]
      rw [wp_bind] at h ⊢
      refine h.imp fun r s' h => ?_
      obtain ⟨addr, d'⟩ := r
      dsimp only at h ⊢
      split at h
      · next hzero =>
        rw [if_pos hzero]
        rw [wp_pure] at h ⊢
        exact h
      · next hne =>
        rw [if_neg hne]
        rw [wp_bind, wp_get] at h ⊢
        have hall (m : Nat) : u.good out.length m = m := by
          obtain ⟨hle, -, hstop⟩ := Source.good_spec ⟨fun _ => 0, u.ok⟩ out.length m
          refine Nat.le_antisymm hle (Nat.le_of_not_lt fun hlt => ?_)
          exact absurd ((hok _).symm.trans (hstop hlt)) (by decide)
        rw [hall, if_neg (Nat.lt_irrefl _), ← store_append]
        have hrest := ih (by simpa using h)
        rwa [List.length_append, slice, List.length_map, List.length_range] at hrest

theorem wp_readi_kernel {Q : Int32 × Mem × Dinode → Core → Prop} (hok : ∀ k, u.ok k = true)
    (h : wp (Fs.readi sb (fun _ => false) d off n)
      (fun r s' => Q ((UInt32.ofNat r.2.1.length).toInt32, store mem u.addr r.2.1, r.2.2) s') E s) :
    wp (readi sb u d off n mem) Q E s := by
  simp only [Fs.readi] at h
  simp only [readi]
  split at h
  · next hnone =>
    rw [if_pos hnone]
    rw [wp_pure] at h ⊢
    exact h
  · next hsome =>
    rw [if_neg hsome]
    rw [wp_bind] at h ⊢
    refine wp_readLoop_kernel hok (h.imp fun r s' h => ?_)
    rw [wp_pure] at h ⊢
    exact h

/-- How many bytes `readi` is to deliver. -/
def wanted (d : Dinode) (off n : Nat) : Nat :=
  if off > d.size.toNat ∨ (off + n) % UINT < off then 0 else min n (d.size.toNat - off)

/-- `readi` stores the first `g` bytes of those that it is to deliver, and returns `g` or -1. -/
structure Delivers (u : Buffer) (s : Core) (d : Dinode) (mem : Mem) (off n : Nat)
    (r : Int32 × Mem × Dinode) (s' : Core) (g : Nat) : Prop where
  state : s' = s
  le : g ≤ wanted d off n
  mem_eq : r.2.1 = store mem u.addr ((List.range g).map fun k => byteAt s.blk d (off + k))
  ret : r.1 = (UInt32.ofNat g).toInt32 ∨ r.1 = -1
  pos : 0 < g ↔ 0 < wanted d off n ∧ u.ok 0 = true

theorem wp_readi (hd : Filled s.blk d) :
    wp (readi sb u d off n mem) (fun r s' => ∃ g, Delivers u s d mem off n r s' g) E s := by
  simp only [readi]
  split
  · next hnone =>
    have hwanted : wanted d off n = 0 := if_pos hnone
    exact wp_pure.mpr ⟨0, rfl, Nat.zero_le _, rfl, .inl rfl, by simp [hwanted]⟩
  · next hsome =>
    have hcount : (if off + n > d.size.toNat then d.size.toNat - off else n) = wanted d off n := by
      rw [wanted, if_neg hsome]
      split <;> omega
    rw [hcount, wp_bind]
    refine (wp_readLoop hd (Nat.le_refl _) ?_).imp fun r s' h => ?_
    · rw [wanted, if_neg hsome]
      omega
    · obtain ⟨g, h⟩ := h
      refine wp_pure.mpr ⟨g, h.state, h.le, h.mem_eq, h.ret.imp (fun hret => ?_) fun hret => ?_, h.pos⟩
      · rw [hret, Nat.zero_add]
      · rw [hret]
        exact (by decide : (UInt32.ofNat (UINT - 1)).toInt32 = -1)

theorem wanted_le {n : Int32} (hn : 0 ≤ n.toInt) : wanted d off n.toUInt32.toNat ≤ n.toInt.toNat := by
  have htoNat := toNat_toUInt32 n
  rw [if_neg (by omega)] at htoNat
  rw [wanted]
  split <;> omega

/-- A negative count is a large one. -/
theorem wanted_pos {n : Int32} (hoff : off < UINT) (hn : n.toInt < 0) :
    0 < wanted d off n.toUInt32.toNat ↔ (off : Int) < -n.toInt ∧ off < d.size.toNat := by
  have htoNat := toNat_toUInt32 n
  have hlow := n.le_toInt
  rw [if_pos hn] at htoNat
  simp only [UINT] at *
  rw [wanted]
  split <;> simp only [UINT] at * <;> omega

end

/-! ## `fileread` -/

section

variable {sb : Superblock} {s : Core} {f : File} {x : Found} {u : Buffer} {n : Int32} {mem : Mem}

/-- A read of a file with a negative count that `readi` takes for a large one, and that does not
wrap, find the end of the file or fail at the first byte. -/
def Overreads (f : File) (x : Found) (u : Buffer) (n : Int32) : Prop :=
  f.readable = true ∧ f.type = .inode ∧ n.toInt < 0 ∧ (f.off.toNat : Int) < -n.toInt ∧
    f.off.toNat < x.ip.size.toNat ∧ u.ok 0 = true

/-- User memory outside of the first `max n 0` bytes of the buffer stays as it is, and the offset
is advanced by `max n 0` at most. -/
structure Within (u : Buffer) (n : Int32) (off : UInt32) (mem : Mem) (out : Outcome) : Prop where
  mem_eq : ∀ a, (∀ j < n.toInt.toNat, a ≠ (u.addr + j) % UINT64) → out.mem a = mem a
  advance : (out.off - off).toNat ≤ n.toInt.toNat

theorem Within.refl {off : UInt32} {ret : Option Int} : Within u n off mem ⟨ret, off, mem⟩ :=
  ⟨fun _ _ => rfl, by rw [UInt32.sub_self]; exact Nat.zero_le _⟩

theorem within_pipe {off : UInt32} {out : Pipe.Read.Outcome}
    (h : Pipe.Read.piperead x.pipe (fun i => !u.ok i) u.addr n.toInt mem = some out) :
    Within u n off mem ⟨some out.ret, off, out.mem⟩ := by
  refine ⟨fun a ha => ?_, by rw [UInt32.sub_self]; exact Nat.zero_le _⟩
  obtain ⟨waited, -, rfl⟩ := Option.map_eq_some_iff.mp h
  cases waited with
  | killed pi => rfl
  | ready pi =>
    have hlt : n.toInt.toNat < UINT64 := by
      have := n.toInt_lt
      simp only [UINT64]
      omega
    obtain ⟨m, -, -, hstored, hstopped⟩ := Pipe.Read.copyLoop_spec (fun i => !u.ok i) u.addr 0 pi mem hlt
    have hle := hstopped.le
    exact hstored.others a fun j hj => ha j (by omega)

theorem within_device {off : UInt32} {ret : Option Int} :
    Within u n off mem ⟨ret, off, (Console.consoleread (fun i => !u.ok i) u.addr n x.cons x.naps mem).mem⟩ :=
  ⟨fun _ ha => Console.consoleread_others ha, by rw [UInt32.sub_self]; exact Nat.zero_le _⟩

/-- The offset is advanced by what `readi` returns. -/
theorem advance_le {g : Nat} {r : Int32} {off : UInt32} (h : r = (UInt32.ofNat g).toInt32 ∨ r = -1) :
    ((if r > 0 then off + r.toUInt32 else off) - off).toNat ≤ g := by
  split
  · next hpos =>
    obtain rfl | rfl := h
    · rw [UInt32.toUInt32_toInt32, UInt32.add_comm, UInt32.add_sub_cancel, UInt32.toNat_ofNat']
      exact Nat.mod_le ..
    · exact absurd hpos (by decide)
  · rw [UInt32.sub_self]
    exact Nat.zero_le g

theorem within_inode {d' : Dinode} {r : Int32} {mem' : Mem} {s' : Core} {g : Nat} (hover : ¬ Overreads f x u n)
    (hread : f.readable = true) (htype : f.type = .inode)
    (h : Delivers u s x.ip mem f.off.toNat n.toUInt32.toNat (r, mem', d') s' g) :
    Within u n f.off mem ⟨some r.toInt, if r > 0 then f.off + r.toUInt32 else f.off, mem'⟩ := by
  have hg : g ≤ n.toInt.toNat := by
    by_cases hneg : n.toInt < 0
    · -- nothing is delivered
      refine Nat.le_of_not_lt fun hlt => hover ?_
      obtain ⟨hpos, hok⟩ := h.pos.mp (by omega)
      obtain ⟨hoff, hsize⟩ := (wanted_pos f.off.toNat_lt hneg).mp hpos
      exact ⟨hread, htype, hneg, hoff, hsize, hok⟩
    · exact h.le.trans (wanted_le (by omega))
  refine ⟨fun a ha => ?_, (advance_le h.ret).trans hg⟩
  refine (congrFun h.mem_eq a).trans (store_others fun j hj => ?_)
  rw [List.length_map, List.length_range] at hj
  exact ha j (by omega)

theorem wp_fileread_within (htype : f.type ≠ .none) (hfile : f.type = .inode → Filled s.blk x.ip)
    (hover : ¬ Overreads f x u n) (mem : Mem) :
    wp (fileread sb f x u n mem) (fun out _ => Within u n f.off mem out) (fun _ _ => False) s := by
  rw [fileread]
  split
  · exact wp_pure.mpr .refl
  · next hread =>
    have hread : f.readable = true := by simpa using hread
    split
    · split
      · exact wp_pure.mpr .refl
      · next hpipe => exact wp_pure.mpr (within_pipe hpipe)
    · split
      · exact wp_pure.mpr .refl
      · exact wp_pure.mpr within_device
    · next hinode =>
      rw [wp_bind, wp_zoom]
      refine (wp_readi (hfile hinode)).imp fun r s' h => ?_
      obtain ⟨g, h⟩ := h
      exact wp_pure.mpr (within_inode hover hread hinode h)
    · next hnone => exact absurd hnone htype

/-- The first byte of the buffer is stored. -/
theorem wp_fileread_over (hfile : Filled s.blk x.ip) (hover : Overreads f x u n) (mem : Mem) :
    wp (fileread sb f x u n mem)
      (fun out _ => out.mem (u.addr % UINT64) = byteAt s.blk x.ip f.off.toNat) (fun _ _ => False) s := by
  obtain ⟨hread, htype, hneg, hoff, hsize, hok⟩ := hover
  rw [fileread, if_neg (by simp [hread])]
  simp only [htype]
  rw [wp_bind, wp_zoom]
  refine (wp_readi hfile).imp fun r s' h => wp_pure.mpr ?_
  obtain ⟨g, h⟩ := h
  obtain ⟨k, rfl⟩ := Nat.exists_eq_succ_of_ne_zero
    (Nat.pos_iff_ne_zero.mp (h.pos.mpr ⟨(wanted_pos f.off.toNat_lt hneg).mpr ⟨hoff, hsize⟩, hok⟩))
  have hlen : k < UINT64 := by
    have hle := h.le
    have := x.ip.size.toNat_lt
    rw [wanted] at hle
    simp only [UINT64]
    split at hle <;> omega
  refine (congrFun h.mem_eq _).trans ?_
  rw [List.range_succ_eq_map, List.map_cons, store_first (by simpa using hlen), Nat.add_zero]

/-- A read stores no more bytes than it was asked for and does not advance the offset further, for
files, pipes and the console, unless it is a read of a file with a negative count that `readi`
takes for a large one. -/
theorem fileread_within_iff (htype : f.type ≠ .none) (hfile : f.type = .inode → Filled s.blk x.ip) :
    (∀ mem, ∃ out s', fileread sb f x u n mem s = .ok out s' ∧ Within u n f.off mem out) ↔
      ¬ Overreads f x u n := by
  constructor
  · intro h hover
    obtain ⟨out, s', hrun, hwithin⟩ := h fun _ => byteAt s.blk x.ip f.off.toNat + 1
    have hstored := (wp_fileread_over (hfile hover.2.1) hover _).of_ok hrun
    have hneg := hover.2.2.1
    rw [hwithin.mem_eq _ fun j hj => by omega] at hstored
    simp at hstored
  · exact fun hover mem => (wp_fileread_within htype hfile hover mem).returns

end

/-- An open file with the offset 0, the inode of one byte, and a buffer that can be written. -/
def smallFile : File := ⟨.inode, true, 0, 0⟩

def smallFound : Found := ⟨oneBlock 2 1 4, [], ⟨fun _ => 0, 0, 0, 0⟩, []⟩

def smallBuffer : Buffer := ⟨4096, fun _ => true⟩

theorem filled_smallFound : Filled smallCore.blk smallFound.ip :=
  filled_oneBlock (by decide) (by decide) (by decide)

theorem fileread_within_iff_small : ∃ out s',
    fileread small smallFile smallFound smallBuffer 1 (fun _ => 0) smallCore = .ok out s' ∧
      Within smallBuffer 1 0 (fun _ => 0) out := by
  refine (fileread_within_iff (by decide) fun _ => filled_smallFound).mpr (fun hover => ?_) _
  exact absurd hover.2.2.1 (by decide)

/-- `read(fd, buf, -1)` stores the byte of the file, and the offset is advanced. -/
theorem fileread_negative : Filled smallCore.blk smallFound.ip ∧ ∃ out s',
    fileread small smallFile smallFound smallBuffer (-1) (fun _ => 0) smallCore = .ok out s' ∧
      out.ret = some 1 ∧ out.mem 4096 = 65 ∧ out.off = 1 := by
  have hrun : (match fileread small smallFile smallFound smallBuffer (-1) (fun _ => 0) smallCore with
      | .ok out _ => decide (out.ret = some 1 ∧ out.mem 4096 = 65 ∧ out.off = 1)
      | .error _ _ => false) = true := by
    decide +kernel
  refine ⟨filled_smallFound, ?_⟩
  split at hrun
  · next out s' hout => exact ⟨out, s', hout, of_decide_eq_true hrun⟩
  · cases hrun

end Xv6.Fileread
