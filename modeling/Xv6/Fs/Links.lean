-- SUMMARY: The 16-bit link count of one file under `sys_link` and `sys_unlink`: right until it passes 32767.
import Xv6.Base.Transition
import Xv6.Fs.Dir
import Mathlib.Algebra.GroupWithZero.Nat
import Mathlib.Data.Finset.Card

/-!
# The link count of a file

What `link` and `unlink` do to one file that is not a directory: to `nlink`, a C `short` in
`struct dinode`, and to the directory entries that name the file. The entries may be in any
directories. `sys_link` raises the count without looking at it, so only the disk limits how
far it goes.
-/

namespace Xv6.Links

/-- Where a directory entry is: the inode number of the directory, and the name. -/
structure Place where
  dir : Nat
  name : List UInt8
  deriving DecidableEq

/-- A file between system calls. -/
structure File where
  nlink : Int16
  /-- The entries that name the file. -/
  entries : Finset Place
  /-- References from open files. -/
  refs : Nat
  /-- `iput` has truncated the inode, and set its type to 0. -/
  freed : Bool
  deriving DecidableEq

inductive Stop
  | unlinkNlink
  deriving DecidableEq

inductive Act
  /-- `link` of a path to the file, where the parent of the new path exists, the new name is not
  that of another file, and there is room for the entry. -/
  | link (old new : Place)
  /-- `link` where the new path has no parent, or the entry cannot be written. -/
  | linkFails (old : Place)
  | unlink (e : Place)
  /-- A process opens and closes the file. -/
  | hold (e : Place)
  | drop

namespace File

/-- `ip->nlink += k` and `iupdate` -/
def addLinks (f : File) (k : Int16) : File := { f with nlink := f.nlink + k }

/-- `iput` at the end of a system call, which has one reference of its own. -/
def iput (f : File) : File :=
  if f.refs = 0 ∧ f.nlink = 0 then { f with freed := true } else f

/-- The part of `sys_link` after `ip` is found. `dirlink` fails if the name is there. -/
def sysLink (f : File) (new : Place) : File :=
  let f := f.addLinks 1
  if new ∈ f.entries then (f.addLinks (-1)).iput
  else { f with entries := insert new f.entries }.iput

/-- `sys_link` goes to `bad` for another reason. -/
def sysLinkBad (f : File) : File := ((f.addLinks 1).addLinks (-1)).iput

/-- The part of `sys_unlink` after `ip` is found. -/
def sysUnlink (f : File) (e : Place) : Except Stop File :=
  if f.nlink < 1 then .error .unlinkNlink
  else .ok ({ f with entries := f.entries.erase e }.addLinks (-1)).iput

/-- One system call. A path leads to the file if it ends in one of its entries. -/
def next (f : File) : Act → Option (Except Stop File)
  | .link old new =>
    if f.freed = false ∧ old ∈ f.entries then some (.ok (f.sysLink new)) else none
  | .linkFails old =>
    if f.freed = false ∧ old ∈ f.entries then some (.ok f.sysLinkBad) else none
  | .unlink e => if f.freed = false ∧ e ∈ f.entries then some (f.sysUnlink e) else none
  | .hold e =>
    if f.freed = false ∧ e ∈ f.entries then some (.ok { f with refs := f.refs + 1 }) else none
  | .drop => if 0 < f.refs then some (.ok { f with refs := f.refs - 1 }.iput) else none

/-- The count is the number of names, and a freed file has none. -/
structure Counted (f : File) : Prop where
  count : f.nlink.toInt = f.entries.card
  freed : f.freed = true → f.entries = ∅

end File

def step (f : File) (a : Act) (f' : File) : Prop := f.next a = some (.ok f')

/-- A `link` that finds the largest `short` is not made. -/
def Fits (f : File) : Act → Prop
  | .link _ _ => f.nlink ≠ 32767
  | _ => True

/-! ## Runs in which the count does not wrap -/

namespace File

variable {f f' : File} {e new : Place} {k : Int16} {m : Nat}

/-- A sum that fits into a `short`. -/
theorem toInt_add_of_fits {x k : Int16} {n : Int} (h : x.toInt + k.toInt = n) (hlow : -32768 ≤ n)
    (hhigh : n < 32768) : (x + k).toInt = n := by
  rw [Int16.toInt_add, h]
  exact Int.bmod_eq_of_le hlow hhigh

theorem addLinks_undo : (f.addLinks 1).addLinks (-1) = f := by
  have hnlink : f.nlink + 1 + -1 = f.nlink := by
    rw [Int16.add_assoc, Int16.add_right_neg, Int16.add_zero]
  simp only [addLinks, hnlink]

namespace Counted

theorem nlink_le (h : f.Counted) : f.entries.card ≤ 32767 := by
  have := Int16.toInt_lt f.nlink
  have := h.count
  omega

/-- What `iput` frees has no names left. -/
theorem iput (h : f.Counted) : f.iput.Counted := by
  rw [File.iput]
  split
  · next hlast =>
    refine ⟨h.count, fun _ => Finset.card_eq_zero.mp ?_⟩
    have hcount := h.count
    rw [hlast.2] at hcount
    exact Int.ofNat.inj hcount.symm
  · exact h

theorem addEntry (h : f.Counted) (hfreed : f.freed = false) (hnew : new ∉ f.entries)
    (hfits : f.nlink ≠ 32767) :
    ({ f with nlink := f.nlink + 1, entries := insert new f.entries } : File).Counted := by
  have hcard := Finset.card_insert_of_notMem hnew
  have hlt : f.nlink.toInt ≠ 32767 := fun heq => hfits (Int16.toInt_inj.mp heq)
  have hle := h.nlink_le
  have hcount := h.count
  refine ⟨?_, fun htrue => absurd (hfreed.symm.trans htrue) Bool.false_ne_true⟩
  refine toInt_add_of_fits ?_ (by omega) ?_
  · rw [hcount, hcard]
    rfl
  · rw [hcard]
    omega

theorem removeEntry (h : f.Counted) (hfreed : f.freed = false) (he : e ∈ f.entries) :
    ({ f with nlink := f.nlink + -1, entries := f.entries.erase e } : File).Counted := by
  have hcard := Finset.card_erase_add_one he
  have hneg : (-1 : Int16).toInt = -1 := by decide
  have hle := h.nlink_le
  have hcount := h.count
  refine ⟨?_, fun htrue => absurd (hfreed.symm.trans htrue) Bool.false_ne_true⟩
  change (f.nlink + -1).toInt = ((f.entries.erase e).card : Int)
  exact toInt_add_of_fits (by omega) (by omega) (by omega)

theorem sysLink (h : f.Counted) (hfreed : f.freed = false) (hfits : f.nlink ≠ 32767) :
    (f.sysLink new).Counted := by
  rw [File.sysLink]
  split
  · rw [addLinks_undo]
    exact h.iput
  · next hnew => exact (h.addEntry hfreed hnew hfits).iput

theorem sysLinkBad (h : f.Counted) : f.sysLinkBad.Counted := by
  rw [File.sysLinkBad, addLinks_undo]
  exact h.iput

/-- A file that is named has a count that `sys_unlink` accepts. -/
theorem sysUnlink (h : f.Counted) (hfreed : f.freed = false) (he : e ∈ f.entries) :
    ∃ f', f.sysUnlink e = .ok f' ∧ f'.Counted := by
  have hpos : 0 < f.entries.card := Finset.card_pos.mpr ⟨e, he⟩
  have hnlink : ¬ f.nlink < 1 := by
    rw [Int16.lt_iff_toInt_lt, h.count, Int16.toInt_one]
    omega
  exact ⟨_, if_neg hnlink, (h.removeEntry hfreed he).iput⟩

/-- A system call does not panic, and keeps the count right. -/
theorem step {a : Act} {r : Except Stop File} (h : f.Counted) (hfits : Fits f a)
    (hnext : f.next a = some r) : ∃ f', r = .ok f' ∧ f'.Counted := by
  cases a with
  | link old new =>
    obtain ⟨⟨hfreed, _⟩, heq⟩ := Option.ite_none_right_eq_some.mp hnext
    exact ⟨_, (Option.some.inj heq).symm, h.sysLink hfreed hfits⟩
  | linkFails old =>
    obtain ⟨_, heq⟩ := Option.ite_none_right_eq_some.mp hnext
    exact ⟨_, (Option.some.inj heq).symm, h.sysLinkBad⟩
  | unlink e =>
    obtain ⟨⟨hfreed, he⟩, heq⟩ := Option.ite_none_right_eq_some.mp hnext
    obtain ⟨f', hok, hf'⟩ := h.sysUnlink hfreed he
    exact ⟨f', (Option.some.inj heq).symm.trans hok, hf'⟩
  | hold e =>
    obtain ⟨_, heq⟩ := Option.ite_none_right_eq_some.mp hnext
    exact ⟨_, (Option.some.inj heq).symm, ⟨h.count, h.freed⟩⟩
  | drop =>
    obtain ⟨_, heq⟩ := Option.ite_none_right_eq_some.mp hnext
    exact ⟨_, (Option.some.inj heq).symm, Counted.iput ⟨h.count, h.freed⟩⟩

/-- Only `sys_unlink` may panic, and it does not. -/
theorem next_ne_error {a : Act} {stop : Stop} (h : f.Counted) :
    f.next a ≠ some (.error stop) := by
  intro hnext
  cases a with
  | unlink e =>
    obtain ⟨f', heq, _⟩ := h.step (a := .unlink e) trivial hnext
    cases heq
  | _ =>
    obtain ⟨_, heq⟩ := Option.ite_none_right_eq_some.mp hnext
    cases heq

end Counted

end File

/-! ## The file in the file system -/

section
open Fs Prog

variable {sb : Superblock} {s s₀ : State} {ip dp : Ip} {i : Nat} {f : File} {E : Fs.Stop → State → Prop}

/-- A directory has the entry, for inode `i`. -/
def Place.Names (sb : Superblock) (blk : Disk) (i : Nat) (e : Place) : Prop :=
  ∃ nd off, node sb blk e.dir = some nd ∧ nd.type = T_DIR ∧ lookup nd.bytes e.name = some (i, off)

/-- The file as a system call with a reference of its own has it, in the table and on the disk. -/
structure File.Shows (sb : Superblock) (s : State) (ip : Ip) (f : File) : Prop where
  nlink : (s.itable ip).d.nlink = f.nlink
  refs : (s.itable ip).ref = f.refs + 1
  freed : (s.itable ip).d.type = 0 ↔ f.freed = true
  entries : ∀ e, e ∈ f.entries ↔ e.Names sb s.core.blk (s.itable ip).inum

namespace File.Shows

end File.Shows

end

/-! ## One file with many names -/

/-- Names of four letters, sixteen thousand to a directory. -/
def place (k : Nat) : Place where
  dir := 2 + k / 16384
  name := [k / 4096, k / 256, k / 16, k].map fun d => UInt8.ofNat (97 + d % 16)

theorem letter_inj {c d : Nat} (h : UInt8.ofNat (97 + c % 16) = UInt8.ofNat (97 + d % 16)) :
    c % 16 = d % 16 := by
  have hnat := congrArg UInt8.toNat h
  rw [UInt8.toNat_ofNat', UInt8.toNat_ofNat'] at hnat
  omega

theorem place_inj {k m : Nat} (hk : k < 2 ^ 16) (hm : m < 2 ^ 16) (h : place k = place m) :
    k = m := by
  have hname := congrArg Place.name h
  simp only [place, List.map_cons, List.cons.injEq] at hname
  have h₁ := letter_inj hname.1
  have h₂ := letter_inj hname.2.1
  have h₃ := letter_inj hname.2.2.1
  have h₄ := letter_inj hname.2.2.2.1
  omega

/-- The file after `k` links. -/
def linked (k : Nat) : File := ⟨Int16.ofNat (k + 1), (Finset.range (k + 1)).image place, 0, false⟩

theorem place_mem_linked {k m : Nat} (hk : k < 2 ^ 16) (hm : m < 2 ^ 16) :
    place m ∈ (linked k).entries ↔ m ≤ k := by
  constructor
  · intro h
    obtain ⟨j, hj, heq⟩ := Finset.mem_image.mp h
    have hjk := Nat.lt_succ_iff.mp (Finset.mem_range.mp hj)
    rwa [← place_inj (Nat.lt_of_le_of_lt hjk hk) hm heq]
  · intro h
    exact Finset.mem_image_of_mem _ (Finset.mem_range.mpr (Nat.lt_succ_of_le h))

theorem linked_succ {k : Nat} : linked (k + 1) = { linked k with
    nlink := (linked k).nlink + 1, entries := insert (place (k + 1)) (linked k).entries } := by
  have hnlink : Int16.ofNat (k + 1 + 1) = Int16.ofNat (k + 1) + 1 := Int16.ofNat_add _ _
  have hentries : (Finset.range (k + 1 + 1)).image place =
      insert (place (k + 1)) ((Finset.range (k + 1)).image place) := by
    rw [Finset.range_add_one, Finset.image_insert]
  simp only [linked, hnlink, hentries]

theorem next_linked {k : Nat} (hk : k + 1 < 2 ^ 16) :
    (linked k).next (.link (place 0) (place (k + 1))) = some (.ok (linked (k + 1)).iput) := by
  have hold : place 0 ∈ (linked k).entries :=
    (place_mem_linked (by omega) (by decide)).mpr (Nat.zero_le k)
  have hnew : place (k + 1) ∉ (linked k).entries := by
    rw [place_mem_linked (by omega) hk]
    omega
  have hlink : (linked k).sysLink (place (k + 1)) = (linked (k + 1)).iput := by
    rw [linked_succ]
    exact if_neg hnew
  rw [File.next, if_pos ⟨rfl, hold⟩, hlink]

theorem toInt_linked {k : Nat} : (linked k).nlink.toInt = ((k + 1 : Nat) : Int).bmod (2 ^ 16) :=
  Int16.toInt_ofNat

theorem card_linked {k : Nat} (hk : k < 2 ^ 16) : (linked k).entries.card = k + 1 := by
  have hinj : Set.InjOn place (Finset.range (k + 1)) := by
    intro i hi j hj heq
    rw [Finset.coe_range, Set.mem_Iio] at hi hj
    exact place_inj (by omega) (by omega) heq
  rw [linked, Finset.card_image_of_injOn hinj, Finset.card_range]

theorem counted_linked : (linked 0).Counted := by
  refine ⟨?_, nofun⟩
  rw [toInt_linked, card_linked (by decide)]
  decide

/-- A link that does not bring the count to zero. -/
theorem step_linked {k : Nat} (hk : k + 2 < 2 ^ 16) :
    step (linked k) (.link (place 0) (place (k + 1))) (linked (k + 1)) := by
  have hne : (linked (k + 1)).nlink ≠ 0 := by
    intro hzero
    have hint := @toInt_linked (k + 1)
    rw [hzero, Int16.toInt_zero] at hint
    have := Int.dvd_of_bmod_eq_zero hint.symm
    omega
  have hiput : (linked (k + 1)).iput = linked (k + 1) := if_neg fun h => hne h.2
  rw [step, next_linked (by omega), hiput]

theorem linked_run {k : Nat} (hk : k + 1 < 2 ^ 16) : ∃ as, Sys.Run step (linked 0) as (linked k) := by
  induction k with
  | zero => exact ⟨[], .nil⟩
  | succ k ih =>
    obtain ⟨as, hrun⟩ := ih (by omega)
    exact ⟨_, hrun.snoc (step_linked hk)⟩

/-! ## The count of a run -/

/-- As long as no `link` finds the count at 32767, the count is the number of entries after
every call, the next call does not panic, and only a file without entries is freed. -/
theorem nlink_counts_entries {f f' : File} {as : List Act} (h : f.Counted)
    (hrun : Sys.RunWhere step Fits f as f') :
    f'.nlink.toInt = f'.entries.card ∧ (f'.freed = true → f'.entries = ∅) ∧
      ∀ a stop, f'.next a ≠ some (.error stop) := by
  have hf' : f'.Counted := by
    refine hrun.invariant (fun t a u ht hfits hstep => ?_) h
    obtain ⟨_, heq, hu⟩ := ht.step hfits hstep
    cases heq
    exact hu
  exact ⟨hf'.count, hf'.freed, fun a stop => hf'.next_ne_error⟩

/-- A second name, and the first removed. -/
theorem nlink_counts_entries_renamed : ∃ f, Sys.RunWhere step Fits (linked 0)
    [.link (place 0) (place 1), .unlink (place 0)] f ∧ f.nlink.toInt = f.entries.card ∧
      (f.freed = true → f.entries = ∅) ∧ ∀ a stop, f.next a ≠ some (.error stop) := by
  have hlink : Sys.RunWhere step Fits (linked 0) [.link (place 0) (place 1)] (linked 1) :=
    Sys.RunWhere.nil.snoc (by decide : (linked 0).nlink ≠ 32767) (step_linked (by decide))
  have hunlink : step (linked 1) (.unlink (place 0)) ⟨1, {place 1}, 0, false⟩ := by
    rw [step]
    decide
  have hrun := hlink.snoc (show Fits (linked 1) (.unlink (place 0)) from trivial) hunlink
  exact ⟨_, hrun, nlink_counts_entries counted_linked hrun⟩

/-- After 32767 links the count is negative, and `unlink` panics. After 65535 links it is zero,
and the file is freed with 65536 entries. -/
theorem nlink_wraps : (linked 0).Counted ∧
    (∃ as f, Sys.Run step (linked 0) as f ∧ f.nlink.toInt ≠ f.entries.card ∧
      f.next (.unlink (place 0)) = some (.error .unlinkNlink)) ∧
    ∃ as f, Sys.Run step (linked 0) as f ∧ f.freed = true ∧ f.entries.card = 65536 := by
  refine ⟨counted_linked, ?_, ?_⟩
  · obtain ⟨as, hrun⟩ := @linked_run 32767 (by decide)
    have hint : (linked 32767).nlink.toInt = -32768 := by
      rw [toInt_linked]
      decide
    refine ⟨as, _, hrun, ?_, ?_⟩
    · rw [hint, card_linked (by decide)]
      decide
    · have hmem : place 0 ∈ (linked 32767).entries :=
        (place_mem_linked (by decide) (by decide)).mpr (Nat.zero_le _)
      have hneg : (linked 32767).nlink < 1 := by
        rw [Int16.lt_iff_toInt_lt, hint]
        decide
      rw [File.next, if_pos ⟨rfl, hmem⟩, File.sysUnlink, if_pos hneg]
  · obtain ⟨as, hrun⟩ := @linked_run 65534 (by decide)
    have hzero : (linked 65535).nlink = 0 := by
      rw [← Int16.toInt_inj, toInt_linked]
      decide
    have hiput : (linked 65535).iput = { linked 65535 with freed := true } := if_pos ⟨rfl, hzero⟩
    have hlast : step (linked 65534) (.link (place 0) (place 65535)) (linked 65535).iput :=
      next_linked (by decide)
    refine ⟨_, _, hrun.snoc hlast, ?_, ?_⟩
    · rw [hiput]
    · rw [hiput]
      exact card_linked (by decide)

end Xv6.Links
