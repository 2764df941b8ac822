-- SUMMARY: `consoleintr`: what a character does to the input buffer, as a queue of lines and a line that is edited.
import Xv6.Console.Console
import Xv6.Printf.Printf

/-!
# Characters from the console

The buffer has the input that is ready to be read, up to `w`, and then the line that is still
edited, up to `e`. `consoleintr` moves `e` forwards for a character and backwards for an erased
one, and moves `w` up to `e` when the line is complete.
-/

namespace Xv6.Console

open Printf (consputc BACKSPACE)

abbrev CtrlH : UInt8 := 8
abbrev CtrlP : UInt8 := 16
abbrev CtrlU : UInt8 := 21
abbrev delete : UInt8 := 127
abbrev carriageReturn : UInt8 := 13

/-! ## The function -/

/-- The loop of control-U, with the number of its turns if it does not find a newline; what is echoed, and `cons`. -/
def killLoop : Nat → Cons → List UInt8 × Cons
  | 0, cons => ([], cons)
  | fuel + 1, cons =>
    if cons.e ≠ cons.w ∧ cons.buf (Ring.slot (cons.e - 1)) ≠ newline then
      let r := killLoop fuel { cons with e := cons.e - 1 }
      (consputc BACKSPACE ++ r.1, r.2)
    else ([], cons)

/-- The default case, for a character that is stored. -/
def store (c : UInt8) (cons : Cons) : Cons :=
  let cons := { cons with buf := Function.update cons.buf (Ring.slot cons.e) c, e := cons.e + 1 }
  if c = newline ∨ c = CtrlD ∨ cons.e - cons.r = 128 then { cons with w := cons.e } else cons

/-- `consoleintr`: what is echoed, and `cons`. For control-P, the process list is printed. -/
def consoleintr (c : UInt8) (cons : Cons) : List UInt8 × Cons :=
  if c = CtrlP then ([], cons)
  else if c = CtrlU then killLoop (cons.e - cons.w).toNat cons
  else if c = CtrlH ∨ c = delete then
    if cons.e ≠ cons.w then (consputc BACKSPACE, { cons with e := cons.e - 1 }) else ([], cons)
  else if c ≠ 0 ∧ cons.e - cons.r < 128 then
    let c := if c = carriageReturn then newline else c
    (consputc c.toUInt32, store c cons)
  else ([], cons)

/-! ## The line that is edited -/

/-- The input that is ready to be read, and the line that is edited; all that was ever made ready. -/
structure Line where
  committed : List UInt8
  pending : List UInt8
  entered : List UInt8

/-- The line is complete. -/
def Line.commit (l : Line) : Line := ⟨l.committed ++ l.pending, [], l.entered ++ l.pending⟩

/-- A character is appended, if there is room for it. -/
def Line.append (l : Line) (c : UInt8) : Line :=
  if l.committed.length + l.pending.length < INPUT_BUF_SIZE then
    let l := { l with pending := l.pending ++ [c] }
    if c = newline ∨ c = CtrlD ∨ l.committed.length + l.pending.length = INPUT_BUF_SIZE then l.commit else l
  else l

/-- What a character does. -/
def Line.input (l : Line) (c : UInt8) : Line :=
  if c = CtrlP ∨ c = 0 then l
  else if c = CtrlU then { l with pending := [] }
  else if c = CtrlH ∨ c = delete then { l with pending := l.pending.dropLast }
  else l.append (if c = carriageReturn then newline else c)

/-- The buffer has the line in it. A newline is never in the part that is edited, and a full buffer has no
such part. -/
structure Shows (cons : Cons) (l : Line) : Prop where
  holds : Ring.Holds cons.buf cons.r cons.e (l.committed ++ l.pending)
  w_eq : cons.w = cons.r + UInt32.ofNat l.committed.length
  edited : newline ∉ l.pending
  full : (l.committed ++ l.pending).length = INPUT_BUF_SIZE → l.pending = []

section
variable {cons : Cons} {l : Line} {c : UInt8} {fuel : Nat}

theorem Shows.length_le (h : Shows cons l) : l.committed.length + l.pending.length ≤ 128 := by
  rw [← List.length_append]
  exact h.holds.fits

theorem Shows.distance (h : Shows cons l) :
    (cons.e - cons.r).toNat = l.committed.length + l.pending.length := by
  rw [h.holds.distance (by decide), List.length_append]

theorem Shows.pending_eq (h : Shows cons l) : cons.e = cons.w ↔ l.pending = [] := by
  have hle := h.length_le
  rw [h.holds.count, h.w_eq, Ring.add_ofNat_inj, List.length_append, ← List.length_eq_zero_iff]
  · omega
  · rw [List.length_append]
    omega
  · omega

theorem Shows.edit_distance (h : Shows cons l) : (cons.e - cons.w).toNat = l.pending.length := by
  have hle := h.length_le
  have he : cons.e = UInt32.ofNat l.pending.length + cons.w := by
    rw [h.holds.count, h.w_eq, List.length_append, UInt32.ofNat_add, ← UInt32.add_assoc, UInt32.add_comm]
  rw [he, UInt32.add_sub_cancel, UInt32.toNat_ofNat', Nat.mod_eq_of_lt (by omega)]

theorem Shows.unpush (h : Shows cons l) (hpending : l.pending ≠ []) :
    cons.buf (Ring.slot (cons.e - 1)) = l.pending.getLast hpending ∧
      Ring.Holds cons.buf cons.r (cons.e - 1) (l.committed ++ l.pending.dropLast) := by
  have hholds := h.holds
  rw [← List.dropLast_concat_getLast hpending, ← List.append_assoc] at hholds
  exact hholds.unpush

theorem Shows.erase (h : Shows cons l) (hpending : l.pending ≠ []) :
    Shows { cons with e := cons.e - 1 } { l with pending := l.pending.dropLast } := by
  have hle := h.length_le
  have hpos := List.length_pos_iff.mpr hpending
  refine ⟨(h.unpush hpending).2, h.w_eq, fun hmem => h.edited (List.mem_of_mem_dropLast hmem), fun hfull => ?_⟩
  simp only [List.length_append, List.length_dropLast, INPUT_BUF_SIZE] at hfull
  omega

/-- The loop of control-U does not stop before the line that is edited is gone. -/
theorem Shows.killLoop (h : Shows cons l) (hfuel : l.pending.length ≤ fuel) :
    Shows (Console.killLoop fuel cons).2 { l with pending := [] } := by
  induction fuel generalizing cons l with
  | zero =>
    have hnil : l.pending = [] := List.eq_nil_of_length_eq_zero (Nat.le_zero.mp hfuel)
    rw [← hnil]
    exact h
  | succ fuel ih =>
    by_cases hpending : l.pending = []
    · rw [Console.killLoop, if_neg fun hcond => hcond.1 (h.pending_eq.mpr hpending), ← hpending]
      exact h
    · have hlast : cons.buf (Ring.slot (cons.e - 1)) ≠ newline := by
        rw [(h.unpush hpending).1]
        exact fun heq => h.edited (heq ▸ List.getLast_mem hpending)
      rw [Console.killLoop, if_pos ⟨mt h.pending_eq.mp hpending, hlast⟩]
      have hshort : l.pending.dropLast.length ≤ fuel := by
        rw [List.length_dropLast]
        omega
      have hrest := ih (h.erase hpending) hshort
      exact hrest

theorem Shows.store (h : Shows cons l) (hroom : l.committed.length + l.pending.length < INPUT_BUF_SIZE) :
    Shows (Console.store c cons) (l.append c) := by
  have hpush := h.holds.push (by decide) (by rw [List.length_append]; exact hroom) c
  have hfull : cons.e + 1 - cons.r = 128 ↔
      l.committed.length + (l.pending ++ [c]).length = INPUT_BUF_SIZE := by
    rw [← UInt32.toNat_inj, hpush.distance (by decide), List.length_append, List.length_append, List.length_append,
      Nat.add_assoc]
    rfl
  rw [Console.store, Line.append, if_pos hroom]
  simp only [hfull]
  split
  · refine ⟨?_, ?_, List.not_mem_nil, fun _ => rfl⟩
    · simp only [Line.commit, List.append_nil]
      rw [← List.append_assoc]
      exact hpush
    · simp only [Line.commit]
      rw [← List.append_assoc]
      exact hpush.count
  · next hopen =>
    rw [not_or, not_or] at hopen
    refine ⟨?_, h.w_eq, ?_, fun hlen => ?_⟩
    · simp only
      rw [← List.append_assoc]
      exact hpush
    · simp only [List.mem_append, List.mem_singleton, not_or]
      exact ⟨h.edited, fun heq => hopen.1 heq.symm⟩
    · rw [List.length_append] at hlen
      exact absurd hlen hopen.2.2

/-- A character does to the buffer what it does to the line. -/
theorem Shows.consoleintr (h : Shows cons l) : Shows (Console.consoleintr c cons).2 (l.input c) := by
  rw [Console.consoleintr, Line.input]
  by_cases hp : c = CtrlP
  · rw [if_pos hp, if_pos (.inl hp)]
    exact h
  rw [if_neg hp]
  by_cases hnul : c = 0
  · subst hnul
    exact h
  rw [if_neg (not_or.mpr ⟨hp, hnul⟩)]
  by_cases hu : c = CtrlU
  · rw [if_pos hu, if_pos hu, h.edit_distance]
    exact h.killLoop (Nat.le_refl _)
  rw [if_neg hu, if_neg hu]
  by_cases herase : c = CtrlH ∨ c = delete
  · rw [if_pos herase, if_pos herase]
    by_cases hpending : l.pending = []
    · rw [if_neg (not_not.mpr (h.pending_eq.mpr hpending)), hpending, List.dropLast_nil, ← hpending]
      exact h
    · rw [if_pos (mt h.pending_eq.mp hpending)]
      exact h.erase hpending
  rw [if_neg herase, if_neg herase]
  have hroom : cons.e - cons.r < 128 ↔ l.committed.length + l.pending.length < INPUT_BUF_SIZE := by
    rw [UInt32.lt_iff_toNat_lt, h.distance]
    rfl
  by_cases hlt : cons.e - cons.r < 128
  · rw [if_pos ⟨hnul, hlt⟩]
    exact h.store (hroom.mp hlt)
  · rw [if_neg fun hcond => hlt hcond.2, Line.append, if_neg (mt hroom.mpr hlt)]
    exact h

end

end Xv6.Console
