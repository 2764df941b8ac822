-- SUMMARY: `kernel/console.c`: one call of `consoleread`, as its caller sees it.
import Xv6.Base.Ring
import Xv6.Vm.Kmem

/-!
# Console

A call of `consoleread` holds `cons.lock` except while it sleeps. It sleeps whenever it has read
all that was typed, so it may sleep many times, and what it finds then is an input. The copies
to user memory may fail.
-/

namespace Xv6

abbrev INPUT_BUF_SIZE : Nat := 128

instance neZero_inputBufSize : NeZero INPUT_BUF_SIZE := ⟨by decide⟩

/-- `C('D')` -/
abbrev CtrlD : UInt8 := 4

abbrev newline : UInt8 := 10

/-- The variable `cons`. -/
structure Cons where
  buf : Fin INPUT_BUF_SIZE → UInt8
  r : UInt32
  w : UInt32
  e : UInt32

namespace Console

/-- The reader finds nothing to read: was it killed, and what does it find after it slept? -/
structure Nap where
  killed : Bool
  next : Cons

/-- How the wait for input ends. -/
inductive Waited
  | asleep (cons : Cons)
  | killed (cons : Cons)
  | ready (cons : Cons) (naps : List Nap)

/-- The loop that waits for input. -/
def waitLoop (cons : Cons) : List Nap → Waited
  | [] => if cons.r = cons.w then .asleep cons else .ready cons []
  | nap :: naps =>
    if cons.r = cons.w then
      if nap.killed then .killed cons else waitLoop nap.next naps
    else
      .ready cons (nap :: naps)

/-- The outcome of a call: what it returns, unless it sleeps, `cons`, and user memory. -/
structure Outcome where
  ret : Option Int32
  cons : Cons
  mem : Nat → UInt8

/-- `target - n` -/
def consumed (target : UInt32) (n : Int32) : Int32 := (target - n.toUInt32).toInt32

/-- The loop of `consoleread`; `fails i` says whether the copy of byte number `i` to user memory
fails. -/
def readLoop (fails : Nat → Bool) (addr : Nat) (target : UInt32) :
    Nat → Nat → Int32 → Cons → List Nap → (Nat → UInt8) → Outcome
  | 0, _, n, cons, _, mem => ⟨some (consumed target n), cons, mem⟩
  | fuel + 1, i, n, cons, naps, mem =>
    if n > 0 then
      match waitLoop cons naps with
      | .asleep cons => ⟨none, cons, mem⟩
      | .killed cons => ⟨some (-1), cons, mem⟩
      | .ready cons naps =>
        let c := cons.buf (Ring.slot cons.r)
        let cons := { cons with r := cons.r + 1 }
        if c = CtrlD then
          -- a reader that has got something leaves the end of the file for the next call
          let cons := if n.toUInt32 < target then { cons with r := cons.r - 1 } else cons
          ⟨some (consumed target n), cons, mem⟩
        else if fails i then
          ⟨some (consumed target n), cons, mem⟩
        else
          let mem := Function.update mem ((addr + i) % UINT64) c
          if c = newline then
            ⟨some (consumed target (n - 1)), cons, mem⟩
          else
            readLoop fails addr target fuel (i + 1) (n - 1) cons naps mem
    else
      ⟨some (consumed target n), cons, mem⟩

/-- `consoleread(1, addr, n)`. Every turn of the loop takes one from `n`. -/
def consoleread (fails : Nat → Bool) (addr : Nat) (n : Int32) (cons : Cons) (naps : List Nap)
    (mem : Nat → UInt8) : Outcome :=
  readLoop fails addr n.toUInt32 n.toInt.toNat 0 n cons naps mem

/-! ## What it stores -/

variable {fails : Nat → Bool} {addr fuel i a : Nat} {target : UInt32} {n : Int32} {cons : Cons}
  {naps : List Nap} {mem : Nat → UInt8}

/-- A turn stores at most one byte. -/
theorem readLoop_others (h : ∀ j < fuel, a ≠ (addr + (i + j)) % UINT64) :
    (readLoop fails addr target fuel i n cons naps mem).mem a = mem a := by
  induction fuel generalizing i n cons naps mem with
  | zero => rfl
  | succ fuel ih =>
    have hfirst : a ≠ (addr + i) % UINT64 := h 0 (Nat.succ_pos fuel)
    have hrest (j : Nat) (hj : j < fuel) : a ≠ (addr + (i + 1 + j)) % UINT64 := by
      rw [Nat.add_assoc, Nat.add_comm 1 j]
      exact h (j + 1) (Nat.succ_lt_succ hj)
    rw [readLoop]
    split
    · split
      · rfl
      · rfl
      · dsimp only
        split
        · rfl
        · split
          · rfl
          · split
            · exact Function.update_of_ne hfirst ..
            · rw [ih hrest]
              exact Function.update_of_ne hfirst ..
    · rfl

theorem consoleread_others (h : ∀ j < n.toInt.toNat, a ≠ (addr + j) % UINT64) :
    (consoleread fails addr n cons naps mem).mem a = mem a := by
  refine readLoop_others fun j hj => ?_
  rw [Nat.zero_add]
  exact h j hj

end Console

end Xv6
