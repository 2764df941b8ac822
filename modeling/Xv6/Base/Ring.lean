-- SUMMARY: Ring buffers with free-running 32-bit counters are bounded queues, also when the counters wrap.
import Mathlib.Algebra.GroupWithZero.Nat
import Mathlib.Logic.Function.Basic
import Mathlib.Data.Fin.Basic

/-!
# Ring buffers

A buffer of `N` elements with two counters that are never reset: one of the elements taken
out, one of the elements put in. An element is stored at its number modulo `N`. If `N` divides
`2^32`, the position does not jump when a counter wraps, so the part of the buffer between the
counters is a queue.
-/

namespace Ring

variable {α : Type} {N : Nat} [NeZero N]

/-- Where element number `c` is stored. -/
def slot (c : UInt32) : Fin N := Fin.ofNat N c.toNat

/-- The counters have `q` between them. -/
structure Holds (data : Fin N → α) (nread nwrite : UInt32) (q : List α) : Prop where
  fits : q.length ≤ N
  count : nwrite = nread + UInt32.ofNat q.length
  get : ∀ i (h : i < q.length), data (slot (nread + UInt32.ofNat i)) = q[i]

variable {data : Fin N → α} {nread nwrite : UInt32} {q : List α} {a : α}

theorem Holds.nil (data : Fin N → α) (c : UInt32) : Holds data c c [] :=
  ⟨Nat.zero_le N, by simp, (by simp)⟩

theorem slot_add (hN : N ∣ 2 ^ 32) (c : UInt32) (i : Nat) :
    (slot (c + UInt32.ofNat i) : Fin N).val = (c.toNat + i) % N := by
  have htoNat : (c + UInt32.ofNat i).toNat = (c.toNat + i) % 2 ^ 32 := by
    rw [UInt32.toNat_add, UInt32.toNat_ofNat', Nat.add_mod_mod]
  rw [slot, Fin.val_ofNat, htoNat, Nat.mod_mod_of_dvd _ hN]

/-- Elements less than `N` apart are stored at different places. -/
theorem slot_ne (hN : N ∣ 2 ^ 32) (c : UInt32) {i j : Nat} (hij : i < j) (hj : j < i + N) :
    (slot (c + UInt32.ofNat i) : Fin N) ≠ slot (c + UInt32.ofNat j) := by
  intro heq
  have hmod := congrArg Fin.val heq
  rw [slot_add hN, slot_add hN] at hmod
  have hdvd : N ∣ (c.toNat + j) - (c.toNat + i) :=
    Nat.dvd_of_mod_eq_zero (Nat.sub_mod_eq_zero_of_mod_eq hmod.symm)
  exact absurd (Nat.le_of_dvd (by omega) hdvd) (by omega)

theorem add_ofNat_inj (c : UInt32) {i j : Nat} (hi : i < 2 ^ 32) (hj : j < 2 ^ 32) :
    c + UInt32.ofNat i = c + UInt32.ofNat j ↔ i = j := by
  rw [UInt32.add_right_inj, ← UInt32.toNat_inj, UInt32.toNat_ofNat', UInt32.toNat_ofNat',
    Nat.mod_eq_of_lt hi, Nat.mod_eq_of_lt hj]

/-- The difference of the counters, in wrapping arithmetic, is the number of elements. -/
theorem Holds.distance (h : Holds data nread nwrite q) (hlt : N < 2 ^ 32) :
    (nwrite - nread).toNat = q.length := by
  rw [h.count, UInt32.add_comm, UInt32.add_sub_cancel, UInt32.toNat_ofNat',
    Nat.mod_eq_of_lt (Nat.lt_of_le_of_lt h.fits hlt)]

theorem Holds.empty_iff (h : Holds data nread nwrite q) (hlt : N < 2 ^ 32) :
    nread = nwrite ↔ q = [] := by
  have hinj := add_ofNat_inj nread (i := 0) (by decide) (Nat.lt_of_le_of_lt h.fits hlt)
  rw [h.count, ← List.length_eq_zero_iff, eq_comm (a := q.length), ← hinj]
  simp

theorem Holds.full_iff (h : Holds data nread nwrite q) (hlt : N < 2 ^ 32) :
    nwrite = nread + UInt32.ofNat N ↔ q.length = N := by
  rw [h.count]
  exact add_ofNat_inj nread (Nat.lt_of_le_of_lt h.fits hlt) hlt

theorem Holds.push (h : Holds data nread nwrite q) (hN : N ∣ 2 ^ 32) (hq : q.length < N) (a : α) :
    Holds (Function.update data (slot nwrite) a) nread (nwrite + 1) (q ++ [a]) := by
  refine ⟨by simpa [Nat.succ_le_iff] using hq, ?_, fun i hi => ?_⟩
  · rw [h.count, List.length_append, UInt32.add_assoc]
    simp [UInt32.ofNat_add]
  · rw [List.length_append, List.length_singleton] at hi
    by_cases hlast : i < q.length
    · have hne : (slot (nread + UInt32.ofNat i) : Fin N) ≠ slot nwrite :=
        h.count ▸ slot_ne hN nread hlast (by omega)
      rw [Function.update_of_ne hne, h.get i hlast, List.getElem_append_left hlast]
    · obtain rfl : i = q.length := by omega
      rw [← h.count, Function.update_self, List.getElem_concat_length rfl]

theorem Holds.pop (h : Holds data nread nwrite (a :: q)) :
    data (slot nread) = a ∧ Holds data (nread + 1) nwrite q := by
  have hsucc (i : Nat) : nread + 1 + UInt32.ofNat i = nread + UInt32.ofNat (i + 1) := by
    rw [UInt32.add_assoc, UInt32.ofNat_add, UInt32.add_comm 1]
    rfl
  refine ⟨by simpa using h.get 0 (Nat.zero_lt_succ _), Nat.le_of_succ_le h.fits, ?_, fun i hi => ?_⟩
  · rw [h.count, List.length_cons, hsucc]
  · rw [hsucc, h.get (i + 1) (Nat.succ_lt_succ hi), List.getElem_cons_succ]

/-- The last element is taken back. -/
theorem Holds.unpush (h : Holds data nread nwrite (q ++ [a])) :
    data (slot (nwrite - 1)) = a ∧ Holds data nread (nwrite - 1) q := by
  have hlen : (q ++ [a]).length = q.length + 1 := List.length_append
  have hprev : nwrite - 1 = nread + UInt32.ofNat q.length := by
    rw [h.count, hlen, UInt32.ofNat_add, ← UInt32.add_assoc]
    exact UInt32.add_sub_cancel _ _
  have hlast := h.get q.length (by omega)
  refine ⟨?_, Nat.le_of_succ_le (hlen.symm.trans_le h.fits), hprev, fun i hi => ?_⟩
  · rw [hprev, hlast, List.getElem_concat_length rfl]
  · rw [h.get i (by omega), List.getElem_append_left hi]

end Ring

/-! ## Rings without counters of a fixed width -/

namespace Ring

variable {α : Type} {N r : Nat} {ring : Nat → α} {q : List α} {a : α}

/-- The elements of `q` have the numbers from `r` on, and are stored at their numbers modulo `N`. -/
structure Queue (N : Nat) (ring : Nat → α) (r : Nat) (q : List α) : Prop where
  fits : q.length ≤ N
  get : ∀ i (h : i < q.length), ring ((r + i) % N) = q[i]

theorem Queue.nil : Queue N ring r [] := ⟨Nat.zero_le N, fun _ h => absurd h (Nat.not_lt_zero _)⟩

/-- The next place to be written holds none of the elements. -/
theorem Queue.fresh (hq : q.length < N) {i : Nat} (hi : i < q.length) :
    (r + i) % N ≠ (r + q.length) % N := by
  intro hmod
  have hdvd : N ∣ (r + q.length) - (r + i) :=
    Nat.dvd_of_mod_eq_zero (Nat.sub_mod_eq_zero_of_mod_eq hmod.symm)
  exact absurd (Nat.le_of_dvd (by omega) hdvd) (by omega)

theorem Queue.write (h : Queue N ring r q) (hq : q.length < N) (a : α) :
    Queue N (Function.update ring ((r + q.length) % N) a) r q := by
  refine ⟨h.fits, fun i hi => ?_⟩
  rw [Function.update_of_ne (Queue.fresh hq hi), h.get i hi]

theorem Queue.snoc (h : Queue N ring r q) (hq : q.length < N) (ha : ring ((r + q.length) % N) = a) :
    Queue N ring r (q ++ [a]) := by
  refine ⟨by rw [List.length_append]; exact hq, fun i hi => ?_⟩
  rw [List.length_append, List.length_singleton] at hi
  by_cases hlast : i < q.length
  · rw [h.get i hlast, List.getElem_append_left hlast]
  · obtain rfl : i = q.length := by omega
    rw [ha, List.getElem_concat_length rfl]

theorem Queue.cons (h : Queue N ring r (a :: q)) : ring (r % N) = a ∧ Queue N ring (r + 1) q := by
  refine ⟨h.get 0 (Nat.zero_lt_succ _), Nat.le_of_succ_le h.fits, fun i hi => ?_⟩
  have hnext := h.get (i + 1) (Nat.succ_lt_succ hi)
  rwa [List.getElem_cons_succ, Nat.add_comm i 1, ← Nat.add_assoc] at hnext

/-! ## Counters of 16 bits -/

theorem toNat_mod (hN : N ∣ 2 ^ 16) (c : Nat) : (UInt16.ofNat c).toNat % N = c % N := by
  rw [UInt16.toNat_ofNat', Nat.mod_mod_of_dvd _ hN]

theorem succ_count (c : Nat) : UInt16.ofNat c + 1 = UInt16.ofNat (c + 1) :=
  (UInt16.ofNat_add c 1).symm

end Ring
