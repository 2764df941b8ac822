-- SUMMARY: `copyinstr` and pages that are reserved but not mapped: when it agrees with `copyin`, and a string it does not find.
import Xv6.Vm.Copies

/-!
# String arguments and lazy allocation

`copyin` faults in a page that `sbrk` has only reserved. `copyinstr` looks the page up and gives
up when it is not mapped, although the program would read zeros there, and so the end of the
string. The two agree unless the scan comes to such a page.
-/

namespace Xv6

open Prog Radix

variable {G : Nat → Prop} {k : Kmem} {p : Proc} {srcva max : Nat} {s : List UInt8}

/-- The string at `srcva`, as `copyin` would copy it with its null byte. -/
def Fetches (k : Kmem) (p : Proc) (srcva max : Nat) (s : List UInt8) : Prop :=
  s.length < max ∧ 0 ∉ s ∧ ∃ p' k', copyin p srcva (s.length + 1) k = .ok (p', some (s ++ [0])) k'

theorem canAccess_of_userByte {a : Nat} (h : userByte k p a ≠ none) : CanAccess false p a := by
  unfold userByte at h
  by_cases ha : a < MAXVA
  · rw [if_pos ha] at h
    refine ⟨ha, ?_⟩
    cases hget : p.pagetable.get (a / PGSIZE) with
    | none =>
      rw [hget] at h
      exact by_contra fun hge => h (if_neg hge)
    | some e =>
      rw [hget] at h
      exact ⟨by_contra fun hu => h (if_neg hu), fun hw => by cases hw⟩
  · exact absurd (if_neg ha) h

theorem userByte_reserved {a : Nat} (h : Reserved p a) : userByte k p a = some 0 := by
  obtain ⟨ha, hget, hsz⟩ := h
  rw [userByte, if_pos ha, hget]
  exact if_pos hsz

/-- A string and its null byte, byte by byte. -/
theorem isString_iff : IsString k p srcva max [] s ↔
    s.length < max ∧ 0 ∉ s ∧ ∀ i < s.length + 1, userByte k p (srcva + i) = (s ++ [0])[i]? := by
  constructor
  · rintro ⟨_, rfl, hlen, hnul, hbyte⟩
    refine ⟨hlen, fun hmem => ?_, fun i hi => ?_⟩
    · obtain ⟨i, hi⟩ := List.mem_iff_getElem?.mp hmem
      exact (hbyte i (List.getElem?_eq_some_iff.mp hi).1).2 hi
    · obtain hlt | rfl := Nat.lt_succ_iff_lt_or_eq.mp hi
      · rw [List.getElem?_append_left hlt]
        exact (hbyte i hlt).1
      · rw [List.getElem?_concat_length]
        exact hnul
  · rintro ⟨hlen, hne, hbyte⟩
    refine ⟨s, rfl, hlen, ?_, fun i hi => ⟨?_, fun heq => hne (List.mem_of_getElem? heq)⟩⟩
    · rw [hbyte _ (Nat.lt_succ_self _), List.getElem?_concat_length]
    · rw [hbyte i (Nat.lt_succ_of_lt hi), List.getElem?_append_left hi]

/-- With enough memory `copyin` copies exactly the strings that are there. -/
theorem fetches_iff (h : Owns G k p) (hfails : k.fails = [])
    (hroom : 3 * (max / PGSIZE + 2) ≤ k.freelist.length) :
    Fetches k p srcva max s ↔ IsString k p srcva max [] s := by
  have hwp : wp (copyin p srcva (s.length + 1))
      (fun r k' => CopiedIn G k p srcva (s.length + 1) [] k' r.1 r.2) (fun _ _ => False) k := wp_copyin_view h
  rw [isString_iff]
  refine and_congr_right fun hlen => and_congr_right fun hne => ⟨?_, fun hbyte => ?_⟩
  · rintro ⟨p', k', hrun⟩
    obtain ⟨_, rfl, -, hbyte⟩ := (hwp.of_ok hrun).bytes _ rfl
    exact hbyte
  · obtain ⟨⟨p', r⟩, k', hrun, hin⟩ := hwp.returns
    have hfits : 3 * touched srcva (s.length + 1) ≤ k.freelist.length := by
      have htouched := touched_le srcva (s.length + 1)
      have hdiv : (s.length + 1) / PGSIZE ≤ max / PGSIZE := Nat.div_le_div_right hlen
      omega
    have hsome : r ≠ none := by
      refine hin.enough hfails hfits fun a hlo hhi => canAccess_of_userByte (k := k) ?_
      obtain ⟨i, rfl⟩ := Nat.exists_eq_add_of_le hlo
      have hi : i < (s ++ [0]).length := by
        rw [List.length_append, List.length_singleton]
        omega
      rw [hbyte i (by omega), List.getElem?_eq_getElem hi]
      exact Option.some_ne_none _
    obtain ⟨bs, rfl⟩ := Option.ne_none_iff_exists'.mp hsome
    obtain ⟨_, rfl, hnew, hsame⟩ := hin.bytes bs rfl
    have hbs : bs = s ++ [0] := by
      refine List.ext_getElem? fun i => ?_
      by_cases hi : i < s.length + 1
      · rw [← hsame i hi, hbyte i hi]
      · rw [List.getElem?_eq_none (by omega), List.getElem?_eq_none (by simp; omega)]
    exact ⟨p', k', hbs ▸ hrun⟩

/-- There is one string at an address at most. -/
theorem IsString.unique {s' : List UInt8} (h : IsString k p srcva max [] s)
    (h' : IsString k p srcva max [] s') : s = s' := by
  obtain ⟨-, hne, hbyte⟩ := isString_iff.mp h
  obtain ⟨-, hne', hbyte'⟩ := isString_iff.mp h'
  -- each ends at the first null byte
  have hle {s s' : List UInt8} (hne : 0 ∉ s)
      (hbyte : ∀ i < s.length + 1, userByte k p (srcva + i) = (s ++ [0])[i]?)
      (hbyte' : ∀ i < s'.length + 1, userByte k p (srcva + i) = (s' ++ [0])[i]?) : s.length ≤ s'.length := by
    by_contra hlt
    have hnul := hbyte' s'.length (Nat.lt_succ_self _)
    rw [hbyte _ (by omega), List.getElem?_concat_length, List.getElem?_append_left (by omega)] at hnul
    exact hne (List.mem_of_getElem? hnul)
  have hlen : s.length = s'.length := (hle hne hbyte hbyte').antisymm (hle hne' hbyte' hbyte)
  refine List.ext_getElem? fun i => ?_
  by_cases hi : i < s.length
  · have hsame := (hbyte i (by omega)).symm.trans (hbyte' i (by omega))
    rwa [List.getElem?_append_left hi, List.getElem?_append_left (by omega)] at hsame
  · rw [List.getElem?_eq_none (by omega), List.getElem?_eq_none (by omega)]

/-- `copyinstr` finds the string at an address if all of it is mapped. -/
theorem copyinstr_eq_iff : copyinstr p.pagetable srcva max k = .ok (some s) k ↔
    IsString k p srcva max [] s ∧ ∀ i ≤ s.length, ¬ Reserved p (srcva + i) := by
  have hwp : wp (copyinstr p.pagetable srcva max)
      (fun r k' => k' = k ∧ CopiedStr k p srcva max [] r) (fun _ _ => False) k := wp_copyinstr_view
  obtain ⟨r, k', hrun, rfl, hstr⟩ := hwp.returns
  rw [hrun]
  constructor
  · intro heq
    cases heq
    obtain ⟨_, rfl, hnew⟩ := hstr.found s rfl
    exact hnew
  · rintro ⟨hs, hres⟩
    cases r with
    | none =>
      obtain ⟨i, hi, hbad⟩ := hstr.missed rfl s hs
      exact absurd hbad (hres i hi)
    | some s' =>
      obtain ⟨_, rfl, hs', -⟩ := hstr.found s' rfl
      rw [hs'.unique hs]

/-- A reserved page ends every string that gets to it. -/
theorem isString_reserved {j : Nat} (hj : j < max)
    (hbefore : ∀ i < j, ∃ b, b ≠ 0 ∧ userByte k p (srcva + i) = some b) (hres : Reserved p (srcva + j)) :
    ∃ s, s.length = j ∧ IsString k p srcva max [] s := by
  set s := (List.range j).map fun i => (userByte k p (srcva + i)).getD 0
  have hlen : s.length = j := by rw [List.length_map, List.length_range]
  refine ⟨s, hlen, s, rfl, by omega, ?_, fun i hi => ?_⟩
  · rw [hlen]
    exact userByte_reserved hres
  · rw [hlen] at hi
    obtain ⟨b, hb, hbyte⟩ := hbefore i hi
    rw [List.getElem?_map, List.getElem?_range hi, Option.map_some, hbyte, Option.getD_some]
    exact ⟨rfl, fun heq => hb (Option.some.inj heq)⟩

/-- With enough memory, `copyinstr` finds what `copyin` would copy unless the bytes before the first
null byte lead to a page that is only reserved. -/
theorem copyinstr_agrees_iff (h : Pages k.IsPage k p) (hsz : p.sz ≤ TRAPFRAME) (hfails : k.fails = [])
    (hroom : 3 * (max / PGSIZE + 2) ≤ k.freelist.length) :
    (∀ s, copyinstr p.pagetable srcva max k = .ok (some s) k ↔ Fetches k p srcva max s) ↔
      ∀ j < max, (∀ i < j, ∃ b, b ≠ 0 ∧ userByte k p (srcva + i) = some b) → ¬ Reserved p (srcva + j) := by
  simp only [copyinstr_eq_iff, fetches_iff (h.owns hsz) hfails hroom]
  constructor
  · intro hagree j hj hbefore hres
    obtain ⟨s, rfl, hs⟩ := isString_reserved hj hbefore hres
    exact ((hagree s).mpr hs).2 _ le_rfl hres
  · intro hcond s
    refine and_iff_left_of_imp fun hs i hi hres => ?_
    obtain ⟨_, rfl, hlen, -, hbyte⟩ := hs
    have hbefore (i : Nat) (hi : i < s.length) : ∃ b, b ≠ 0 ∧ userByte k p (srcva + i) = some b := by
      obtain ⟨hsame, hne⟩ := hbyte i hi
      rw [List.getElem?_eq_getElem hi] at hsame hne
      exact ⟨s[i], fun heq => hne (congrArg some heq), hsame⟩
    exact hcond i (by omega) (fun j hj => hbefore j (by omega)) hres

/-- A page that was mapped at once, and then written: both find the string `AB` there. -/
theorem copyinstr_agrees_eager : ∃ k p, Pages k.IsPage k p ∧ p.sz ≤ TRAPFRAME ∧
    (copyinstr p.pagetable 0 8 k = .ok (some [65, 66]) k ↔ Fetches k p 0 8 [65, 66]) ∧
    copyinstr p.pagetable 0 8 k = .ok (some [65, 66]) k := by
  obtain ⟨k, p, howns, hfails, hcheck⟩ := @exists_owns []
    (fun k p => decide ((p.pagetable.get 0).isSome = true ∧ 6 ≤ k.freelist.length ∧
      ∀ i < [65, 66].length + 1, userByte k p (0 + i) = ([65, 66] ++ [0])[i]?))
    [(.sbrk 0 8192 1, []), (.copyout 0 0 [65, 66, 0], [])] (by decide +kernel)
  obtain ⟨hmapped, hroom, hbyte⟩ := of_decide_eq_true hcheck
  have hzero (j : Nat) (hj : j < 8) : ¬ Reserved p (0 + j) := by
    rintro ⟨-, hget, -⟩
    rw [Nat.zero_add, Nat.div_eq_of_lt (by simp only [PGSIZE]; omega)] at hget
    rw [hget] at hmapped
    cases hmapped
  have hagree := (copyinstr_agrees_iff howns.pages howns.proc.sz hfails hroom).mpr fun j hj _ => hzero j hj
  have hstr : IsString k p 0 8 [] [65, 66] := isString_iff.mpr ⟨by decide, by decide, hbyte⟩
  refine ⟨k, p, howns.pages, howns.proc.sz, hagree [65, 66], copyinstr_eq_iff.mpr ⟨hstr, fun i hi => hzero i ?_⟩⟩
  exact Nat.lt_of_le_of_lt hi (by decide)

/-- A page that was reserved by a lazy `sbrk`: `copyin` reads a null byte there, and `copyinstr`
does not find the empty string. -/
theorem copyinstr_misses_lazy : ∃ k p, Owns k.IsPage k p ∧ k.fails = [] ∧ 6 ≤ k.freelist.length ∧
    copyinstr p.pagetable 0 8 k = .ok none k ∧ ∃ p' k', copyin p 0 1 k = .ok (p', some [0]) k' := by
  obtain ⟨k, p, howns, hfails, hsz, hzero, -, hroom⟩ := exists_lazy
  have hres : Reserved p 0 := ⟨by decide, hzero, by rw [hsz]; decide⟩
  have hempty : IsString k p 0 8 [] [] := ⟨[], rfl, by decide, userByte_reserved hres, fun i hi => by cases hi⟩
  obtain ⟨-, -, hcopy⟩ := (fetches_iff howns hfails hroom).mpr hempty
  have hwp : wp (copyinstr p.pagetable 0 8)
      (fun r k' => k' = k ∧ CopiedStr k p 0 8 [] r) (fun _ _ => False) k := wp_copyinstr_view
  obtain ⟨r, k', hrun, rfl, hstr⟩ := hwp.returns
  cases r with
  | none => exact ⟨k', p, howns, hfails, hroom, hrun, hcopy⟩
  | some s =>
    obtain ⟨_, rfl, hs, hmapped⟩ := hstr.found s rfl
    exact absurd hres (hmapped 0 (Nat.zero_le _))

end Xv6
