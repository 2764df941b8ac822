-- SUMMARY: The loop of grep over the reads: which lines it sees, and that the sizes of the reads do not matter.
import Xv6.User.Grep

/-!
# The lines that `grep` sees

`grep` (`user/grep.c`) reads into a buffer of 1024 bytes behind the part of a line that it still
has, and puts a NUL at the end. It then looks for newlines with `strchr`, which does not look
beyond a NUL, writes the lines that match, and moves the rest to the start of the buffer. The
loop ends when `read` returns 0: at the end of the file, but also when the buffer is full, since
`grep` then asks for 0 bytes.

The bytes of the buffer between `buf` and `buf + m` are a list. The bytes behind it are not used
before they are written again.
-/

namespace Xv6.Grep

def newline : UInt8 := 10

/-- `sizeof(buf)`. -/
def sizeofBuf : Nat := 1024

/-! ## The functions -/

/-- `strchr` in a string that ends at the first NUL, or with the list. -/
def strchr : List UInt8 → UInt8 → Option Nat
  | [], _ => none
  | x :: s, c => if x = 0 then none else if x = c then some 0 else (strchr s c).map (· + 1)

/-- The loop over the newlines, for the bytes from `p` on: what is written, and the bytes behind the last
newline. -/
def scan (pattern : List UInt8) : Nat → List UInt8 → List UInt8 × List UInt8
  | 0, p => ([], p)
  | fuel + 1, p =>
    match strchr p newline with
    | none => ([], p)
    | some q =>
      let r := scan pattern fuel (p.drop (q + 1))
      -- the line is a string of its own, since the newline is overwritten for the call of `match`
      (if matchText pattern (p.take q) then p.take (q + 1) ++ r.1 else r.1, r.2)

/-- `read` from a file with the bytes `input`, which delivers at least one byte if it can, and `want` bytes if it
can: the bytes that are read, and those that are left. -/
def read (want n : Nat) (input : List UInt8) : List UInt8 × List UInt8 :=
  let k := min n (max 1 want)
  (input.take k, input.drop k)

/-- The loop of `grep`. The read in turn `t` delivers `want t` bytes if it can. -/
def grepLoop (pattern : List UInt8) (want : Nat → Nat) : Nat → Nat → List UInt8 → List UInt8 → Option (List UInt8)
  | 0, _, _, _ => none
  | fuel + 1, t, buf, input =>
    let (piece, input) := read (want t) (sizeofBuf - buf.length - 1) input
    if piece.length > 0 then
      let (out, rest) := scan pattern (buf.length + piece.length) (buf ++ piece)
      (grepLoop pattern want fuel (t + 1) rest input).map (out ++ ·)
    else some []

/-- `grep`: what it writes. Every turn reads at least one byte. -/
def grep (pattern : List UInt8) (want : Nat → Nat) (input : List UInt8) : Option (List UInt8) :=
  grepLoop pattern want (input.length + 1) 0 [] input

/-! ## Lines -/

/-- The lines of a text, each with its newline; the last one may have none. -/
def lines : List UInt8 → List (List UInt8)
  | [] => []
  | x :: s =>
    if x = newline then [x] :: lines s
    else
      match lines s with
      | [] => [[x]]
      | l :: ls => (x :: l) :: ls

/-- The line without its newline. -/
def body (l : List UInt8) : List UInt8 := l.takeWhile (· ≠ newline)

/-- A line that `grep` can find in its buffer: it has a newline, no NUL, and fits. -/
def Fits (l : List UInt8) : Prop := l.getLast? = some newline ∧ 0 ∉ l ∧ l.length < sizeofBuf

instance : DecidablePred Fits := fun _ => inferInstanceAs (Decidable (_ ∧ _ ∧ _))

/-- The lines that match, one after the other. -/
def matching (pattern : List UInt8) (ls : List (List UInt8)) : List UInt8 :=
  (ls.filter fun l => matchText pattern (body l)).flatten

/-- The lines in front of the first one that does not fit. -/
def seen (input : List UInt8) : List (List UInt8) := (lines input).takeWhile (Fits ·)

/-- The first line that does not fit, and all lines behind it. -/
def unseen (input : List UInt8) : List (List UInt8) := (lines input).dropWhile (Fits ·)

section
variable {pattern s rest l : List UInt8} {ls : List (List UInt8)} {c : UInt8} {q fuel t : Nat}

theorem lines_append (h : newline ∉ s) : lines (s ++ newline :: rest) = (s ++ [newline]) :: lines rest := by
  induction s with
  | nil => exact if_pos rfl
  | cons x s ih =>
    rw [List.mem_cons, not_or] at h
    rw [List.cons_append, lines, if_neg (Ne.symm h.1), ih h.2]
    rfl

theorem lines_of_notMem (h : newline ∉ s) (hs : s ≠ []) : lines s = [s] := by
  induction s with
  | nil => exact absurd rfl hs
  | cons x s ih =>
    rw [List.mem_cons, not_or] at h
    rw [lines, if_neg (Ne.symm h.1)]
    by_cases hnil : s = []
    · rw [hnil]
      rfl
    · rw [ih h.2 hnil]

theorem ne_nil_of_mem_lines (h : l ∈ lines s) : l ≠ [] := by
  fun_induction lines s with
  | case1 => exact absurd h List.not_mem_nil
  | case2 s ih =>
    rcases List.mem_cons.mp h with rfl | h
    · exact List.cons_ne_nil _ _
    · exact ih h
  | case3 x s hx hnil ih =>
    rw [List.mem_singleton.mp h]
    exact List.cons_ne_nil _ _
  | case4 x s hx l' ls' hcons ih =>
    rcases List.mem_cons.mp h with rfl | h
    · exact List.cons_ne_nil _ _
    · exact ih (hcons ▸ List.mem_cons_of_mem l' h)

/-! ## `strchr` -/

theorem strchr_append_mem (h : c ∉ s) (hnul : 0 ∉ s) (hc : c ≠ 0) : strchr (s ++ c :: rest) c = some s.length := by
  induction s with
  | nil => rw [List.nil_append, strchr, if_neg hc, if_pos rfl, List.length_nil]
  | cons x s ih =>
    rw [List.mem_cons, not_or] at h hnul
    rw [List.cons_append, strchr, if_neg (Ne.symm hnul.1), if_neg (Ne.symm h.1), ih h.2 hnul.2]
    rfl

/-- What `strchr` has found. -/
theorem strchr_eq_some (h : strchr s c = some q) :
    ∃ before rest, s = before ++ c :: rest ∧ before.length = q ∧ c ∉ before ∧ 0 ∉ before ∧ c ≠ 0 := by
  induction s generalizing q with
  | nil => cases h
  | cons x s ih =>
    rw [strchr] at h
    split at h
    · cases h
    split at h
    · next hx hc =>
      obtain rfl := Option.some.inj h
      exact ⟨[], s, by rw [hc]; rfl, rfl, List.not_mem_nil, List.not_mem_nil, hc ▸ hx⟩
    · next hx hc =>
      obtain ⟨q, hq, rfl⟩ := Option.map_eq_some_iff.mp h
      obtain ⟨before, rest, rfl, rfl, hmem, hnul, hne⟩ := ih hq
      refine ⟨x :: before, rest, rfl, rfl, ?_, ?_, hne⟩
      · exact fun h => (List.mem_cons.mp h).elim (fun h => hc h.symm) hmem
      · exact fun h => (List.mem_cons.mp h).elim (fun h => hx h.symm) hnul

/-- The bytes behind the place that `strchr` has found do not matter. -/
theorem strchr_of_append (h : strchr (s ++ rest) c = some q) (hq : q < s.length) : strchr s c = some q := by
  obtain ⟨before, rest', heq, rfl, hmem, hnul, hc⟩ := strchr_eq_some h
  have hfound : before ++ [c] <+: s ++ rest := ⟨rest', by rw [heq, List.append_assoc]; rfl⟩
  have hprefix : before ++ [c] <+: s := by
    refine List.prefix_of_prefix_length_le hfound (List.prefix_append s rest) ?_
    rw [List.length_append, List.length_singleton]
    exact hq
  obtain ⟨rest'', rfl⟩ := hprefix
  rw [List.append_assoc]
  exact strchr_append_mem hmem hnul hc

/-! ## The loops -/

/-- What `grep` writes for a text, whatever the reads are. -/
def written (pattern s : List UInt8) : List UInt8 := matching pattern (seen s)

theorem matching_cons : matching pattern (l :: ls) =
    (if matchText pattern (body l) then l else []) ++ matching pattern ls := by
  rw [matching, List.filter_cons]
  split <;> rfl

theorem body_append (hmem : newline ∉ s) : body (s ++ newline :: rest) = s := by
  rw [body, List.takeWhile_append_of_pos, List.takeWhile_cons_of_neg (by simp), List.append_nil]
  intro x hx
  exact decide_eq_true fun h => hmem (h ▸ hx)

theorem fits_append_iff : Fits (s ++ [newline]) ↔ 0 ∉ s ∧ s.length + 1 < sizeofBuf := by
  rw [Fits, List.getLast?_concat, List.mem_append, List.length_append, not_or]
  constructor
  · exact fun h => ⟨h.2.1.1, h.2.2⟩
  · exact fun h => ⟨rfl, ⟨h.1, by decide⟩, h.2⟩

theorem written_append (hmem : newline ∉ s) (hfits : Fits (s ++ [newline])) :
    written pattern (s ++ newline :: rest) =
      (if matchText pattern s then s ++ [newline] else []) ++ written pattern rest := by
  rw [written, seen, lines_append hmem, List.takeWhile_cons, if_pos (decide_eq_true hfits), matching_cons,
    body_append hmem]
  rfl

/-- Nothing is written if `strchr` does not find a newline in the first 1023 bytes. -/
theorem written_of_strchr (h : ∀ q, q + 1 < sizeofBuf → strchr s newline ≠ some q) : written pattern s = [] := by
  have hseen : seen s = [] := by
    by_cases hmem : newline ∈ s
    · obtain ⟨before, rest, rfl, hbefore⟩ := List.eq_append_cons_of_mem hmem
      rw [seen, lines_append hbefore, List.takeWhile_cons_of_neg]
      intro hfits
      obtain ⟨hnul, hlen⟩ := fits_append_iff.mp (of_decide_eq_true hfits)
      exact h _ hlen (strchr_append_mem hbefore hnul (by decide))
    · by_cases hnil : s = []
      · rw [hnil]
        rfl
      · rw [seen, lines_of_notMem hmem hnil, List.takeWhile_cons_of_neg]
        intro hfits
        exact hmem (List.mem_of_getLast? (of_decide_eq_true hfits).1)
  rw [written, hseen]
  rfl

theorem written_scan (hlen : s.length < sizeofBuf) :
    written pattern (s ++ rest) = (scan pattern fuel s).1 ++ written pattern ((scan pattern fuel s).2 ++ rest) := by
  induction fuel generalizing s with
  | zero => rfl
  | succ fuel ih =>
    rw [scan]
    split
    · rfl
    · next q hq =>
      obtain ⟨before, behind, rfl, rfl, hmem, hnul, -⟩ := strchr_eq_some hq
      have hdrop : (before ++ newline :: behind).drop (before.length + 1) = behind := by
        rw [List.append_cons, List.drop_left' (by simp)]
      have htake : (before ++ newline :: behind).take (before.length + 1) = before ++ [newline] := by
        rw [List.append_cons, List.take_left' (by simp)]
      rw [List.length_append, List.length_cons] at hlen
      rw [hdrop, htake, List.take_left, List.append_assoc, List.cons_append,
        written_append hmem (fits_append_iff.mpr ⟨hnul, by omega⟩), ih (by omega)]
      split
      · simp only [List.append_assoc]
      · rfl

theorem length_scan_le : (scan pattern fuel s).2.length ≤ s.length := by
  induction fuel generalizing s with
  | zero => exact Nat.le_refl _
  | succ fuel ih =>
    rw [scan]
    split
    · exact Nat.le_refl _
    · exact Nat.le_trans ih (by rw [List.length_drop]; omega)

theorem strchr_scan (hfuel : s.length ≤ fuel) : strchr (scan pattern fuel s).2 newline = none := by
  induction fuel generalizing s with
  | zero =>
    rw [List.eq_nil_of_length_eq_zero (Nat.le_zero.mp hfuel)]
    rfl
  | succ fuel ih =>
    rw [scan]
    split
    · assumption
    · exact ih (by rw [List.length_drop]; omega)

/-- The rest of a line is in the buffer, and the loop writes what there is to write for it and the input. -/
theorem grepLoop_eq {want : Nat → Nat} {buf input : List UInt8} (hfuel : input.length < fuel)
    (hlen : buf.length < sizeofBuf) (hnone : strchr buf newline = none) :
    grepLoop pattern want fuel t buf input = some (written pattern (buf ++ input)) := by
  induction fuel generalizing t buf input with
  | zero => exact absurd hfuel (Nat.not_lt_zero _)
  | succ fuel ih =>
    rw [grepLoop]
    obtain ⟨k, hk⟩ : ∃ k, k = min (sizeofBuf - buf.length - 1) (max 1 (want t)) := ⟨_, rfl⟩
    simp only [read, ← hk]
    split
    · next hpiece =>
      rw [List.length_take] at hpiece
      have hshort : (buf ++ input.take k).length < sizeofBuf := by
        rw [List.length_append, List.length_take]
        omega
      have hless : (input.drop k).length < fuel := by
        rw [List.length_drop]
        omega
      rw [ih hless (Nat.lt_of_le_of_lt length_scan_le hshort) (strchr_scan (by rw [List.length_append])),
        Option.map_some, ← written_scan hshort, List.append_assoc, List.take_append_drop]
    · next hpiece =>
      rw [List.length_take] at hpiece
      rw [written_of_strchr]
      intro q hq hfound
      -- the file is at its end, or the buffer is full
      by_cases hnil : input = []
      · rw [hnil, List.append_nil, hnone] at hfound
        cases hfound
      · have hpos := List.length_pos_iff.mpr hnil
        have hfull : q < buf.length := by omega
        rw [strchr_of_append hfound hfull] at hnone
        cases hnone

theorem grep_eq {want : Nat → Nat} {input : List UInt8} :
    grep pattern want input = some (written pattern input) := by
  rw [grep, grepLoop_eq (Nat.lt_succ_self _) (by decide) rfl, List.nil_append]

end

/-- What `grep` writes does not depend on how the reads deliver the input. -/
theorem grep_reads (pattern input : List UInt8) (want want' : Nat → Nat) :
    ∃ out, grep pattern want input = some out ∧ grep pattern want' input = some out :=
  ⟨written pattern input, grep_eq, grep_eq⟩

/-! ## Lines that are missed -/

section
variable {pattern : List UInt8} {ls ls' : List (List UInt8)}

theorem matching_append : matching pattern (ls ++ ls') = matching pattern ls ++ matching pattern ls' := by
  rw [matching, List.filter_append, List.flatten_append]
  rfl

theorem matching_eq_nil (hne : ∀ l ∈ ls, l ≠ []) :
    matching pattern ls = [] ↔ ∀ l ∈ ls, matchText pattern (body l) = false := by
  rw [matching, List.flatten_eq_nil_iff]
  constructor
  · intro h l hl
    by_contra hmatch
    exact hne l hl (h l (List.mem_filter.mpr ⟨hl, by simpa using hmatch⟩))
  · intro h l hl
    obtain ⟨hl, hmatch⟩ := List.mem_filter.mp hl
    rw [h l hl] at hmatch
    cases hmatch

/-- `grep` writes the lines that match just if none of them is behind the lines that it sees. -/
theorem grep_lines_iff (pattern input : List UInt8) (want : Nat → Nat) :
    grep pattern want input = some (matching pattern (lines input)) ↔
      ∀ l ∈ unseen input, matchText pattern (body l) = false := by
  have hsplit : matching pattern (lines input) = written pattern input ++ matching pattern (unseen input) := by
    rw [written, ← matching_append, seen, unseen, List.takeWhile_append_dropWhile]
  have hne : ∀ l ∈ unseen input, l ≠ [] := fun l hl =>
    ne_nil_of_mem_lines ((List.dropWhile_sublist _).subset hl)
  rw [grep_eq, Option.some_inj, hsplit, ← matching_eq_nil hne]
  exact List.self_eq_append_right

end

/-- A line of 1023 characters and its newline. -/
def longLine : List UInt8 := List.replicate 1023 98 ++ [newline]

/-- A last line without a newline is missed, and so is a line behind one of 1023 characters. -/
theorem grep_misses :
    (lines [97] = [[97]] ∧ matching [97] [[97]] = [97] ∧ grep [97] (fun _ => 512) [97] = some []) ∧
    lines (longLine ++ [97, 10]) = [longLine, [97, 10]] ∧ matching [97] [longLine, [97, 10]] = [97, 10] ∧
      grep [97] (fun _ => 512) (longLine ++ [97, 10]) = some [] := by
  refine ⟨?_, ?_, ?_, ?_⟩
  · decide +kernel
  · decide +kernel
  · decide +kernel
  · decide +kernel

end Xv6.Grep
