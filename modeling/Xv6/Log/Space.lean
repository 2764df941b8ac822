-- SUMMARY: The space that admission reserves in the log for running operations, and where it does not suffice.
import Xv6.Log.Admission

/-!
# Space in the log

`begin_op` admits an operation only if the log has room for `MAXOPBLOCKS` blocks of
every running operation. The invariant `Reserved` turns this into a bound on the
header, from which the panic of `log_write` can be decided.
-/

namespace Xv6.Admission

variable {n : Nat} {s s' : State n} {p q : Fin n}

/-- An operation logs at most `MAXOPBLOCKS` distinct blocks, each any number of
times. -/
def Budget (s : State n) : Fin n × Event → Prop
  | (p, .write b) => ∀ ws ∈ (s.pc p).ops, (ws.insert b).length ≤ MAXOPBLOCKS
  | _ => True

instance (s : State n) (a : Fin n × Event) : Decidable (Budget s a) := by
  unfold Budget
  split <;> infer_instance

/-- What an operation may still add to the header. -/
def reserve (x : Pc) : Int :=
  match x.ops with
  | some ws => ((MAXOPBLOCKS - ws.length : Nat) : Int)
  | none => 0

theorem reserve_nonneg (x : Pc) : 0 ≤ reserve x := by
  unfold reserve
  split
  · exact Int.natCast_nonneg _
  · exact Int.le_refl 0

theorem reserve_le (x : Pc) : reserve x ≤ running x * MAXOPBLOCKS := by
  unfold reserve running
  cases x.ops with
  | none => simp
  | some ws => simp [MAXOPBLOCKS]

structure Reserved (s : State n) : Prop where
  inv : Inv s
  /-- The header and what running operations may still add fit into the log. -/
  space : (s.log.lh.length : Int) + Sys.total reserve s.pc ≤ LOGBLOCKS
  within : ∀ p, ∀ ws ∈ (s.pc p).ops, ws.length ≤ MAXOPBLOCKS
  logged : ∀ p, ∀ ws ∈ (s.pc p).ops, ∀ b ∈ ws, b ∈ s.log.lh

theorem reserved_init (start : Nat) : Reserved (init start : State n) where
  inv := inv_init start
  space := by simp [init, Sys.total, reserve, Pc.ops]
  within := fun _ _ h => by cases h
  logged := fun _ _ h => by cases h

section
variable {l : Log} {x : Pc} {wakes : Bool}

theorem Reserved.move (h : Reserved s) (hinv : Inv (s.move p l x wakes))
    (hspace : l.lh.length + (Sys.total reserve s.pc - reserve (s.pc p) + reserve x) ≤ LOGBLOCKS)
    (hwithin : ∀ ws ∈ x.ops, ws.length ≤ MAXOPBLOCKS) (hlogged : ∀ ws ∈ x.ops, ∀ b ∈ ws, b ∈ l.lh)
    (hkeep : ∀ q ≠ p, (s.pc q).ops.isSome → ∀ b ∈ s.log.lh, b ∈ l.lh) :
    Reserved (s.move p l x wakes) where
  inv := hinv
  space := by
    rw [State.total_move _ _ _ _ _ (by simp [reserve]), State.move_log]
    exact hspace
  within := by
    intro q ws hws
    by_cases hq : q = p
    · rw [hq, State.move_self] at hws
      exact hwithin ws hws
    · rw [State.move_other s p l x wakes Pc.ops_woken hq] at hws
      exact h.within q ws hws
  logged := by
    intro q ws hws b hb
    by_cases hq : q = p
    · rw [hq, State.move_self] at hws
      exact hlogged ws hws b hb
    · rw [State.move_other s p l x wakes Pc.ops_woken hq] at hws
      exact hkeep q hq (by rw [Option.mem_def.mp hws]; rfl) b (h.logged q ws hws b hb)

end

theorem length_insert_le (ws : List Nat) (b : Nat) : ws.length ≤ (ws.insert b).length := by
  by_cases hb : b ∈ ws
  · rw [List.insert_of_mem hb]
  · rw [List.length_insert_of_not_mem hb]; omega

theorem reserved_step {e : Event} (h : Reserved s) (hbudget : Budget s (p, e))
    (hstep : Step s (p, e) s') : Reserved s' := by
  have hinv := inv_step h.inv hstep
  obtain ⟨l, x, wakes, hlocal, rfl⟩ := hstep.cases
  have hspace := h.space
  generalize hpc : s.pc p = a at hlocal
  cases hlocal with
  | admitted hb =>
    obtain ⟨-, hroom, rfl⟩ := Log.beginOp_some hb
    have hle := Sys.total_le_mul (f := s.pc) reserve_le
    rw [← h.inv.outstanding] at hle
    refine h.move hinv ?_ ?_ ?_ (fun _ _ _ _ hb => hb)
    · simp only [hpc, reserve, Pc.ops, List.length_nil]
      simp only [MAXOPBLOCKS] at hle hroom ⊢
      omega
    · simp [Pc.ops]
    · simp [Pc.ops]
  | @write l b ws isNew hw =>
    have hbud : (ws.insert b).length ≤ MAXOPBLOCKS := hbudget ws (by rw [hpc]; rfl)
    have hws : ∀ c ∈ ws, c ∈ s.log.lh := h.logged p ws (by rw [hpc]; rfl)
    have hmono := length_insert_le ws b
    obtain ⟨-, -, ⟨-, rfl, hmem⟩ | ⟨-, rfl, hmem⟩⟩ := Log.logWrite_ok hw
    · refine h.move hinv ?_ ?_ ?_ (fun _ _ _ _ hb => hb)
      · simp only [hpc, reserve, Pc.ops]
        omega
      · simpa [Pc.ops] using hbud
      · rintro _ ⟨rfl⟩ c hc
        rcases List.mem_insert_iff.mp hc with rfl | hc
        · exact hmem
        · exact hws c hc
    · -- a new block is new for this operation too, and uses up one of its reserve
      have hnew : (ws.insert b).length = ws.length + 1 :=
        List.length_insert_of_not_mem fun hb => hmem (hws b hb)
      refine h.move hinv ?_ ?_ ?_ (fun _ _ _ c hc => List.mem_append_left _ hc)
      · simp only [hpc, reserve, Pc.ops, Log.setLh_lh, List.length_append, List.length_singleton, hnew]
        omega
      · simpa [Pc.ops] using hbud
      · rintro _ ⟨rfl⟩ c hc
        rcases List.mem_insert_iff.mp hc with rfl | hc
        · exact List.mem_append_right _ (List.mem_singleton_self c)
        · exact List.mem_append_left _ (hws c hc)
  | endOp he | endLast he =>
    have hpos := reserve_nonneg (s.pc p)
    have hlh : l.lh = s.log.lh := by
      obtain ⟨-, ⟨-, -, rfl⟩ | ⟨-, -, rfl⟩⟩ := Log.endOp_ok he <;> rfl
    refine h.move hinv ?_ (by simp [Pc.ops]) (by simp [Pc.ops]) (fun _ _ _ c hc => hlh ▸ hc)
    simp only [hlh, reserve, Pc.ops] at hpos ⊢
    omega
  | clear =>
    have hpos := Sys.total_nonneg (f := s.pc) reserve_nonneg
    refine h.move hinv ?_ (by simp [Pc.ops]) (by simp [Pc.ops]) ?_
    · simp only [hpc, reserve, Pc.ops, Log.setLh_lh, List.length_nil]
      omega
    · -- nobody is in an operation while `p` commits
      intro q _ hq
      obtain ⟨ws, hws⟩ := Option.isSome_iff_exists.mp hq
      have hfalse := h.inv.flag (h.inv.not_committing hws) p
      rw [hpc] at hfalse
      cases hfalse
  | check hx | copyToLog hx | copyHome hx =>
    rcases hx with rfl | rfl
    all_goals
      refine h.move hinv ?_ (by simp [Pc.ops]) (by simp [Pc.ops]) (fun _ _ _ _ hb => hb)
      simpa [hpc, reserve, Pc.ops] using hspace
  | _ =>
    refine h.move hinv ?_ (by simp [Pc.ops]) (by simp [Pc.ops]) (fun _ _ _ _ hb => hb)
    simpa [hpc, reserve, Pc.ops, Log.commitDone] using hspace

/-- When the header is full, a running operation has logged all it may log, so that
any block it can still write is in the header. -/
theorem Reserved.mem_of_full (h : Reserved s) {ws : List Nat} {b : Nat} (hp : s.pc p = .inOp ws)
    (hbudget : (ws.insert b).length ≤ MAXOPBLOCKS) (hfull : LOGBLOCKS ≤ s.log.lh.length) :
    b ∈ s.log.lh := by
  have hle := Sys.le_total (f := s.pc) reserve_nonneg p
  have hspace := h.space
  simp only [hp, reserve, Pc.ops] at hle
  by_cases hb : b ∈ ws
  · exact h.logged p ws (by rw [hp]; rfl) b hb
  · rw [List.length_insert_of_not_mem hb] at hbudget
    omega

/-- Admission keeps enough room for every operation within its budget, with one
exception: `log_write` panics exactly if the header is full and the block is one that
it lists already. -/
theorem logWrite_too_big_iff {start : Nat} {es : List (Fin n × Event)}
    (hrun : Sys.RunWhere Step Budget (init start) es s) {ws : List Nat} {b : Nat}
    (hp : s.pc p = .inOp ws) (hbudget : (ws.insert b).length ≤ MAXOPBLOCKS) :
    s.log.logWrite b = .error .tooBigTransaction ↔
      s.log.lh.length = LOGBLOCKS ∧ b ∈ s.log.lh := by
  have h : Reserved s :=
    hrun.invariant (fun _ _ _ hi hc hs => reserved_step hi hc hs) (reserved_init start)
  have hpos := Sys.total_nonneg (f := s.pc) reserve_nonneg
  have hspace := h.space
  unfold Log.logWrite
  constructor
  · intro hpanic
    split at hpanic
    · next hfull => exact ⟨by omega, h.mem_of_full hp hbudget hfull⟩
    · split at hpanic
      · cases hpanic
      · split at hpanic <;> cases hpanic
  · rintro ⟨hfull, -⟩
    rw [if_pos (Nat.le_of_eq hfull.symm)]

/-- Three operations that each log ten blocks of their own. -/
def fillLog : List (Fin 3 × Event) :=
  (List.finRange 3).map (·, .call) ++ (List.finRange 3).map (·, .begin) ++
    (List.finRange 3).flatMap fun p => (List.range 10).map fun j => (p, .write (100 + 10 * p + j))

/-- With the log exactly full, the first operation changes one of its own blocks once
more, which needs no new entry. -/
theorem logWrite_absorbed_panics :
    ∃ s ws, Sys.RunWhere Step Budget (init 2 : State 3) fillLog s ∧ s.pc 0 = .inOp ws ∧
      (ws.insert 100).length ≤ MAXOPBLOCKS ∧ s.log.logWrite 100 = .error .tooBigTransaction := by
  have hcheck : (Sys.exec (fun s a => if Budget s a then next s a else none)
      (init 2 : State 3) fillLog).any (fun s =>
        s.pc 0 = .inOp ((List.range 10).reverse.map (100 + ·)) ∧ s.log.lh.length = LOGBLOCKS)
      = true := by decide +kernel
  obtain ⟨s, hexec, hs⟩ := Sys.exists_of_any hcheck
  simp only [decide_eq_true_eq] at hs
  refine ⟨s, _, Sys.exec_runWhere hexec, hs.1, by decide, ?_⟩
  rw [Log.logWrite, if_pos (Nat.le_of_eq hs.2.symm)]

/-- One operation that has logged one block. -/
theorem logWrite_too_big_iff_single :
    ∃ (s : State 1) (ws : List Nat),
      Sys.RunWhere Step Budget (init 2) [(0, .call), (0, .begin), (0, .write 100)] s ∧
      s.pc 0 = .inOp ws ∧ (ws.insert 100).length ≤ MAXOPBLOCKS ∧
      (s.log.logWrite 100 = .error .tooBigTransaction ↔
        s.log.lh.length = LOGBLOCKS ∧ 100 ∈ s.log.lh) := by
  have hcheck : (Sys.exec (fun s a => if Budget s a then next s a else none) (init 2 : State 1)
      [(0, .call), (0, .begin), (0, .write 100)]).any (fun s => s.pc 0 = .inOp [100]) = true := by
    decide +kernel
  obtain ⟨s, hexec, hs⟩ := Sys.exists_of_any hcheck
  have hrun := Sys.exec_runWhere hexec
  have hp : s.pc 0 = .inOp [100] := by simpa using hs
  exact ⟨s, [100], hrun, hp, by decide, logWrite_too_big_iff hrun hp (by decide)⟩

end Xv6.Admission
