-- SUMMARY: Sequences of transactions on the redo log, and their atomicity under crashes.
import Xv6.Log.Crash
import Mathlib.Data.List.Induction

/-!
# Transactions

A transaction is one operation that runs alone: `begin_op`, some updates of the
form `bread`, change the data, `log_write`, `brelse`, and `end_op`, which commits.
The machine boots, recovers, and runs a sequence of transactions. It may crash
after any number of block writes, and so may each attempt to recover.
-/

namespace Xv6

open Prog

/-! ## One transaction -/

/-- `bread`, change the data, `log_write`, `brelse`. -/
def updateBlock (b : Nat) (v : Block) : BioM Unit := do
  let i ← bread (← get).log.dev b
  setData i v
  logWrite i
  brelse i

/-- The updates of one operation: as many as the log has room for, of blocks
outside the log area. -/
structure Txn (start : Nat) where
  updates : List (Nat × Block)
  len : updates.length ≤ LOGBLOCKS
  home : ∀ u ∈ updates, ¬ logArea start u.1
  fits : ∀ u ∈ updates, u.1 < UINT

/-- The header entries that `log_write` collects: a block that is already there
is absorbed. -/
def logged (updates : List (Nat × Block)) : List Nat :=
  updates.foldl (fun lh u => if u.1 ∈ lh then lh else lh ++ [u.1]) []

theorem logged_snoc (us : List (Nat × Block)) (u : Nat × Block) :
    logged (us ++ [u]) = if u.1 ∈ logged us then logged us else logged us ++ [u.1] := by
  rw [logged, List.foldl_append]
  rfl

theorem mem_logged {us : List (Nat × Block)} {b : Nat} : b ∈ logged us ↔ b ∈ us.map Prod.fst := by
  induction us using List.reverseRecOn with
  | nil => simp [logged]
  | append_singleton us u ih =>
    rw [logged_snoc]
    split
    · next hmem =>
      simp only [List.map_append, List.mem_append, List.map_cons, List.map_nil, List.mem_singleton]
      constructor
      · exact fun hb => .inl (ih.mp hb)
      · rintro (hb | rfl)
        · exact ih.mpr hb
        · exact hmem
    · simp [ih]

theorem logged_nodup (us : List (Nat × Block)) : (logged us).Nodup := by
  induction us using List.reverseRecOn with
  | nil => simp [logged]
  | append_singleton us u ih =>
    rw [logged_snoc]
    split
    · exact ih
    · next hmem =>
      refine List.nodup_append.mpr ⟨ih, by simp, ?_⟩
      rintro a ha b hb rfl
      exact hmem (List.mem_singleton.mp hb ▸ ha)

theorem logged_length (us : List (Nat × Block)) : (logged us).length ≤ us.length := by
  induction us using List.reverseRecOn with
  | nil => simp [logged]
  | append_singleton us u ih =>
    rw [logged_snoc]
    split <;> simp <;> omega

namespace Txn

variable {start : Nat}

def run (t : Txn start) : BioM Unit := do
  beginOp
  t.updates.forM fun u => updateBlock u.1 u.2
  endOp

/-- What the transaction does to a store. -/
def apply (t : Txn start) (S : Nat → Block) : Nat → Block := Writes.apply t.updates S

/-- The block writes of the transaction, from the disk `d` that holds `S`. -/
def writes (t : Txn start) (d S : Nat → Block) : List (Nat × Block) :=
  if t.updates = [] then [] else commitWrites start d (t.apply S) (logged t.updates)

theorem logged_eq_nil {us : List (Nat × Block)} : logged us = [] ↔ us = [] := by
  constructor
  · intro h
    cases us with
    | nil => rfl
    | cons u us =>
      have hmem : u.1 ∈ logged (u :: us) := mem_logged.mpr (by simp)
      simp [h] at hmem
  · rintro rfl; rfl

theorem pending (t : Txn start) (hne : t.updates ≠ []) (S : Nat → Block) :
    Pending start S (t.apply S) (logged t.updates) where
  pos := fun h => hne (logged_eq_nil.mp h)
  nodup := logged_nodup _
  len := (logged_length _).trans t.len
  home := by
    intro b hb
    obtain ⟨u, hu, rfl⟩ := List.mem_map.mp (mem_logged.mp hb)
    exact t.home u hu
  fits := by
    intro b hb
    obtain ⟨u, hu, rfl⟩ := List.mem_map.mp (mem_logged.mp hb)
    exact t.fits u hu
  same := fun b hb => Writes.apply_of_not_mem fun hmem => hb (mem_logged.mpr hmem)

end Txn

variable {m : Machine} {S : Nat → Block} {start : Nat} {d : Nat → Block}

/-- An update of a home block changes the store at that block, and the log as
`log_write` does. -/
theorem wp_updateBlock (h : Coherent m S m.log.lh) (hq : Quiet m) {b : Nat} (hb : ¬ m.log.area b)
    (v : Block) :
    wp (updateBlock b v)
      (fun _ m' => Coherent m' (Function.update S b v) m'.log.lh ∧ Quiet m' ∧
        (∃ isNew, m.log.logWrite b = .ok (m'.log, isNew)) ∧ m'.disk = m.disk ∧
        m'.writes = m.writes)
      (fun e _ => NBUF ≤ m.log.lh.length ∨ m.log.logWrite b = .error e) m := by
  simp only [updateBlock, wp_bind, wp_get]
  refine (wp_bread h b).mono ?_ (fun _ _ hs => ?_)
  · rintro i m₁ ⟨h₁, hi, hf, hfree⟩
    rw [← hf.log] at h₁ hb
    have hrun := wp_bind.mp (wp_logWrite h₁ hi hb v)
    rw [hf.log] at hrun
    refine hrun.mono (fun _ m₂' h₂' => h₂'.mono ?_ (fun _ _ hs => .inr hs.1)) (fun _ _ hs => .inr hs.1)
    rintro _ m₂ ⟨h₂, hi₂, hlog, hd₂, hw₂, hother⟩
    refine (wp_brelse h₂ hi₂).total ?_
    rintro _ m₃ ⟨h₃, hf₃, hunlocked⟩
    refine ⟨hf₃.log ▸ h₃, ?_, by rwa [hf₃.log], ?_, ?_⟩
    · intro k
      by_cases hk : k = i
      · rw [hk, hunlocked]
      · rw [hf₃.locked k hk, hother k hk, hf.locked k hk, hq k]
    · rw [hf₃.disk, hd₂, hf.disk]
    · rw [hf₃.writes, hw₂, hf.writes]
  · by_contra hno
    simp only [not_or, Nat.not_le] at hno
    exact hs.1.not_quiet h ⟨hq, hno.1⟩

/-- The updates of an operation that is alone in an empty log all go through. -/
theorem wp_updates (h : Coherent m S []) (hq : Quiet m) (hlh : m.log.lh = [])
    (hout : m.log.outstanding = 1) (us : List (Nat × Block)) (hlen : us.length ≤ LOGBLOCKS)
    (hhome : ∀ u ∈ us, ¬ m.log.area u.1) :
    wp (us.forM fun u => updateBlock u.1 u.2)
      (fun _ m' => Coherent m' (Writes.apply us S) (logged us) ∧ Quiet m' ∧
        m'.log = m.log.setLh (logged us) ∧ m'.disk = m.disk ∧ m'.writes = m.writes)
      (fun _ _ => False) m := by
  apply wp_forM (I := fun done m' => Coherent m' (Writes.apply done S) (logged done) ∧ Quiet m' ∧
    m'.log = m.log.setLh (logged done) ∧ m'.disk = m.disk ∧ m'.writes = m.writes)
  · rintro done ⟨b, v⟩ rest t rfl ⟨ht, hqt, hlog, hd, hw⟩
    have hlht : t.log.lh = logged done := by rw [hlog, Log.setLh_lh]
    have hb : ¬ logArea t.log.start b := by
      rw [hlog, Log.setLh_start]
      exact hhome (b, v) (by simp)
    -- The entries so far are at most the updates so far, so there is room for one more.
    have hroom : t.log.lh.length < LOGBLOCKS := by
      have := logged_length done
      simp only [List.length_append, List.length_cons] at hlen
      rw [hlht]
      omega
    rw [← hlht] at ht
    refine (wp_updateBlock ht hqt hb v).mono ?_ ?_
    · rintro _ m' ⟨h', hq', ⟨isNew, hwrite⟩, hd', hw'⟩
      have hlog' : m'.log = m.log.setLh (logged (done ++ [(b, v)])) := by
        rw [logged_snoc, ← hlht]
        obtain ⟨-, -, ⟨-, heq, hmem⟩ | ⟨-, heq, hmem⟩⟩ := Log.logWrite_ok hwrite
        · rw [if_pos hmem, heq, hlog, Log.setLh_lh]
        · rw [if_neg hmem, heq, hlog, Log.setLh_setLh, Log.setLh_lh]
      refine ⟨?_, hq', hlog', hd'.trans hd, hw'.trans hw⟩
      rw [hlog', Log.setLh_lh] at h'
      rwa [Writes.apply_snoc]
    · rintro e _ (hfull | herr)
      · exact absurd hfull (Nat.not_le.mpr hroom)
      · have hin : ¬ t.log.outstanding < 1 := by rw [hlog, Log.setLh_outstanding, hout]; decide
        simp only [Log.logWrite, Nat.not_le.mpr hroom, hin, if_false] at herr
        split at herr <;> cases herr
  · refine ⟨h, hq, ?_, rfl, rfl⟩
    rw [show logged [] = m.log.lh from hlh.symm]
    rfl

/-- A transaction on an idle machine. It can only stop inside `commit`, and only
if it fills the cache with pinned blocks. -/
theorem Txn.wp_run (t : Txn start) (h : Idle m S) (hstart : m.log.start = start) :
    wp t.run
      (fun _ m' => Idle m' (t.apply S) ∧ Wrote m m' (t.writes m.disk S))
      (Cut m (t.writes m.disk S) ((logged t.updates).length < NBUF)) m := by
  subst hstart
  have hlog := h.log
  have hbegin : m.log.beginOp = some ⟨m.log.start, m.log.dev, 1, false, []⟩ := by
    rw [hlog]; rfl
  simp only [Txn.run, beginOp, wp_bind, wp_get, hbegin, setLog, wp_modify]
  have h₁ : Coherent (m.setLog ⟨m.log.start, m.log.dev, 1, false, []⟩) S [] :=
    h.coherent.setLog rfl rfl
  refine (wp_updates h₁ h.quiet rfl rfl t.updates t.len t.home).total ?_
  rintro _ m₂ ⟨h₂, hq₂, hlog₂, hd₂, hw₂⟩
  rw [Machine.setLog_disk] at hd₂
  rw [Machine.setLog_writes] at hw₂
  have hend : m₂.log.endOp = .ok (⟨m.log.start, m.log.dev, 0, true, logged t.updates⟩, true) := by
    rw [hlog₂]; rfl
  simp only [endOp, wp_bind, wp_get, hend, setLog, wp_modify, if_true]
  have hl₂ : m₂.log.start = m.log.start ∧ m₂.log.dev = m.log.dev := by
    rw [hlog₂]; exact ⟨rfl, rfl⟩
  have h₃ : Coherent (m₂.setLog ⟨m.log.start, m.log.dev, 0, true, logged t.updates⟩) (t.apply S)
      (logged t.updates) := h₂.setLog hl₂.2.symm hl₂.1.symm
  by_cases hne : t.updates = []
  · -- nothing was logged, and `commit` does nothing
    have hlogged : logged t.updates = [] := by rw [hne]; rfl
    rw [hlogged] at h₃ ⊢
    simp only [commit, wp_bind, wp_get, Machine.setLog_log, List.length_nil, gt_iff_lt,
      Nat.lt_irrefl, if_false, wp_pure]
    have hwrites : t.writes m.disk S = [] := by rw [Txn.writes, if_pos hne]
    have hdone : (m₂.setLog ⟨m.log.start, m.log.dev, 0, true, []⟩).setLog
        (Log.commitDone ⟨m.log.start, m.log.dev, 0, true, []⟩)
        = m₂.setLog ⟨m.log.start, m.log.dev, 0, false, []⟩ := rfl
    rw [hdone, hwrites]
    refine ⟨⟨h₃.setLog rfl rfl, hq₂, rfl, ?_⟩, ⟨?_, ?_, ?_, ?_⟩⟩
    · exact hd₂.symm ▸ h.head
    · rw [hlog]; rfl
    · exact hd₂
    · rw [List.append_nil]; exact hw₂
    · intro i; exact (hq₂ i).trans (h.quiet i).symm
  · have hpend := t.pending hne S
    have hrun := wp_commit h₃ hpend.nodup hpend.len (List.length_pos_of_ne_nil hpend.pos)
    have hwrites : commitWrites m.log.start m.disk (t.apply S) (logged t.updates)
        = t.writes m.disk S := by rw [Txn.writes, if_neg hne]
    simp only [Machine.setLog_log, Machine.setLog_disk, hd₂, hwrites] at hrun
    refine hrun.mono ?_ ?_
    · rintro _ m₄ hc
      have hl₄ := hc.log
      have hdisk₄ : m₄.disk = Writes.apply (t.writes m.disk S) m.disk := by
        rw [hc.disk, Machine.setLog_disk, hd₂]
      have hdone : m₄.log.commitDone = ⟨m.log.start, m.log.dev, 0, false, []⟩ := by
        rw [hl₄]; rfl
      rw [hdone]
      refine ⟨⟨?_, ?_, rfl, ?_⟩, ⟨?_, ?_, ?_, ?_⟩⟩
      · exact hc.coherent.setLog (by rw [hl₄]; rfl) (by rw [hl₄]; rfl)
      · intro i; exact (hc.locked i).trans (hq₂ i)
      · show LogHeader.decode (m₄.disk m.log.start) = []
        rw [hdisk₄, Txn.writes, if_neg hne, commitWrites, ← List.append_assoc, ← List.append_assoc,
          Writes.apply_snoc, Function.update_self]
        exact LogHeader.decode_encode_nil _
      · rw [hlog]; rfl
      · exact hdisk₄
      · exact hc.writes.trans (by rw [Machine.setLog_writes, hw₂])
      · intro i; exact ((hc.locked i).trans (hq₂ i)).trans (h.quiet i).symm
    · rintro e m' ⟨⟨ws', hpre, hw'⟩, hno⟩
      refine ⟨⟨ws', hpre, ?_⟩, fun hroom => hno ⟨hq₂, hroom⟩⟩
      rw [hw', Machine.setLog_writes, hw₂]

/-! ## Sequences of transactions -/

/-- The store after a sequence of transactions. -/
def applyTxns (ts : List (Txn start)) (S : Nat → Block) : Nat → Block :=
  ts.foldl (fun S t => t.apply S) S

/-- How many of the transactions update something. Only these commit. -/
def effective (ts : List (Txn start)) : Nat := ts.countP fun t => t.updates ≠ []

/-- Whatever part of `ws` has reached the disk `d`, the disk stands for the store
after a whole number of the transactions: those whose header is on disk. -/
def Atomic (d S : Nat → Block) (ts : List (Txn start)) (ws : List (Nat × Block)) : Prop :=
  ∀ p, p <+: ws → ∃ i, i ≤ ts.length ∧
    Image start (Writes.apply p d) (applyTxns (ts.take i) S) ∧
    commitPoints start p = effective (ts.take i)

theorem Txn.atomic (t : Txn start) (ts : List (Txn start)) (h : Idle m S)
    (hstart : m.log.start = start) {ws : List (Nat × Block)} (hws : ws <+: t.writes m.disk S) :
    Atomic m.disk S (t :: ts) ws := by
  subst hstart
  intro p hp
  have hp := hp.trans hws
  by_cases hne : t.updates = []
  · rw [Txn.writes, if_pos hne] at hp
    obtain rfl := List.prefix_nil.mp hp
    exact ⟨0, Nat.zero_le _, Image.of_empty h.head h.clean, rfl⟩
  · rw [Txn.writes, if_neg hne] at hp
    rcases (t.pending hne S).crash h.head h.clean hp with ⟨himage, hpoints⟩ | ⟨himage, hpoints⟩
    · exact ⟨0, Nat.zero_le _, himage, hpoints⟩
    · refine ⟨1, by simp, himage, ?_⟩
      rw [hpoints]
      simp [effective, hne]

theorem Txn.writes_points (t : Txn start) (h : Idle m S) (hstart : m.log.start = start) :
    commitPoints start (t.writes m.disk S) = effective [t] := by
  subst hstart
  unfold Txn.writes
  split
  · next hnil => simp [effective, commitPoints, hnil]
  · next hne =>
    rw [(t.pending hne S).points h.clean]
    simp [effective, hne]

/-- Transactions one after the other: a crash during a later one finds all earlier
ones complete. -/
theorem Atomic.cons {t : Txn start} {ts : List (Txn start)} (h : Idle m S)
    (hstart : m.log.start = start) {ws : List (Nat × Block)}
    (hrest : Atomic (Writes.apply (t.writes m.disk S) m.disk) (t.apply S) ts ws) :
    Atomic m.disk S (t :: ts) (t.writes m.disk S ++ ws) := by
  intro p hp
  rcases Writes.prefix_append_cases hp with hfirst | ⟨q, rfl, hq⟩
  · exact t.atomic ts h hstart hfirst p List.prefix_rfl
  · obtain ⟨i, hi, himage, hpoints⟩ := hrest q hq
    refine ⟨i + 1, by simpa using hi, ?_, ?_⟩
    · rw [Writes.apply_append]
      exact himage
    · rw [commitPoints_append, t.writes_points h hstart, hpoints, effective, effective, effective,
        List.take_succ_cons, ← List.countP_append]
      rfl

/-- A sequence of transactions on an idle machine, whether or not it stops. -/
theorem wp_txns (ts : List (Txn start)) : ∀ {m : Machine} {S : Nat → Block}, Idle m S →
    m.log.start = start →
    wp (ts.forM Txn.run)
      (fun _ m' => ∃ ws, m'.writes = m.writes ++ ws ∧ Atomic m.disk S ts ws)
      (fun _ m' => ∃ ws, m'.writes = m.writes ++ ws ∧ Atomic m.disk S ts ws) m := by
  induction ts with
  | nil =>
    intro m S h hstart
    subst hstart
    refine wp_pure.mpr ⟨[], by simp, fun p hp => ⟨0, Nat.le_refl _, ?_, ?_⟩⟩
    · rw [List.prefix_nil.mp hp]
      exact Image.of_empty h.head h.clean
    · rw [List.prefix_nil.mp hp]
      rfl
  | cons t ts ih =>
    intro m S h hstart
    simp only [List.forM_eq_forM, List.forM_cons, wp_bind]
    refine (t.wp_run h hstart).mono ?_ ?_
    · rintro _ m₁ ⟨h₁, hwrote⟩
      have hstart₁ : m₁.log.start = start := by rw [hwrote.log, hstart]
      have hnext := ih h₁ hstart₁
      have hcons : ∀ m' : Machine,
          (∃ ws, m'.writes = m₁.writes ++ ws ∧ Atomic m₁.disk (t.apply S) ts ws) →
          ∃ ws, m'.writes = m.writes ++ ws ∧ Atomic m.disk S (t :: ts) ws := by
        rintro m' ⟨ws, hw, hatomic⟩
        rw [hwrote.disk] at hatomic
        refine ⟨_, ?_, Atomic.cons h hstart hatomic⟩
        rw [hw, hwrote.writes, List.append_assoc]
      exact hnext.mono (fun _ m' => hcons m') (fun _ m' => hcons m')
    · rintro e m' ⟨⟨ws, hpre, hw⟩, -⟩
      exact ⟨ws, hw, t.atomic ts h hstart hpre⟩

/-- `initlog`, then the transactions. -/
def session (ts : List (Txn start)) : BioM Unit := do
  recoverFromLog
  ts.forM Txn.run

/-- The disk after a machine that booted on `d` to run `x` crashed, when `k` block
writes had reached the disk. A panic is a crash as well. -/
def crash (start : Nat) (x : BioM Unit) (k : Nat) (d : Nat → Block) : Nat → Block :=
  Writes.apply ((final x (boot start d)).writes.take k) d

theorem session_atomic (h : Image start d S) (ts : List (Txn start)) :
    Atomic d S ts (final (session ts) (boot start d)).writes := by
  have hrecover : ∀ ws, ws <+: recoverWrites start d → Atomic d S ts ws := by
    intro ws hws p hp
    have hp := hp.trans hws
    exact ⟨0, Nat.zero_le _, h.recover_part hp, recoverWrites_points h hp⟩
  apply wp.final (P := fun m' : Machine => Atomic d S ts m'.writes)
  simp only [session, wp_bind]
  refine (wp_recoverFromLog_boot h).total ?_
  rintro _ m₁ ⟨hidle, hstart, hdisk, hwrites⟩
  have hafter : ∀ m' : Machine, (∃ ws, m'.writes = m₁.writes ++ ws ∧ Atomic m₁.disk S ts ws) →
      Atomic d S ts m'.writes := by
    rintro m' ⟨ws, hw, hatomic⟩ p hp
    rw [hw, hwrites] at hp
    rcases Writes.prefix_append_cases hp with hfirst | ⟨q, rfl, hq⟩
    · exact hrecover p hfirst p List.prefix_rfl
    · obtain ⟨i, hi, himage, hpoints⟩ := hatomic q hq
      refine ⟨i, hi, ?_, ?_⟩
      · rw [Writes.apply_append, ← hdisk]
        exact himage
      · rw [commitPoints_append, recoverWrites_points h List.prefix_rfl, hpoints, Nat.zero_add]
  exact (wp_txns ts hidle hstart).mono (fun _ m' => hafter m') (fun _ m' => hafter m')

/-- Any number of recoveries may be cut short. -/
theorem Image.crashes (h : Image start d S) (js : List Nat) :
    Image start (js.foldl (fun d j => crash start recoverFromLog j d) d) S := by
  induction js generalizing d with
  | nil => exact h
  | cons j js ih =>
    apply ih
    have hw : (final recoverFromLog (boot start d)).writes = recoverWrites start d :=
      wp.final (P := fun m' : Machine => m'.writes = recoverWrites start d)
        ((wp_recoverFromLog_boot h).total fun _ _ hr => hr.2.2.2)
    show Image start (crash start recoverFromLog j d) S
    rw [crash, hw]
    exact h.recover_part (List.take_prefix _ _)

/-- Crash atomicity. After a crash at any block write, and any number of recoveries
that crash themselves, the first recovery that is not interrupted returns. The home
blocks then hold a whole prefix of the transactions, and a transaction is part of it
exactly if its header reached the disk before the crash. The log is empty again. -/
theorem crash_atomic (hempty : LogHeader.decode (d start) = []) (ts : List (Txn start))
    (k : Nat) (js : List Nat) :
    ∃ i m', i ≤ ts.length ∧
      recoverFromLog (boot start
        (js.foldl (fun d j => crash start recoverFromLog j d) (crash start (session ts) k d)))
        = .ok () m' ∧
      (∀ b, ¬ logArea start b → m'.disk b = applyTxns (ts.take i) d b) ∧
      LogHeader.decode (m'.disk start) = [] ∧
      commitPoints start ((final (session ts) (boot start d)).writes.take k)
        = effective (ts.take i) := by
  have himage : Image start d d := Image.of_empty hempty fun _ _ => rfl
  obtain ⟨i, hi, hcrashed, hpoints⟩ := session_atomic himage ts _ (List.take_prefix k _)
  obtain ⟨_, m', hrun, hidle, hstart, -, -⟩ := (wp_recoverFromLog_boot (hcrashed.crashes js)).returns
  refine ⟨i, m', hi, hrun, fun b hb => ?_, ?_, hpoints⟩
  · exact hidle.clean b (by rwa [Log.area, hstart])
  · rw [← hstart]
    exact hidle.head

/-- A transaction with one update. -/
def Txn.fillOne : Txn 2 := ⟨[(40, fun _ => 7)], by decide, by decide, by decide⟩

/-- `Txn.fillOne` on a zeroed disk, cut right after its header, and a recovery cut
before its first write. -/
theorem crash_atomic_fillOne :
    ∃ i m', i ≤ [Txn.fillOne].length ∧
      recoverFromLog (boot 2 ([0].foldl (fun d j => crash 2 recoverFromLog j d)
        (crash 2 (session [Txn.fillOne]) 3 fun _ _ => 0))) = .ok () m' ∧
      (∀ b, ¬ logArea 2 b → m'.disk b = applyTxns ([Txn.fillOne].take i) (fun _ _ => 0) b) ∧
      LogHeader.decode (m'.disk 2) = [] ∧
      commitPoints 2 ((final (session [Txn.fillOne]) (boot 2 fun _ _ => 0)).writes.take 3)
        = effective ([Txn.fillOne].take i) :=
  @crash_atomic 2 (fun _ _ => 0) (by decide) [Txn.fillOne] 3 [0]

end Xv6
