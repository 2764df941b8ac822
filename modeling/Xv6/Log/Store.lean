-- SUMMARY: Cache and log together refine a plain block store, also while a commit is in progress.
import Xv6.Log.Transaction
import Xv6.Base.Transition

/-!
# The block store behind cache and log

A client of the log opens and closes operations, reads blocks, changes a block it
holds and logs it, and releases blocks. A commit goes on in the background, one
turn of its loops at a time, so that clients can read between any two of them.
The abstract machine is a plain map from block numbers to blocks, which only a
logged write changes.
-/

namespace Xv6.Store

open Prog

/-! ## A commit in progress -/

/-- Where the commit inside `end_op` stands. -/
inductive Phase
  | idle
  | writeLog (tail : Nat) (rest : List Nat)
  | writeHead
  | installTrans (tail : Nat) (rest : List Nat)
  | erase
  | finish
  deriving DecidableEq

/-- `commit` starts. It does nothing if no block was logged. -/
def Phase.start (lh : List Nat) : Phase := if lh.length > 0 then .writeLog 0 lh else .finish

/-- The committing process goes on to the next point. -/
def commitStep : Phase → BioM Phase
  | .idle => pure .idle
  | .writeLog tail (b :: rest) => do
    copyToLog tail b
    return .writeLog (tail + 1) rest
  | .writeLog _ [] => pure .writeHead
  | .writeHead => do
    writeHead
    return .installTrans 0 (← get).log.lh
  | .installTrans tail (b :: rest) => do
    copyHome false tail b
    return .installTrans (tail + 1) rest
  | .installTrans _ [] => pure .erase
  | .erase => do
    clearHead
    writeHead
    return .finish
  | .finish => do
    setLog (← get).log.commitDone
    return .idle

/-! ## Clients -/

structure Client where
  m : Machine
  phase : Phase

inductive Event
  | beginOp
  | endOp
  /-- `bread` of a block returns these contents. -/
  | read (b : Nat) (v : Block)
  /-- The holder of a block fills it with `v` and calls `log_write`. -/
  | write (b : Nat) (v : Block)
  | release (b : Nat)
  | commit

/-- What clients and the committing process can do. A call that would wait, or
that panics, is not a step. -/
inductive Step : Client → Event → Client → Prop
  | beginOp {c : Client} {m' : Machine} (hrun : beginOp c.m = .ok () m') :
      Step c .beginOp ⟨m', c.phase⟩
  | endOp {c : Client} {l : Log} {doCommit : Bool} (hrun : c.m.log.endOp = .ok (l, doCommit)) :
      Step c .endOp ⟨c.m.setLog l, if doCommit then .start l.lh else c.phase⟩
  | read {c : Client} {b : Nat} {i : Fin NBUF} {m' : Machine}
      (hrun : bread c.m.log.dev b c.m = .ok i m') :
      Step c (.read b (m'.buf i).data) ⟨m', c.phase⟩
  | write {c : Client} {v : Block} {i : Fin NBUF} {m' : Machine}
      (hheld : (c.m.buf i).locked = true) (hhome : ¬ c.m.log.area (c.m.buf i).blockno)
      (hrun : (do setData i v; logWrite i : BioM Unit) c.m = .ok () m') :
      Step c (.write (c.m.buf i).blockno v) ⟨m', c.phase⟩
  | release {c : Client} {i : Fin NBUF} {m' : Machine} (hrun : brelse i c.m = .ok () m') :
      Step c (.release (c.m.buf i).blockno) ⟨m', c.phase⟩
  | commit {c : Client} {phase' : Phase} {m' : Machine}
      (hrun : commitStep c.phase c.m = .ok phase' m') :
      Step c .commit ⟨m', phase'⟩

/-- Only the committing process takes steps. -/
def Commits (c c' : Client) : Prop := ∃ n, Sys.Run Step c (List.replicate n .commit) c'

theorem Commits.one {c c' : Client} (h : Step c .commit c') : Commits c c' := ⟨1, .one h⟩

theorem Commits.trans {c c' c'' : Client} (h : Commits c c') (h' : Commits c' c'') :
    Commits c c'' := by
  obtain ⟨n, hrun⟩ := h
  obtain ⟨n', hrun'⟩ := h'
  exact ⟨n + n', List.replicate_append_replicate (n := n) ▸ hrun.trans hrun'⟩

theorem run_writeLog (bs : List Nat) : ∀ {m m' : Machine} {tail : Nat},
    writeLogFrom tail bs m = .ok () m' → Commits ⟨m, .writeLog tail bs⟩ ⟨m', .writeHead⟩ := by
  induction bs with
  | nil =>
    intro m m' tail h
    cases h
    exact .one (.commit rfl)
  | cons b bs ih =>
    intro m m' tail h
    obtain ⟨_, m₁, hcopy, hrest⟩ := bind_eq_ok.mp h
    have hstep : Step ⟨m, .writeLog tail (b :: bs)⟩ .commit ⟨m₁, .writeLog (tail + 1) bs⟩ :=
      .commit (bind_eq_ok.mpr ⟨(), m₁, hcopy, rfl⟩)
    exact (Commits.one hstep).trans (ih hrest)

theorem run_installTrans (bs : List Nat) : ∀ {m m' : Machine} {tail : Nat},
    installTransFrom false tail bs m = .ok () m' →
    Commits ⟨m, .installTrans tail bs⟩ ⟨m', .erase⟩ := by
  induction bs with
  | nil =>
    intro m m' tail h
    cases h
    exact .one (.commit rfl)
  | cons b bs ih =>
    intro m m' tail h
    obtain ⟨_, m₁, hcopy, hrest⟩ := bind_eq_ok.mp h
    have hstep : Step ⟨m, .installTrans tail (b :: bs)⟩ .commit ⟨m₁, .installTrans (tail + 1) bs⟩ :=
      .commit (bind_eq_ok.mpr ⟨(), m₁, hcopy, rfl⟩)
    exact (Commits.one hstep).trans (ih hrest)

/-- The phases are those of `commit`: a call that returns is a run of commit steps. -/
theorem run_commit {m m' : Machine} (h : commit m = .ok () m') :
    Commits ⟨m, .start m.log.lh⟩ ⟨m', .finish⟩ := by
  obtain ⟨_, m₀, hget, h⟩ := bind_eq_ok.mp h
  cases hget
  unfold Phase.start
  split at h
  · next hpos =>
    rw [if_pos hpos]
    obtain ⟨_, m₁, hwrite, h⟩ := bind_eq_ok.mp h
    obtain ⟨_, m₂, hhead, h⟩ := bind_eq_ok.mp h
    obtain ⟨_, m₃, hinst, h⟩ := bind_eq_ok.mp h
    have hheaded : Step ⟨m₁, .writeHead⟩ .commit ⟨m₂, .installTrans 0 m₂.log.lh⟩ :=
      .commit (bind_eq_ok.mpr ⟨(), m₂, hhead, rfl⟩)
    have herased : Step ⟨m₃, .erase⟩ .commit ⟨m', .finish⟩ := by
      obtain ⟨_, m₄, hclear, hlast⟩ := bind_eq_ok.mp h
      exact .commit (bind_eq_ok.mpr ⟨(), m₄, hclear, bind_eq_ok.mpr ⟨(), m', hlast, rfl⟩⟩)
    exact (run_writeLog _ hwrite).trans ((Commits.one hheaded).trans
      ((run_installTrans _ hinst).trans (.one herased)))
  · next hpos =>
    rw [if_neg hpos]
    cases h
    exact ⟨0, .nil⟩

theorem run_endOp {m m' : Machine} (h : Xv6.endOp m = .ok () m') :
    ∃ n, Sys.Run Step ⟨m, .idle⟩ (.endOp :: List.replicate n .commit) ⟨m', .idle⟩ := by
  obtain ⟨_, m₀, hget, h⟩ := bind_eq_ok.mp h
  cases hget
  cases hend : m.log.endOp with
  | error e => rw [hend] at h; cases h
  | ok r =>
    obtain ⟨l, doCommit⟩ := r
    rw [hend] at h
    have hfirst := Sys.Run.one (Step.endOp (c := ⟨m, .idle⟩) hend)
    obtain ⟨_, m₁, hset, h⟩ := bind_eq_ok.mp h
    cases hset
    cases doCommit with
    | false => cases h; exact ⟨0, hfirst⟩
    | true =>
      obtain ⟨_, m₂, hcommit, h⟩ := bind_eq_ok.mp h
      have hlast : Step ⟨m₂, .finish⟩ .commit ⟨m', .idle⟩ := by
        obtain ⟨_, m₃, hget, hdone⟩ := bind_eq_ok.mp h
        cases hget
        cases hdone
        exact .commit rfl
      obtain ⟨n, hrun⟩ := (run_commit hcommit).trans (.one hlast)
      exact ⟨n, hfirst.trans hrun⟩

/-- The abstract machine: a logged write replaces a block. -/
def Event.next (S : Nat → Block) : Event → Nat → Block
  | .write b v => Function.update S b v
  | _ => S

/-! ## The invariant -/

/-- The blocks that are not up to date at home. -/
def Phase.pins (lh : List Nat) : Phase → List Nat
  | .idle | .writeLog _ _ | .writeHead => lh
  | .installTrans _ rest => rest
  | .erase | .finish => []

theorem Phase.pins_start (lh : List Nat) : (Phase.start lh).pins lh = lh := by
  unfold Phase.start
  split
  · rfl
  · next h => exact (List.eq_nil_of_length_eq_zero (by simpa using h)).symm

/-- The log blocks from `tail` on hold the store's versions of `bs`. -/
def InLog (m : Machine) (S : Nat → Block) (tail : Nat) (bs : List Nat) : Prop :=
  installWrites m.disk m.log.start tail bs = bs.map fun b => (b, S b)

/-- What a commit has achieved so far. -/
def Phase.Progress (m : Machine) (S : Nat → Block) : Phase → Prop
  | .idle => True
  | .writeLog tail rest => ∃ done, m.log.lh = done ++ rest ∧ done.length = tail ∧ InLog m S 0 done
  | .writeHead => InLog m S 0 m.log.lh
  | .installTrans tail rest =>
    ∃ done, m.log.lh = done ++ rest ∧ done.length = tail ∧ InLog m S tail rest
  | .erase => True
  | .finish => m.log.lh = []

structure Inv (start : Nat) (c : Client) (S : Nat → Block) : Prop where
  start_eq : c.m.log.start = start
  coherent : Coherent c.m S (c.phase.pins c.m.log.lh)
  nodup : c.m.log.lh.Nodup
  len : c.m.log.lh.length ≤ LOGBLOCKS
  home : ∀ b ∈ c.m.log.lh, ¬ c.m.log.area b
  committing : c.m.log.committing = false → c.phase = .idle
  alone : c.phase ≠ .idle → c.m.log.outstanding = 0
  progress : c.phase.Progress c.m S

variable {m m' : Machine} {S : Nat → Block} {c c' : Client} {start : Nat}

theorem Phase.Progress.congr {p : Phase} (h : p.Progress m S) (hlog : m'.log = m.log)
    (hdisk : m'.disk = m.disk) : p.Progress m' S := by
  cases p with
  | idle | erase => trivial
  | writeLog | writeHead | installTrans | finish =>
    simpa only [Phase.Progress, InLog, hlog, hdisk] using h

/-- The parts of the invariant that speak about `struct log` alone. -/
theorem Inv.of_log {p : Phase} (h : Inv start c S) (hp : p = c.phase ∨ c.phase ≠ .idle)
    (hlog : m'.log = c.m.log) (hco : Coherent m' S (p.pins c.m.log.lh)) (hprog : p.Progress m' S) :
    Inv start ⟨m', p⟩ S where
  start_eq := by rw [hlog]; exact h.start_eq
  coherent := by rw [hlog]; exact hco
  nodup := by rw [hlog]; exact h.nodup
  len := by rw [hlog]; exact h.len
  home := by rw [hlog]; exact h.home
  committing hc := by
    rw [hlog] at hc
    exact hp.elim (fun heq => heq.trans (h.committing hc)) fun hrun => absurd (h.committing hc) hrun
  alone hne := by
    rw [hlog]
    exact h.alone (hp.elim (fun heq => heq ▸ hne) id)
  progress := hprog

/-- A step of a client that leaves disk and log alone. -/
theorem Inv.frame (h : Inv start c S) (hco : Coherent m' S (c.phase.pins c.m.log.lh))
    (hlog : m'.log = c.m.log) (hdisk : m'.disk = c.m.disk) : Inv start ⟨m', c.phase⟩ S :=
  h.of_log (.inl rfl) hlog hco (h.progress.congr hlog hdisk)

/-! ## Steps of the commit -/

theorem InLog.append {tail : Nat} {bs bs' : List Nat} :
    InLog m S tail (bs ++ bs') ↔ InLog m S tail bs ∧ InLog m S (tail + bs.length) bs' := by
  induction bs generalizing tail with
  | nil => simp [InLog, installWrites]
  | cons b bs ih =>
    have heq : tail + (b :: bs).length = tail + 1 + bs.length := by
      simp only [List.length_cons]; omega
    simp only [InLog, List.cons_append, installWrites, List.map_cons, List.cons.injEq, heq] at ih ⊢
    rw [ih, and_assoc]

/-- Writes elsewhere leave log blocks alone. -/
theorem InLog.write {tail : Nat} {bs : List Nat} {w : Nat × Block} (h : InLog m S tail bs)
    (hwrote : Wrote m m' [w])
    (hne : ∀ t, tail ≤ t → t < tail + bs.length → m.log.start + t + 1 ≠ w.1) :
    InLog m' S tail bs := by
  unfold InLog at h ⊢
  rw [← h, hwrote.log]
  apply installWrites_congr
  intro t ht₁ ht₂
  rw [hwrote.disk, Writes.apply_of_not_mem]
  simpa using hne t ht₁ ht₂

theorem inv_copyToLog {tail b : Nat} {rest : List Nat} (h : Inv start ⟨m, .writeLog tail (b :: rest)⟩ S) :
    wp (copyToLog tail b) (fun _ m' => Inv start ⟨m', .writeLog (tail + 1) rest⟩ S)
      (fun _ _ => True) m := by
  obtain ⟨done, hlh, rfl, hin⟩ := h.progress
  have hlen := h.len
  have hmem : b ∈ m.log.lh := by simp [show m.log.lh = _ from hlh]
  have htail : done.length < LOGBLOCKS := by
    simp only [show m.log.lh = _ from hlh, List.length_append, List.length_cons] at hlen
    omega
  refine (wp_copyToLog h.coherent hmem htail).mono ?_ (fun _ _ _ => trivial)
  rintro _ m' ⟨hco, hwrote⟩
  refine h.of_log (.inr (by simp)) hwrote.log hco ⟨done ++ [b], ?_, by simp, ?_⟩
  · rw [hwrote.log, show m.log.lh = _ from hlh, List.append_assoc]
    rfl
  · refine InLog.append.mpr ⟨hin.write hwrote fun t _ ht => ?_, ?_⟩
    · simp only; omega
    · simp [InLog, installWrites, hwrote.disk, hwrote.log]

theorem inv_copyHome {tail b : Nat} {rest : List Nat}
    (h : Inv start ⟨m, .installTrans tail (b :: rest)⟩ S) :
    wp (copyHome false tail b) (fun _ m' => Inv start ⟨m', .installTrans (tail + 1) rest⟩ S)
      (fun _ _ => True) m := by
  obtain ⟨done, hlh, rfl, hin⟩ := h.progress
  have hlh : m.log.lh = done ++ b :: rest := hlh
  have hlen : m.log.lh.length ≤ LOGBLOCKS := h.len
  have hhome : ¬ m.log.area b := h.home b (by simp [hlh])
  have hnd : m.log.lh.Nodup := h.nodup
  rw [hlh] at hnd hlen
  simp only [List.length_append, List.length_cons] at hlen
  have hbs : b ∉ rest := (List.nodup_cons.mp (List.nodup_append.mp hnd).2.1).1
  simp only [InLog, installWrites, List.map_cons, List.cons.injEq, Prod.mk.injEq, true_and] at hin
  refine (wp_copyHome false h.coherent hhome hbs (by omega)).mono ?_ (fun _ _ _ => trivial)
  rintro _ m' ⟨hco, hwrote⟩
  -- The log block holds the store's version, so installing it does not change the store.
  rw [hin.1, Function.update_eq_self] at hco
  refine h.of_log (.inr (by simp)) hwrote.log hco ⟨done ++ [b], ?_, by simp, ?_⟩
  · rw [hwrote.log, hlh, List.append_assoc]
    rfl
  · refine InLog.write (m := m) hin.2 hwrote fun t ht₁ ht₂ heq => hhome ?_
    simp only at heq
    exact heq ▸ Log.area_logBlock (by omega)

theorem inv_commitStep {p : Phase} (h : Inv start ⟨m, p⟩ S) :
    wp (commitStep p) (fun p' m' => Inv start ⟨m', p'⟩ S) (fun _ _ => True) m := by
  cases p with
  | idle => exact wp_pure.mpr h
  | writeLog tail rest =>
    cases rest with
    | cons b rest =>
      simp only [commitStep, wp_bind, wp_pure]
      exact inv_copyToLog h
    | nil =>
      obtain ⟨done, hlh, rfl, hin⟩ := h.progress
      have hlh : m.log.lh = done := by simpa using hlh
      refine wp_pure.mpr (h.of_log (.inr (by simp)) rfl h.coherent ?_)
      simpa only [Phase.Progress, hlh] using hin
  | writeHead =>
    simp only [commitStep, wp_bind, wp_get, wp_pure]
    refine (wp_writeHead h.coherent).mono ?_ (fun _ _ _ => trivial)
    rintro _ m' ⟨hco, hwrote⟩
    rw [hwrote.log]
    refine h.of_log (.inr (by simp)) hwrote.log hco ⟨[], by rw [hwrote.log]; rfl, rfl, ?_⟩
    have hin : InLog m S 0 m.log.lh := h.progress
    exact hin.write hwrote fun t _ _ => by simp only; omega
  | installTrans tail rest =>
    cases rest with
    | cons b rest =>
      simp only [commitStep, wp_bind, wp_pure]
      exact inv_copyHome h
    | nil => exact wp_pure.mpr (h.of_log (.inr (by simp)) rfl h.coherent trivial)
  | erase =>
    simp only [commitStep, clearHead, setLog, wp_bind, wp_get, wp_modify, wp_pure]
    have hco : Coherent m S [] := h.coherent
    refine (wp_writeHead (hco.setLh [])).mono ?_ (fun _ _ _ => trivial)
    rintro _ m' ⟨hco', hwrote⟩
    have hlog : m'.log = m.log.setLh [] := hwrote.log
    have halone : m.log.outstanding = 0 := h.alone (by simp)
    refine ⟨?_, hco', ?_, ?_, ?_, ?_, ?_, ?_⟩
    all_goals simp only [hlog, Log.setLh_lh, Log.setLh_start, Log.setLh_committing,
      Log.setLh_outstanding]
    · exact h.start_eq
    · exact List.nodup_nil
    · exact Nat.zero_le _
    · exact fun _ hb => absurd hb List.not_mem_nil
    · exact fun hc => absurd (h.committing hc) (by simp)
    · exact fun _ => halone
    · rw [Phase.Progress, hlog, Log.setLh_lh]
  | finish =>
    simp only [commitStep, setLog, wp_bind, wp_get, wp_modify, wp_pure]
    have hlh : m.log.lh = [] := h.progress
    have hco : Coherent m S [] := h.coherent
    refine ⟨h.start_eq, ?_, h.nodup, h.len, h.home, fun _ => rfl, fun hne => absurd rfl hne, trivial⟩
    have hco' := hco.setLog (l := m.log.commitDone) rfl rfl
    rw [← hlh] at hco'
    exact hco'

/-! ## Simulation -/

theorem inv_beginOp {l : Log} (h : Inv start c S) (hbegin : c.m.log.beginOp = some l) :
    Inv start ⟨c.m.setLog l, c.phase⟩ S := by
  obtain ⟨hcom, -, rfl⟩ := Log.beginOp_some hbegin
  have hidle := h.committing hcom
  exact ⟨h.start_eq, h.coherent.setLog rfl rfl, h.nodup, h.len, h.home, fun _ => hidle,
    fun hne => absurd hidle hne, by rw [hidle]; trivial⟩

theorem inv_endOp {l : Log} {doCommit : Bool} (h : Inv start c S)
    (hend : c.m.log.endOp = .ok (l, doCommit)) :
    Inv start ⟨c.m.setLog l, if doCommit then .start l.lh else c.phase⟩ S := by
  obtain ⟨hcom, ⟨rfl, -, rfl⟩ | ⟨rfl, -, rfl⟩⟩ := Log.endOp_ok hend
  all_goals have hidle := h.committing hcom
  · have hco := h.coherent
    rw [hidle] at hco
    simp only [if_true, Phase.start]
    split
    · exact ⟨h.start_eq, hco.setLog rfl rfl, h.nodup, h.len, h.home, fun hc => absurd hc (by simp),
        fun _ => rfl, ⟨[], rfl, rfl, rfl⟩⟩
    · next hempty =>
      have hlh : c.m.log.lh = [] := List.eq_nil_of_length_eq_zero (by simpa using hempty)
      have hpins : Phase.pins c.m.log.lh .idle = [] := hlh
      rw [hpins] at hco
      exact ⟨h.start_eq, hco.setLog rfl rfl, h.nodup, h.len, h.home, fun hc => absurd hc (by simp),
        fun _ => rfl, hlh⟩
  · exact ⟨h.start_eq, h.coherent.setLog rfl rfl, h.nodup, h.len, h.home, fun _ => hidle,
      fun hne => absurd hidle hne, by simp only [Bool.false_eq_true, if_false, hidle]; trivial⟩

theorem logWrite_returns (i : Fin NBUF) (v : Block) :
    wp (do setData i v; logWrite i)
      (fun _ _ => ∃ r : Log × Bool, m.log.logWrite (m.buf i).blockno = .ok r) (fun _ _ => True) m := by
  simp only [setData, logWrite, modifyBuf, wp_bind, wp_get, wp_modify, Machine.setBuf_log,
    Machine.setBuf_buf_self]
  cases m.log.logWrite (m.buf i).blockno with
  | error e => exact wp_throw.mpr trivial
  | ok r =>
    obtain ⟨l, isNew⟩ := r
    cases isNew <;> simp [bpin, modifyBuf, setLog]

/-- A logged write. `log_write` panics while a commit is running, since no operation
is outstanding then. -/
theorem inv_write {b : Nat} {v : Block} {i : Fin NBUF} (h : Inv start c S) (hheld : Holds c.m i b)
    (hhome : ¬ c.m.log.area b)
    (hrun : (do setData i v; logWrite i : BioM Unit) c.m = .ok () m') :
    Inv start ⟨m', c.phase⟩ (Function.update S b v) := by
  by_cases hidle : c.phase = .idle
  · have hco := h.coherent
    rw [hidle] at hco ⊢
    obtain ⟨hco', -, ⟨isNew, hlog⟩, -⟩ := (wp_logWrite hco hheld hhome v).of_ok hrun
    have hnd := h.nodup
    obtain ⟨hroom, -, ⟨-, heq, -⟩ | ⟨-, heq, hmem⟩⟩ := Log.logWrite_ok hlog
    · refine ⟨?_, hco', ?_, ?_, ?_, fun _ => rfl, fun hne => absurd rfl hne, trivial⟩
      all_goals rw [heq]
      · exact h.start_eq
      · exact h.nodup
      · exact h.len
      · exact h.home
    · refine ⟨?_, hco', ?_, ?_, hco'.home, fun _ => rfl, fun hne => absurd rfl hne, trivial⟩
      all_goals rw [heq]
      · exact h.start_eq
      all_goals rw [Log.setLh_lh]
      · refine List.nodup_append.mpr ⟨h.nodup, by simp, ?_⟩
        rintro x hx y hy rfl
        exact hmem (List.mem_singleton.mp hy ▸ hx)
      · rw [List.length_append, List.length_singleton]
        exact hroom
  · obtain ⟨r, hok⟩ := (logWrite_returns (m := c.m) i v).of_ok hrun
    have hout := (Log.logWrite_ok hok).2.1
    rw [h.alone hidle] at hout
    exact absurd hout (by decide)

theorem inv_step {e : Event} (h : Inv start c S) (hstep : Step c e c') : Inv start c' (e.next S) := by
  cases hstep with
  | beginOp hrun =>
    obtain ⟨l, hbegin, rfl⟩ := wp_beginOp.of_ok hrun
    exact inv_beginOp h hbegin
  | endOp hrun => exact inv_endOp h hrun
  | read hrun =>
    obtain ⟨hco, -, hf, -⟩ := (wp_bread h.coherent _).of_ok hrun
    exact h.frame hco hf.log hf.disk
  | write hheld hhome hrun => exact inv_write h (h.coherent.holds hheld) hhome hrun
  | release hrun =>
    have hheld := h.coherent.holds (brelse_locked.of_ok hrun)
    obtain ⟨hco, hf, -⟩ := (wp_brelse h.coherent hheld).of_ok hrun
    exact h.frame hco hf.log hf.disk
  | commit hrun => exact (inv_commitStep h).of_ok hrun

/-- `initlog`: the machine once recovery has finished. -/
def initlog (start : Nat) (d : Nat → Block) : Machine := final recoverFromLog (boot start d)

theorem idle_initlog {start : Nat} {d : Nat → Block} (h : Image start d S) :
    Idle (initlog start d) S ∧ (initlog start d).log.start = start :=
  wp.final (P := fun m' : Machine => Idle m' S ∧ m'.log.start = start)
    ((wp_recoverFromLog_boot h).total fun _ _ hr => ⟨hr.1, hr.2.1⟩)

theorem Inv.of_idle (h : Idle m S) : Inv m.log.start ⟨m, .idle⟩ S := by
  have hlog := h.log
  have hlh : m.log.lh = [] := by rw [hlog]
  refine ⟨rfl, ?_, ?_, ?_, ?_, fun _ => rfl, fun hne => absurd rfl hne, trivial⟩
  · simpa only [Phase.pins, hlh] using h.coherent
  all_goals simp [hlh]

/-! ## Transactions -/

/-- An update is a read, a write and a release. -/
theorem run_updateBlock {b : Nat} {v : Block} {m' : Machine} (h : Inv start c S) (hb : ¬ logArea start b)
    (hrun : updateBlock b v c.m = .ok () m') :
    ∃ old b' c₁ c₂, Step c (.read b old) c₁ ∧ Step c₁ (.write b v) c₂ ∧ Step c₂ (.release b') ⟨m', c.phase⟩ := by
  obtain ⟨_, _, hget, hrun⟩ := bind_eq_ok.mp hrun
  cases hget
  obtain ⟨i, m₁, hread, hrun⟩ := bind_eq_ok.mp hrun
  obtain ⟨_, m₂', hset, hrun⟩ := bind_eq_ok.mp hrun
  obtain ⟨_, m₂, hlog, hrel⟩ := bind_eq_ok.mp hrun
  have hwrite : (do setData i v; logWrite i : BioM Unit) m₁ = .ok () m₂ := bind_eq_ok.mpr ⟨_, _, hset, hlog⟩
  obtain ⟨-, hheld, hf, -⟩ := (wp_bread h.coherent b).of_ok hread
  obtain ⟨-, rfl, hlocked⟩ := hheld
  have hhome : ¬ m₁.log.area (m₁.buf i).blockno := by rwa [hf.log, Log.area, h.start_eq]
  exact ⟨_, _, _, _, .read hread, .write (c := ⟨m₁, c.phase⟩) hlocked hhome hwrite,
    .release (c := ⟨m₂, c.phase⟩) hrel⟩

theorem run_updates (us : List (Nat × Block)) : ∀ {c : Client} {S : Nat → Block} {m' : Machine},
    Inv start c S → (∀ u ∈ us, ¬ logArea start u.1) →
    us.forM (fun u => updateBlock u.1 u.2) c.m = .ok () m' →
    ∃ es, Sys.Run Step c es ⟨m', c.phase⟩ ∧ ∀ S, es.foldl Event.next S = Writes.apply us S := by
  induction us with
  | nil =>
    intro c S m' _ _ hrun
    cases hrun
    exact ⟨[], .nil, fun _ => rfl⟩
  | cons u us ih =>
    intro c S m' h hhome hrun
    obtain ⟨hu, hhome⟩ := List.forall_mem_cons.mp hhome
    obtain ⟨_, m₁, hupdate, hrun⟩ := bind_eq_ok.mp hrun
    obtain ⟨old, b', c₁, c₂, hread, hwrite, hrel⟩ := run_updateBlock h hu hupdate
    obtain ⟨es, hrest, hes⟩ := ih (inv_step (inv_step (inv_step h hread) hwrite) hrel) hhome hrun
    exact ⟨_, (((Sys.Run.one hread).snoc hwrite).snoc hrel).trans hrest, fun S => hes _⟩

/-- A transaction that returns is a run of the clients and the committing process. -/
theorem run_txn (t : Txn start) {m' : Machine} (h : Inv start ⟨m, .idle⟩ S) (hrun : t.run m = .ok () m') :
    ∃ es, Sys.Run Step ⟨m, .idle⟩ es ⟨m', .idle⟩ ∧ ∀ S, es.foldl Event.next S = t.apply S := by
  obtain ⟨_, m₁, hbegin, hrun⟩ := bind_eq_ok.mp hrun
  obtain ⟨_, m₂, hupdates, hend⟩ := bind_eq_ok.mp hrun
  have hfirst : Step ⟨m, .idle⟩ .beginOp ⟨m₁, .idle⟩ := .beginOp hbegin
  obtain ⟨es, hmid, hes⟩ := run_updates t.updates (inv_step h hfirst) t.home hupdates
  obtain ⟨n, hlast⟩ := run_endOp hend
  refine ⟨_, ((Sys.Run.one hfirst).trans hmid).trans hlast, fun S => ?_⟩
  have hcommits : ∀ (n : Nat) (S : Nat → Block), (List.replicate n Event.commit).foldl Event.next S = S := by
    intro n
    induction n with
    | zero => exact fun _ => rfl
    | succ n ih => exact ih
  rw [List.foldl_append, List.foldl_append, List.foldl_cons, hcommits, Txn.apply, ← hes]
  rfl

/-- What a read returns: the store's version of the block. -/
theorem Inv.read {b : Nat} {v : Block} (h : Inv start c S) (hstep : Step c (.read b v) c')
    (hb : ¬ logArea start b) : v = S b := by
  cases hstep with
  | read hrun =>
    obtain ⟨hco, hi, hf, -⟩ := (wp_bread h.coherent _).of_ok hrun
    rw [hco.data hi, Machine.version, if_neg]
    rwa [hf.log, Log.area, h.start_eq]

/-- Cache and log refine a plain block store. From the state that `initlog` leaves,
along any run, a `bread` of a block outside the log area returns the last version
that was logged, or what was on disk if there is none. When `commit` has returned,
the disk holds these versions. -/
theorem cache_refines_store {start : Nat} {d : Nat → Block} (h : Image start d S)
    {es : List Event} (hrun : Sys.Run Step ⟨initlog start d, .idle⟩ es c) :
    (∀ b v c', ¬ logArea start b → Step c (.read b v) c' →
      v = es.foldl Event.next (initlog start d).disk b) ∧
    (c.phase = .finish → ∀ b, ¬ logArea start b →
      c.m.disk b = es.foldl Event.next (initlog start d).disk b) := by
  obtain ⟨hidle, hstart⟩ := idle_initlog h
  have hinit := Inv.of_idle hidle.self
  rw [hstart] at hinit
  have hinv := hrun.simulates (fun _ _ _ _ => inv_step) hinit
  refine ⟨fun b v c' hb hstep => hinv.read hstep hb, fun hfin b hb => ?_⟩
  apply hinv.coherent.clean
  · rw [hfin]; exact List.not_mem_nil
  · rwa [Log.area, hinv.start_eq]

/-- On a zeroed disk, a transaction fills a block and commits. The block is on disk then, and a
`bread` returns it. -/
theorem cache_refines_store_fillOne :
    ∃ es c v c', Sys.Run Step ⟨initlog 2 fun _ _ => 0, .idle⟩ es c ∧
      (∀ S, es.foldl Event.next S = Txn.fillOne.apply S) ∧ c.m.disk 40 = (fun _ => 7) ∧
      Step c (.read 40 v) c' ∧ v = fun _ => 7 := by
  have himage : Image 2 (fun _ _ => 0) (fun _ _ => 0) := Image.of_empty (by decide) fun _ _ => rfl
  obtain ⟨hidle, hstart⟩ := idle_initlog himage
  have hinit := Inv.of_idle hidle
  rw [hstart] at hinit
  have hroom : (logged Txn.fillOne.updates).length < NBUF := by decide
  obtain ⟨_, m', htxn, hidle', -⟩ := ((Txn.fillOne.wp_run hidle hstart).mono (fun _ _ h => h)
    fun _ _ hcut => hcut.2 hroom).returns
  obtain ⟨es, hrun, hes⟩ := run_txn Txn.fillOne hinit htxn
  obtain ⟨i, m₁, hread, -⟩ := ((wp_bread hidle'.coherent 40).mono (fun _ _ h => h)
    fun _ _ hs => hs.1.not_quiet hidle'.coherent ⟨hidle'.quiet, by decide⟩).returns
  have hstep : Step ⟨m', .idle⟩ (.read 40 (m₁.buf i).data) ⟨m₁, .idle⟩ := .read hread
  refine ⟨es, _, _, _, hrun, hes, ?_, hstep, ?_⟩
  · have hstart' : m'.log.start = 2 := (hrun.simulates (fun _ _ _ _ => inv_step) hinit).start_eq
    have hhome : ¬ m'.log.area 40 := by
      rw [Log.area, hstart']
      decide
    rw [hidle'.clean 40 hhome]
    rfl
  · rw [(cache_refines_store himage hrun).1 40 _ _ (by decide) hstep, hes]
    rfl

end Xv6.Store
