-- SUMMARY: Buffers for commit: operations within their budget may pin the whole cache, and then commit finds no buffer.
import Xv6.Log.Store

/-!
# Buffers for commit

Logged blocks stay pinned until `install_trans`, and `commit` needs a buffer for the
log block besides. The system here is that of `Store`, with processes that keep to the
rules: they log only inside operations, and at most `MAXOPBLOCKS` distinct blocks in
each. `NBUF` is as large as `LOGBLOCKS`, so a full log leaves no buffer.
-/

namespace Xv6.Store

open Prog

/-! ## Operations within their budget -/

/-- The clients, and for each process the distinct blocks that its current operation
has logged. -/
structure Ops (n : Nat) where
  client : Client
  ops : Fin n → Option (List Nat)

variable {n : Nat}

/-- What an event does to the account of its process. `none` is against the rules. -/
def account : Option (List Nat) → Event → Option (Option (List Nat))
  | none, .beginOp => some (some [])
  | some ws, .write b _ =>
    if (ws.insert b).length ≤ MAXOPBLOCKS then some (some (ws.insert b)) else none
  | some _, .endOp => some none
  | o, .read _ _ => some o
  | o, .release _ => some o
  | o, .commit => some o
  | _, _ => none

theorem account_read (o : Option (List Nat)) (b : Nat) (v : Block) :
    account o (.read b v) = some o := by cases o <;> rfl

theorem account_release (o : Option (List Nat)) (b : Nat) : account o (.release b) = some o := by
  cases o <;> rfl

/-- A process takes a step and keeps to the rules. -/
inductive OpStep : Ops n → Fin n × Event → Ops n → Prop
  | step {s : Ops n} {p : Fin n} {e : Event} {c' : Client} {o : Option (List Nat)}
      (hstep : Step s.client e c') (hrule : account (s.ops p) e = some o) :
      OpStep s (p, e) ⟨c', Function.update s.ops p o⟩

/-- A step that leaves the account of its process alone. -/
theorem OpStep.same {s : Ops n} {p : Fin n} {e : Event} {c' : Client} (hstep : Step s.client e c')
    (hrule : account (s.ops p) e = some (s.ops p)) : OpStep s (p, e) ⟨c', s.ops⟩ := by
  have h := OpStep.step hstep hrule
  rwa [Function.update_eq_self] at h

/-- Right after `initlog`. -/
def opened (start : Nat) (d : Nat → Block) : Ops n := ⟨⟨initlog start d, .idle⟩, fun _ => none⟩

variable {m : Machine} {S : Nat → Block} {start : Nat} {d : Nat → Block}

theorem inv_ops (h : Image start d S) {es : List (Fin n × Event)} {s : Ops n}
    (hrun : Sys.Run OpStep (opened start d) es s) : ∃ S', Inv start s.client S' := by
  obtain ⟨hidle, hstart⟩ := idle_initlog h
  have hinit := Inv.of_idle hidle
  rw [hstart] at hinit
  refine hrun.invariant (I := fun s => ∃ S', Inv start s.client S') ?_ ⟨S, hinit⟩
  rintro t ⟨p, e⟩ u ⟨S', hinv⟩ ⟨hstep, -⟩
  exact ⟨_, inv_step hinv hstep⟩

/-! ## A cache full of pinned blocks -/

/-- Every pinned block takes up a buffer of its own. -/
theorem pins_length_le {pins : List Nat} (hnd : pins.Nodup)
    (h : ∀ b ∈ pins, ∃ i, (m.buf i).blockno = b) : pins.length ≤ NBUF := by
  have hsub : pins ⊆ (List.finRange NBUF).map fun i => (m.buf i).blockno := by
    intro b hb
    obtain ⟨i, hi⟩ := h b hb
    exact List.mem_map.mpr ⟨i, List.mem_finRange i, hi⟩
  simpa using (hnd.subperm hsub).length_le

theorem bread_full {pins : List Nat} (h : Coherent m S pins) (hq : Quiet m) (hnd : pins.Nodup)
    (hfull : NBUF ≤ pins.length) {b : Nat} (hb : b ∉ pins) :
    wp (bread m.log.dev b) (fun _ _ => False) (fun e _ => e = .noBuffers) m := by
  refine (wp_bread h b).mono ?_ ?_
  · rintro i m' ⟨h', hi, -, -⟩
    have hle : (b :: pins).length ≤ NBUF := by
      refine pins_length_le (m := m') (List.nodup_cons.mpr ⟨hb, hnd⟩) fun c hc => ?_
      rcases List.mem_cons.mp hc with rfl | hc
      · exact ⟨i, hi.blockno⟩
      · obtain ⟨j, -, hj⟩ := h'.pinned c hc
        exact ⟨j, hj⟩
    simp only [List.length_cons] at hle
    omega
  · rintro e m' ⟨hs, -⟩
    cases hs with
    | busy hi => simpa [hq _] using hi.locked
    | full => rfl

/-- With the cache full, `commit` panics before it has written anything. -/
theorem commit_full {m : Machine} (h : Coherent m S m.log.lh) (hq : Quiet m)
    (hnd : m.log.lh.Nodup) (hfull : NBUF ≤ m.log.lh.length) :
    wp commit (fun _ _ => False) (fun e _ => e = .noBuffers) m := by
  have hpos : 0 < m.log.lh.length := Nat.lt_of_lt_of_le (by decide) hfull
  have hlog : m.log.area (m.log.start + 0 + 1) := Log.area_logBlock (l := m.log) (by decide : 0 < LOGBLOCKS)
  have harea : m.log.start + 0 + 1 ∉ m.log.lh := fun hmem => h.home _ hmem hlog
  simp only [commit, writeLog, wp_bind, wp_get, hpos, gt_iff_lt, if_true]
  obtain ⟨b, bs, hlh⟩ := List.exists_cons_of_length_pos hpos
  rw [hlh, writeLogFrom, wp_bind, copyToLog, wp_bind, wp_get, wp_bind]
  exact (bread_full h hq hnd hfull harea).mono (fun _ _ hf => hf.elim) (fun _ _ he => he)

/-- With a buffer to spare, `commit` returns. -/
theorem commit_returns (h : Coherent m S m.log.lh) (hq : Quiet m) (hnd : m.log.lh.Nodup)
    (hlen : m.log.lh.length ≤ LOGBLOCKS) (hroom : m.log.lh.length < NBUF) :
    ∃ m', commit m = .ok () m' := by
  by_cases hpos : 0 < m.log.lh.length
  · have hrun : wp commit (fun _ _ => True) (fun _ _ => False) m :=
      (wp_commit h hnd hlen hpos).mono (fun _ _ _ => trivial) (fun _ _ hcut => hcut.2 ⟨hq, hroom⟩)
    obtain ⟨_, m', hok, -⟩ := hrun.returns
    exact ⟨m', hok⟩
  · refine ⟨m, bind_eq_ok.mpr ⟨m, m, rfl, ?_⟩⟩
    rw [if_neg hpos]
    rfl

/-- In every state that operations within their budget can reach, `commit` run with no
buffer held returns exactly if the log is shorter than the cache. Otherwise it panics
with `bget: no buffers`. -/
theorem commit_finds_buffers_iff (h : Image start d S) {es : List (Fin n × Event)} {s : Ops n}
    (hrun : Sys.Run OpStep (opened start d) es s)
    (hphase : s.client.phase = .start s.client.m.log.lh) (hq : Quiet s.client.m) :
    ((∃ m', commit s.client.m = .ok () m') ↔ s.client.m.log.lh.length < NBUF) ∧
    ((∃ m', commit s.client.m = .error .noBuffers m') ↔ NBUF ≤ s.client.m.log.lh.length) := by
  obtain ⟨S', hinv⟩ := inv_ops h hrun
  have hco := hinv.coherent
  rw [hphase, Phase.pins_start] at hco
  have hreturns := commit_returns hco hq hinv.nodup hinv.len
  have hpanics := commit_full hco hq hinv.nodup
  refine ⟨⟨?_, hreturns⟩, ⟨?_, fun hfull => ?_⟩⟩
  · rintro ⟨m', hok⟩
    by_contra hfull
    exact (hpanics (Nat.not_lt.mp hfull)).of_ok hok
  · rintro ⟨m', herr⟩
    by_contra hroom
    obtain ⟨m'', hok⟩ := hreturns (Nat.not_le.mp hroom)
    rw [hok] at herr
    cases herr
  · obtain ⟨e, m', herr, rfl⟩ := (hpanics hfull).stops
    exact ⟨m', herr⟩

/-! ## A run that fills the log -/

/-- What a process does between two points of interest. -/
inductive Cmd
  | beginOp
  | update (b : Nat) (v : Block)
  | endOp

/-- Run a command of process `p`, if it keeps to the rules and nothing stops it. -/
def command (s : Ops n) : Fin n × Cmd → Option (Ops n)
  | (p, .beginOp) =>
    match account (s.ops p) .beginOp, beginOp s.client.m with
    | some o, .ok () m' => some ⟨⟨m', s.client.phase⟩, Function.update s.ops p o⟩
    | _, _ => none
  | (p, .update b v) =>
    if s.client.m.log.area b then none
    else
      match account (s.ops p) (.write b v), updateBlock b v s.client.m with
      | some o, .ok () m' => some ⟨⟨m', s.client.phase⟩, Function.update s.ops p o⟩
      | _, _ => none
  | (p, .endOp) =>
    match account (s.ops p) .endOp, s.client.m.log.endOp with
    | some o, .ok (l, doCommit) =>
      some ⟨⟨s.client.m.setLog l, if doCommit then .start l.lh else s.client.phase⟩,
        Function.update s.ops p o⟩
    | _, _ => none

theorem OpStep.update {s : Ops n} {p : Fin n} {b : Nat} {v : Block} {m' : Machine}
    {o : Option (List Nat)} (h : Inv start s.client S) (hb : ¬ s.client.m.log.area b)
    (hrule : account (s.ops p) (.write b v) = some o) (hrun : updateBlock b v s.client.m = .ok () m') :
    ∃ es, Sys.Run OpStep s es ⟨⟨m', s.client.phase⟩, Function.update s.ops p o⟩ := by
  rw [Log.area, h.start_eq] at hb
  obtain ⟨old, b', c₁, c₂, hread, hwrite, hrel⟩ := run_updateBlock h hb hrun
  have hstep₁ := OpStep.same (p := p) hread (account_read _ _ _)
  have hstep₂ := OpStep.step (s := ⟨c₁, s.ops⟩) (p := p) hwrite hrule
  have hstep₃ := OpStep.same (s := ⟨c₂, Function.update s.ops p o⟩) (p := p) hrel (account_release _ _)
  exact ⟨_, ((Sys.Run.one hstep₁).snoc hstep₂).snoc hstep₃⟩

theorem run_command {s s' : Ops n} {a : Fin n × Cmd} (h : Inv start s.client S)
    (hcmd : command s a = some s') : ∃ es, Sys.Run OpStep s es s' := by
  obtain ⟨p, c⟩ := a
  cases c with
  | beginOp =>
    simp only [command] at hcmd
    split at hcmd
    · next hrule hrun =>
      cases hcmd
      exact ⟨_, .one (.step (.beginOp hrun) hrule)⟩
    · cases hcmd
  | update b v =>
    simp only [command] at hcmd
    split at hcmd
    · cases hcmd
    · next hb =>
      split at hcmd
      · next hrule hrun =>
        cases hcmd
        exact OpStep.update h hb hrule hrun
      · cases hcmd
  | endOp =>
    simp only [command] at hcmd
    split at hcmd
    · next hrule hrun =>
      cases hcmd
      exact ⟨_, .one (.step (.endOp hrun) hrule)⟩
    · cases hcmd

theorem run_commands (h : Image start d S) {as : List (Fin n × Cmd)} {s : Ops n}
    (hexec : Sys.exec command (opened start d) as = some s) :
    ∃ es, Sys.Run OpStep (opened start d) es s := by
  have hrun := Sys.exec_run hexec
  clear hexec
  induction hrun with
  | nil => exact ⟨[], .nil⟩
  | snoc _ hst ih =>
    obtain ⟨es, hfirst⟩ := ih
    obtain ⟨S', hinv⟩ := inv_ops h hfirst
    obtain ⟨es', hlast⟩ := run_command hinv hst
    exact ⟨es ++ es', hfirst.trans hlast⟩

/-- Three operations that each log ten blocks of their own. -/
def fillCache : List (Fin 3 × Cmd) :=
  (List.finRange 3).map (·, .beginOp) ++
    ((List.finRange 3).flatMap fun p =>
      (List.range 10).map fun j => (p, .update (100 + 10 * p + j) fun _ => 7)) ++
    (List.finRange 3).map (·, .endOp)

/-- The three operations keep to their budgets, and the last one to end commits. All
buffers are pinned then, and `commit` panics. -/
theorem commit_starves :
    ∃ (es : List (Fin 3 × Event)) (s : Ops 3) (m' : Machine),
      Sys.Run OpStep (opened 2 fun _ _ => 0) es s ∧
      s.client.phase = .start s.client.m.log.lh ∧ Quiet s.client.m ∧
      commit s.client.m = .error .noBuffers m' := by
  have hcheck : (Sys.exec command (opened 2 fun _ _ => 0) fillCache).any (fun s =>
      s.client.phase = .start s.client.m.log.lh ∧ (∀ i, (s.client.m.buf i).locked = false) ∧
        NBUF ≤ s.client.m.log.lh.length) = true := by decide +kernel
  obtain ⟨s, hexec, hs⟩ := Sys.exists_of_any hcheck
  obtain ⟨hphase, hq, hfull⟩ := of_decide_eq_true hs
  have himage : Image 2 (fun _ _ => 0) (fun _ _ => 0) := Image.of_empty (by decide) fun _ _ => rfl
  obtain ⟨es, hrun⟩ := run_commands himage hexec
  obtain ⟨S', hinv⟩ := inv_ops himage hrun
  have hco := hinv.coherent
  rw [hphase, Phase.pins_start] at hco
  obtain ⟨e, m', herr, rfl⟩ := (commit_full hco hq hinv.nodup hfull).stops
  exact ⟨es, s, m', hrun, hphase, hq, herr⟩

/-- One operation with one update: `commit` returns. -/
theorem commit_finds_buffers_iff_single :
    ∃ (es : List (Fin 1 × Event)) (s : Ops 1),
      Sys.Run OpStep (opened 2 fun _ _ => 0) es s ∧ Quiet s.client.m ∧
      ((∃ m', commit s.client.m = .ok () m') ↔ s.client.m.log.lh.length < NBUF) := by
  have hcheck : (Sys.exec command (opened 2 fun _ _ => 0)
      [((0 : Fin 1), .beginOp), (0, .update 100 fun _ => 7), (0, .endOp)]).any (fun s =>
        s.client.phase = .start s.client.m.log.lh ∧
          ∀ i, (s.client.m.buf i).locked = false) = true := by decide +kernel
  obtain ⟨s, hexec, hs⟩ := Sys.exists_of_any hcheck
  obtain ⟨hphase, hq⟩ := of_decide_eq_true hs
  have himage : Image 2 (fun _ _ => 0) (fun _ _ => 0) := Image.of_empty (by decide) fun _ _ => rfl
  obtain ⟨es, hrun⟩ := run_commands himage hexec
  exact ⟨es, s, hrun, hq, (commit_finds_buffers_iff himage hrun hphase hq).1⟩

end Xv6.Store
