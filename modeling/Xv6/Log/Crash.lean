-- SUMMARY: Crash atomicity of the redo log: what recovery finds after a crash at any block write.
import Xv6.Log.Commit

/-!
# Crashes and recovery

A crash keeps a prefix of the block writes issued so far and loses everything in
memory. `Image start d S` says that the disk image `d` stands for the store `S`:
if its header is replayed, every block outside the log area is as in `S`. Both a
crash inside `commit` and a crash inside `recover_from_log` lead from images to
images, and the store changes at one write only, the one that puts a nonempty
header on disk.
-/

namespace Xv6

open Prog

/-! ## Disk images -/

/-- The home writes that recovery of `d` performs. -/
def replay (start : Nat) (d : Nat → Block) : List (Nat × Block) :=
  installWrites d start 0 (LogHeader.decode (d start))

structure Image (start : Nat) (d S : Nat → Block) : Prop where
  home : ∀ b ∈ LogHeader.decode (d start), ¬ logArea start b
  nodup : (LogHeader.decode (d start)).Nodup
  len : (LogHeader.decode (d start)).length ≤ LOGBLOCKS
  store : ∀ b, ¬ logArea start b → Writes.apply (replay start d) d b = S b

variable {start : Nat} {d S store : Nat → Block} {lh : List Nat} {ws ws' : List (Nat × Block)}

theorem logArea_start (start : Nat) : logArea start start :=
  ⟨Nat.le_refl _, Nat.le_add_right _ _⟩

/-- Home writes leave the log area alone. -/
theorem apply_logArea {b : Nat} (hws : ∀ w ∈ ws, ¬ logArea start w.1) (hb : logArea start b) :
    Writes.apply ws d b = d b := by
  apply Writes.apply_of_not_mem
  intro hmem
  obtain ⟨w, hw, rfl⟩ := List.mem_map.mp hmem
  exact hws w hw hb

/-- Replaying depends on the log area only. -/
theorem replay_congr {d d' : Nat → Block} (hlen : (LogHeader.decode (d start)).length ≤ LOGBLOCKS)
    (h : ∀ b, logArea start b → d b = d' b) : replay start d = replay start d' := by
  unfold replay
  rw [← h start (logArea_start start)]
  apply installWrites_congr
  intro t _ ht
  apply h
  constructor <;> omega

/-- An image with an empty header is its own store. -/
theorem Image.of_empty (hempty : LogHeader.decode (d start) = [])
    (h : ∀ b, ¬ logArea start b → d b = S b) : Image start d S where
  home := by simp [hempty]
  nodup := by simp [hempty]
  len := by simp [hempty]
  store := by simpa [replay, hempty, installWrites] using h

theorem replay_home (h : Image start d S) : ∀ w ∈ replay start d, ¬ logArea start w.1 := by
  intro w hw
  apply h.home
  have hkey : w.1 ∈ (replay start d).map Prod.fst := List.mem_map_of_mem hw
  rwa [replay, installWrites_keys] at hkey

/-- Part of the replay may already have reached the disk. -/
theorem Image.replay_part (h : Image start d S) (hpre : ws <+: replay start d) :
    Image start (Writes.apply ws d) S := by
  have hsub : ∀ w ∈ ws, w ∈ replay start d := fun w hw => hpre.subset hw
  have hlog : ∀ b, logArea start b → Writes.apply ws d b = d b :=
    fun b hb => apply_logArea (fun w hw => replay_home h w (hsub w hw)) hb
  have hhead := hlog start (logArea_start start)
  have hreplay : replay start (Writes.apply ws d) = replay start d :=
    (replay_congr h.len fun b hb => (hlog b hb).symm).symm
  refine ⟨by rw [hhead]; exact h.home, by rw [hhead]; exact h.nodup,
    by rw [hhead]; exact h.len, fun b hb => ?_⟩
  rw [hreplay, Writes.apply_redo]
  · exact h.store b hb
  · intro k hk
    obtain ⟨w, hw, rfl⟩ := List.mem_map.mp hk
    exact List.mem_map_of_mem (hsub w hw)

/-! ## recover_from_log -/

/-- Everything `recover_from_log` writes. -/
def recoverWrites (start : Nat) (d : Nat → Block) : List (Nat × Block) :=
  replay start d ++ [(start, LogHeader.encode (d start) [])]

theorem LogHeader.decode_encode_nil (b : Block) : LogHeader.decode (LogHeader.encode b []) = [] :=
  LogHeader.decode_encode (by simp) (by simp)

/-- The image after a complete recovery. -/
theorem Image.recovered (h : Image start d S) :
    LogHeader.decode (Writes.apply (recoverWrites start d) d start) = [] ∧
      ∀ b, ¬ logArea start b → Writes.apply (recoverWrites start d) d b = S b := by
  constructor
  · rw [recoverWrites, Writes.apply_snoc, Function.update_self]
    exact LogHeader.decode_encode_nil _
  · intro b hb
    have hne : b ≠ start := fun heq => hb (heq ▸ logArea_start start)
    rw [recoverWrites, Writes.apply_snoc, Function.update_of_ne hne]
    exact h.store b hb

/-- An interrupted recovery leaves an image of the same store. -/
theorem Image.recover_part (h : Image start d S) (hpre : ws <+: recoverWrites start d) :
    Image start (Writes.apply ws d) S := by
  rcases List.prefix_concat_iff.mp hpre with heq | hpre
  · obtain ⟨hempty, hstore⟩ := h.recovered
    rw [heq]
    exact Image.of_empty hempty hstore
  · exact h.replay_part hpre

/-- Between transactions: nothing is logged or pinned, nobody is in an operation,
and the header on disk is empty. -/
structure Idle (m : Machine) (S : Nat → Block) : Prop where
  coherent : Coherent m S []
  quiet : Quiet m
  log : m.log = ⟨m.log.start, m.log.dev, 0, false, []⟩
  head : LogHeader.decode (m.disk m.log.start) = []

theorem Idle.clean {m : Machine} (h : Idle m S) (b : Nat) (hb : ¬ m.log.area b) :
    m.disk b = S b :=
  h.coherent.clean b List.not_mem_nil hb

/-- An idle machine stores what is on its disk. -/
theorem Idle.self {m : Machine} (h : Idle m S) : Idle m m.disk :=
  ⟨h.coherent.congr_home fun b hb => (h.clean b hb).symm, h.quiet, h.log, h.head⟩

/-- Recovery completes from every image and leaves the machine idle. -/
theorem wp_recoverFromLog {m : Machine} (h : Coherent m m.disk []) (hquiet : Quiet m)
    (hlog : m.log = ⟨m.log.start, m.log.dev, 0, false, m.log.lh⟩)
    (himage : Image m.log.start m.disk S) :
    wp recoverFromLog
      (fun _ m' => Idle m' S ∧ m'.log.start = m.log.start ∧
        m'.disk = Writes.apply (recoverWrites m.log.start m.disk) m.disk ∧
        m'.writes = m.writes ++ recoverWrites m.log.start m.disk)
      (fun _ _ => False) m := by
  simp only [recoverFromLog, installTrans, clearHead, setLog, wp_bind, wp_get, wp_modify]
  have hroom : ([] : List Nat).length < NBUF := by decide
  refine (wp_readHead h ⟨hquiet, hroom⟩).total ?_
  rintro _ m₁ ⟨h₁, hq₁, hd₁, hw₁, hlog₁⟩
  have hlh : m₁.log.lh = LogHeader.decode (m.disk m.log.start) := by rw [hlog₁, Log.setLh_lh]
  have hstart : m₁.log.start = m.log.start := by rw [hlog₁, Log.setLh_start]
  have hhome : ∀ b ∈ m₁.log.lh, ¬ logArea m₁.log.start b := by
    rw [hlh, hstart]; exact himage.home
  have hrun := wp_installTransFrom true m₁.log.lh 0 m.disk m₁
    (by simpa [stillPinned] using h₁) hhome (by rw [hlh]; exact himage.nodup)
    (by rw [hlh, Nat.zero_add]; exact himage.len)
  have hreplay : installWrites m₁.disk m₁.log.start 0 m₁.log.lh = replay m.log.start m.disk := by
    rw [hd₁, hstart, hlh, replay]
  rw [hreplay] at hrun
  refine hrun.mono ?_ (fun e m' hcut => hcut.2 ⟨hq₁, by simp [stillPinned, NBUF, MAXOPBLOCKS]⟩)
  rintro _ m₂ ⟨h₂, hwrote⟩
  have hhead : m₂.disk m.log.start = m.disk m.log.start := by
    rw [hwrote.disk, hd₁]
    exact apply_logArea (replay_home himage) (logArea_start _)
  have hlast := wp_writeHead (h₂.setLh [])
  simp only [hwrote.log, Machine.setLog_log, Machine.setLog_disk, Log.setLh_start, Log.setLh_lh,
    hstart, hhead] at hlast
  rw [hwrote.log]
  refine hlast.mono ?_ (fun e m' hcut => hcut.2 ⟨hwrote.quiet hq₁, hroom⟩)
  rintro _ m₃ ⟨h₃, hwrote₃⟩
  have hlog₃ : m₃.log = m.log.setLh [] := by
    rw [hwrote₃.log, Machine.setLog_log, hlog₁, Log.setLh_setLh]
  have hstart₃ : m₃.log.start = m.log.start := by rw [hlog₃, Log.setLh_start]
  have hdisk : m₃.disk = Writes.apply (recoverWrites m.log.start m.disk) m.disk := by
    rw [hwrote₃.disk, recoverWrites, Writes.apply_append, Machine.setLog_disk, hwrote.disk, hd₁]
  refine ⟨⟨?_, ?_, ?_, ?_⟩, hstart₃, hdisk, ?_⟩
  · apply h₃.congr_home
    intro b hb
    exact himage.store b (by rwa [Log.area, hstart₃] at hb)
  · intro i
    rw [hwrote₃.locked, Machine.setLog_buf, hwrote.locked, hq₁]
  · rw [hlog₃, hlog]
    rfl
  · rw [hstart₃, hdisk]
    exact himage.recovered.1
  · rw [hwrote₃.writes, recoverWrites, Machine.setLog_writes, hwrote.writes, hw₁, List.append_assoc]

theorem boot_dev (start : Nat) (d : Nat → Block) (i : Fin NBUF) :
    ((boot start d).buf i).dev ≠ (boot start d).log.dev := Nat.zero_ne_one

theorem coherent_boot (start : Nat) (d : Nat → Block) : Coherent (boot start d) d [] where
  dev_ne := Nat.one_ne_zero
  uniq := fun i _ hi => absurd hi (boot_dev start d i)
  spare := fun _ _ => ⟨rfl, rfl⟩
  count := fun i hi => absurd hi (boot_dev start d i)
  filled := fun i hi => absurd hi (boot_dev start d i)
  cached := fun i hi => absurd hi (boot_dev start d i)
  clean := fun _ _ _ => rfl
  pinned := fun _ hb => absurd hb List.not_mem_nil
  home := fun _ hb => absurd hb List.not_mem_nil

/-- Recovery after a crash, with an empty cache. -/
theorem wp_recoverFromLog_boot (h : Image start d S) :
    wp recoverFromLog
      (fun _ m' => Idle m' S ∧ m'.log.start = start ∧
        m'.disk = Writes.apply (recoverWrites start d) d ∧ m'.writes = recoverWrites start d)
      (fun _ _ => False) (boot start d) := by
  have hquiet : Quiet (boot start d) := fun _ => rfl
  have hrun := @wp_recoverFromLog S (boot start d) (coherent_boot start d) hquiet rfl h
  simpa only [boot_disk, boot_writes, boot_log, List.nil_append] using hrun

/-! ## Crashes inside commit -/

/-- The writes that put a nonempty header on disk: one for each commit point. -/
def commitPoints (start : Nat) (ws : List (Nat × Block)) : Nat :=
  ws.countP fun w => w.1 = start ∧ LogHeader.decode w.2 ≠ []

@[simp] theorem commitPoints_append (ws ws' : List (Nat × Block)) :
    commitPoints start (ws ++ ws') = commitPoints start ws + commitPoints start ws' :=
  List.countP_append

/-- Only header writes count. -/
theorem commitPoints_eq_zero (h : ∀ w ∈ ws, w.1 = start → LogHeader.decode w.2 = []) :
    commitPoints start ws = 0 := by
  apply List.countP_eq_zero.mpr
  intro w hw
  simp only [decide_eq_true_eq, not_and, not_not]
  exact h w hw

theorem logWrites_ne_start {vs : List Block} : ∀ w ∈ logWrites start 0 vs, w.1 ≠ start := by
  intro w hw heq
  have := mem_logWrites_keys (List.mem_map_of_mem hw)
  omega

theorem recoverWrites_points (h : Image start d S) (hpre : ws <+: recoverWrites start d) :
    commitPoints start ws = 0 := by
  apply commitPoints_eq_zero
  intro w hw hstart
  rcases List.mem_append.mp (hpre.subset hw) with hrep | hlast
  · exact absurd (hstart ▸ logArea_start start) (replay_home h w hrep)
  · rw [List.mem_singleton.mp hlast]
    exact LogHeader.decode_encode_nil _

/-- What a transaction that is about to commit has put together: the header
entries `lh`, and a store `S'` that differs from `S` only there. -/
structure Pending (start : Nat) (S S' : Nat → Block) (lh : List Nat) : Prop where
  pos : lh ≠ []
  nodup : lh.Nodup
  len : lh.length ≤ LOGBLOCKS
  home : ∀ b ∈ lh, ¬ logArea start b
  fits : ∀ b ∈ lh, b < UINT
  same : ∀ b, b ∉ lh → S' b = S b

section
variable {S' : Nat → Block}

/-- The disk once the header of a transaction has reached it. -/
def headed (start : Nat) (d S' : Nat → Block) (lh : List Nat) : Nat → Block :=
  Writes.apply (logWrites start 0 (lh.map S') ++ [(start, LogHeader.encode (d start) lh)]) d

theorem headed_start : headed start d S' lh start = LogHeader.encode (d start) lh := by
  rw [headed, Writes.apply_snoc, Function.update_self]

theorem headed_home (hp : Pending start S S' lh) {b : Nat} (hb : ¬ logArea start b) :
    headed start d S' lh b = d b := by
  apply Writes.apply_of_not_mem
  intro hmem
  have hlen := hp.len
  simp only [List.map_append, List.mem_append, List.map_cons, List.map_nil,
    List.mem_singleton] at hmem
  apply hb
  rcases hmem with hmem | rfl
  · have := mem_logWrites_keys hmem
    simp only [List.length_map] at this
    constructor <;> omega
  · exact logArea_start _

theorem headed_decode (hp : Pending start S S' lh) :
    LogHeader.decode (headed start d S' lh start) = lh := by
  rw [headed_start]
  exact LogHeader.decode_encode hp.len hp.fits

theorem headed_replay (hp : Pending start S S' lh) :
    replay start (headed start d S' lh) = lh.map fun b => (b, S' b) := by
  rw [replay, headed_decode hp]
  have hsame : installWrites (headed start d S' lh) start 0 lh
      = installWrites (Writes.apply (logWrites start 0 (lh.map S')) d) start 0 lh := by
    apply installWrites_congr
    intro t _ _
    rw [headed, Writes.apply_snoc, Function.update_of_ne (by omega)]
  rw [hsame, installWrites_logWrites (by simp), ← List.map_prod_left_eq_zip]

/-- From its header on, a commit does what recovery would do. -/
theorem commitWrites_eq (hp : Pending start S S' lh) :
    commitWrites start d S' lh = (logWrites start 0 (lh.map S') ++
      [(start, LogHeader.encode (d start) lh)]) ++ recoverWrites start (headed start d S' lh) := by
  rw [commitWrites, recoverWrites, headed_replay hp, headed_start, List.append_assoc]

theorem headed_image (hp : Pending start S S' lh)
    (hd : ∀ b, ¬ logArea start b → d b = S b) : Image start (headed start d S' lh) S' where
  home := by rw [headed_decode hp]; exact hp.home
  nodup := by rw [headed_decode hp]; exact hp.nodup
  len := by rw [headed_decode hp]; exact hp.len
  store := by
    intro b hb
    rw [headed_replay hp]
    by_cases hmem : b ∈ lh
    · apply Writes.apply_of_mem
      · simpa [Function.comp_def] using hp.nodup
      · exact List.mem_map.mpr ⟨b, hmem, rfl⟩
    · rw [Writes.apply_of_not_mem, headed_home hp hb, hd b hb, hp.same b hmem]
      simpa [Function.comp_def] using hmem

theorem Pending.header_points (hp : Pending start S S' lh) :
    commitPoints start (logWrites start 0 (lh.map S') ++
      [(start, LogHeader.encode (d start) lh)]) = 1 := by
  have hdec : LogHeader.decode (LogHeader.encode (d start) lh) = lh :=
    LogHeader.decode_encode hp.len hp.fits
  rw [commitPoints_append,
    commitPoints_eq_zero fun w hw heq => absurd heq (logWrites_ne_start w hw)]
  simp [commitPoints, hdec, hp.pos]

theorem Pending.points (hp : Pending start S S' lh) (hd : ∀ b, ¬ logArea start b → d b = S b) :
    commitPoints start (commitWrites start d S' lh) = 1 := by
  rw [commitWrites_eq hp, commitPoints_append, hp.header_points,
    recoverWrites_points (headed_image hp hd) List.prefix_rfl]

/-- A crash inside `commit` leaves an image of the old store up to the commit
point, and an image of the new store from there on. -/
theorem Pending.crash (hp : Pending start S S' lh) (hempty : LogHeader.decode (d start) = [])
    (hd : ∀ b, ¬ logArea start b → d b = S b) (hpre : ws <+: commitWrites start d S' lh) :
    (Image start (Writes.apply ws d) S ∧ commitPoints start ws = 0) ∨
      (Image start (Writes.apply ws d) S' ∧ commitPoints start ws = 1) := by
  rw [commitWrites_eq hp] at hpre
  -- Before the header is written nothing outside the log blocks has changed.
  have hbefore : ws <+: logWrites start 0 (lh.map S') →
      Image start (Writes.apply ws d) S ∧ commitPoints start ws = 0 := by
    intro hlogs
    have hne : ∀ w ∈ ws, w.1 ≠ start := fun w hw => logWrites_ne_start w (hlogs.subset hw)
    refine ⟨Image.of_empty ?_ ?_, commitPoints_eq_zero fun w hw heq => absurd heq (hne w hw)⟩
    · rw [Writes.apply_of_not_mem, hempty]
      intro hmem
      obtain ⟨w, hw, heq⟩ := List.mem_map.mp hmem
      exact hne w hw heq
    · intro b hb
      rw [Writes.apply_of_not_mem, hd b hb]
      intro hmem
      obtain ⟨w, hw, rfl⟩ := List.mem_map.mp hmem
      have hkey := mem_logWrites_keys (List.mem_map_of_mem (hlogs.subset hw))
      have hlen := hp.len
      simp only [List.length_map] at hkey
      exact hb ⟨by omega, by omega⟩
  rcases Writes.prefix_append_cases hpre with hfirst | ⟨q, rfl, hq⟩
  · rcases List.prefix_concat_iff.mp hfirst with rfl | hlogs
    · exact .inr ⟨headed_image hp hd, hp.header_points⟩
    · exact .inl (hbefore hlogs)
  · refine .inr ⟨?_, ?_⟩
    · rw [Writes.apply_append]
      exact (headed_image hp hd).recover_part hq
    · rw [commitPoints_append, hp.header_points, recoverWrites_points (headed_image hp hd) hq]

end

end Xv6
