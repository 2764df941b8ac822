-- SUMMARY: What find prints and runs for a directory tree: every match once, and when the arguments are right.
import Xv6.User.Find
import Mathlib.Data.List.Forall2

/-!
# `find` on a directory tree

A tree is what `open`, `read` and `stat` show of a directory and of the directories in it. `find`
visits it in the order of the entries. What it prints is what there is in the tree. The arguments
of a command are only right if the array of arguments has no pointer left of an earlier match.
-/

namespace Xv6.Find

open Fs (DIRSIZ)

/-! ## Trees -/

/-- What an entry is, other than a directory to go into. -/
inductive Kind
  /-- `.` or `..`. -/
  | dots
  | file
  | device
deriving DecidableEq

/-- The entries of a directory, from some entry on. -/
inductive Dir
  | nil
  | plain (de : Dirent) (kind : Kind) (rest : Dir)
  | sub (de : Dirent) (children rest : Dir)

def Dir.entries : Dir → List Dirent
  | .nil => []
  | .plain de _ rest => de :: rest.entries
  | .sub de _ rest => de :: rest.entries

/-- The path of an entry. -/
def join (dir : Str) (de : Dirent) : Str := dir ++ slash :: de.str

/-- `find` can read the directory, and its buffer has room for a name. -/
structure Opens (files : Files) (dir : Str) (d : Dir) : Prop where
  opens : files.opens dir = some d.entries
  fstats : files.fstats dir = true
  room : dir.length + 1 + DIRSIZ + 1 ≤ 512

/-- The entry is what the tree says. -/
def ShownEntry (files : Files) (dir : Str) (de : Dirent) : Kind → Prop
  | .dots => (de.str = [dot] ∨ de.str = [dot, dot]) ∧ files.stats (join dir de) = some .dir
  | .file => slash ∉ de.str ∧ files.stats (join dir de) = some .file
  | .device => files.stats (join dir de) = some .device

/-- The system calls show the tree. An entry with the inode number 0 is free. -/
def Shown (files : Files) : Str → Dir → Prop
  | _, .nil => True
  | dir, .plain de kind rest => (de.inum ≠ 0 → ShownEntry files dir de kind) ∧ Shown files dir rest
  | dir, .sub de children rest =>
    (de.inum ≠ 0 ∧ de.str ≠ [dot] ∧ de.str ≠ [dot, dot] ∧ files.stats (join dir de) = some .dir) ∧
      Opens files (join dir de) children ∧ Shown files (join dir de) children ∧ Shown files dir rest

/-- The entry is a regular file with the name. -/
def Hit (filename : Str) (de : Dirent) (kind : Kind) : Prop :=
  de.inum ≠ 0 ∧ kind = .file ∧ de.str = filename

instance (filename : Str) (de : Dirent) (kind : Kind) : Decidable (Hit filename de kind) :=
  inferInstanceAs (Decidable (_ ∧ _ ∧ _))

/-- The paths of the regular files with the name, depth first and in the order of the entries. -/
def found (filename : Str) : Str → Dir → List Str
  | _, .nil => []
  | dir, .plain de kind rest =>
    (if Hit filename de kind then [join dir de] else []) ++ found filename dir rest
  | dir, .sub de children rest => found filename (join dir de) children ++ found filename dir rest

/-- No match comes behind another one of its directory, or in a subdirectory that comes behind a match in the
directory above it, or in the one above that, and so on. `seen` says that there was one already. -/
def Single (filename : Str) : Bool → Dir → Prop
  | _, .nil => True
  | seen, .plain de kind rest =>
    if Hit filename de kind then seen = false ∧ Single filename true rest else Single filename seen rest
  | seen, .sub _ children rest => Single filename seen children ∧ Single filename seen rest

/-- The number of steps for the entries, without the forks. -/
def Dir.size : Dir → Nat
  | .nil => 0
  | .plain _ _ rest => 1 + rest.size
  | .sub _ children rest => 2 + children.size + rest.size

/-! ## Steps -/

section
variable {c : Call} {s s' s'' : State} {f : Frame} {fs : List Frame} {a : Nat → Option Ptr} {w : List Process}
  {dir : Str} {de : Dirent} {es : List Dirent}

theorem getFilename_join (h : slash ∉ de.str) : getFilename (join dir de) = de.str := by
  rw [getFilename, join, List.reverse_append, List.reverse_cons, List.append_assoc,
    List.takeWhile_append_of_pos, List.singleton_append, List.takeWhile_cons_of_neg (by simp),
    List.append_nil, List.reverse_reverse]
  intro x hx
  exact decide_eq_true fun heq => h (heq ▸ List.mem_reverse.mp hx)

theorem enter_eq {d : Dir} {fd n : Nat} (h : Opens c.files dir d) :
    enter c.files dir fd n = .ok ⟨dir, fd, n, dir ++ [slash]⟩ := by
  rw [enter, h.opens]
  simp only [h.fstats, Bool.not_true, Bool.false_eq_true, if_false]
  rw [if_neg (Nat.not_lt.mpr h.room)]

/-- How a state changes in a step: events are appended, and offsets of open directories go up. -/
structure Grows (s s' : State) : Prop where
  out : s.out <+: s'.out
  nextFd : s.nextFd ≤ s'.nextFd
  offset : ∀ fd < s.nextFd, s.offset fd ≤ s'.offset fd

theorem Grows.refl : Grows s s := ⟨List.prefix_rfl, Nat.le_refl _, fun _ _ => Nat.le_refl _⟩

theorem Grows.trans (h : Grows s s') (h' : Grows s' s'') : Grows s s'' :=
  ⟨h.out.trans h'.out, Nat.le_trans h.nextFd h'.nextFd, fun fd hfd =>
    Nat.le_trans (h.offset fd hfd) (h'.offset fd (Nat.lt_of_lt_of_le hfd h.nextFd))⟩

theorem grows_run {ps : List Process} : Grows s (s.run ps) :=
  ⟨List.prefix_rfl, Nat.le_refl _, fun _ _ => Nat.le_refl _⟩

theorem grows_emit {e : Event} : Grows s (s.emit e) :=
  ⟨List.prefix_append _ _, Nat.le_refl _, fun _ _ => Nat.le_refl _⟩

theorem execute_grows (h : execute c s f fs a w = some s') : Grows s s' := by
  rw [execute] at h
  split at h
  · rw [← Option.some.inj h]
    split
    · exact grows_emit.trans grows_run
    · exact grows_emit.trans (grows_emit.trans grows_run)
  · cases h

theorem descend_grows {r : Except Event Frame} : Grows s (descend s f fs a w r) := by
  cases r with
  | error e => exact grows_emit.trans grows_run
  | ok g =>
    refine ⟨List.prefix_rfl, Nat.le_succ _, fun fd hfd => ?_⟩
    exact Nat.le_of_eq (Function.update_of_ne (Nat.ne_of_lt hfd) _ _).symm

theorem examine_grows {p : Str} {t : Option FType} (h : examine c s p f fs a w t = some s') : Grows s s' := by
  rcases t with _ | t
  · exact Option.some.inj h ▸ grows_emit.trans grows_run
  cases t with
  | dir =>
    rw [examine] at h
    split at h
    · exact Option.some.inj h ▸ descend_grows
    · exact Option.some.inj h ▸ grows_run
  | file =>
    rw [examine] at h
    split at h
    · split at h
      · exact execute_grows h
      · exact Option.some.inj h ▸ grows_emit.trans grows_run
    · exact Option.some.inj h ▸ grows_run
  | device => exact Option.some.inj h ▸ grows_run

theorem body_grows (h : body c s de f fs a w = some s') : Grows s s' := by
  rw [body] at h
  split at h
  · exact Option.some.inj h ▸ grows_run
  · exact examine_grows h

theorem step_grows (h : step c s = some s') : Grows s s' := by
  rw [step] at h
  split at h
  · cases h
  · exact Option.some.inj h ▸ grows_run
  · split at h
    · exact Option.some.inj h ▸ grows_run
    · have hbody := body_grows h
      refine ⟨hbody.out, hbody.nextFd, fun fd hfd => Nat.le_trans ?_ (hbody.offset fd hfd)⟩
      simp only [Function.update_apply]
      split
      · next heq => exact heq ▸ Nat.le_succ _
      · exact Nat.le_refl _

theorem Reaches.of_step (h : step c s = some s') : Reaches c s s' := Relation.ReflTransGen.single h

theorem Reaches.trans (h : Reaches c s s') (h' : Reaches c s' s'') : Reaches c s s'' :=
  Relation.ReflTransGen.trans h h'

theorem Reaches.grows (h : Reaches c s s') : Grows s s' := by
  induction h with
  | refl => exact .refl
  | tail _ hstep ih => exact ih.trans (step_grows hstep)

/-- A run to the end goes through every state that is reached. -/
theorem Reaches.to_end (h : Reaches c s s') (hend : Reaches c s s'') (hdone : s''.procs = []) :
    Reaches c s' s'' := by
  induction h with
  | refl => exact hend
  | tail _ hstep ih =>
    rcases Relation.ReflTransGen.cases_head ih with heq | ⟨t, ht, hrest⟩
    · rw [heq, step, hdone] at hstep
      cases hstep
    · rw [hstep] at ht
      exact Option.some.inj ht ▸ hrest

end

/-! ## The array of arguments -/

/-- The array has the words of the command, at most one pointer behind them, and this one if a call has put it
there. -/
structure Clean (cmd : List Str) (a : Nat → Option Ptr) (seen : Prop) : Prop where
  words : ∀ i (h : i < cmd.length), a i = some (.word cmd[i])
  rest : ∀ i, cmd.length < i → a i = none
  used : seen → (a cmd.length).isSome

section
variable {cmd : List Str} {a : Nat → Option Ptr} {f : Frame} {fs : List Frame} {seen : Prop} {k : Nat}

theorem Clean.imp {seen' : Prop} (h : Clean cmd a seen) (himp : seen' → seen) : Clean cmd a seen' :=
  ⟨h.words, h.rest, fun hseen => h.used (himp hseen)⟩

theorem takeWhile_range (hk : k < MAXARG) (hsome : ∀ i < k, (a i).isSome) (hnone : a k = none) :
    ((List.range MAXARG).map a).takeWhile Option.isSome = (List.range k).map a := by
  obtain ⟨j, hj⟩ := Nat.exists_eq_add_of_lt hk
  rw [hj, Nat.add_assoc, List.range_add, List.map_append, List.takeWhile_append_of_pos, List.range_succ_eq_map,
    List.map_cons, List.map_cons, Nat.add_zero, hnone, List.takeWhile_cons_of_neg (by simp), List.append_nil]
  intro x hx
  obtain ⟨i, hi, rfl⟩ := List.mem_map.mp hx
  exact hsome i (List.mem_range.mp hi)

theorem length_takeWhile_range (hk : k ≤ MAXARG) (hsome : ∀ i < k, (a i).isSome) :
    k ≤ (((List.range MAXARG).map a).takeWhile Option.isSome).length := by
  obtain ⟨j, hj⟩ := Nat.exists_eq_add_of_le hk
  rw [hj, List.range_add, List.map_append, List.takeWhile_append_of_pos, List.length_append, List.length_map,
    List.length_range]
  · exact Nat.le_add_right k _
  · intro x hx
    obtain ⟨i, hi, rfl⟩ := List.mem_map.mp hx
    exact hsome i (List.mem_range.mp hi)

theorem vector_mk : Process.vector ⟨fs, a⟩ =
    (((List.range MAXARG).map a).takeWhile Option.isSome).map fun q => q.bind (resolve fs) := rfl

/-- The first match of a call gets the arguments that it should. -/
theorem Clean.vector (h : Clean cmd a seen) (hroom : cmd.length + 1 < MAXARG) :
    Process.vector ⟨f :: fs, Function.update a cmd.length (some (.buf fs.length))⟩ =
      cmd.map some ++ [some f.buf] := by
  have hword : ∀ i (hi : i < cmd.length),
      Function.update a cmd.length (some (.buf fs.length)) i = some (.word cmd[i]) := fun i hi => by
    rw [Function.update_of_ne (Nat.ne_of_lt hi), h.words i hi]
  have hwords : (List.range cmd.length).map (Function.update a cmd.length (some (.buf fs.length))) =
      cmd.map fun word => some (.word word) := by
    apply List.ext_getElem
    · rw [List.length_map, List.length_map, List.length_range]
    · intro i hi _
      rw [List.length_map, List.length_range] at hi
      rw [List.getElem_map, List.getElem_map, List.getElem_range, hword i hi]
  have hlast : resolve (f :: fs) (.buf fs.length) = some f.buf := by
    rw [resolve, List.reverse_cons, List.getElem?_append_right (by rw [List.length_reverse]),
      List.length_reverse, Nat.sub_self]
    rfl
  rw [vector_mk, takeWhile_range hroom]
  · rw [List.range_succ, List.map_append, List.map_append, hwords, List.map_singleton, List.map_singleton,
      Function.update_self, Option.bind_some, hlast, List.map_map]
    rfl
  · intro i hi
    rcases Nat.lt_or_eq_of_le (Nat.le_of_lt_succ hi) with hlt | rfl
    · rw [hword i hlt]
      rfl
    · rw [Function.update_self]
      rfl
  · rw [Function.update_of_ne (by omega), h.rest _ (Nat.lt_succ_self _)]

theorem Clean.put {seen' : Prop} {q : Ptr} (h : Clean cmd a seen) :
    Clean cmd (Function.update a cmd.length (some q)) seen' := by
  refine ⟨fun i hi => ?_, fun i hi => ?_, fun _ => ?_⟩
  · rw [Function.update_of_ne (Nat.ne_of_lt hi), h.words i hi]
  · rw [Function.update_of_ne (Nat.ne_of_gt hi), h.rest i hi]
  · rw [Function.update_self]
    rfl

/-- Another match gets more. -/
theorem Clean.vector_again (h : Clean cmd a True) (f : Frame) (fs : List Frame) (hroom : cmd.length + 1 < MAXARG) :
    cmd.length + 1 < (Process.vector
      ⟨f :: fs, Function.update a (cmd.length + 1) (some (.buf fs.length))⟩).length := by
  rw [vector_mk, List.length_map]
  refine length_takeWhile_range hroom fun i hi => ?_
  rcases Nat.lt_or_eq_of_le (Nat.le_of_lt_succ hi) with hlt | rfl
  · rw [Function.update_of_ne (Nat.ne_of_lt hlt)]
    rcases Nat.lt_or_eq_of_le (Nat.le_of_lt_succ hlt) with hword | rfl
    · rw [h.words i hword]
      rfl
    · exact h.used trivial
  · rw [Function.update_self]
    rfl

end

/-! ## The steps for an entry -/

section
variable {c : Call} {s : State} {f : Frame} {fs : List Frame} {a : Nat → Option Ptr} {w : List Process}
  {de : Dirent} {kind : Kind} {es : List Dirent} {children : Dir}

/-- The state behind a read. -/
def State.advance (s : State) (fd : Nat) : State :=
  { s with offset := Function.update s.offset fd (s.offset fd + 1) }

theorem step_read (hprocs : s.procs = ⟨f :: fs, a⟩ :: w) (hopen : c.files.opens f.dir = some es)
    (hde : es[s.offset f.fd]? = some de) : step c s = body c (s.advance f.fd) de f fs a w := by
  rw [step, hprocs]
  simp only [hopen, Option.bind_some, hde]
  rfl

theorem body_used (hused : de.inum ≠ 0) : body c s de f fs a w =
    examine c s de.str { f with buf := join f.dir de } fs a w (c.files.stats (join f.dir de)) := if_neg hused

/-- An entry that is not a match is passed. -/
theorem body_miss (hshown : de.inum ≠ 0 → ShownEntry c.files f.dir de kind) (hmiss : ¬ Hit c.filename de kind) :
    ∃ b, body c s de f fs a w = some (s.run (⟨{ f with buf := b } :: fs, a⟩ :: w)) := by
  by_cases hused : de.inum = 0
  · exact ⟨f.buf, if_pos hused⟩
  · refine ⟨join f.dir de, ?_⟩
    have hshown := hshown hused
    rw [body_used hused]
    cases kind with
    | dots =>
      rw [hshown.2, examine, if_neg fun h => hshown.1.elim h.1 h.2]
    | file =>
      rw [hshown.2, examine, if_neg]
      intro heq
      exact hmiss ⟨hused, rfl, (getFilename_join hshown.1).symm.trans heq⟩
    | device =>
      rw [ShownEntry] at hshown
      rw [hshown, examine]

theorem body_hit (hshown : de.inum ≠ 0 → ShownEntry c.files f.dir de kind) (hhit : Hit c.filename de kind) :
    body c s de f fs a w =
      if c.cmdFlag then execute c s { f with buf := join f.dir de } fs a w
      else some ((s.emit (.line (join f.dir de))).run (⟨{ f with buf := join f.dir de } :: fs, a⟩ :: w)) := by
  obtain ⟨hused, rfl, hname⟩ := hhit
  obtain ⟨hslash, hstat⟩ := hshown hused
  rw [body_used hused, hstat, examine, if_pos ((getFilename_join hslash).trans hname)]

theorem body_sub (hused : de.inum ≠ 0) (hself : de.str ≠ [dot]) (hup : de.str ≠ [dot, dot])
    (hstat : c.files.stats (join f.dir de) = some .dir) (hopens : Opens c.files (join f.dir de) children) :
    body c s de f fs a w = some
      ⟨Function.update s.offset s.nextFd 0, s.nextFd + 1,
        ⟨⟨join f.dir de, s.nextFd, f.cmdLength, join f.dir de ++ [slash]⟩ :: { f with buf := join f.dir de } :: fs, a⟩ :: w,
        s.out⟩ := by
  rw [body_used hused, hstat, examine, if_pos ⟨hself, hup⟩, enter_eq hopens, descend]

end

/-! ## Runs -/

def commands (out : List Event) : List (List (Option Str)) :=
  out.filterMap fun
    | .command v => some v
    | _ => none

/-- The events for the paths: a line for each one, or a command with the path behind its words. -/
def Does (c : Call) (cmd : List Str) (evs : List Event) (paths : List Str) : Prop :=
  if c.cmdFlag then commands evs = paths.map fun path => cmd.map some ++ [some path]
  else evs = paths.map .line

/-- The call has the entries of `t` in front of it, and `t` says if the call or one below it has had a match. -/
structure Ready (c : Call) (n : Nat) (offset : Nat → Nat) (f : Frame) (t : Dir × Bool) : Prop where
  rest : ∃ es, c.files.opens f.dir = some es ∧ es.drop (offset f.fd) = t.1.entries
  shown : Shown c.files f.dir t.1
  length : c.cmdFlag = true → f.cmdLength = n + t.2.toNat

/-- There is nothing more to read. -/
def AtEnd (c : Call) (offset : Nat → Nat) (f : Frame) : Prop :=
  ∃ es, c.files.opens f.dir = some es ∧ es.length ≤ offset f.fd

/-- The paths that the calls of a process are still to find. -/
def todo (filename : Str) : List Frame → List (Dir × Bool) → List Str
  | f :: fs, t :: ts => found filename f.dir t.1 ++ todo filename fs ts
  | _, _ => []

/-- The number of steps that the calls still take, without forks. -/
def steps (ts : List (Dir × Bool)) : Nat := (ts.map fun t => t.1.size + 1).sum

/-- The process comes to its end with all that it should do, or there is a command with too many arguments. -/
def Outcome (c : Call) (cmd : List Str) (s : State) (fs : List Frame) (ts : List (Dir × Bool)) (w : List Process) :
    Prop :=
  ((c.cmdFlag = true → ∀ t ∈ ts, Single c.filename t.2 t.1) ∧
    ∃ s' evs, Reaches c s s' ∧ s'.procs = w ∧ s'.out = s.out ++ evs ∧
      Does c cmd evs (todo c.filename fs ts) ∧ ∀ f ∈ fs, AtEnd c s'.offset f) ∨
  (c.cmdFlag = true ∧ (¬ ∀ t ∈ ts, Single c.filename t.2 t.1) ∧
    ∃ s', Reaches c s s' ∧ ∃ v ∈ commands s'.out, cmd.length + 1 < v.length)

section
variable {c : Call} {cmd : List Str} {s s₁ : State} {f : Frame} {fs fs₁ : List Frame} {a : Nat → Option Ptr}
  {w : List Process} {t : Dir × Bool} {ts ts₁ : List (Dir × Bool)} {evs evs₁ : List Event} {paths paths₁ : List Str}

theorem does_nil : Does c cmd [] [] := by
  rw [Does]
  split <;> rfl

theorem Does.append (h : Does c cmd evs paths) (h₁ : Does c cmd evs₁ paths₁) :
    Does c cmd (evs ++ evs₁) (paths ++ paths₁) := by
  rw [Does] at h h₁ ⊢
  split
  · next hflag =>
    rw [if_pos hflag] at h h₁
    rw [commands, List.filterMap_append, List.map_append, ← h, ← h₁]
    rfl
  · next hflag =>
    rw [if_neg hflag] at h h₁
    rw [h, h₁, List.map_append]

theorem AtEnd.mono {offset offset' : Nat → Nat} (h : AtEnd c offset f) (hle : offset f.fd ≤ offset' f.fd) :
    AtEnd c offset' f := by
  obtain ⟨es, hopen, hlen⟩ := h
  exact ⟨es, hopen, Nat.le_trans hlen hle⟩

/-- A step in front of a run. -/
theorem Outcome.step (evs : List Event) (paths : List Str) (hstep : Find.step c s = some s₁) (hout : s₁.out = s.out ++ evs) (hdoes : Does c cmd evs paths)
    (hpaths : todo c.filename fs ts = paths ++ todo c.filename fs₁ ts₁)
    (hsingle : c.cmdFlag = true → ((∀ t ∈ ts, Single c.filename t.2 t.1) ↔ ∀ t ∈ ts₁, Single c.filename t.2 t.1))
    (hend : ∀ f ∈ fs, (∃ f₁ ∈ fs₁, f₁.dir = f.dir ∧ f₁.fd = f.fd) ∨ AtEnd c s₁.offset f ∧ f.fd < s₁.nextFd)
    (h : Outcome c cmd s₁ fs₁ ts₁ w) : Outcome c cmd s fs ts w := by
  rcases h with ⟨hok, s', evs', hreach, hprocs, hout', hdoes', hend'⟩ | ⟨hflag, hnot, s', hreach, hbad⟩
  · refine .inl ⟨fun hflag => (hsingle hflag).mpr (hok hflag), s', evs ++ evs',
      (Reaches.of_step hstep).trans hreach, hprocs, ?_, ?_, fun f hf => ?_⟩
    · rw [hout', hout, List.append_assoc]
    · rw [hpaths]
      exact hdoes.append hdoes'
    · rcases hend f hf with ⟨f₁, hf₁, hdir, hfd⟩ | ⟨hat, hlt⟩
      · obtain ⟨es, hopen, hlen⟩ := hend' f₁ hf₁
        exact ⟨es, hdir ▸ hopen, hfd ▸ hlen⟩
      · exact hat.mono (hreach.grows.offset _ hlt)
  · exact .inr ⟨hflag, fun hall => hnot ((hsingle hflag).mp hall), s', (Reaches.of_step hstep).trans hreach, hbad⟩

/-- A process that runs: its calls have the directories in front of them. -/
structure Live (c : Call) (cmd : List Str) (s : State) (fs : List Frame) (ts : List (Dir × Bool))
    (a : Nat → Option Ptr) (w : List Process) : Prop where
  procs : s.procs = ⟨fs, a⟩ :: w
  ready : List.Forall₂ (Ready c cmd.length s.offset) fs ts
  nodup : (fs.map Frame.fd).Nodup
  lt : ∀ f ∈ fs, f.fd < s.nextFd
  clean : c.cmdFlag = true → Clean cmd a (∃ t ∈ ts, t.2 = true)

theorem Ready.entry {de : Dirent} {d rest : Dir} {seen : Bool} {n : Nat} {offset : Nat → Nat}
    (h : Ready c n offset f (d, seen)) (hd : d.entries = de :: rest.entries) :
    ∃ es, c.files.opens f.dir = some es ∧ es[offset f.fd]? = some de ∧ es.drop (offset f.fd + 1) = rest.entries := by
  obtain ⟨es, hopen, hdrop⟩ := h.rest
  simp only [hd] at hdrop
  refine ⟨es, hopen, ?_, ?_⟩
  · rw [← List.head?_drop, hdrop, List.head?_cons]
  · rw [← List.drop_drop, hdrop, List.drop_one, List.tail_cons]

theorem Ready.congr {n : Nat} {offset offset' : Nat → Nat} (h : Ready c n offset f t)
    (heq : offset' f.fd = offset f.fd) : Ready c n offset' f t :=
  ⟨by rw [heq]; exact h.rest, h.shown, h.length⟩

/-- The calls below the innermost one do not see what it reads. -/
theorem Live.others (h : Live c cmd s (f :: fs) (t :: ts) a w) (x : Nat) :
    List.Forall₂ (Ready c cmd.length (Function.update s.offset f.fd x)) fs ts := by
  obtain ⟨-, hothers⟩ := List.forall₂_cons.mp h.ready
  have hne : ∀ g ∈ fs, g.fd ≠ f.fd := by
    intro g hg heq
    have hnodup := h.nodup
    rw [List.map_cons, List.nodup_cons] at hnodup
    exact hnodup.1 (heq ▸ List.mem_map_of_mem hg)
  have hboth := (List.forall₂_and_left (p := fun g : Frame => g.fd ≠ f.fd) fs ts).mpr ⟨hne, hothers⟩
  exact hboth.imp fun g t h => h.2.congr (Function.update_of_ne h.1 _ _)

/-- The process behind the read of an entry. -/
theorem Live.next {de : Dirent} {d rest : Dir} {seen seen' : Bool} {f' : Frame} {a' : Nat → Option Ptr}
    {w' : List Process} (h : Live c cmd s (f :: fs) ((d, seen) :: ts) a w) (hd : d.entries = de :: rest.entries)
    (hshown : Shown c.files f.dir rest) (hdir : f'.dir = f.dir) (hfd : f'.fd = f.fd)
    (hlen : c.cmdFlag = true → f'.cmdLength = cmd.length + seen'.toNat)
    (hclean : c.cmdFlag = true → Clean cmd a' (∃ t ∈ (rest, seen') :: ts, t.2 = true))
    (hprocs : s₁.procs = ⟨f' :: fs, a'⟩ :: w') (hoffset : s₁.offset = (s.advance f.fd).offset)
    (hnext : s₁.nextFd = s.nextFd) : Live c cmd s₁ (f' :: fs) ((rest, seen') :: ts) a' w' := by
  obtain ⟨es, hopen, -, hrest⟩ := (List.forall₂_cons.mp h.ready).1.entry hd
  refine ⟨hprocs, .cons ⟨⟨es, hdir ▸ hopen, ?_⟩, hdir ▸ hshown, hlen⟩ ?_, ?_, ?_, hclean⟩
  · rw [hoffset, hfd, State.advance]
    simp only [Function.update_self]
    exact hrest
  · rw [hoffset]
    exact h.others _
  · have hnodup := h.nodup
    rw [List.map_cons] at hnodup ⊢
    rwa [hfd]
  · intro g hg
    rw [hnext]
    rcases List.mem_cons.mp hg with rfl | hg
    · exact hfd ▸ h.lt f List.mem_cons_self
    · exact h.lt g (List.mem_cons_of_mem f hg)

/-- A process that has no more calls exits. -/
theorem Live.exits (h : Live c cmd s [] ts a w) : Outcome c cmd s [] ts w := by
  obtain rfl := List.forall₂_nil_left_iff.mp h.ready
  have hstep : Find.step c s = some (s.run w) := by
    rw [Find.step, h.procs]
  exact .inl ⟨fun _ t ht => absurd ht List.not_mem_nil, _, [], .of_step hstep, rfl, (List.append_nil _).symm,
    does_nil, fun f hf => absurd hf List.not_mem_nil⟩

/-- What is to show for all shorter runs. -/
def Shorter (c : Call) (cmd : List Str) (n : Nat) : Prop :=
  ∀ {s : State} {fs : List Frame} {ts : List (Dir × Bool)} {a : Nat → Option Ptr} {w : List Process},
    Live c cmd s fs ts a w → steps ts ≤ n → Outcome c cmd s fs ts w

theorem Live.returns {n : Nat} {seen : Bool} (ih : Shorter c cmd n)
    (h : Live c cmd s (f :: fs) ((.nil, seen) :: ts) a w) (hn : steps ((.nil, seen) :: ts) ≤ n + 1) :
    Outcome c cmd s (f :: fs) ((.nil, seen) :: ts) w := by
  obtain ⟨hready, hothers⟩ := List.forall₂_cons.mp h.ready
  obtain ⟨es, hopen, hdrop⟩ := hready.rest
  have hlen : es.length ≤ s.offset f.fd := List.drop_eq_nil_iff.mp hdrop
  have hstep : Find.step c s = some (s.run (⟨fs, a⟩ :: w)) := by
    rw [Find.step, h.procs]
    simp only [hopen, Option.bind_some, List.getElem?_eq_none hlen]
  have hlive : Live c cmd (s.run (⟨fs, a⟩ :: w)) fs ts a w := by
    refine ⟨rfl, hothers, ?_, fun g hg => h.lt g (List.mem_cons_of_mem f hg), fun hflag => ?_⟩
    · have hnodup := h.nodup
      rw [List.map_cons] at hnodup
      exact hnodup.of_cons
    · refine (h.clean hflag).imp ?_
      rintro ⟨t, ht, hseen⟩
      exact ⟨t, List.mem_cons_of_mem _ ht, hseen⟩
  have hsteps : steps ts ≤ n := by
    rw [steps, List.map_cons, List.sum_cons, Dir.size] at hn
    rw [steps]
    omega
  refine Outcome.step [] [] hstep (List.append_nil _).symm does_nil rfl (fun _ => ?_) (fun g hg => ?_)
    (ih hlive hsteps)
  · rw [List.forall_mem_cons]
    exact and_iff_right trivial
  · rcases List.mem_cons.mp hg with rfl | hg
    · exact .inr ⟨⟨es, hopen, hlen⟩, h.lt g List.mem_cons_self⟩
    · exact .inl ⟨g, hg, rfl, rfl⟩

/-- The innermost call stays the same call. -/
theorem exists_same {f' g : Frame} (hg : g ∈ f :: fs) (hdir : f'.dir = f.dir) (hfd : f'.fd = f.fd) :
    ∃ f₁ ∈ f' :: fs, f₁.dir = g.dir ∧ f₁.fd = g.fd := by
  rcases List.mem_cons.mp hg with rfl | hg
  · exact ⟨f', List.mem_cons_self, hdir, hfd⟩
  · exact ⟨g, List.mem_cons_of_mem _ hg, rfl, rfl⟩

theorem exists_seen_cons {d d' : Dir} {seen : Bool} :
    (∃ t ∈ (d, seen) :: ts, t.2 = true) ↔ ∃ t ∈ (d', seen) :: ts, t.2 = true := by
  simp only [List.mem_cons, exists_eq_or_imp]

theorem Live.misses {n : Nat} {de : Dirent} {kind : Kind} {rest : Dir} {seen : Bool} (ih : Shorter c cmd n)
    (h : Live c cmd s (f :: fs) ((.plain de kind rest, seen) :: ts) a w) (hmiss : ¬ Hit c.filename de kind)
    (hn : steps ((rest, seen) :: ts) ≤ n) : Outcome c cmd s (f :: fs) ((.plain de kind rest, seen) :: ts) w := by
  obtain ⟨hready, -⟩ := List.forall₂_cons.mp h.ready
  obtain ⟨hentry, hshown⟩ := hready.shown
  obtain ⟨es, hopen, hde, -⟩ := hready.entry rfl
  obtain ⟨b, hbody⟩ := body_miss hentry hmiss
  have hlive : Live c cmd ((s.advance f.fd).run (⟨{ f with buf := b } :: fs, a⟩ :: w)) ({ f with buf := b } :: fs)
      ((rest, seen) :: ts) a w :=
    h.next rfl hshown rfl rfl hready.length (fun hflag => (h.clean hflag).imp exists_seen_cons.mp) rfl rfl rfl
  refine Outcome.step [] [] ((step_read h.procs hopen hde).trans hbody) (List.append_nil _).symm does_nil ?_
    (fun _ => ?_) (fun g hg => ?_) (ih hlive hn)
  · rw [todo, todo, found, if_neg hmiss]
    rfl
  · rw [List.forall_mem_cons, List.forall_mem_cons, Single, if_neg hmiss]
  · exact .inl (exists_same hg rfl rfl)

theorem Live.prints {n : Nat} {de : Dirent} {kind : Kind} {rest : Dir} {seen : Bool} (ih : Shorter c cmd n)
    (h : Live c cmd s (f :: fs) ((.plain de kind rest, seen) :: ts) a w) (hhit : Hit c.filename de kind)
    (hflag : ¬ c.cmdFlag = true) (hn : steps ((rest, seen) :: ts) ≤ n) :
    Outcome c cmd s (f :: fs) ((.plain de kind rest, seen) :: ts) w := by
  obtain ⟨hready, -⟩ := List.forall₂_cons.mp h.ready
  obtain ⟨hentry, hshown⟩ := hready.shown
  obtain ⟨es, hopen, hde, -⟩ := hready.entry rfl
  have hstep := (step_read h.procs hopen hde).trans (body_hit hentry hhit)
  rw [if_neg hflag] at hstep
  have hlive : Live c cmd
      (((s.advance f.fd).emit (.line (join f.dir de))).run (⟨{ f with buf := join f.dir de } :: fs, a⟩ :: w))
      ({ f with buf := join f.dir de } :: fs) ((rest, seen) :: ts) a w :=
    h.next rfl hshown rfl rfl hready.length (fun hflag' => absurd hflag' hflag) rfl rfl rfl
  refine Outcome.step [.line (join f.dir de)] [join f.dir de] hstep rfl ?_ ?_ (fun hflag' => absurd hflag' hflag)
    (fun g hg => ?_) (ih hlive hn)
  · rw [Does, if_neg hflag]
    rfl
  · rw [todo, todo, found, if_pos hhit]
    rfl
  · exact .inl (exists_same hg rfl rfl)

theorem steps_cons {d : Dir} {seen : Bool} : steps ((d, seen) :: ts) = d.size + 1 + steps ts := List.sum_cons

theorem length_le_steps : ts.length ≤ steps ts := by
  induction ts with
  | nil => exact Nat.le_refl 0
  | cons t ts ih =>
    obtain ⟨d, seen⟩ := t
    rw [steps_cons, List.length_cons]
    omega

/-- The directories when all is read. -/
def drained (ts : List (Dir × Bool)) : List (Dir × Bool) := ts.map fun t => (.nil, t.2)

theorem steps_drained : steps (drained ts) = ts.length := by
  induction ts with
  | nil => rfl
  | cons t ts ih =>
    change steps ((.nil, t.2) :: drained ts) = _
    rw [steps_cons, ih, Dir.size, List.length_cons]
    omega

theorem todo_drained : todo c.filename fs (drained ts) = [] := by
  induction fs generalizing ts with
  | nil => rfl
  | cons f fs ih =>
    cases ts with
    | nil => rfl
    | cons t ts => exact ih

theorem single_drained (ht : t ∈ drained ts) : Single c.filename t.2 t.1 := by
  obtain ⟨t, -, rfl⟩ := List.mem_map.mp ht
  exact trivial

/-- The parent of a child that has gone on finds nothing more to read. -/
theorem Live.waits {n : Nat} (ih : Shorter c cmd n) (h : Live c cmd s fs ts a (⟨fs, a⟩ :: w)) (hn : steps ts ≤ n) :
    Outcome c cmd s fs ts w := by
  rcases ih h hn with ⟨hok, s', evs, hreach, hprocs, hout, hdoes, hend⟩ | hbad
  · have hlive : Live c cmd s' fs (drained ts) a w := by
      refine ⟨hprocs, ?_, h.nodup, fun f hf => Nat.lt_of_lt_of_le (h.lt f hf) hreach.grows.nextFd, fun hflag => ?_⟩
      · refine List.forall₂_map_right_iff.mpr ?_
        refine ((List.forall₂_and_left (p := AtEnd c s'.offset) fs ts).mpr ⟨hend, h.ready⟩).imp ?_
        rintro f t ⟨⟨es, hopen, hlen⟩, hready⟩
        exact ⟨⟨es, hopen, List.drop_eq_nil_of_le hlen⟩, trivial, hready.length⟩
      · refine (h.clean hflag).imp ?_
        rintro ⟨t, ht, hseen⟩
        obtain ⟨t', ht', rfl⟩ := List.mem_map.mp ht
        exact ⟨t', ht', hseen⟩
    have hsteps : steps (drained ts) ≤ n := steps_drained ▸ Nat.le_trans length_le_steps hn
    rcases ih hlive hsteps with ⟨-, s'', evs', hreach', hprocs', hout', hdoes', hend'⟩ | ⟨-, hnot, -⟩
    · refine .inl ⟨hok, s'', evs ++ evs', hreach.trans hreach', hprocs', ?_, ?_, hend'⟩
      · rw [hout', hout, List.append_assoc]
      · rw [todo_drained] at hdoes'
        simpa using hdoes.append hdoes'
    · exact absurd (fun t ht => single_drained ht) hnot
  · exact .inr hbad

theorem execute_eq (c : Call) (s : State) (fs : List Frame) (a : Nat → Option Ptr) (w : List Process)
    (hlen : f.cmdLength < MAXARG) :
    let p : Process := ⟨⟨f.dir, f.fd, f.cmdLength + 1, f.buf⟩ :: fs,
      Function.update a f.cmdLength (some (.buf fs.length))⟩
    ∃ ps evs, (ps = p :: w ∧ evs = [.command p.vector] ∨ ps = p :: p :: w ∧ evs = [.command p.vector, .execError]) ∧
      execute c s f fs a w = some ⟨s.offset, s.nextFd, ps, s.out ++ evs⟩ := by
  intro p
  rw [execute, if_pos hlen]
  by_cases hexec : c.execs (s.emit (.command p.vector)).out.length
  · exact ⟨_, _, .inl ⟨rfl, rfl⟩, congrArg some (if_pos hexec)⟩
  · refine ⟨_, _, .inr ⟨rfl, rfl⟩, (congrArg some (if_neg hexec)).trans ?_⟩
    simp only [State.run, State.emit, List.append_assoc, List.cons_append, List.nil_append]
    rfl

/-- The command for the first match of a call. -/
theorem Live.executes {n : Nat} {de : Dirent} {kind : Kind} {rest : Dir} (ih : Shorter c cmd n)
    (h : Live c cmd s (f :: fs) ((.plain de kind rest, false) :: ts) a w) (hhit : Hit c.filename de kind)
    (hflag : c.cmdFlag = true) (hroom : cmd.length + 1 < MAXARG) (hn : steps ((rest, true) :: ts) ≤ n) :
    Outcome c cmd s (f :: fs) ((.plain de kind rest, false) :: ts) w := by
  obtain ⟨hready, -⟩ := List.forall₂_cons.mp h.ready
  obtain ⟨hentry, hshown⟩ := hready.shown
  obtain ⟨es, hopen, hde, -⟩ := hready.entry rfl
  have hlen : f.cmdLength = cmd.length := hready.length hflag
  have hstep := (step_read h.procs hopen hde).trans (body_hit hentry hhit)
  obtain ⟨ps, evs, hcases, hexec⟩ := execute_eq (f := { f with buf := join f.dir de }) c (s.advance f.fd) fs a w
    (by simp only [hlen]; omega)
  rw [if_pos hflag, hexec] at hstep
  simp only [hlen, (h.clean hflag).vector hroom] at hcases
  -- the process behind the fork, as the parent or as the child
  have hlive : ∀ w', ps = ⟨⟨f.dir, f.fd, cmd.length + 1, join f.dir de⟩ :: fs,
      Function.update a cmd.length (some (.buf fs.length))⟩ :: w' →
      Live c cmd ⟨(s.advance f.fd).offset, s.nextFd, ps, s.out ++ evs⟩
        (⟨f.dir, f.fd, cmd.length + 1, join f.dir de⟩ :: fs) ((rest, true) :: ts)
        (Function.update a cmd.length (some (.buf fs.length))) w' := fun w' hps =>
    h.next rfl hshown rfl rfl (fun _ => rfl) (fun _ => (h.clean hflag).put) hps rfl rfl
  have hrest : Outcome c cmd ⟨(s.advance f.fd).offset, s.nextFd, ps, s.out ++ evs⟩
      (⟨f.dir, f.fd, cmd.length + 1, join f.dir de⟩ :: fs) ((rest, true) :: ts) w := by
    rcases hcases with ⟨hps, -⟩ | ⟨hps, -⟩
    · exact ih (hlive w hps) hn
    · exact (hlive _ hps).waits ih hn
  refine Outcome.step evs [join f.dir de] hstep rfl ?_ ?_ (fun _ => ?_) (fun g hg => ?_) hrest
  · rw [Does, if_pos hflag]
    rcases hcases with ⟨-, rfl⟩ | ⟨-, rfl⟩
    · rfl
    · rfl
  · rw [todo, todo, found, if_pos hhit]
    rfl
  · rw [List.forall_mem_cons, List.forall_mem_cons, Single, if_pos hhit]
    simp only [true_and]
  · exact .inl (exists_same hg rfl rfl)

/-- The command for another match. -/
theorem Live.executes_again {de : Dirent} {kind : Kind} {rest : Dir}
    (h : Live c cmd s (f :: fs) ((.plain de kind rest, true) :: ts) a w) (hhit : Hit c.filename de kind)
    (hflag : c.cmdFlag = true) (hroom : cmd.length + 1 < MAXARG) :
    Outcome c cmd s (f :: fs) ((.plain de kind rest, true) :: ts) w := by
  obtain ⟨hready, -⟩ := List.forall₂_cons.mp h.ready
  obtain ⟨hentry, hshown⟩ := hready.shown
  obtain ⟨es, hopen, hde, -⟩ := hready.entry rfl
  have hlen : f.cmdLength = cmd.length + 1 := hready.length hflag
  have hstep := (step_read h.procs hopen hde).trans (body_hit hentry hhit)
  obtain ⟨ps, evs, hcases, hexec⟩ := execute_eq (f := { f with buf := join f.dir de }) c (s.advance f.fd) fs a w
    (by simp only [hlen]; omega)
  rw [if_pos hflag, hexec] at hstep
  simp only [hlen] at hcases
  have hclean : Clean cmd a True := (h.clean hflag).imp fun _ => ⟨_, List.mem_cons_self, rfl⟩
  have hmore := hclean.vector_again ⟨f.dir, f.fd, cmd.length + 1 + 1, join f.dir de⟩ fs hroom
  refine .inr ⟨hflag, fun hall => ?_, _, .of_step hstep, _, ?_, hmore⟩
  · have hsingle := hall _ List.mem_cons_self
    rw [Single, if_pos hhit] at hsingle
    cases hsingle.1
  · rw [commands, List.filterMap_append]
    refine List.mem_append_right _ ?_
    rcases hcases with ⟨-, rfl⟩ | ⟨-, rfl⟩
    · exact List.mem_cons_self
    · exact List.mem_cons_self

/-- A subdirectory is entered. -/
theorem Live.descends {n : Nat} {de : Dirent} {children rest : Dir} {seen : Bool} (ih : Shorter c cmd n)
    (h : Live c cmd s (f :: fs) ((.sub de children rest, seen) :: ts) a w)
    (hn : steps ((children, seen) :: (rest, seen) :: ts) ≤ n) :
    Outcome c cmd s (f :: fs) ((.sub de children rest, seen) :: ts) w := by
  obtain ⟨hready, -⟩ := List.forall₂_cons.mp h.ready
  obtain ⟨⟨hused, hself, hup, hstat⟩, hopens, hchildren, hshown⟩ := hready.shown
  obtain ⟨es, hopen, hde, -⟩ := hready.entry rfl
  have hstep := (step_read h.procs hopen hde).trans (body_sub hused hself hup hstat hopens)
  have hbelow : Live c cmd ((s.advance f.fd).run (⟨{ f with buf := join f.dir de } :: fs, a⟩ :: w))
      ({ f with buf := join f.dir de } :: fs) ((rest, seen) :: ts) a w :=
    h.next rfl hshown rfl rfl hready.length (fun hflag => (h.clean hflag).imp exists_seen_cons.mp) rfl rfl rfl
  have hlive : Live c cmd
      ⟨Function.update (s.advance f.fd).offset s.nextFd 0, s.nextFd + 1,
        ⟨⟨join f.dir de, s.nextFd, f.cmdLength, join f.dir de ++ [slash]⟩ :: { f with buf := join f.dir de } :: fs, a⟩ :: w,
        s.out⟩
      (⟨join f.dir de, s.nextFd, f.cmdLength, join f.dir de ++ [slash]⟩ :: { f with buf := join f.dir de } :: fs)
      ((children, seen) :: (rest, seen) :: ts) a w := by
    have hold : ∀ g ∈ { f with buf := join f.dir de } :: fs, g.fd ≠ s.nextFd := fun g hg =>
      Nat.ne_of_lt (hbelow.lt g hg)
    refine ⟨rfl, .cons ⟨⟨_, hopens.opens, ?_⟩, hchildren, hready.length⟩ ?_, ?_, ?_, fun hflag => ?_⟩
    · simp only [Function.update_self, List.drop_zero]
    · refine ((List.forall₂_and_left (p := fun g : Frame => g.fd ≠ s.nextFd) _ _).mpr ⟨hold, hbelow.ready⟩).imp ?_
      exact fun g t hg => hg.2.congr (Function.update_of_ne hg.1 _ _)
    · rw [List.map_cons, List.nodup_cons]
      refine ⟨fun hmem => ?_, hbelow.nodup⟩
      obtain ⟨g, hg, hfd⟩ := List.mem_map.mp hmem
      exact hold g hg hfd
    · intro g hg
      rcases List.mem_cons.mp hg with rfl | hg
      · exact Nat.lt_succ_self _
      · exact Nat.lt_succ_of_lt (hbelow.lt g hg)
    · refine (hbelow.clean hflag).imp ?_
      rintro ⟨t, ht, hseen⟩
      rcases List.mem_cons.mp ht with rfl | ht
      · exact ⟨_, List.mem_cons_self, hseen⟩
      · exact ⟨t, ht, hseen⟩
  refine Outcome.step [] [] hstep (List.append_nil _).symm does_nil ?_ (fun _ => ?_) (fun g hg => ?_) (ih hlive hn)
  · rw [todo, todo, todo, found, List.append_assoc]
    rfl
  · rw [List.forall_mem_cons, List.forall_mem_cons, List.forall_mem_cons, Single, and_assoc]
  · have hsame : ∃ f₁ ∈ { f with buf := join f.dir de } :: fs, f₁.dir = g.dir ∧ f₁.fd = g.fd :=
      exists_same hg rfl rfl
    obtain ⟨f₁, hf₁, heq⟩ := hsame
    exact .inl ⟨f₁, List.mem_cons_of_mem _ hf₁, heq⟩

/-- Every process that runs comes to one of the two outcomes. -/
theorem Live.outcome (hroom : c.cmdFlag = true → cmd.length + 1 < MAXARG) (n : Nat) : Shorter c cmd n := by
  induction n with
  | zero =>
    intro s fs ts a w h hn
    have hnil : ts = [] := List.eq_nil_of_length_eq_zero (Nat.le_zero.mp (Nat.le_trans length_le_steps hn))
    subst hnil
    obtain rfl := List.forall₂_nil_right_iff.mp h.ready
    exact h.exits
  | succ n ih =>
    intro s fs ts a w h hn
    cases fs with
    | nil => exact h.exits
    | cons f fs =>
      obtain ⟨⟨d, seen⟩, ts, -, -, rfl⟩ := List.forall₂_cons_left_iff.mp h.ready
      rw [steps_cons] at hn
      cases d with
      | nil => exact h.returns ih (by rw [steps_cons]; exact hn)
      | plain de kind rest =>
        rw [Dir.size] at hn
        by_cases hhit : Hit c.filename de kind
        · by_cases hflag : c.cmdFlag = true
          · cases seen with
            | false => exact h.executes ih hhit hflag (hroom hflag) (by rw [steps_cons]; omega)
            | true => exact h.executes_again hhit hflag (hroom hflag)
          · exact h.prints ih hhit hflag (by rw [steps_cons]; omega)
        · exact h.misses ih hhit (by rw [steps_cons]; omega)
      | sub de children rest =>
        rw [Dir.size] at hn
        exact h.descends ih (by rw [steps_cons, steps_cons]; omega)

end

section
variable {files : Files} {filename dir : Str} {d : Dir} {cmd : List Str} {flag : Bool} {execs : Nat → Bool}

theorem todo_single {f : Frame} {t : Dir × Bool} : todo filename [f] [t] = found filename f.dir t.1 :=
  List.append_nil _

/-- The first call of `find`. -/
theorem live_start (hopens : Opens files dir d) (hshown : Shown files dir d) :
    Live ⟨files, filename, flag, execs⟩ cmd (start ⟨files, filename, flag, execs⟩ dir cmd)
      [⟨dir, 0, cmd.length, dir ++ [slash]⟩] [(d, false)] (cmdArray cmd) [] := by
  have hstart : start ⟨files, filename, flag, execs⟩ dir cmd =
      ⟨fun _ => 0, 1, [⟨[⟨dir, 0, cmd.length, dir ++ [slash]⟩], cmdArray cmd⟩], []⟩ := by
    rw [start, enter_eq (c := ⟨files, filename, flag, execs⟩) hopens]
  rw [hstart]
  refine ⟨rfl, .cons ⟨⟨_, hopens.opens, rfl⟩, hshown, fun _ => rfl⟩ .nil, List.nodup_singleton 0, fun f hf => ?_,
    fun _ => ⟨fun i hi => ?_, fun i hi => ?_, ?_⟩⟩
  · rw [List.mem_singleton.mp hf]
    exact Nat.one_pos
  · rw [cmdArray, List.getElem?_eq_getElem hi]
    rfl
  · rw [cmdArray, List.getElem?_eq_none (Nat.le_of_lt hi)]
    rfl
  · rintro ⟨t, ht, hseen⟩
    rw [List.mem_singleton.mp ht] at hseen
    cases hseen

theorem start_out (hopens : Opens files dir d) :
    (start ⟨files, filename, flag, execs⟩ dir cmd).out = [] := by
  rw [start, enter_eq (c := ⟨files, filename, flag, execs⟩) hopens]

/-- Without a command, `find` ends and prints the path of every match, in the order of the tree. -/
theorem find_prints (files : Files) (filename dir : Str) (d : Dir) (execs : Nat → Bool) (hopens : Opens files dir d)
    (hshown : Shown files dir d) :
    ∃ s, Reaches ⟨files, filename, false, execs⟩ (start ⟨files, filename, false, execs⟩ dir []) s ∧ s.procs = [] ∧
      s.out = (found filename dir d).map .line := by
  have hflag : ¬ (false = true) := Bool.false_ne_true
  rcases Live.outcome (fun h => absurd h hflag) _ (live_start hopens hshown) (Nat.le_refl _) with
    ⟨-, s, evs, hreach, hprocs, hout, hdoes, -⟩ | ⟨h, -⟩
  · refine ⟨s, hreach, hprocs, ?_⟩
    rw [Does, if_neg hflag] at hdoes
    rw [hout, start_out hopens, hdoes, List.nil_append, todo_single]
  · exact absurd h hflag

/-- A directory with `.`, a free entry, a file `a`, and a directory `d` with another file `a`. -/
def smallDir : Dir :=
  .plain ⟨1, [dot]⟩ .dots (.plain ⟨0, [97]⟩ .file (.plain ⟨2, [97]⟩ .file
    (.sub ⟨3, [100]⟩ (.plain ⟨4, [97]⟩ .file .nil) .nil)))

/-- The system calls for `smallDir` at the path `.`. -/
def smallFiles : Files where
  opens path :=
    if path = [dot] then some smallDir.entries else if path = [dot, slash, 100] then some [⟨4, [97]⟩] else none
  fstats _ := true
  stats path := if path = [dot, slash, dot] ∨ path = [dot, slash, 100] then some .dir else some .file

theorem opens_smallFiles : Opens smallFiles [dot] smallDir := ⟨rfl, rfl, by decide⟩

theorem shown_smallFiles : Shown smallFiles [dot] smallDir := by
  refine ⟨fun _ => ⟨.inl (by decide), by decide⟩, fun h => absurd rfl h, fun _ => ⟨by decide, by decide⟩,
    ⟨by decide, by decide, by decide, by decide⟩, ⟨rfl, rfl, by decide⟩, ⟨fun _ => ⟨by decide, by decide⟩, trivial⟩,
    trivial⟩

theorem find_prints_small :
    ∃ s, Reaches ⟨smallFiles, [97], false, fun _ => true⟩ (start ⟨smallFiles, [97], false, fun _ => true⟩ [dot] []) s ∧
      s.procs = [] ∧ s.out = (found [97] [dot] smallDir).map .line :=
  find_prints smallFiles [97] [dot] smallDir (fun _ => true) opens_smallFiles shown_smallFiles

/-- With a command, each match gets its own command, with its own path and nothing else, just if no match is
behind another one. -/
theorem find_exec_iff (files : Files) (filename dir : Str) (d : Dir) (cmd : List Str) (execs : Nat → Bool)
    (hopens : Opens files dir d) (hshown : Shown files dir d) (hroom : cmd.length + 1 < MAXARG) :
    (∃ s, Reaches ⟨files, filename, true, execs⟩ (start ⟨files, filename, true, execs⟩ dir cmd) s ∧ s.procs = [] ∧
      commands s.out = (found filename dir d).map fun path => cmd.map some ++ [some path]) ↔
    Single filename false d := by
  constructor
  · rintro ⟨s, hreach, hprocs, hout⟩
    rcases Live.outcome (fun _ => hroom) _ (live_start hopens hshown) (Nat.le_refl _) with
      ⟨hsingle, -⟩ | ⟨-, -, s', hreach', v, hv, hlen⟩
    · exact hsingle rfl _ List.mem_cons_self
    · -- the command with too many arguments is still there at the end
      have hgrows := (hreach'.to_end hreach hprocs).grows
      have hmem : v ∈ commands s.out := (hgrows.out.filterMap _).subset hv
      rw [hout] at hmem
      obtain ⟨path, -, rfl⟩ := List.mem_map.mp hmem
      rw [List.length_append, List.length_map, List.length_singleton] at hlen
      exact absurd hlen (Nat.lt_irrefl _)
  · intro hsingle
    rcases Live.outcome (fun _ => hroom) _ (live_start hopens hshown) (Nat.le_refl _) with
      ⟨-, s, evs, hreach, hprocs, hout, hdoes, -⟩ | ⟨-, hnot, -⟩
    · refine ⟨s, hreach, hprocs, ?_⟩
      rw [Does, if_pos rfl] at hdoes
      rw [hout, start_out hopens, List.nil_append, hdoes, todo_single]
    · refine absurd (fun t ht => ?_) hnot
      rw [List.mem_singleton.mp ht]
      exact hsingle

end

theorem find_exec_iff_small :
    (∃ s, Reaches ⟨smallFiles, [97], true, fun _ => true⟩
        (start ⟨smallFiles, [97], true, fun _ => true⟩ [dot] [[101]]) s ∧ s.procs = [] ∧
      commands s.out = (found [97] [dot] smallDir).map fun path => [[101]].map some ++ [some path]) ↔
    Single [97] false smallDir :=
  find_exec_iff smallFiles [97] [dot] smallDir [[101]] (fun _ => true) opens_smallFiles shown_smallFiles (by decide)

/-- The state after some steps. -/
def exec (c : Call) : Nat → State → State
  | 0, s => s
  | n + 1, s => ((step c s).map (exec c n)).getD s

/-- The file `a` of `smallDir` is found first, and the command for the file in `d` gets the path of `d` as well. -/
theorem find_exec_extra :
    (exec ⟨smallFiles, [97], true, fun _ => true⟩ 9 (start ⟨smallFiles, [97], true, fun _ => true⟩ [dot] [[101]])).procs.length = 0 ∧
    commands (exec ⟨smallFiles, [97], true, fun _ => true⟩ 9
        (start ⟨smallFiles, [97], true, fun _ => true⟩ [dot] [[101]])).out =
      [[some [101], some [dot, slash, 97]],
        [some [101], some [dot, slash, 100], some [dot, slash, 100, slash, 97]]] ∧
    found [97] [dot] smallDir = [[dot, slash, 97], [dot, slash, 100, slash, 97]] := by
  decide +kernel

end Xv6.Find
