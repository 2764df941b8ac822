-- SUMMARY: The program find: its walk over a directory tree, and the commands that it runs for what it finds.
import Xv6.Fs.Layout
import Mathlib.Logic.Relation

/-!
# `find`

`find` (`user/find.c`) calls itself for every subdirectory, with the path in its buffer as the
name of the directory. The calls that have not returned are the frames of a process. With
`-exec`, `find` puts a pointer to its buffer into the array of arguments, which all calls share,
forks, and runs the command in the child.

If `exec` fails, the child prints a message and goes on with the loop of its parent. The parent
waits for it. The two have copies of the memory, but their descriptors share the offset in the
directory.
-/

namespace Xv6.Find

open Fs (DIRSIZ)

abbrev Str : Type := List UInt8

def slash : UInt8 := 47
def dot : UInt8 := 46

/-! ## Files -/

structure Dirent where
  inum : UInt16
  name : Str

/-- The name as a string: it has no NUL if it is `DIRSIZ` bytes long. -/
def Dirent.str (de : Dirent) : Str := (de.name.take DIRSIZ).takeWhile (· ≠ 0)

inductive FType
  | dir
  | file
  | device
deriving DecidableEq

/-- What the system calls say of a path: what can be read from it, and what it is. -/
structure Files where
  opens : Str → Option (List Dirent)
  fstats : Str → Bool
  stats : Str → Option FType

/-! ## The program -/

/-- A pointer in the array of arguments: a word of the command, or the buffer of the call that has this number
of calls below it. -/
inductive Ptr
  | word (w : Str)
  | buf (depth : Nat)
deriving DecidableEq

inductive Event
  /-- The line that is printed for a file. -/
  | line (path : Str)
  /-- A child is forked, and calls `exec` with these arguments. An argument is `none` if the call whose buffer
  it was has returned. -/
  | command (argv : List (Option Str))
  | execError
  | cannotOpen (dir : Str)
  | cannotStat (path : Str)
  | tooLong
deriving DecidableEq

/-- A call of `find`. -/
structure Frame where
  dir : Str
  fd : Nat
  cmdLength : Nat
  buf : Str

structure Process where
  /-- The innermost call first. -/
  frames : List Frame
  cmdArgv : Nat → Option Ptr

structure State where
  offset : Nat → Nat
  nextFd : Nat
  /-- The process that runs first, then those that wait for it. -/
  procs : List Process
  out : List Event

/-- What all calls have in common; `execs` says if the `exec` after so many events succeeds. -/
structure Call where
  files : Files
  filename : Str
  cmdFlag : Bool
  execs : Nat → Bool

/-- `get_filename`: from the last slash on. -/
def getFilename (path : Str) : Str := (path.reverse.takeWhile (· ≠ slash)).reverse

/-- `find` up to its loop. -/
def enter (files : Files) (dir : Str) (fd cmdLength : Nat) : Except Event Frame :=
  match files.opens dir with
  | none => .error (.cannotOpen dir)
  | some _ =>
    if !files.fstats dir then .error (.cannotStat dir)
    else if dir.length + 1 + DIRSIZ + 1 > 512 then .error .tooLong
    else .ok ⟨dir, fd, cmdLength, dir ++ [slash]⟩

/-- The string that a pointer points to. -/
def resolve (frames : List Frame) : Ptr → Option Str
  | .word w => some w
  | .buf depth => (frames.reverse[depth]?).map Frame.buf

/-- The arguments that `exec` gets: the pointers in the array up to a null pointer. -/
def Process.vector (p : Process) : List (Option Str) :=
  (((List.range MAXARG).map p.cmdArgv).takeWhile Option.isSome).map fun q => q.bind (resolve p.frames)

def State.emit (s : State) (e : Event) : State := { s with out := s.out ++ [e] }

def State.run (s : State) (procs : List Process) : State := { s with procs := procs }

/-- The command for a file that is found; there is no step if the array has no room for the pointer. -/
def execute (c : Call) (s : State) (f : Frame) (fs : List Frame) (cmdArgv : Nat → Option Ptr)
    (waiting : List Process) : Option State :=
  if f.cmdLength < MAXARG then
    let p : Process :=
      ⟨{ f with cmdLength := f.cmdLength + 1 } :: fs, Function.update cmdArgv f.cmdLength (some (.buf fs.length))⟩
    let s := s.emit (.command p.vector)
    some (if c.execs s.out.length then s.run (p :: waiting)
      -- the child goes on, and the parent waits
      else (s.emit .execError).run (p :: p :: waiting))
  else none

/-- The call for a subdirectory, when `find` has been entered. -/
def descend (s : State) (f : Frame) (fs : List Frame) (cmdArgv : Nat → Option Ptr) (waiting : List Process) :
    Except Event Frame → State
  | .error e => (s.emit e).run (⟨f :: fs, cmdArgv⟩ :: waiting)
  | .ok g =>
    ⟨Function.update s.offset s.nextFd 0, s.nextFd + 1, ⟨g :: f :: fs, cmdArgv⟩ :: waiting, s.out⟩

/-- The body of the loop behind the call of `stat`; `p` is the name of the entry. -/
def examine (c : Call) (s : State) (p : Str) (f : Frame) (fs : List Frame) (cmdArgv : Nat → Option Ptr)
    (waiting : List Process) : Option FType → Option State
  | none => some ((s.emit (.cannotStat f.buf)).run (⟨f :: fs, cmdArgv⟩ :: waiting))
  | some .dir =>
    if p ≠ [dot] ∧ p ≠ [dot, dot] then
      some (descend s f fs cmdArgv waiting (enter c.files f.buf s.nextFd f.cmdLength))
    else some (s.run (⟨f :: fs, cmdArgv⟩ :: waiting))
  | some .file =>
    if getFilename f.buf = c.filename then
      if c.cmdFlag then execute c s f fs cmdArgv waiting
      else some ((s.emit (.line f.buf)).run (⟨f :: fs, cmdArgv⟩ :: waiting))
    else some (s.run (⟨f :: fs, cmdArgv⟩ :: waiting))
  | some .device => some (s.run (⟨f :: fs, cmdArgv⟩ :: waiting))

/-- The body of the loop, when an entry is read. -/
def body (c : Call) (s : State) (de : Dirent) (f : Frame) (fs : List Frame) (cmdArgv : Nat → Option Ptr)
    (waiting : List Process) : Option State :=
  if de.inum = 0 then some (s.run (⟨f :: fs, cmdArgv⟩ :: waiting))
  else
    let f := { f with buf := f.dir ++ slash :: de.str }
    examine c s de.str f fs cmdArgv waiting (c.files.stats f.buf)

/-- A step of the process that runs. -/
def step (c : Call) (s : State) : Option State :=
  match s.procs with
  | [] => none
  -- the first call of `find` has returned, and `main` exits
  | ⟨[], _⟩ :: waiting => some (s.run waiting)
  | ⟨f :: fs, cmdArgv⟩ :: waiting =>
    match (c.files.opens f.dir).bind fun es => es[s.offset f.fd]? with
    | none => some (s.run (⟨fs, cmdArgv⟩ :: waiting))
    | some de =>
      body c { s with offset := Function.update s.offset f.fd (s.offset f.fd + 1) } de f fs cmdArgv waiting

/-- The array of arguments that `main` makes. -/
def cmdArray (cmd : List Str) (i : Nat) : Option Ptr := (cmd[i]?).map .word

/-- The call of `find` in `main`. -/
def start (c : Call) (dir : Str) (cmd : List Str) : State :=
  match enter c.files dir 0 cmd.length with
  | .error e => ⟨fun _ => 0, 0, [⟨[], cmdArray cmd⟩], [e]⟩
  | .ok f => ⟨fun _ => 0, 1, [⟨[f], cmdArray cmd⟩], []⟩

def Reaches (c : Call) : State → State → Prop := Relation.ReflTransGen fun s s' => step c s = some s'

end Xv6.Find
