import Xv6.Lib.Machine
import Xv6.Param
import Xv6.Sh.Parser

/-!
# Running a command

`runcmd` of `sh.c` over processes with tables of descriptors.  One step is one system call of
one process, so all processes interleave.  `fork`, `pipe`, `open` and `exec` may fail; a
process that panics prints a message and exits.  A program that `exec` has started does any
calls on its descriptors.  When `wait` returns is left open, which only adds runs.

## Main definitions

* `Fds`, `fdalloc`, `close`, `dup` — descriptors.
* `Pc` — where a process stands in `runcmd`.
* `State`, `step` — the processes.
-/

namespace Xv6.Sh

open Function

/-- What a descriptor stands for: the ends of a pipe, a file, and anything else. -/
inductive File
  | read (pipe : ℕ)
  | write (pipe : ℕ)
  | inode (name : List Char) (mode : ℕ)
  | other (n : ℕ)
  deriving DecidableEq

/-- `proc->ofile` -/
abbrev Fds : Type := ℕ → Option File

/-- `fdalloc`: the lowest free descriptor. -/
def fdalloc (fds : Fds) (f : File) : Option (ℕ × Fds) :=
  ((List.range NOFILE).find? fun fd => (fds fd).isNone).map fun fd =>
    (fd, update fds fd (some f))

def close (fds : Fds) (fd : ℕ) : Fds := update fds fd none

/-- `dup`; the shell does not look at what it returns. -/
def dup (fds : Fds) (fd : ℕ) : Fds :=
  match fds fd with
  | none => fds
  | some f =>
    match fdalloc fds f with
    | none => fds
    | some (_, fds) => fds

/-- The calls that `runcmd` makes in a row. -/
inductive Sys
  | close (fd : ℕ)
  | dup (fd : ℕ)
  deriving DecidableEq

def Sys.run (fds : Fds) : Sys → Fds
  | .close fd => Sh.close fds fd
  | .dup fd => Sh.dup fds fd

/-- Which side of which pipe a call of `runcmd` is for, if it is one of a `PIPE` node.  No
step depends on it. -/
inductive Side
  | inner
  | left (pipe : ℕ)
  | right (pipe : ℕ)
  deriving DecidableEq

/-- The commands that `runcmd` runs. -/
abbrev Command := Cmd (List Char)

/-- Where a process stands. -/
inductive Pc
  /-- At the head of `runcmd`. -/
  | run (cmd : Command) (side : Side)
  /-- Before `exec` of a leaf. -/
  | exec (argv : List (List Char))
  /-- In `REDIR`, behind `close`. -/
  | opening (file : List Char) (mode : ℕ) (cmd : Command)
  /-- In `LIST`, before `wait`. -/
  | waitList (right : Command)
  /-- In `PIPE` with `p[0]` and `p[1]`, before the two calls of `fork`. -/
  | forkLeft (left right : Command) (p0 p1 pipe : ℕ)
  | forkRight (right : Command) (p0 p1 pipe : ℕ)
  /-- The two children, and the process of the node itself, before the calls. -/
  | left (calls : List Sys) (cmd : Command) (pipe : ℕ)
  | right (calls : List Sys) (cmd : Command) (pipe : ℕ)
  | closing (calls : List Sys) (pipe : ℕ)
  /-- Before this many calls of `wait` and `exit`. -/
  | waits (n : ℕ)
  /-- In a program that `exec` has started. -/
  | user

/-- A process.  `line` are its pid and those of its ancestors; no step depends on it. -/
structure Proc where
  line : List ℕ
  fds : Fds
  pc : Pc

/-- What has happened to a `PIPE` node: the pid of its process and of its children, whether
its process has come to its calls of `wait`, and whether the right side has entered
`runcmd`. -/
structure Node where
  owner : ℕ
  left : Option ℕ
  right : Option ℕ
  waiting : Bool
  entered : Bool

/-- The state.  `node` is the `PIPE` node that has made a pipe; no step depends on it. -/
structure State where
  procs : ℕ → Option Proc
  nextpid : ℕ
  nextpipe : ℕ
  node : ℕ → Option Node

namespace State

def set (s : State) (q : ℕ) (p : Proc) : State :=
  { s with procs := update s.procs q (some p) }

/-- `exit()` -/
def exit (s : State) (q : ℕ) : State := { s with procs := update s.procs q none }

/-- `fork`: process `q` goes on at `pc`, and its child at `child`. -/
def fork (s : State) (q : ℕ) (p : Proc) (pc child : Pc) : State :=
  { s with
    procs := update (update s.procs q (some { p with pc := pc })) s.nextpid
      (some ⟨s.nextpid :: p.line, p.fds, child⟩)
    nextpid := s.nextpid + 1 }

/-- The node of a pipe is changed. -/
def note (s : State) (pipe : ℕ) (f : Node → Node) : State :=
  { s with node := update s.node pipe ((s.node pipe).map f) }

end State

/-- `pipe`: both ends of a new pipe get descriptors. -/
def pipe (fds : Fds) (n : ℕ) : Option (ℕ × ℕ × Fds) := do
  let (p0, fds) ← fdalloc fds (.read n)
  let (p1, fds) ← fdalloc fds (.write n)
  some (p0, p1, fds)

/-- The next call of process `q`; `ok` says whether it succeeds. -/
def go (s : State) (q : ℕ) (p : Proc) (ok : Bool) : State :=
  match p.pc with
  | .run (.exec []) _ => s.exit q
  | .run (.exec (w :: argv)) _ => s.set q { p with pc := .exec (w :: argv) }
  | .run (.redir cmd file mode fd) _ =>
    s.set q { p with fds := close p.fds fd, pc := .opening file mode cmd }
  | .run (.list left right) _ =>
    if ok then s.fork q p (.waitList right) (.run left .inner) else s.exit q
  | .run (.pipe left right) _ =>
    match pipe p.fds s.nextpipe with
    | some (p0, p1, fds) =>
      if ok then
        { s.set q { p with fds := fds, pc := .forkLeft left right p0 p1 s.nextpipe } with
          nextpipe := s.nextpipe + 1
          node := update s.node s.nextpipe (some ⟨q, none, none, false, false⟩) }
      else s.exit q
    | none => s.exit q
  | .run (.back cmd) _ => if ok then s.fork q p (.waits 0) (.run cmd .inner) else s.exit q
  | .exec _ => if ok then s.set q { p with pc := .user } else s.exit q
  | .opening file mode cmd =>
    match fdalloc p.fds (.inode file mode) with
    | some (_, fds) =>
      if ok then s.set q { p with fds := fds, pc := .run cmd .inner } else s.exit q
    | none => s.exit q
  | .waitList right => s.set q { p with pc := .run right .inner }
  | .forkLeft left right p0 p1 pipe =>
    if ok then
      (s.fork q p (.forkRight right p0 p1 pipe)
        (.left [.close 1, .dup p1, .close p0, .close p1] left pipe)).note pipe
        fun n => { n with left := some s.nextpid }
    else s.exit q
  | .forkRight right p0 p1 pipe =>
    if ok then
      (s.fork q p (.closing [.close p0, .close p1] pipe)
        (.right [.close 0, .dup p0, .close p0, .close p1] right pipe)).note pipe
        fun n => { n with right := some s.nextpid }
    else s.exit q
  | .left (c :: calls) cmd pipe =>
    s.set q { p with fds := c.run p.fds, pc := .left calls cmd pipe }
  | .left [] cmd pipe => s.set q { p with pc := .run cmd (.left pipe) }
  | .right (c :: calls) cmd pipe =>
    s.set q { p with fds := c.run p.fds, pc := .right calls cmd pipe }
  | .right [] cmd pipe =>
    (s.set q { p with pc := .run cmd (.right pipe) }).note pipe
      fun n => { n with entered := true }
  | .closing (c :: calls) pipe =>
    s.set q { p with fds := c.run p.fds, pc := .closing calls pipe }
  | .closing [] pipe =>
    (s.set q { p with pc := .waits 2 }).note pipe fun n => { n with waiting := true }
  | .waits (n + 1) => s.set q { p with pc := .waits n }
  | .waits 0 => s.exit q
  | .user => s

/-- What a program does with its descriptors. -/
inductive UserOp
  | close (fd : ℕ)
  | dup (fd : ℕ)
  | opens (name : List Char) (mode : ℕ)
  | pipe
  | fork
  | exit

def userOp (s : State) (q : ℕ) (p : Proc) : UserOp → State
  | .close fd => s.set q { p with fds := close p.fds fd }
  | .dup fd => s.set q { p with fds := dup p.fds fd }
  | .opens name mode =>
    match fdalloc p.fds (.inode name mode) with
    | some (_, fds) => s.set q { p with fds := fds }
    | none => s
  | .pipe =>
    match pipe p.fds s.nextpipe with
    | some (_, _, fds) => { s.set q { p with fds := fds } with nextpipe := s.nextpipe + 1 }
    | none => s
  | .fork => s.fork q p .user .user
  | .exit => s.exit q

inductive Action
  | go (q : ℕ) (ok : Bool)
  | user (q : ℕ) (op : UserOp)

def step (s : State) : Action → Option State
  | .go q ok => (s.procs q).map fun p => go s q p ok
  | .user q op =>
    match s.procs q with
    | some p =>
      match p.pc with
      | .user => some (userOp s q p op)
      | _ => none
    | none => none

/-- Process `q` is at the head of `runcmd` with descriptors 0, 1 and 2; all other processes run
programs. -/
structure Start (cmd : Command) (q : ℕ) (s : State) : Prop where
  shell : ∃ p, s.procs q = some p ∧ p.pc = .run cmd .inner ∧ ∀ fd, (p.fds fd).isSome ↔ fd < 3
  users : ∀ r p, r ≠ q → s.procs r = some p → p.pc = .user
  line : ∀ r p, s.procs r = some p → r ∈ p.line ∧ r < s.nextpid
  pipes : ∀ r p fd n, s.procs r = some p → p.fds fd = some (.read n) ∨ p.fds fd = some (.write n) →
    n < s.nextpipe
  node : ∀ n, s.node n = none

end Xv6.Sh
