import Xv6.Vm.Pgdir
import Mathlib.Data.List.FinRange

/-!
# System calls that use pages and files

The processes with their address spaces and descriptors, the file table, and the pipes:
`fork`, `exit`, `wait` and `growproc` of `proc.c`, `exec`, `file.c`, `pipe.c` and the calls
of `sysfile.c` on descriptors.  A call runs to its end; one that sleeps for good has no
outcome.

What a call does to inodes is left out: `open` is told which inode it finds.  The policy is
the one the source sets, so `allocproc` does not sort the process table.

## Main definitions

* `Sys` — the state.
* `call` — what a call of a process does.
* `boot` — the state in which the first process starts.
* `step` — one call of one process, as a machine.
-/

namespace Xv6.Vm

open Function

/-- Open files of a process. -/
def NOFILE : ℕ := 16

/-- `struct file`'s `type`, with the pipe or the inode. -/
inductive FileKind
  | none
  | pipe (p : Page)
  | inode (ip : ℕ)
  deriving DecidableEq

/-- An entry of the file table. -/
structure File where
  kind : FileKind
  ref : ℕ
  readable : Bool
  writable : Bool
  deriving DecidableEq

/-- The flags of a pipe. -/
structure Pipe where
  readopen : Bool
  writeopen : Bool
  deriving DecidableEq

/-- What a process has of memory. -/
structure Space where
  kstack : Page
  pgdir : PageDir
  sz : ℕ

/-- The states of a process: between calls none is an embryo, and it makes no difference
which of the live ones run or sleep.  The pointers that `wait` leaves in an unused slot are
never read. -/
inductive Life
  | unused
  | live (space : Space)
  | zombie (space : Space)

/-- An entry of the process table. -/
structure Proc where
  life : Life
  parent : Option (Fin 64)
  ofile : Fin 16 → Option (Fin 100)

/-- The state.  `cpuStacks` are the stacks of the processors other than the first. -/
structure Sys where
  kmem : Kmem
  kpgdir : PageDir
  cpuStacks : List Page
  pipe : Page → Option Pipe
  file : Fin 100 → File
  proc : Fin 64 → Proc

namespace Sys

/-- A part of a call that works on memory. -/
def mem (env : Env) (s : Sys) {α : Type} (m : MemProg α) : Except Fault (α × Sys) :=
  match Prog.run (handle env) m s.kmem with
  | .ok (a, k) => .ok (a, { s with kmem := k })
  | .error e => .error e

def setFile (s : Sys) (f : Fin 100) (x : File) : Sys :=
  { s with file := update s.file f x }

def setPipe (s : Sys) (p : Page) (x : Option Pipe) : Sys :=
  { s with pipe := update s.pipe p x }

def setProc (s : Sys) (i : Fin 64) (x : Proc) : Sys :=
  { s with proc := update s.proc i x }

/-- `proc->ofile[fd] = f` -/
def setFd (s : Sys) (i : Fin 64) (fd : Fin 16) (f : Option (Fin 100)) : Sys :=
  s.setProc i { s.proc i with ofile := update (s.proc i).ofile fd f }

/-- The address space of a process that is live. -/
def space (s : Sys) (i : Fin 64) : Option Space :=
  match (s.proc i).life with
  | .live sp => some sp
  | _ => none

end Sys

variable (env : Env)

/-! ## `file.c` and `pipe.c` -/

def filealloc (s : Sys) : Option (Fin 100) × Sys :=
  match (List.finRange 100).find? fun f => (s.file f).ref = 0 with
  | none => (none, s)
  | some f => (some f, s.setFile f { s.file f with ref := 1 })

def filedup (s : Sys) (f : Fin 100) : Except Fault Sys :=
  if (s.file f).ref < 1 then .error .filedup
  else .ok (s.setFile f { s.file f with ref := (s.file f).ref + 1 })

/-- The flag of one end goes. -/
def Pipe.shut (x : Pipe) (writable : Bool) : Pipe :=
  if writable then { x with writeopen := false } else { x with readopen := false }

/-- `pipeclose`; the pipe is in page `p`. -/
def pipeclose (s : Sys) (p : Page) (writable : Bool) : Except Fault Sys :=
  match s.pipe p with
  | none => .error .pipeclose
  | some x =>
    if (x.shut writable).readopen = false ∧ (x.shut writable).writeopen = false then do
      let (_, s) ← s.mem env (kfree p)
      return s.setPipe p none
    else .ok (s.setPipe p (some (x.shut writable)))

def fileclose (s : Sys) (f : Fin 100) : Except Fault Sys :=
  let ff := s.file f
  if ff.ref < 1 then .error .fileclose
  else if 0 < ff.ref - 1 then .ok (s.setFile f { ff with ref := ff.ref - 1 })
  else
    let s := s.setFile f { ff with ref := 0, kind := .none }
    match ff.kind with
    | .pipe p => pipeclose env s p ff.writable
    | _ => .ok s

/-- `pipealloc`: the read end and the write end. -/
def pipealloc (s : Sys) : Except Fault (Option (Fin 100 × Fin 100) × Sys) :=
  match filealloc s with
  | (none, s) => .ok (none, s)
  | (some f0, s) =>
    match filealloc s with
    | (none, s) => do
        let s ← fileclose env s f0
        return (none, s)
    | (some f1, s) => do
        let (p, s) ← s.mem env kalloc
        match p with
        | none =>
          let s ← fileclose env s f0
          let s ← fileclose env s f1
          return (none, s)
        | some p =>
          let s := s.setPipe p (some ⟨true, true⟩)
          let s := s.setFile f0 ⟨.pipe p, (s.file f0).ref, true, false⟩
          let s := s.setFile f1 ⟨.pipe p, (s.file f1).ref, false, true⟩
          return (some (f0, f1), s)

/-! ## Descriptors: `sysfile.c` -/

/-- `argfd`: the descriptor and its file. -/
def argfd (s : Sys) (i : Fin 64) (fd : ℤ) : Option (Fin 16 × Fin 100) :=
  if h : fd < 0 ∨ NOFILE ≤ fd then none
  else
    let fd : Fin 16 := ⟨fd.toNat, by simp only [NOFILE] at h; omega⟩
    ((s.proc i).ofile fd).map fun f => (fd, f)

/-- `fdalloc` by process `i`. -/
def fdalloc (s : Sys) (i : Fin 64) (f : Fin 100) : Option (Fin 16) × Sys :=
  match (List.finRange 16).find? fun fd => (s.proc i).ofile fd = none with
  | none => (none, s)
  | some fd => (some fd, s.setFd i fd (some f))

def sysDup (s : Sys) (i : Fin 64) (fd : ℤ) : Except Fault (Bool × Sys) :=
  match argfd s i fd with
  | none => .ok (false, s)
  | some (_, f) =>
    match fdalloc s i f with
    | (none, s) => .ok (false, s)
    | (some _, s) => do
        let s ← filedup s f
        return (true, s)

def sysClose (s : Sys) (i : Fin 64) (fd : ℤ) : Except Fault (Bool × Sys) :=
  match argfd s i fd with
  | none => .ok (false, s)
  | some (fd, f) => do
      let s := s.setFd i fd none
      let s ← fileclose env s f
      return (true, s)

def O_WRONLY : ℕ := 1
def O_RDWR : ℕ := 2

/-- `sys_open`, when `create` or `namei` gives `ip`. -/
def sysOpen (s : Sys) (i : Fin 64) (ip : Option ℕ) (omode : ℕ) : Except Fault (Bool × Sys) :=
  match ip with
  | none => .ok (false, s)
  | some ip =>
    match filealloc s with
    | (none, s) => .ok (false, s)
    | (some f, s) =>
      match fdalloc s i f with
      | (none, s) => do
          let s ← fileclose env s f
          return (false, s)
      | (some _, s) =>
        .ok (true, s.setFile f
          ⟨.inode ip, (s.file f).ref, omode &&& O_WRONLY = 0,
            omode &&& O_WRONLY ≠ 0 ∨ omode &&& O_RDWR ≠ 0⟩)

def sysPipe (s : Sys) (i : Fin 64) : Except Fault (Bool × Sys) := do
  let (fs, s) ← pipealloc env s
  match fs with
  | none => return (false, s)
  | some (rf, wf) =>
    match fdalloc s i rf with
    | (none, s) =>
      let s ← fileclose env s rf
      let s ← fileclose env s wf
      return (false, s)
    | (some fd0, s) =>
      match fdalloc s i wf with
      | (none, s) =>
        let s := s.setFd i fd0 none
        let s ← fileclose env s rf
        let s ← fileclose env s wf
        return (false, s)
      | (some _, s) => return (true, s)

/-! ## Processes -/

/-- The loop of `fork` over the descriptors of process `i`, for its child `j`. -/
def dupFiles (s : Sys) (i j : Fin 64) : Except Fault Sys :=
  (List.finRange 16).foldlM (fun s fd =>
    match (s.proc i).ofile fd with
    | none => .ok s
    | some f => do
        let s ← filedup s f
        return s.setFd j fd (some f)) s

/-- `allocproc`: the slot and the kernel stack. -/
def allocproc (s : Sys) : Except Fault (Option (Fin 64 × Page) × Sys) :=
  match (List.finRange 64).find? fun j => (s.proc j).life matches .unused with
  | none => .ok (none, s)
  | some j => do
      let (kstack, s) ← s.mem env kalloc
      match kstack with
      | none => return (none, s)
      | some kstack => return (some (j, kstack), s)

def fork (s : Sys) (i : Fin 64) (sp : Space) : Except Fault (Bool × Sys) := do
  let (np, s) ← allocproc env s
  match np with
  | none => return (false, s)
  | some (j, kstack) =>
    let (d, s) ← s.mem env (copyuvm env.layout sp.pgdir sp.sz)
    match d with
    | none =>
      let (_, s) ← s.mem env (kfree kstack)
      return (false, s)
    | some d =>
      let s := s.setProc j ⟨.live ⟨kstack, d, sp.sz⟩, some i, (s.proc j).ofile⟩
      let s ← dupFiles s i j
      return (true, s)

def sysExec (s : Sys) (i : Fin 64) (sp : Space) (image : Option Image) (argv : Argv) :
    Except Fault (Bool × Sys) := do
  let (r, s) ← s.mem env (exec env.layout sp.pgdir image argv)
  match r with
  | none => return (false, s)
  | some (pd, sz) =>
    return (true, s.setProc i { s.proc i with life := .live ⟨sp.kstack, pd, sz⟩ })

def sysSbrk (s : Sys) (i : Fin 64) (sp : Space) (n : ℤ) : Except Fault (Bool × Sys) := do
  let (r, s) ← s.mem env (growproc sp.pgdir sp.sz n)
  return (r.1, s.setProc i { s.proc i with life := .live ⟨sp.kstack, r.2.1, r.2.2⟩ })

/-- The loop of `exit` over the descriptors. -/
def closeFiles (s : Sys) (i : Fin 64) : Except Fault Sys :=
  (List.finRange 16).foldlM (fun s fd =>
    match (s.proc i).ofile fd with
    | none => .ok s
    | some f => do
        let s ← fileclose env s f
        return s.setFd i fd none) s

/-- The slot of `initproc`. -/
def initproc : Fin 64 := ⟨0, Nat.succ_pos 63⟩

/-- The children of `i` go to `initproc`. -/
def reparent (s : Sys) (i : Fin 64) : Sys :=
  { s with proc := fun j =>
      if (s.proc j).parent = some i then { s.proc j with parent := some initproc }
      else s.proc j }

def exit (s : Sys) (i : Fin 64) (sp : Space) : Except Fault (Bool × Sys) :=
  if i = initproc then .error .initExiting
  else do
    let s ← closeFiles env s i
    let s := reparent s i
    return (true, s.setProc i { s.proc i with life := .zombie sp })

/-- What a child of `i` that has exited still has. -/
def zombieChild (s : Sys) (i j : Fin 64) : Option Space :=
  if (s.proc j).parent = some i then
    match (s.proc j).life with
    | .zombie sp => some sp
    | _ => none
  else none

/-- `wait`, when it returns: with a child, or with −1. -/
def wait (s : Sys) (i : Fin 64) : Except Fault (Bool × Sys) :=
  match (List.finRange 64).findSome? fun j => (zombieChild s i j).map fun sp => (j, sp) with
  | none => .ok (false, s)
  | some (j, sp) => do
      let (_, s) ← s.mem env (kfree sp.kstack)
      let (_, s) ← s.mem env (freevm sp.pgdir)
      return (true, s.setProc j ⟨.unused, none, (s.proc j).ofile⟩)

/-! ## The machine -/

/-- The calls. -/
inductive Call
  | fork
  | exec (image : Option Image) (argv : Argv)
  | sbrk (n : Int32)
  | exit
  | wait
  | pipe
  | close (fd : ℤ)
  | dup (fd : ℤ)
  | openFile (ip : Option ℕ) (omode : ℕ)

/-- A call of process `i` with address space `sp`: whether it succeeds, and the state it
leaves. -/
def call (s : Sys) (i : Fin 64) (sp : Space) : Call → Except Fault (Bool × Sys)
  | .fork => fork env s i sp
  | .exec image argv => sysExec env s i sp image argv
  | .sbrk n => sysSbrk env s i sp n.toInt
  | .exit => exit env s i sp
  | .wait => wait env s i
  | .pipe => sysPipe env s i
  | .close fd => sysClose env s i fd
  | .dup fd => sysDup s i fd
  | .openFile ip omode => sysOpen env s i ip omode

/-- One call of one live process. -/
def step (s : Sys) (a : Fin 64 × Call) : Option Sys :=
  match s.space a.1 with
  | none => none
  | some sp =>
    match call env s a.1 sp a.2 with
    | .ok (_, s) => some s
    | .error _ => none

/-- The stacks for `n` more processors.  A null pointer is not noticed. -/
def startothers : ℕ → MemProg (List Page)
  | 0 => return []
  | n + 1 => do
      let stack ← kalloc
      let cpuStacks ← startothers n
      return stack.toList ++ cpuStacks

/-- `userinit`: the first process. -/
def userinit (layout : Layout) : MemProg Space := do
  match ← kalloc with
  | none => panic .userinit
  | some kstack =>
    match ← setupkvm layout with
    | none => panic .userinit
    | some pd =>
      let pd ← inituvm pd
      return ⟨kstack, pd, PGSIZE⟩

/-- `main`, as far as it uses memory. -/
def bootMem (layout : Layout) (others : ℕ) : MemProg (PageDir × List Page × Space) := do
  kinit1 layout
  match ← setupkvm layout with
  | none => panic .kvmalloc
  | some kpgdir =>
    let cpuStacks ← startothers others
    kinit2
    let sp ← userinit layout
    return (kpgdir, cpuStacks, sp)

/-- The state in which the first process starts. -/
def boot : Except Fault Sys :=
  match Prog.run (handle env) (bootMem env.layout env.others) ⟨[], 0⟩ with
  | .ok ((kpgdir, cpuStacks, sp), kmem) =>
    .ok {
      kmem := kmem
      kpgdir := kpgdir
      cpuStacks := cpuStacks
      pipe := fun _ => none
      file := fun _ => ⟨.none, 0, false, false⟩
      proc := fun i =>
        if i = initproc then ⟨.live sp, none, fun _ => none⟩
        else ⟨.unused, none, fun _ => none⟩ }
  | .error e => .error e

end Xv6.Vm
