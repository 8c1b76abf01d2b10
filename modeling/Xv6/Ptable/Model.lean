import Xv6.Param
import Mathlib.Data.Fintype.Basic
import Mathlib.Data.List.FinRange
import Mathlib.Data.Rat.Defs
import Mathlib.Logic.Function.Basic

/-!
# The process table of `proc.c`

`struct proc` and the functions of `proc.c` and `sysproc.c` that change the table,
each as what it does between acquiring and releasing `ptable.lock`.  The scheduler
is in `Sched`.

`fork` is two sections: `allocproc` marks a slot `EMBRYO` and releases the lock, and
only later is the child made `RUNNABLE`, or the slot given back when memory runs
out.  `np` is the local variable in which `fork` keeps the slot in between; it lives on
the kernel stack of the forking process, as does `inWait`, which says that the
process sleeps inside the loop of `wait`.

The four child arrays, `allChildSize` and `piority` are consecutive words of
`struct proc`, and `exit` indexes the arrays without a check, so a store is modelled by
its word offset.

## Main definitions

* `Proc`, `Proc.store` — a process and a store into its child records.
* `State` — the table, the CPUs and the scheduler's globals.
* `allocproc`, `fork`, `exit`, `wait`, `kill`, `wakeup1`, `yield`, `nice`.
-/

namespace Xv6.Ptable

open Function

abbrev Slot := Fin NPROC
abbrev Cid := ℕ

/-- The values of `policyChooser`. -/
inductive Policy
  | RR
  | FRR
  | GRT
  | Q3
  deriving DecidableEq

/-- `policyChooser` and the rounding of `float` operations.  Nothing proved about
the table depends on how `float` rounds. -/
structure Config where
  policy : Policy
  rnd : ℚ → ℚ

inductive ProcState
  | unused
  | embryo
  | sleeping
  | runnable
  | running
  | zombie
  deriving DecidableEq

/-- Channels: a `struct proc`, for `wait`, or another kernel address. -/
inductive Chan
  | proc (p : Slot)
  | addr (a : ℕ)
  deriving DecidableEq

/-- The channel `&ticks`. -/
def ticksChan : Chan := .addr 0

def highPiority : ℤ := 2
def mediumPiority : ℤ := 1
def lowPiority : ℤ := 0

/-- The value of a C `int` computed as `n`. -/
def int32 (n : ℤ) : ℤ := Int.bmod n 0x100000000

/-- The value of a C `uint` computed as `n`. -/
def uint32 (n : ℤ) : ℕ := (n % 0x100000000).toNat

/-- `struct proc`, and the locals of a system call in progress.  `exits` is a history
variable: how many processes exited with this one as their parent since it was
allocated. -/
structure Proc where
  state : ProcState
  pid : ℤ
  parent : Option Slot
  chan : Option Chan
  killed : Bool
  ctime : ℕ
  etime : ℕ
  rtime : ℕ
  processCounter : ℤ
  childCTime : Fin 64 → ℤ
  childRTime : Fin 64 → ℤ
  childETime : Fin 64 → ℤ
  childPiority : Fin 64 → ℤ
  allChildSize : ℤ
  piority : ℤ
  np : Option Slot
  inWait : Bool
  exits : ℕ

/-- Where the child arrays start, in words after `childCTime`. -/
def childCTimeAt : ℤ := 0
def childRTimeAt : ℤ := 64
def childETimeAt : ℤ := 128
def childPiorityAt : ℤ := 192

/-- A store to the word at offset `w` from the start of `childCTime`.  A store past
`piority`, the last field, would leave the struct. -/
def Proc.store (p : Proc) (w v : ℤ) : Proc :=
  if h : 0 ≤ w ∧ w < 64 then
    { p with childCTime := update p.childCTime ⟨w.toNat, by omega⟩ v }
  else if h : 64 ≤ w ∧ w < 128 then
    { p with childRTime := update p.childRTime ⟨(w - 64).toNat, by omega⟩ v }
  else if h : 128 ≤ w ∧ w < 192 then
    { p with childETime := update p.childETime ⟨(w - 128).toNat, by omega⟩ v }
  else if h : 192 ≤ w ∧ w < 256 then
    { p with childPiority := update p.childPiority ⟨(w - 192).toNat, by omega⟩ v }
  else if w = 256 then { p with allChildSize := v }
  else if w = 257 then { p with piority := v }
  else p

/-- Where a CPU's scheduler is suspended: outside a pass, or in a pass after the
process it switched to at one of the three levels. -/
inductive SchedPc
  | top
  | grt
  | frr (p : Slot)
  | rr (p : Slot)
  deriving DecidableEq

structure Cpu where
  proc : Option Slot
  pc : SchedPc
  deriving DecidableEq

/-- A history entry: `scheduler` switched to `slot` when the table was `table`. -/
structure Switch where
  slot : Slot
  table : Slot → Proc

/-- A history entry about the pids of a parent and a child: `fork` returned the child to the
parent, a process called `exit`, `wait` returned the child to the parent. -/
inductive Event
  | forked (parent child : ℤ)
  | exited (pid : ℤ)
  | reaped (parent child : ℤ)
  deriving DecidableEq

/-- The table, the CPUs and the scheduler's globals.  `switches` and `events` are history
variables; the last event comes first. -/
structure State where
  procs : Slot → Proc
  initproc : Slot
  nextpid : ℤ
  ticks : ℕ
  grtExists : Bool
  frrExists : Bool
  cpus : Cid → Cpu
  switches : List Switch
  events : List Event

def State.setProc (s : State) (i : Slot) (p : Proc) : State :=
  { s with procs := update s.procs i p }

/-- How a section of kernel code ends: the lock is released and the process goes
on, or the process calls `sched` with the lock held. -/
inductive Outcome
  | released (s : State)
  | sched (s : State)

/-! ## Allocation and `fork` -/

/-- The exchange that ends one round of `sortProcessFIFO`. -/
def sortRound (procs : Slot → Proc) (i : Slot) : Slot → Proc :=
  if (procs i).state = .runnable then
    let minIndex := (List.finRange NPROC).foldl (fun m j =>
      if i < j ∧ (procs j).state = .runnable ∧ (procs j).ctime < (procs i).ctime then j else m) i
    update (update procs i (procs minIndex)) minIndex (procs i)
  else procs

@[irreducible]
def sortProcessFIFO (procs : Slot → Proc) : Slot → Proc :=
  (List.finRange NPROC).foldl sortRound procs

/-- The slot `allocproc` finds. -/
def freeSlot (procs : Slot → Proc) : Option Slot :=
  (List.finRange NPROC).find? fun i => (procs i).state = .unused

/-- The section of `allocproc` that takes slot `p`. -/
def allocproc (cfg : Config) (s : State) (p : Slot) : State :=
  let s₁ : State :=
    { s.setProc p { s.procs p with
        state := .embryo
        pid := s.nextpid
        rtime := 0
        ctime := s.ticks
        allChildSize := 0
        exits := 0 } with
      nextpid := int32 (s.nextpid + 1) }
  match cfg.policy with
  | .FRR => { s₁ with procs := sortProcessFIFO s₁.procs }
  | .Q3 => s₁.setProc p { s₁.procs p with piority := highPiority }
  | _ => s₁

/-- `fork` by process `cur`, up to `allocproc`'s release of the lock.  With no free
slot it returns -1. -/
def fork (cfg : Config) (s : State) (cur : Slot) : State :=
  match freeSlot s.procs with
  | none => s
  | some p =>
    let s' := allocproc cfg s p
    s'.setProc cur { s'.procs cur with np := some p }

/-- `kalloc` or `copyuvm` failed: the slot is given back. -/
def forkFail (s : State) (cur np : Slot) : State :=
  let s' := s.setProc np { s.procs np with state := .unused }
  s'.setProc cur { s'.procs cur with np := none }

/-- The rest of `fork`: the child starts at `forkret`. -/
def forkDone (s : State) (cur np : Slot) : State :=
  let s' := s.setProc np { s.procs np with
    parent := some cur
    state := .runnable
    np := none
    inWait := false }
  { s'.setProc cur { s'.procs cur with np := none } with
    events := .forked (s.procs cur).pid (s.procs np).pid :: s.events }

/-! ## Sleeping and waking -/

def wakeup1 (procs : Slot → Proc) (chan : Chan) : Slot → Proc := fun i =>
  if (procs i).state = .sleeping ∧ (procs i).chan = some chan then
    { procs i with state := .runnable }
  else procs i

/-- `sleep` up to its call of `sched`. -/
def sleep (s : State) (cur : Slot) (chan : Chan) : State :=
  s.setProc cur { s.procs cur with chan := some chan, state := .sleeping }

/-- The slot `kill` finds. -/
def pidSlot (procs : Slot → Proc) (pid : ℤ) : Option Slot :=
  (List.finRange NPROC).find? fun i => (procs i).pid = pid

/-- `kill`: the first slot with the pid is marked, whatever its state. -/
def kill (procs : Slot → Proc) (pid : ℤ) : (Slot → Proc) × ℤ :=
  match pidSlot procs pid with
  | none => (procs, -1)
  | some i =>
    (update procs i { procs i with
      killed := true
      state := if (procs i).state = .sleeping then .runnable else (procs i).state }, 0)

/-! ## `exit` and `wait` -/

/-- `exit`'s stores into the parent's child records, each indexed by the parent's
`allChildSize` at that moment. -/
def recordChild (parent child : Proc) (ticks : ℕ) : Proc :=
  let p₁ := parent.store (childRTimeAt + parent.allChildSize) (int32 child.rtime)
  let p₂ := p₁.store (childCTimeAt + p₁.allChildSize) (int32 child.ctime)
  let p₃ := p₂.store (childETimeAt + p₂.allChildSize) (int32 ticks)
  let p₄ := p₃.store (childPiorityAt + p₃.allChildSize) child.piority
  { p₄ with allChildSize := int32 (p₄.allChildSize + 1), exits := p₄.exits + 1 }

/-- One round of `abandon`. -/
def reparent (cur initproc : Slot) (procs : Slot → Proc) (i : Slot) : Slot → Proc :=
  if (procs i).parent = some cur then
    let procs₁ := update procs i { procs i with parent := some initproc }
    if (procs₁ i).state = .zombie then wakeup1 procs₁ (.proc initproc) else procs₁
  else procs

/-- `exit`'s loop that passes abandoned children to init. -/
@[irreducible]
def abandon (cur initproc : Slot) (procs : Slot → Proc) : Slot → Proc :=
  (List.finRange NPROC).foldl (reparent cur initproc) procs

/-- The locked section of `exit` up to its call of `sched`, in a process with parent
`par`. -/
def exit (s : State) (cur par : Slot) : State :=
  let procs₁ := update s.procs par (recordChild (s.procs par) (s.procs cur) s.ticks)
  let procs₂ := wakeup1 procs₁ (.proc par)
  let s' := { s with
    procs := abandon cur s.initproc procs₂
    events := .exited (s.procs cur).pid :: s.events }
  s'.setProc cur { s'.procs cur with state := .zombie, etime := s.ticks }

/-- One scan of the loop of `wait`. -/
inductive WaitScan
  | reaped (p : Slot)
  | noChildren
  | sleeps

def waitScan (procs : Slot → Proc) (cur : Slot) : WaitScan :=
  match (List.finRange NPROC).find? fun i =>
      (procs i).parent = some cur ∧ (procs i).state = .zombie with
  | some i => .reaped i
  | none =>
    if (∀ i, (procs i).parent ≠ some cur) ∨ (procs cur).killed then .noChildren else .sleeps

/-- `wait` from the top of its loop to its return or its call of `sched`. -/
def wait (s : State) (cur : Slot) : Outcome :=
  match waitScan s.procs cur with
  | .reaped i =>
    let s' := s.setProc i { s.procs i with
      pid := 0
      parent := none
      killed := false
      state := .unused }
    .released { s'.setProc cur { s'.procs cur with inWait := false } with
      events := .reaped (s.procs cur).pid (s.procs i).pid :: s.events }
  | .noChildren => .released (s.setProc cur { s.procs cur with inWait := false })
  | .sleeps =>
    let s' := sleep s cur (.proc cur)
    .sched (s'.setProc cur { s'.procs cur with inWait := true })

/-! ## Timer, `yield` and `nice` -/

/-- The timer interrupt on CPU 0. -/
def tick (s : State) : State :=
  let s₁ : State := { s with ticks := uint32 (s.ticks + 1) }
  let s₂ : State := match (s.cpus 0).proc with
    | some p =>
      if (s₁.procs p).state = .running then
        s₁.setProc p { s₁.procs p with rtime := uint32 ((s₁.procs p).rtime + 1) }
      else s₁
    | none => s₁
  { s₂ with procs := wakeup1 s₂.procs ticksChan }

def yield (cfg : Config) (s : State) (cur : Slot) : Outcome :=
  if cfg.policy = .GRT then .released s
  else if (s.procs cur).piority = highPiority ∧ cfg.policy = .Q3 then .released s
  else if (s.procs cur).processCounter < QUANTA then
    .released (s.setProc cur { s.procs cur with
      processCounter := (s.procs cur).processCounter + 1 })
  else .sched (s.setProc cur { s.procs cur with processCounter := 0, state := .runnable })

/-- The new priority, or the complaint about an unknown one. -/
def nextPiority (piority : ℤ) : Option ℤ :=
  if piority = highPiority then some mediumPiority
  else if piority = mediumPiority then some lowPiority
  else if piority = lowPiority then some highPiority
  else none

def nice (s : State) (cur : Slot) : State :=
  match nextPiority (s.procs cur).piority with
  | some piority => s.setProc cur { s.procs cur with piority := piority }
  | none => s

end Xv6.Ptable
