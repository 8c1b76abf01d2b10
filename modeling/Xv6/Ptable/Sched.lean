import Xv6.Ptable.Model

/-!
# The scheduler, and the steps of the machine

Every CPU runs `scheduler`.  A pass acquires `ptable.lock`, clears and recomputes
`GRTExists` and `FRRExists`, and goes through three levels: the best process by share
(GRT), a scan for the middle queue (FRR), a scan for the lowest (RR).  When it switches to
a process the lock goes with it, and the process releases it; the pass goes on,
with the lock again, when that process calls `sched`.  So a step of the machine is one
section of a process's code, and, if it ends in `sched`, also the part of its CPU's
pass up to the next release of the lock.

A process that was asleep in `wait` scans for children before it releases the lock,
and may go straight back to sleep.

## Main definitions

* `pass`, `resume` — a pass from its top, and after a switched-to process came back.
* `entry cfg s a` — the process's own part of a step.
* `step cfg s a` — one step.
-/

namespace Xv6.Ptable

def checkForHigherPiority (s : State) : State :=
  let found (piority : ℤ) := (List.finRange NPROC).any fun i =>
    ((s.procs i).state = .runnable || (s.procs i).state = .running) &&
      (s.procs i).piority = piority
  { s with
    grtExists := s.grtExists || found highPiority
    frrExists := s.frrExists || found mediumPiority }

/-- `swtch` to process `p`, which clears its `chan` if it was asleep. -/
def switchTo (s : State) (c : Cid) (pc : SchedPc) (p : Slot) : State :=
  { s.setProc p { s.procs p with processCounter := 0, state := .running, chan := none } with
    cpus := Function.update s.cpus c ⟨some p, pc⟩
    switches := s.switches ++ [⟨p, s.procs⟩] }

/-- What process `p` does with the lock it is handed. -/
def dispatch (s : State) (c : Cid) (pc : SchedPc) (p : Slot) : Outcome :=
  let s' := switchTo s c pc p
  if (s'.procs p).inWait then wait s' p else .released s'

/-- The end of a pass. -/
def endPass (s : State) (c : Cid) : State :=
  { s with cpus := Function.update s.cpus c ⟨none, .top⟩ }

/-! ## The lowest level -/

/-- What the RR level may switch to. -/
def RrCandidate (s : State) (p : Slot) : Prop :=
  (s.procs p).state = .runnable ∧ (s.procs p).piority = lowPiority

instance (s : State) (p : Slot) : Decidable (RrCandidate s p) :=
  inferInstanceAs (Decidable (_ ∧ _))

/-- After a process of the RR level came back. -/
def rrBack (cfg : Config) (c : Cid) (loop : State → State) (s : State) : State :=
  if cfg.policy = .Q3 then
    let s' := checkForHigherPiority s
    if s'.grtExists ∨ s'.frrExists then endPass s' c else loop s'
  else loop s

def rrLoop (cfg : Config) (c : Cid) : List Slot → State → State
  | [], s => endPass s c
  | p :: ps, s =>
    if RrCandidate s p then
      match dispatch s c (.rr p) p with
      | .released s' => s'
      | .sched s' => rrBack cfg c (rrLoop cfg c ps) s'
    else rrLoop cfg c ps s

def rrLevel (cfg : Config) (c : Cid) (s : State) : State :=
  if cfg.policy = .RR ∨ cfg.policy = .Q3 ∧ s.grtExists = false ∧ s.frrExists = false then
    rrLoop cfg c (List.finRange NPROC) s
  else endPass s c

/-! ## The middle level -/

/-- What the FRR level may switch to. -/
def FrrCandidate (cfg : Config) (s : State) (p : Slot) : Prop :=
  (s.procs p).state = .runnable ∧ (cfg.policy = .Q3 → (s.procs p).piority = mediumPiority)

instance (cfg : Config) (s : State) (p : Slot) : Decidable (FrrCandidate cfg s p) :=
  inferInstanceAs (Decidable (_ ∧ (_ → _)))

/-- After a process of the FRR level came back. -/
def frrBack (cfg : Config) (c : Cid) (loop : State → State) (s : State) : State :=
  if cfg.policy = .Q3 then
    let s' := checkForHigherPiority s
    if s'.grtExists then rrLevel cfg c s' else loop s'
  else loop s

def frrLoop (cfg : Config) (c : Cid) : List Slot → State → State
  | [], s => rrLevel cfg c s
  | p :: ps, s =>
    if FrrCandidate cfg s p then
      let s₁ := if cfg.policy = .Q3 then { s with frrExists := true } else s
      match dispatch s₁ c (.frr p) p with
      | .released s' => s'
      | .sched s' => frrBack cfg c (frrLoop cfg c ps) s'
    else frrLoop cfg c ps s

def frrLevel (cfg : Config) (c : Cid) (s : State) : State :=
  if cfg.policy = .FRR ∨ cfg.policy = .Q3 ∧ s.grtExists = false then
    frrLoop cfg c (List.finRange NPROC) s
  else rrLevel cfg c s

/-! ## The highest level -/

/-- What the GRT level may switch to. -/
def GrtCandidate (cfg : Config) (s : State) (p : Slot) : Prop :=
  (s.procs p).state = .runnable ∧ (cfg.policy = .Q3 → (s.procs p).piority = highPiority)

instance (cfg : Config) (s : State) (p : Slot) : Decidable (GrtCandidate cfg s p) :=
  inferInstanceAs (Decidable (_ ∧ (_ → _)))

/-- `rtime` over lifetime, in `float`. -/
def procValue (cfg : Config) (s : State) (i : Slot) : ℚ :=
  let down := cfg.rnd (uint32 ((s.ticks : ℤ) - (s.procs i).ctime))
  if down ≠ 0 then cfg.rnd (cfg.rnd (s.procs i).rtime / down) else 0

/-- One round of the search for the best process: `bestIndex` and `bestProcValue`. -/
def bestStep (cfg : Config) (s : State) (best : Option Slot × ℚ) (i : Slot) : Option Slot × ℚ :=
  if GrtCandidate cfg s i then
    if best.2 = -1 ∨ best.2 > procValue cfg s i then (some i, procValue cfg s i) else best
  else best

def bestIndex (cfg : Config) (s : State) : Option Slot :=
  ((List.finRange NPROC).foldl (bestStep cfg s) (none, -1)).1

def grtLevel (cfg : Config) (c : Cid) (s : State) : State :=
  if cfg.policy = .GRT ∨ cfg.policy = .Q3 then
    match bestIndex cfg s with
    | some p =>
      match dispatch s c .grt p with
      | .released s' => s'
      | .sched s' => frrLevel cfg c s'
    | none => frrLevel cfg c s
  else frrLevel cfg c s

/-! ## Passes -/

/-- A pass of `scheduler` on CPU `c`, from acquiring the lock to its next release. -/
def pass (cfg : Config) (c : Cid) (s : State) : State :=
  grtLevel cfg c (checkForHigherPiority { s with grtExists := false, frrExists := false })

/-- The slots a scan has still to look at. -/
def slotsAfter (p : Slot) : List Slot := (List.finRange NPROC).drop (p + 1)

/-- The pass of CPU `c` goes on after the process it switched to called `sched`. -/
def resume (cfg : Config) (c : Cid) (s : State) : State :=
  match (s.cpus c).pc with
  | .top => s
  | .grt => frrLevel cfg c s
  | .frr p => frrBack cfg c (frrLoop cfg c (slotsAfter p)) s
  | .rr p => rrBack cfg c (rrLoop cfg c (slotsAfter p)) s

/-! ## Steps -/

/-- What may happen next: a CPU outside a pass starts one, the process on a CPU makes
a call or takes a timer interrupt, or an interrupt handler wakes a channel. -/
inductive Action
  | schedule (c : Cid)
  | fork (c : Cid)
  | forkFail (c : Cid)
  | forkDone (c : Cid)
  | exit (c : Cid)
  | wait (c : Cid)
  | sleep (c : Cid) (a : ℕ)
  | yield (c : Cid)
  | nice (c : Cid)
  | kill (c : Cid) (pid : ℤ)
  | wakeup (a : ℕ)
  | tick
  deriving DecidableEq

/-- The process on CPU `c`, if it is not inside `fork`. -/
def State.caller (s : State) (c : Cid) : Option Slot :=
  (s.cpus c).proc.filter fun p => (s.procs p).np = none

/-- The process on CPU `c` and the slot of its `fork` in progress. -/
def State.forking (s : State) (c : Cid) : Option (Slot × Slot) :=
  (s.cpus c).proc.bind fun p => (s.procs p).np.map fun q => (p, q)

/-- The part of a step before `sched`.  `exit` panics in init. -/
def entry (cfg : Config) (s : State) : Action → Option (Cid × Outcome)
  | .schedule c => if (s.cpus c).pc = .top then some (c, .released (pass cfg c s)) else none
  | .fork c => (s.caller c).map fun p => (c, .released (fork cfg s p))
  | .forkFail c => (s.forking c).map fun pq => (c, .released (forkFail s pq.1 pq.2))
  | .forkDone c => (s.forking c).map fun pq => (c, .released (forkDone s pq.1 pq.2))
  | .exit c => (s.caller c).bind fun p =>
    if p = s.initproc then none
    else (s.procs p).parent.map fun q => (c, .sched (exit s p q))
  | .wait c => (s.caller c).map fun p => (c, wait s p)
  | .sleep c a => (s.caller c).map fun p => (c, .sched (sleep s p (.addr a)))
  | .yield c => (s.cpus c).proc.map fun p => (c, yield cfg s p)
  | .nice c => (s.caller c).map fun p => (c, .released (nice s p))
  | .kill c pid => (s.caller c).map fun _ =>
    (c, .released { s with procs := (kill s.procs pid).1 })
  | .wakeup a => some (0, .released { s with procs := wakeup1 s.procs (.addr a) })
  | .tick => some (0, .released (tick s))

def finish (cfg : Config) (c : Cid) : Outcome → State
  | .released s => s
  | .sched s => resume cfg c s

def step (cfg : Config) (s : State) (a : Action) : Option State :=
  (entry cfg s a).map fun co => finish cfg co.1 co.2

/-- A `struct proc` of the zeroed table. -/
def zeroProc : Proc where
  state := .unused
  pid := 0
  parent := none
  chan := none
  killed := false
  ctime := 0
  etime := 0
  rtime := 0
  processCounter := 0
  childCTime _ := 0
  childRTime _ := 0
  childETime _ := 0
  childPiority _ := 0
  allChildSize := 0
  piority := 0
  np := none
  inWait := false
  exits := 0

/-- The table before `userinit`. -/
def emptyTable : State where
  procs _ := zeroProc
  initproc := 0
  nextpid := 1
  ticks := 0
  grtExists := false
  frrExists := false
  cpus _ := ⟨none, .top⟩
  switches := []
  events := []

/-- The configuration of the source, `policyChooser = Q3`, with exact arithmetic. -/
def q3 : Config := ⟨.Q3, id⟩

/-- `userinit`: slot 0 becomes `initproc`. -/
def boot (cfg : Config) : State :=
  let s := allocproc cfg emptyTable 0
  s.setProc 0 { s.procs 0 with state := .runnable }

end Xv6.Ptable
