import Xv6.Lib.LinkedQueue
import Xv6.Lib.Machine
import Xv6.Param

/-!
# The disk driver

`ide.c` with interrupts, and `memide.c`, the driver for a disk in memory.  Processes call
`iderw` on buffers whose sleep-locks they hold.  What a call does under `idelock`, from
`acquire` to the first `sleep` and from a wakeup to the next `sleep` or to `release`, is one
step, and so is a run of `ideintr`; the disk ends a request at any time in between.  The disk
makes no errors and raises one interrupt for each request it was given.

`BSIZE` is `SECTOR_SIZE`, so a block is one sector.

## Main definitions

* `Memide.iderw` — the driver of `memide.c`.
* `State`, `step` — the driver of `ide.c`, the disk and the processes.
* `State.mem` — the buffers and the disks with the result of an interrupt that is to come.
-/

namespace Xv6.Ide

open Function LinkedQueue

/-- `struct buf` without its links.  `lock` is the holder of the sleep-lock. -/
structure Buf (P D : Type) where
  valid : Bool
  dirty : Bool
  dev : ℕ
  blockno : ℕ
  lock : Option P
  data : D

namespace Buf

variable {P D : Type}

/-- `(b->flags & (B_VALID|B_DIRTY)) == B_VALID` -/
def synced (x : Buf P D) : Bool := x.valid && !x.dirty

/-- `b->dev & 1`, which of the two disks a request is for. -/
def drive (x : Buf P D) : Bool := Nat.beq (x.dev % 2) 1

end Buf

/-- The panics of the two drivers. -/
inductive Panic
  | notLocked
  | nothingToDo
  /-- `iderw: ide disk 1 not present` -/
  | noDisk1
  | idestart
  | incorrectBlockno
  /-- `iderw: request not for disk 1` -/
  | notForDisk1
  | outOfRange
  deriving DecidableEq

/-- Buffers and disks. -/
structure Mem (nbuf : ℕ) (P D : Type) where
  buf : Fin nbuf → Buf P D
  disk : Bool → ℕ → D

variable {nbuf : ℕ} {P D : Type}

/-- A block of a disk is replaced. -/
def setBlock (disk : Bool → ℕ → D) (drive : Bool) (blockno : ℕ) (d : D) : Bool → ℕ → D :=
  update disk drive (update (disk drive) blockno d)

/-! ## The driver for a disk in memory -/

namespace Memide

/-- The image that mkfs makes has `FSSIZE` blocks. -/
def disksize : ℕ := FSSIZE

/-- `iderw` behind its checks. -/
def transfer (m : Mem nbuf P D) (b : Fin nbuf) : Mem nbuf P D :=
  let x := m.buf b
  if x.dirty then
    { buf := update m.buf b { x with dirty := false, valid := true }
      disk := setBlock m.disk x.drive x.blockno x.data }
  else
    { buf := update m.buf b { x with data := m.disk x.drive x.blockno, valid := true }
      disk := m.disk }

/-- `iderw`; `memdisk` is disk 1. -/
def iderw (m : Mem nbuf P D) (b : Fin nbuf) : Except Panic (Mem nbuf P D) :=
  let x := m.buf b
  if x.lock.isNone then .error .notLocked
  else if x.synced then .error .nothingToDo
  else if x.dev ≠ 1 then .error .notForDisk1
  else if disksize ≤ x.blockno then .error .outOfRange
  else .ok (transfer m b)

/-- What happens to buffers: a process outside `iderw` changes one, or calls `iderw`. -/
inductive Event (nbuf : ℕ) (P D : Type)
  | set (b : Fin nbuf) (x : Buf P D)
  | iderw (b : Fin nbuf)

/-- One event.  A request for the disk that `memide.c` does not have is the same transfer on
that disk. -/
def step (m : Mem nbuf P D) : Event nbuf P D → Option (Mem nbuf P D)
  | .set b x => some { m with buf := update m.buf b x }
  | .iderw b => if (m.buf b).dev = 1 then (iderw m b).toOption else some (transfer m b)

/-- The buffers of the calls of `iderw`, in their order. -/
def calls (h : List (Event nbuf P D)) : List (Fin nbuf) :=
  h.filterMap fun
    | .set _ _ => none
    | .iderw b => some b

end Memide

/-! ## The driver with interrupts -/

/-- The registers that `idestart` loads.  `out` is the block that goes with a write. -/
structure Request (D : Type) where
  drive : Bool
  /-- `0x1f3` to `0x1f5`, and the low half of `0x1f6`. -/
  lba0 : ℕ
  lba1 : ℕ
  lba2 : ℕ
  lba3 : ℕ
  out : Option D

/-- The sector that the disk reads off its registers. -/
def Request.sector (r : Request D) : ℕ :=
  r.lba0 + 256 * r.lba1 + 65536 * r.lba2 + 16777216 * r.lba3

/-- What `idestart` sends to the disk. -/
def request (x : Buf P D) : Request D where
  drive := x.drive
  lba0 := x.blockno % 256
  lba1 := x.blockno / 256 % 256
  lba2 := x.blockno / 65536 % 256
  lba3 := x.blockno / 16777216 % 16
  out := if x.dirty then some x.data else none

/-- Where a process stands.  In `iderw` it waits for a buffer; `k` says how many requests came
before its own, and no step reads it. -/
inductive Pc (nbuf : ℕ)
  | idle
  | waiting (b : Fin nbuf) (k : ℕ) (awake : Bool)

/-- The state.  `queue` has `idequeue` and the `qnext` of the buffers; `active` is the request
that the disk works on; `port` is what a read leaves to be fetched.  No step reads `entered`,
the buffers that were put in the queue, `served`, those that `ideintr` took out, and `hist`. -/
structure State (nbuf : ℕ) (P D : Type) where
  havedisk1 : Bool
  queue : Queue (Fin nbuf)
  buf : Fin nbuf → Buf P D
  active : Option (Request D)
  irq : Bool
  port : D
  disk : Bool → ℕ → D
  pc : P → Pc nbuf
  panicked : Option Panic
  entered : List (Fin nbuf)
  served : List (Fin nbuf)
  hist : List (Memide.Event nbuf P D)

namespace State

def setPc [DecidableEq P] (s : State nbuf P D) (p : P) (c : Pc nbuf) : State nbuf P D :=
  { s with pc := update s.pc p c }

def panic (s : State nbuf P D) (why : Panic) : State nbuf P D := { s with panicked := some why }

/-- A process that is not in `iderw` changes a buffer. -/
def set (s : State nbuf P D) (b : Fin nbuf) (x : Buf P D) : State nbuf P D :=
  { s with buf := update s.buf b x, hist := s.hist ++ [.set b x] }

/-- Buffer `b` after `ideintr`: what was read is fetched, and the flags are set. -/
def completed (s : State nbuf P D) (b : Fin nbuf) : Buf P D :=
  let x := s.buf b
  { x with data := if x.dirty then x.data else s.port, valid := true, dirty := false }

/-- The buffers and the disks, with the result of the interrupt that is to come. -/
def mem (s : State nbuf P D) : Mem nbuf P D where
  buf := fun b => if s.irq = true ∧ s.queue.head = some b then s.completed b else s.buf b
  disk := s.disk

end State

/-- `wakeup(b)` -/
def wakeup (pc : P → Pc nbuf) (b : Fin nbuf) : P → Pc nbuf := fun p =>
  match pc p with
  | .idle => .idle
  | .waiting c k awake => .waiting c k (awake || c == b)

/-- `idestart`.  While the disk is busy `idewait` does not come back, and there is no step. -/
def idestart (s : State nbuf P D) : Option (Fin nbuf) → Option (State nbuf P D)
  | none => some (s.panic .idestart)
  | some b =>
    if FSSIZE ≤ (s.buf b).blockno then some (s.panic .incorrectBlockno)
    else if s.active.isSome then none
    else some { s with active := some (request (s.buf b)) }

/-- `ideintr`; the interrupt is acknowledged. -/
def ideintr (s : State nbuf P D) : Option (State nbuf P D) :=
  let s : State nbuf P D := { s with irq := false }
  match s.queue.head with
  | none => some s
  | some b =>
    -- `idewait(1)` waits for the disk before `insl`
    if !(s.buf b).dirty && s.active.isSome then none
    else
      let s : State nbuf P D :=
        { s with
          queue := s.queue.pop b
          buf := update s.buf b (s.completed b)
          pc := wakeup s.pc b
          served := s.served ++ [b] }
      match s.queue.head with
      | none => some s
      | some c => idestart s (some c)

section Processes

variable [DecidableEq P]

/-- The loop of `iderw` at its test: the call returns, or it sleeps on `b`. -/
def wait (s : State nbuf P D) (p : P) (b : Fin nbuf) (k : ℕ) : State nbuf P D :=
  if (s.buf b).synced then s.setPc p .idle else s.setPc p (.waiting b k false)

/-- `iderw` up to its first `sleep`. -/
def iderw (s : State nbuf P D) (p : P) (b : Fin nbuf) : Option (State nbuf P D) :=
  let x := s.buf b
  if x.lock.isNone then some (s.panic .notLocked)
  else if x.synced then some (s.panic .nothingToDo)
  else if x.dev ≠ 0 ∧ ¬ s.havedisk1 then some (s.panic .noDisk1)
  else
    match s.queue.append nbuf b with
    | none => none
    | some queue =>
      let k := s.entered.length
      let s : State nbuf P D := { s with queue := queue, entered := s.entered ++ [b] }
      if s.queue.head = some b then (idestart s (some b)).map fun s => wait s p b k
      else some (wait s p b k)

/-- The disk does what it was asked to and raises an interrupt. -/
def finish (s : State nbuf P D) : Option (State nbuf P D) :=
  match s.active with
  | none => none
  | some r =>
    let s : State nbuf P D :=
      { s with
        active := none
        irq := true
        hist := s.hist ++ (s.queue.head.map Memide.Event.iderw).toList }
    match r.out with
    | some d => some { s with disk := setBlock s.disk r.drive r.sector d }
    | none => some { s with port := s.disk r.drive r.sector }

/-- What can happen. -/
inductive Action (nbuf : ℕ) (P D : Type)
  /-- `acquiresleep` and `releasesleep` of a buffer's lock. -/
  | lock (p : P) (b : Fin nbuf)
  | unlock (p : P) (b : Fin nbuf)
  /-- A buffer's flags, block and data are changed, by the holder of its lock or, in `bget`,
  when there is none. -/
  | store (b : Fin nbuf) (valid dirty : Bool) (dev blockno : ℕ) (data : D)
  | iderw (p : P) (b : Fin nbuf)
  /-- A process that sleeps is made runnable by `kill`. -/
  | kill (p : P)
  /-- A process that was woken goes on in `iderw`. -/
  | resume (p : P)
  | finish
  | ideintr

/-- A process is outside `iderw`. -/
def Pc.isIdle : Pc nbuf → Bool
  | .idle => true
  | .waiting _ _ _ => false

/-- No process is in `iderw` with the lock of `b`. -/
def State.quiet (s : State nbuf P D) (b : Fin nbuf) : Bool :=
  (s.buf b).lock.all fun p => (s.pc p).isIdle

/-- One step.  Processes call `iderw` on buffers whose locks they hold. -/
def step (s : State nbuf P D) (a : Action nbuf P D) : Option (State nbuf P D) :=
  if s.panicked.isSome then none
  else
    match a with
    | .lock p b =>
      if (s.pc p).isIdle ∧ (s.buf b).lock = none then
        some (s.set b { s.buf b with lock := some p })
      else none
    | .unlock p b =>
      if (s.pc p).isIdle ∧ (s.buf b).lock = some p then
        some (s.set b { s.buf b with lock := none })
      else none
    | .store b valid dirty dev blockno data =>
      if s.quiet b then some (s.set b ⟨valid, dirty, dev, blockno, (s.buf b).lock, data⟩)
      else none
    | .iderw p b =>
      if (s.pc p).isIdle ∧ (s.buf b).lock = some p then iderw s p b else none
    | .kill p =>
      match s.pc p with
      | .idle => none
      | .waiting b k _ => some (s.setPc p (.waiting b k true))
    | .resume p =>
      match s.pc p with
      | .waiting b k true => some (wait s p b k)
      | _ => none
    | .finish => finish s
    | .ideintr => if s.irq then ideintr s else none

end Processes

/-- The state after `ideinit`, with any buffers that no process has locked, and any disks. -/
def ideinit (havedisk1 : Bool) (buf : Fin nbuf → Buf P D) (disk : Bool → ℕ → D) (port : D) :
    State nbuf P D where
  havedisk1 := havedisk1
  queue := ⟨none, fun _ => none⟩
  buf := buf
  active := none
  irq := false
  port := port
  disk := disk
  pc := fun _ => .idle
  panicked := none
  entered := []
  served := []
  hist := []

end Xv6.Ide
