import Xv6.Param
import Xv6.Lib.RedoLog
import Mathlib.Data.Finset.Card

/-!
# The write-ahead log of `log.c`

Any number of processes run file-system operations, each `begin_op`, buffer
updates passed to `log_write`, `end_op`.  The last `end_op` commits the whole group:
`write_log`, `write_head`, `install_trans`, `write_head`.  A step is one section
under `log.lock`, one locked-buffer section, or one sector write; a crash may fall
between any two of them, also inside `recover_from_log`.

`log_write` tests the log's room before it takes `log.lock`, so the test and the
recording of the block number are two steps.

A block is the 128 words of its `BSIZE` bytes; `log.c` reads a block either as a
whole or, for the header, word by word.

## Main definitions

* `Area` — `log.start` and `log.size`.
* `State` — disk, buffer cache, `struct log`, processes, and the history of
  operations and commits.
* `step` — one step of the machine.
-/

namespace Xv6.Log

open Function RedoLog

abbrev BlockNo := ℕ
abbrev Pid := ℕ
abbrev OpId := ℕ

/-- The words of one disk block. -/
abbrev Block := Fin 128 → ℕ

/-- Word `i` of a block. -/
def Block.word (b : Block) (i : ℕ) : ℕ := if h : i < 128 then b ⟨i, h⟩ else 0

/-- `log.start` and `log.size`, from the superblock. -/
structure Area where
  start : ℕ
  size : ℕ
  size_pos : 0 < size

/-- The area `mkfs` writes: `logstart = 2`, `nlog = LOGSIZE`. -/
def mkfsArea : Area := ⟨2, LOGSIZE, by decide⟩

/-- A block outside the log area. -/
def Area.Home (A : Area) (b : ℕ) : Prop := b < A.start ∨ A.start + A.size ≤ b

instance (A : Area) (b : ℕ) : Decidable (A.Home b) :=
  inferInstanceAs (Decidable (_ ∨ _))

/-- `log.lh` as `read_head` takes it from a header block. -/
def readHead (hb : Block) : List BlockNo :=
  (List.range (hb.word 0)).map fun i => hb.word (i + 1)

/-- The header block after `write_head` stored `lh` in it; words past the list
keep what the block held. -/
def writeHead (hb : Block) (lh : List BlockNo) : Block := fun i =>
  if i.val = 0 then lh.length else lh.getD (i.val - 1) (hb i)

/-- A valid buffer of the cache.  `dirty` is `B_DIRTY`. -/
structure Buf where
  data : Block
  dirty : Bool

/-- One block passed to `log_write` by an operation. -/
structure Upd where
  op : OpId
  blockno : BlockNo
  data : Block

/-- The operations one `commit()` makes durable together, and their updates. -/
structure Group where
  ops : List OpId
  upds : List Upd

/-- Where `end_op`'s commit stands. -/
inductive CommitPc
  | writeLog (tail : ℕ)
  | writeHead
  | install (tail : ℕ)
  | clearHead
  | done
  deriving DecidableEq

/-- Where `recover_from_log` stands. -/
inductive RecoverPc
  | readHead
  | install (tail : ℕ)
  | clearHead
  deriving DecidableEq

/-- What the kernel is doing with the log. -/
inductive Phase
  | running
  | commit (pc : CommitPc)
  | recover (pc : RecoverPc)
  deriving DecidableEq

/-- A process, as far as the log sees it.  `unlogged` are the locked buffers it
has modified and not yet passed to `log_write`; in `logging` it is inside
`log_write`, past the test for room. -/
inductive Proc
  | outside
  | inOp (op : OpId) (unlogged : List BlockNo)
  | logging (op : OpId) (unlogged : List BlockNo) (b : BlockNo)
  deriving DecidableEq

/-- The panics of `log.c`. -/
inductive Panic
  | tooBigATransaction
  | logWriteOutsideOfTrans
  | logCommitting
  deriving DecidableEq

/-- History variables: no step reads them.  `issued` are all updates ever passed
to `log_write`, `txn` and `members` the updates and the operations of the open
transaction, `groups` the groups whose `commit()` began, the first `durable` of
which had their `write_head` reach the disk. -/
structure Hist where
  nextOp : OpId
  issued : List Upd
  txn : List Upd
  members : List OpId
  groups : List Group
  durable : ℕ

/-- The machine.  `owner b` is the holder of the sleep-lock of block `b`'s buffer. -/
structure State where
  disk : BlockNo → Block
  cache : BlockNo → Option Buf
  owner : BlockNo → Option Pid
  outstanding : ℕ
  committing : Bool
  lh : List BlockNo
  phase : Phase
  procs : Pid → Proc
  panicked : Option Panic
  hist : Hist

/-- What `bread` returns for a block: the cached data, else the disk's. -/
def State.view (s : State) (b : BlockNo) : Block :=
  match s.cache b with
  | some buf => buf.data
  | none => s.disk b

/-- A buffer for `b` as `bread` leaves it in the cache. -/
def State.bread (s : State) (b : BlockNo) : Buf :=
  (s.cache b).getD ⟨s.disk b, false⟩

/-- `bwrite` of `data` to block `b`: the sector is written and the buffer is clean. -/
def State.bwrite (s : State) (b : BlockNo) (data : Block) : State :=
  { s with
    disk := update s.disk b data
    cache := update s.cache b (some ⟨data, false⟩) }

inductive Action
  | beginOp (p : Pid)
  | bread (p : Pid) (b : BlockNo)
  | modify (p : Pid) (b : BlockNo) (data : Block)
  | logWrite (p : Pid) (b : BlockNo)
  | logRecord (p : Pid)
  | brelse (p : Pid) (b : BlockNo)
  | endOp (p : Pid)
  | evict (b : BlockNo)
  | commit
  | endCommit
  | crash
  | recover

/-- `begin_op`, past its sleeping loop. -/
def beginOp (s : State) (p : Pid) : Option State :=
  if s.procs p = .outside ∧ s.committing = false ∧
      s.lh.length + (s.outstanding + 1) * MAXOPBLOCKS ≤ LOGSIZE then
    some { s with
      outstanding := s.outstanding + 1
      procs := update s.procs p (.inOp s.hist.nextOp [])
      hist := { s.hist with
        nextOp := s.hist.nextOp + 1
        members := s.hist.members ++ [s.hist.nextOp] } }
  else none

/-- A process locks the buffer of block `b`, reading it if it is not cached. -/
def bread (s : State) (p : Pid) (b : BlockNo) : Option State :=
  if s.owner b = none then
    some { s with
      owner := update s.owner b (some p)
      cache := update s.cache b (some (s.bread b)) }
  else none

/-- The holder of a buffer stores into it. -/
def modify (s : State) (p : Pid) (b : BlockNo) (data : Block) : Option State :=
  match s.procs p with
  | .inOp op un =>
    if s.owner b = some p then
      some { s with
        cache := update s.cache b (some { s.bread b with data := data })
        procs := update s.procs p (.inOp op (b :: un)) }
    else none
  | _ => none

/-- The tests at the top of `log_write`, made without `log.lock`. -/
def logWrite (A : Area) (s : State) (p : Pid) (b : BlockNo) : Option State :=
  match s.procs p with
  | .inOp op un =>
    if s.owner b = some p then
      if LOGSIZE ≤ s.lh.length ∨ A.size ≤ s.lh.length + 1 then
        some { s with panicked := some .tooBigATransaction }
      else if s.outstanding < 1 then
        some { s with panicked := some .logWriteOutsideOfTrans }
      else
        some { s with procs := update s.procs p (.logging op un b) }
    else none
  | _ => none

/-- The section of `log_write` under `log.lock`: a block number already in the
header is absorbed, and the buffer is pinned. -/
def logRecord (s : State) (p : Pid) : Option State :=
  match s.procs p with
  | .logging op un b =>
    let u : Upd := ⟨op, b, s.view b⟩
    some { s with
      lh := if b ∈ s.lh then s.lh else s.lh ++ [b]
      cache := update s.cache b (some ⟨s.view b, true⟩)
      procs := update s.procs p (.inOp op (un.filter (· ≠ b)))
      hist := { s.hist with issued := s.hist.issued ++ [u], txn := s.hist.txn ++ [u] } }
  | _ => none

/-- The buffers a process may not release yet. -/
def Proc.busy : Proc → List BlockNo
  | .outside => []
  | .inOp _ un => un
  | .logging _ un b => b :: un

/-- `brelse`, by the holder of the buffer's lock. -/
def brelse (s : State) (p : Pid) (b : BlockNo) : Option State :=
  if s.owner b = some p ∧ b ∉ (s.procs p).busy then
    some { s with owner := update s.owner b none }
  else none

/-- The first section of `end_op`.  The last operation out starts `commit()`,
which does nothing when the header is empty. -/
def endOp (s : State) (p : Pid) : Option State :=
  match s.procs p with
  | .inOp _ [] =>
    let s₁ := { s with
      outstanding := s.outstanding - 1
      procs := update s.procs p .outside }
    if s.committing then some { s₁ with panicked := some .logCommitting }
    else if s.outstanding - 1 = 0 then
      let h := { s.hist with members := [], txn := [] }
      if s.lh = [] then
        some { s₁ with committing := true, phase := .commit .done, hist := h }
      else
        some { s₁ with
          committing := true
          phase := .commit (.writeLog 0)
          hist := { h with groups := s.hist.groups ++ [⟨s.hist.members, s.hist.txn⟩] } }
    else some s₁
  | _ => none

/-- `bget` recycles a clean, unused buffer. -/
def evict (s : State) (b : BlockNo) : Option State :=
  match s.cache b with
  | some buf =>
    if buf.dirty = false ∧ s.owner b = none then
      some { s with cache := update s.cache b none }
    else none
  | none => none

/-- One iteration of `write_log`. -/
def writeLogAt (A : Area) (s : State) (tail : ℕ) : State :=
  s.bwrite (A.start + tail + 1) (s.view (s.lh.getD tail 0))

/-- One iteration of `install_trans`. -/
def installAt (A : Area) (s : State) (tail : ℕ) : State :=
  s.bwrite (s.lh.getD tail 0) (s.view (A.start + tail + 1))

/-- `write_head()` with the in-memory header. -/
def writeHeadBlock (A : Area) (s : State) : State :=
  s.bwrite A.start (writeHead (s.view A.start) s.lh)

/-- The next step of `commit()`; each writes at most one sector. -/
def commit (A : Area) (s : State) : Option State :=
  match s.phase with
  | .commit (.writeLog tail) =>
    if tail < s.lh.length then
      some { writeLogAt A s tail with phase := .commit (.writeLog (tail + 1)) }
    else some { s with phase := .commit .writeHead }
  | .commit .writeHead =>
    some { writeHeadBlock A s with
      phase := .commit (.install 0)
      hist := { s.hist with durable := s.hist.durable + 1 } }
  | .commit (.install tail) =>
    if tail < s.lh.length then
      some { installAt A s tail with phase := .commit (.install (tail + 1)) }
    else some { s with lh := [], phase := .commit .clearHead }
  | .commit .clearHead => some { writeHeadBlock A s with phase := .commit .done }
  | _ => none

/-- The last section of `end_op`, after `commit()` returned. -/
def endCommit (s : State) : Option State :=
  if s.phase = .commit .done then some { s with committing := false, phase := .running }
  else none

/-- A crash leaves the disk alone.  A group whose header did not reach it is
forgotten, with the open transaction. -/
def crash (s : State) : State :=
  { disk := s.disk
    cache := fun _ => none
    owner := fun _ => none
    outstanding := 0
    committing := false
    lh := []
    phase := .recover .readHead
    procs := fun _ => .outside
    panicked := none
    hist := { s.hist with
      txn := []
      members := []
      groups := s.hist.groups.take s.hist.durable } }

/-- The next step of `recover_from_log()`; each writes at most one sector. -/
def recover (A : Area) (s : State) : Option State :=
  match s.phase with
  | .recover .readHead =>
    some { s with lh := readHead (s.view A.start), phase := .recover (.install 0) }
  | .recover (.install tail) =>
    if tail < s.lh.length then
      some { installAt A s tail with phase := .recover (.install (tail + 1)) }
    else some { s with lh := [], phase := .recover .clearHead }
  | .recover .clearHead => some { writeHeadBlock A s with phase := .running }
  | _ => none

/-- Processes run user calls only after recovery, and nothing runs after a panic. -/
def State.live (s : State) : Bool :=
  s.panicked.isNone && match s.phase with
    | .recover _ => false
    | _ => true

/-- One step of the machine. -/
def step (A : Area) (s : State) : Action → Option State
  | .beginOp p => if s.live then beginOp s p else none
  | .bread p b => if s.live then bread s p b else none
  | .modify p b data => if s.live then modify s p b data else none
  | .logWrite p b => if s.live then logWrite A s p b else none
  | .logRecord p => if s.live then logRecord s p else none
  | .brelse p b => if s.live then brelse s p b else none
  | .endOp p => if s.live then endOp s p else none
  | .evict b => if s.live then evict s b else none
  | .commit => if s.panicked.isNone then commit A s else none
  | .endCommit => if s.panicked.isNone then endCommit s else none
  | .crash => some (crash s)
  | .recover => if s.panicked.isNone then recover A s else none

/-- The machine before the first boot's `recover_from_log`, on disk `d`. -/
def boot (d : BlockNo → Block) : State :=
  { disk := d
    cache := fun _ => none
    owner := fun _ => none
    outstanding := 0
    committing := false
    lh := []
    phase := .recover .readHead
    procs := fun _ => .outside
    panicked := none
    hist := ⟨0, [], [], [], [], 0⟩ }

/-- The home blocks after the updates of the groups, in order. -/
def applyGroups (gs : List Group) (d : BlockNo → Block) : BlockNo → Block :=
  applyUpds (gs.flatMap fun g => g.upds.map fun u => (u.blockno, u.data)) d

end Xv6.Log
