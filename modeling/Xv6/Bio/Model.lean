import Xv6.Lib.LinkedRing
import Xv6.Param
import Mathlib.Data.List.FinRange

/-!
# The buffer cache

`bio.c`, with the part of `log_write` and of the disk driver that touches buffers.  A call
is cut into the sections it runs under `bcache.lock`, the taking of a buffer's sleep-lock
and the transfer between buffer and disk; processes interleave between these.  All calls
are for device `ROOTDEV`, and the disk does not fail.

A process uses a buffer as the comment at the head of `bio.c` asks: it modifies, logs, writes
and releases a buffer that `bread` gave it.  `refcnt` is at most the number of processes, so
it is a number here.

## Main definitions

* `State` — the cache, the disk, and where each process stands.
* `bget`, `acquire`, `transfer`, `modify`, `logWrite`, `bwrite`, `brelse`, `unref` — the steps.
* `step` — one step of one process.
* `binit` — the state after `binit`.
* `expected` — what a history of stores, writes and evictions says a block's data is.
-/

namespace Xv6.Bio

open LinkedRing

/-- Size of the disk block cache. -/
def NBUF : ℕ := MAXOPBLOCKS * 3

/-- Device number of the file system's root disk. -/
def ROOTDEV : ℕ := 1

/-- `struct buf` without its links.  `lock` is the holder of the sleep-lock. -/
structure Buf (n : ℕ) (Data : Type) where
  valid : Bool
  dirty : Bool
  dev : ℕ
  blockno : ℕ
  lock : Option (Fin n)
  refcnt : ℕ
  data : Data

/-- Where a process stands: outside the calls; in `bget`, waiting for a sleep-lock; in
`iderw`, called by `bread` or by `bwrite`; in `brelse`, past `releasesleep`. -/
inductive Pc
  | idle
  | acquiring (i : Fin NBUF) (blockno : ℕ)
  | reading (i : Fin NBUF) (blockno : ℕ)
  | writing (i : Fin NBUF)
  | releasing (i : Fin NBUF)
  deriving DecidableEq

/-- The panics of `bio.c` and of `iderw`. -/
inductive Panic
  | bgetNoBuffers
  | bwrite
  | brelse
  | iderwNotLocked
  | iderwNothingToDo
  deriving DecidableEq

/-- What happens to blocks: a store into a block's buffer, a write to disk, the buffer given
to another block, and data that `bread` returns. -/
inductive Event (Data : Type)
  | store (blockno : ℕ) (data : Data)
  | write (blockno : ℕ) (data : Data)
  | evict (dev blockno : ℕ)
  | bread (blockno : ℕ) (data : Data)

/-- The state, with `n` processes.  `links` are the pointers of `bcache`, with `bcache.head`
for the sentinel, and `disk` is the disk `ROOTDEV`.  No step reads `hist`, the events up to
now with the last one first. -/
structure State (n : ℕ) (Data : Type) where
  links : Links (Fin NBUF)
  buf : Fin NBUF → Buf n Data
  disk : ℕ → Data
  pc : Fin n → Pc
  panicked : Option Panic
  hist : List (Event Data)

variable {n : ℕ} {Data : Type}

/-- The state after `binit`; the buffers are zeroed memory. -/
def binit (n : ℕ) (zero : Data) (disk : ℕ → Data) : State n Data where
  links := (List.finRange NBUF).foldl Links.pushFront Links.empty
  buf := fun _ => ⟨false, false, 0, 0, none, 0, zero⟩
  disk := disk
  pc := fun _ => .idle
  panicked := none
  hist := []

namespace State

def setBuf (s : State n Data) (i : Fin NBUF) (b : Buf n Data) : State n Data :=
  { s with buf := Function.update s.buf i b }

def setPc (s : State n Data) (p : Fin n) (c : Pc) : State n Data :=
  { s with pc := Function.update s.pc p c }

def record (s : State n Data) (e : Event Data) : State n Data :=
  { s with hist := e :: s.hist }

/-- Process `p` has buffer `i` from `bread`, and is in no call. -/
def Has (s : State n Data) (p : Fin n) (i : Fin NBUF) : Prop :=
  s.pc p = .idle ∧ (s.buf i).lock = some p

instance (s : State n Data) (p : Fin n) (i : Fin NBUF) : Decidable (s.Has p i) :=
  inferInstanceAs (Decidable (_ ∧ _))

end State

/-! ## The steps -/

/-- The section of `bget` under `bcache.lock`: the block's buffer, or the least recently used
one that is neither in use nor dirty. -/
def bget (s : State n Data) (p : Fin n) (dev blockno : ℕ) : Option (State n Data) :=
  match Links.scan s.links.next
      (fun i => (s.buf i).dev = dev ∧ (s.buf i).blockno = blockno) NBUF (s.links.next none) with
  | none => none
  | some (some i) =>
    some ((s.setBuf i { s.buf i with refcnt := (s.buf i).refcnt + 1 }).setPc p
      (.acquiring i blockno))
  | some none =>
    match Links.scan s.links.prev
        (fun i => (s.buf i).refcnt = 0 ∧ (s.buf i).dirty = false) NBUF (s.links.prev none) with
    | none => none
    | some none => some { s with panicked := some .bgetNoBuffers }
    | some (some i) =>
      let b := s.buf i
      some (((s.setBuf i { b with
        dev := dev, blockno := blockno, valid := false, dirty := false, refcnt := 1 }).setPc p
          (.acquiring i blockno)).record (.evict b.dev b.blockno))

/-- `iderw` up to its wait, which is at `c`. -/
def iderw (s : State n Data) (p : Fin n) (i : Fin NBUF) (c : Pc) : State n Data :=
  if (s.buf i).lock = none then { s with panicked := some .iderwNotLocked }
  else if (s.buf i).valid ∧ ¬ (s.buf i).dirty then
    { s with panicked := some .iderwNothingToDo }
  else s.setPc p c

/-- `bread` returns buffer `i`. -/
def returned (s : State n Data) (p : Fin n) (i : Fin NBUF) (blockno : ℕ) : State n Data :=
  (s.setPc p .idle).record (.bread blockno (s.buf i).data)

/-- `acquiresleep` at the end of `bget`, and the test of `bread`. -/
def acquire (s : State n Data) (p : Fin n) : Option (State n Data) :=
  match s.pc p with
  | .acquiring i blockno =>
    if (s.buf i).lock = none then
      let s := s.setBuf i { s.buf i with lock := some p }
      if (s.buf i).valid then some (returned s p i blockno)
      else some (iderw s p i (.reading i blockno))
    else none
  | _ => none

/-- The transfer for buffer `i`, up to `ideintr`. -/
def ideintr (s : State n Data) (i : Fin NBUF) : State n Data :=
  let b := s.buf i
  if b.dirty then
    { (s.setBuf i { b with valid := true, dirty := false }).record (.write b.blockno b.data) with
      disk := Function.update s.disk b.blockno b.data }
  else s.setBuf i { b with data := s.disk b.blockno, valid := true, dirty := false }

/-- The transfer that a process waits for in `iderw` is done. -/
def transfer (s : State n Data) (p : Fin n) : Option (State n Data) :=
  match s.pc p with
  | .reading i blockno => some (returned (ideintr s i) p i blockno)
  | .writing i => some ((ideintr s i).setPc p .idle)
  | _ => none

/-- A process stores into a buffer it has. -/
def modify (s : State n Data) (p : Fin n) (i : Fin NBUF) (data : Data) : Option (State n Data) :=
  if s.Has p i then
    some ((s.setBuf i { s.buf i with data := data }).record (.store (s.buf i).blockno data))
  else none

/-- `log_write`, as far as it touches the buffer. -/
def logWrite (s : State n Data) (p : Fin n) (i : Fin NBUF) : Option (State n Data) :=
  if s.Has p i then some (s.setBuf i { s.buf i with dirty := true }) else none

/-- `bwrite`, up to the wait in `iderw`. -/
def bwrite (s : State n Data) (p : Fin n) (i : Fin NBUF) : Option (State n Data) :=
  if s.Has p i then
    if (s.buf i).lock = none then some { s with panicked := some .bwrite }
    else some (iderw (s.setBuf i { s.buf i with dirty := true }) p i (.writing i))
  else none

/-- `brelse`, up to and with `releasesleep`. -/
def brelse (s : State n Data) (p : Fin n) (i : Fin NBUF) : Option (State n Data) :=
  if s.Has p i then
    if (s.buf i).lock = none then some { s with panicked := some .brelse }
    else some ((s.setBuf i { s.buf i with lock := none }).setPc p (.releasing i))
  else none

/-- The section of `brelse` under `bcache.lock`: a buffer that nobody waits for becomes the
most recently used. -/
def unref (s : State n Data) (p : Fin n) : Option (State n Data) :=
  match s.pc p with
  | .releasing i =>
    let s := (s.setBuf i { s.buf i with refcnt := (s.buf i).refcnt - 1 }).setPc p .idle
    if (s.buf i).refcnt = 0 then some { s with links := (s.links.unlink i).pushFront i }
    else some s
  | _ => none

/-- The steps of a process. -/
inductive Action (n : ℕ) (Data : Type)
  | bget (p : Fin n) (blockno : ℕ)
  | acquire (p : Fin n)
  | transfer (p : Fin n)
  | modify (p : Fin n) (i : Fin NBUF) (data : Data)
  | logWrite (p : Fin n) (i : Fin NBUF)
  | bwrite (p : Fin n) (i : Fin NBUF)
  | brelse (p : Fin n) (i : Fin NBUF)
  | unref (p : Fin n)

/-- What a step does, while no process has panicked. -/
def act (s : State n Data) : Action n Data → Option (State n Data)
  | .bget p blockno => if s.pc p = .idle then bget s p ROOTDEV blockno else none
  | .acquire p => acquire s p
  | .transfer p => transfer s p
  | .modify p i data => modify s p i data
  | .logWrite p i => logWrite s p i
  | .bwrite p i => bwrite s p i
  | .brelse p i => brelse s p i
  | .unref p => unref s p

def step (s : State n Data) (a : Action n Data) : Option (State n Data) :=
  if s.panicked = none then act s a else none

/-! ## What `bread` should return -/

/-- The data last written to a block of the disk. -/
def onDisk (disk : ℕ → Data) : List (Event Data) → ℕ → Data
  | [], b => disk b
  | .write c d :: h, b => if c = b then d else onDisk disk h b
  | _ :: h, b => onDisk disk h b

/-- The data last stored in a block's buffer or, if the buffer was given away since, the data
last written to disk. -/
def expected (disk : ℕ → Data) : List (Event Data) → ℕ → Data
  | [], b => disk b
  | .store c d :: h, b => if c = b then d else expected disk h b
  | .evict dev c :: h, b => if dev = ROOTDEV ∧ c = b then onDisk disk h b else expected disk h b
  | _ :: h, b => expected disk h b

/-- Every `bread` has returned what it should. -/
def ReadsRight (disk : ℕ → Data) : List (Event Data) → Prop
  | [] => True
  | .bread b d :: h => d = expected disk h b ∧ ReadsRight disk h
  | _ :: h => ReadsRight disk h

end Xv6.Bio
