import Xv6.Lib.Machine
import Xv6.Lib.RingBuffer
import Mathlib.Data.Int.Notation

/-!
# The console's input

`consoleintr` and `consoleread` of `console.c`, as a machine of any number of processes that read
from the console.  A step is what is done with `cons.lock` held: an interrupt with all the
characters that `getc` gives, or a section of `consoleread` from `acquire`, or from where `sleep`
got the lock back, to `release` or to the next `sleep`.  A process may wake up at any time.

The `log` is a history variable: what was stored, erased and committed, and what the calls took
and returned.  The echo, the listing of the processes and the inode lock are left out.

## Main definitions

* `State.key` — `consoleintr`, for one character.
* `readLoop` — a section of `consoleread`.
* `State`, `step` — the machine.
* `committed`, `consumed`, `replies`, `story` — what a log says.
-/

namespace Xv6.Console

open Machine

abbrev INPUT_BUF : ℕ := 128

scoped instance : NeZero INPUT_BUF := ⟨by decide⟩

/-- `C(x)`. -/
def C (x : Char) : UInt8 := UInt8.ofNat (x.toNat - '@'.toNat)

def newline : UInt8 := 10

/-- `input`. -/
structure Input where
  buf : Fin INPUT_BUF → UInt8
  r : BitVec 32
  w : BitVec 32
  e : BitVec 32

/-- The characters from `r` to `e`. -/
def Input.ring (inp : Input) : RingBuffer UInt8 INPUT_BUF 32 := ⟨inp.buf, inp.r, inp.e⟩

/-- `input.buf[i % INPUT_BUF]`. -/
def Input.char (inp : Input) (i : BitVec 32) : UInt8 := inp.buf (RingBuffer.cell INPUT_BUF i)

/-! ## Histories -/

/-- What happens to the characters.  `saved i` is a `^D` that call `i` leaves to the next one, and
`returned i none` is a return of −1. -/
inductive Event
  | accepted (c : UInt8)
  | erased
  | committed
  | called (i : ℕ) (n : ℤ)
  | took (i : ℕ) (c : UInt8)
  | eof (i : ℕ)
  | saved (i : ℕ)
  | returned (i : ℕ) (bytes : Option (List UInt8))
  deriving DecidableEq

/-- The characters committed so far and those of the line that is being edited. -/
def edit : List UInt8 × List UInt8 → Event → List UInt8 × List UInt8
  | (old, line), .accepted c => (old, line ++ [c])
  | (old, line), .erased => (old, line.dropLast)
  | (old, line), .committed => (old ++ line, [])
  | p, _ => p

/-- The accepted characters that survived editing and were committed. -/
def committed (log : List Event) : List UInt8 := (log.foldl edit ([], [])).1

/-- The character that an event takes out of the buffer. -/
def Event.item : Event → Option UInt8
  | .took _ c => some c
  | .eof _ => some (C 'D')
  | _ => none

/-- The characters taken out of the buffer, in this order. -/
def consumed (log : List Event) : List UInt8 := log.filterMap Event.item

/-- The bytes that an event returns to a process. -/
def Event.reply : Event → List UInt8
  | .returned _ (some bytes) => bytes
  | _ => []

/-- The bytes returned, in the order of the returns. -/
def replies (log : List Event) : List UInt8 := log.flatMap Event.reply

/-- The call that an event belongs to. -/
def Event.call : Event → Option ℕ
  | .called i _ => some i
  | .took i _ => some i
  | .eof i => some i
  | .saved i => some i
  | .returned i _ => some i
  | _ => none

/-- The events of call `i`. -/
def story (i : ℕ) (log : List Event) : List Event := log.filter fun ev => ev.call = some i

/-! ## The machine -/

/-- A call of `consoleread` while it sleeps: `target`, `n` and what is stored at `dst` so far. -/
structure Call where
  target : ℕ
  n : ℕ
  dst : List UInt8
  deriving DecidableEq

/-- `calls i` is call number `i` if it sleeps; there have been `next` calls. -/
structure State where
  input : Input
  calls : ℕ → Option Call
  next : ℕ
  log : List Event

def State.note (s : State) (ev : Event) : State := { s with log := s.log ++ [ev] }

/-- `input.e--` -/
def State.erase (s : State) : State :=
  { s with input := { s.input with e := s.input.e - 1 } }.note .erased

/-- `input.buf[input.e++ % INPUT_BUF] = c` -/
def State.accept (s : State) (c : UInt8) : State :=
  { s with input := { s.input with
      buf := Function.update s.input.buf (RingBuffer.cell INPUT_BUF s.input.e) c
      e := s.input.e + 1 } }.note (.accepted c)

/-- `input.w = input.e` -/
def State.commit (s : State) : State :=
  { s with input := { s.input with w := s.input.e } }.note .committed

/-- The loop of `C('U')`, for at most so many rounds. -/
def killLine : ℕ → State → State
  | 0, s => s
  | k + 1, s =>
    if s.input.e ≠ s.input.w ∧ s.input.char (s.input.e - 1) ≠ newline then killLine k s.erase
    else s

/-- The body of the loop of `consoleintr`. -/
def State.key (s : State) (c : UInt8) : State :=
  if c = C 'P' then s
  else if c = C 'U' then killLine (s.input.e - s.input.w).toNat s
  else if c = C 'H' ∨ c = 0x7f then
    if s.input.e ≠ s.input.w then s.erase else s
  else if c ≠ 0 ∧ (s.input.e - s.input.r).toNat < INPUT_BUF then
    let c := if c = 13 then newline else c
    let s := s.accept c
    if c = newline ∨ c = C 'D' ∨ s.input.e = s.input.r + BitVec.ofNat 32 INPUT_BUF then s.commit
    else s
  else s

def consoleintr (s : State) (cs : List UInt8) : State := cs.foldl State.key s

/-- Call `i` returns. -/
def State.finish (s : State) (i : ℕ) (bytes : Option (List UInt8)) : State :=
  { s with calls := Function.update s.calls i none }.note (.returned i bytes)

/-- `input.r++` -/
def State.advance (s : State) : State := { s with input := { s.input with r := s.input.r + 1 } }

/-- `input.r--` -/
def State.retreat (s : State) : State := { s with input := { s.input with r := s.input.r - 1 } }

/-- A section of `consoleread` in call `i`, with `n` bytes to go and `dst` stored. -/
def readLoop (i : ℕ) (killed : Bool) (target : ℕ) : ℕ → List UInt8 → State → State
  | 0, dst, s => s.finish i (some dst)
  | n + 1, dst, s =>
    if s.input.r = s.input.w then
      if killed = true then s.finish i none
      else { s with calls := Function.update s.calls i (some ⟨target, n + 1, dst⟩) }
    else
      let c := s.input.char s.input.r
      let s := s.advance
      if c = C 'D' then
        if n + 1 < target then (s.retreat.note (.saved i)).finish i (some dst)
        else (s.note (.eof i)).finish i (some dst)
      else
        let s := s.note (.took i c)
        if c = newline then s.finish i (some (dst ++ [c]))
        else readLoop i killed target n (dst ++ [c]) s

/-- `consoleread(ip, dst, n)`, up to its first `sleep` or its return. -/
def consoleread (s : State) (n : ℤ) (killed : Bool) : State :=
  readLoop s.next killed n.toNat n.toNat []
    ({ s with next := s.next + 1 }.note (.called s.next n))

/-- An interrupt, a new call, or a call that wakes up; `killed` is `proc->killed`. -/
inductive Action
  | intr (cs : List UInt8)
  | read (n : ℤ) (killed : Bool)
  | resume (i : ℕ) (killed : Bool)

def step (s : State) : Action → Option State
  | .intr cs => some (consoleintr s cs)
  | .read n killed => some (consoleread s n killed)
  | .resume i killed => (s.calls i).map fun c => readLoop i killed c.target c.n c.dst s

/-- No call, and nothing in the buffer, with the indices at `x`; at boot that is 0. -/
def idle (buf : Fin INPUT_BUF → UInt8) (x : BitVec 32) : State where
  input := ⟨buf, x, x, x⟩
  calls _ := none
  next := 0
  log := []

end Xv6.Console
