import Xv6.Lib.Machine
import Xv6.Lib.RingBuffer
import Mathlib.Data.List.FinRange

/-!
# Pipes

`pipe.c`, as a machine of any number of processes that read from and write to one pipe.  A
step is what one of them does with `p->lock` held: from `acquire`, or from where `sleep`
got the lock back, to `release` or to the next `sleep`.

`kill` may set `proc->killed` at any time, also while the process is in such a section; a
section looks at the flag at most once, so `Killing` says whether that happens before or
after.

`pipeclose` is called when the last descriptor of an end is closed.  A process in a call of
`piperead` or `pipewrite` has the descriptor open, so its end is not closed meanwhile.

## Main definitions

* `piperead`, `pipewrite` — one section of the two calls.
* `State`, `step` — the machine.
-/

namespace Xv6.Pipes

open Function Machine

abbrev PIPESIZE : ℕ := 512

instance : NeZero PIPESIZE := ⟨by decide⟩

/-- `struct pipe`; the counters are `uint`s. -/
structure Pipe extends RingBuffer UInt8 PIPESIZE 32 where
  readopen : Bool
  writeopen : Bool

/-- `p->data[p->nwrite++ % PIPESIZE] = b` -/
def Pipe.put (p : Pipe) (b : UInt8) : Pipe := { p with toRingBuffer := p.toRingBuffer.put b }

/-- `p->nread++` -/
def Pipe.pop (p : Pipe) : Pipe := { p with toRingBuffer := p.toRingBuffer.pop }

/-! ## The two calls -/

/-- The loop of `pipewrite` up to a full pipe or its end, and how many bytes it stored. -/
def store : Pipe → List UInt8 → Pipe × ℕ
  | p, [] => (p, 0)
  | p, b :: bs =>
    if p.toRingBuffer.Full then (p, 0)
    else ((store (p.put b) bs).1, (store (p.put b) bs).2 + 1)

/-- How a section of `pipewrite` ends, with `m` bytes stored: it returns `n`, it returns -1, or
it sleeps on `&p->nwrite`. -/
inductive WriteOutcome
  | returns (p : Pipe)
  | fails (p : Pipe) (m : ℕ)
  | sleeps (p : Pipe) (m : ℕ)

/-- `pipewrite` with the bytes `bs` still to be stored. -/
def pipewrite (p : Pipe) (killed : Bool) (bs : List UInt8) : WriteOutcome :=
  let (p', m) := store p bs
  if m = bs.length then .returns p'
  else if p'.readopen = false ∨ killed = true then .fails p' m
  else .sleeps p' m

/-- The copying loop of `piperead`. -/
def copy : Pipe → ℕ → Pipe × List UInt8
  | p, 0 => (p, [])
  | p, n + 1 =>
    if p.toRingBuffer.Empty then (p, [])
    else ((copy p.pop n).1, p.front :: (copy p.pop n).2)

/-- How a section of `piperead` ends: it returns the bytes, it returns -1, or it sleeps on
`&p->nread`. -/
inductive ReadOutcome
  | returns (p : Pipe) (bytes : List UInt8)
  | fails
  | sleeps

def piperead (p : Pipe) (killed : Bool) (n : ℕ) : ReadOutcome :=
  if p.toRingBuffer.Empty ∧ p.writeopen = true then
    if killed = true then .fails else .sleeps
  else .returns (copy p n).1 (copy p n).2

/-- The return value, if the call is over. -/
def ReadOutcome.value : ReadOutcome → Option ℤ
  | .returns _ bytes => some bytes.length
  | .fails => some (-1)
  | .sleeps => none

/-! ## The machine -/

inductive Chan
  | nread
  | nwrite
  deriving DecidableEq

/-- A call in progress, while it sleeps: how many bytes it asks for, or those it has still to
store. -/
inductive Call
  | read (n : ℕ)
  | write (bs : List UInt8)

def Call.chan : Call → Chan
  | .read _ => .nread
  | .write _ => .nwrite

/-- `chan i` is the channel on which process `i` is `SLEEPING`.  `written` and `read` are
history variables: the bytes stored and returned so far, in the order of the sections. -/
structure State (k : ℕ) where
  pipe : Pipe
  call : Fin k → Option Call
  chan : Fin k → Option Chan
  killed : Fin k → Bool
  written : List UInt8
  read : List UInt8

variable {k : ℕ}

def wakeup (chan : Fin k → Option Chan) (c : Chan) : Fin k → Option Chan := fun i =>
  if chan i = some c then none else chan i

/-- Whether `kill` sets the flag of the process during its section: not at all, before the
section looks at it, or after. -/
inductive Killing
  | no
  | early
  | late
  deriving DecidableEq

/-- The flag as the section sees it. -/
def State.sees (s : State k) (i : Fin k) (kl : Killing) : Bool := s.killed i || kl = .early

/-- Process `i` has the flag of its section set. -/
def State.flagged (s : State k) (i : Fin k) (kl : Killing) : Fin k → Bool :=
  update s.killed i (s.killed i || kl ≠ .no)

/-- A section of `piperead` in process `i`. -/
def State.runRead (s : State k) (i : Fin k) (n : ℕ) (kl : Killing) : State k :=
  match piperead s.pipe (s.sees i kl) n with
  | .returns p bytes => { s with
      pipe := p
      call := update s.call i none
      chan := wakeup s.chan .nwrite
      killed := s.flagged i kl
      read := s.read ++ bytes }
  | .fails => { s with call := update s.call i none, killed := s.flagged i kl }
  | .sleeps => { s with
      call := update s.call i (some (.read n))
      chan := update s.chan i (some .nread)
      killed := s.flagged i kl }

/-- A section of `pipewrite` in process `i`. -/
def State.runWrite (s : State k) (i : Fin k) (bs : List UInt8) (kl : Killing) : State k :=
  match pipewrite s.pipe (s.sees i kl) bs with
  | .returns p => { s with
      pipe := p
      call := update s.call i none
      chan := wakeup s.chan .nread
      killed := s.flagged i kl
      written := s.written ++ bs }
  | .fails p m => { s with
      pipe := p
      call := update s.call i none
      killed := s.flagged i kl
      written := s.written ++ bs.take m }
  | .sleeps p m => { s with
      pipe := p
      call := update s.call i (some (.write (bs.drop m)))
      chan := update (wakeup s.chan .nread) i (some .nwrite)
      killed := s.flagged i kl
      written := s.written ++ bs.take m }

/-- `pipeclose`. -/
def State.close (s : State k) (writable : Bool) : State k :=
  if writable then { s with
    pipe := { s.pipe with writeopen := false }
    chan := wakeup s.chan .nread }
  else { s with
    pipe := { s.pipe with readopen := false }
    chan := wakeup s.chan .nwrite }

/-- `kill` of process `i`, which is not in a section. -/
def State.kill (s : State k) (i : Fin k) : State k :=
  { s with
    killed := update s.killed i true
    chan := update s.chan i none }

/-- A process starts a call or goes on with it, an end is closed, or a process is killed. -/
inductive Action (k : ℕ)
  | read (i : Fin k) (n : ℕ) (kl : Killing)
  | write (i : Fin k) (bs : List UInt8) (kl : Killing)
  | resume (i : Fin k) (kl : Killing)
  | close (writable : Bool)
  | kill (i : Fin k)

/-- No process is in a call that uses the end. -/
def State.unused (s : State k) (c : Chan) : Bool :=
  (List.finRange k).all fun i => (s.call i).all fun call => call.chan ≠ c

def step (s : State k) : Action k → Option (State k)
  | .read i n kl =>
    if (s.call i).isNone ∧ s.pipe.readopen = true then some (s.runRead i n kl) else none
  | .write i bs kl =>
    if (s.call i).isNone ∧ s.pipe.writeopen = true then some (s.runWrite i bs kl) else none
  | .resume i kl =>
    if s.chan i = none then
      match s.call i with
      | some (.read n) => some (s.runRead i n kl)
      | some (.write bs) => some (s.runWrite i bs kl)
      | none => none
    else none
  | .close true =>
    if s.pipe.writeopen = true ∧ s.unused .nwrite = true then some (s.close true) else none
  | .close false =>
    if s.pipe.readopen = true ∧ s.unused .nread = true then some (s.close false) else none
  | .kill i => some (s.kill i)

/-- What `pipealloc` leaves; `data` is what was in the page. -/
def init (k : ℕ) (data : Fin PIPESIZE → UInt8) : State k where
  pipe := { data, nread := 0, nwrite := 0, readopen := true, writeopen := true }
  call _ := none
  chan _ := none
  killed _ := false
  written := []
  read := []

/-- What a step can be. -/
inductive Step (s : State k) : Action k → State k → Prop
  | read (i n kl) : s.call i = none → s.pipe.readopen = true →
      Step s (.read i n kl) (s.runRead i n kl)
  | write (i bs kl) : s.call i = none → s.pipe.writeopen = true →
      Step s (.write i bs kl) (s.runWrite i bs kl)
  | resumeRead (i n kl) : s.chan i = none → s.call i = some (.read n) →
      Step s (.resume i kl) (s.runRead i n kl)
  | resumeWrite (i bs kl) : s.chan i = none → s.call i = some (.write bs) →
      Step s (.resume i kl) (s.runWrite i bs kl)
  | closeWrite : (∀ i c, s.call i = some c → c.chan ≠ .nwrite) → Step s (.close true) (s.close true)
  | closeRead : (∀ i c, s.call i = some c → c.chan ≠ .nread) → Step s (.close false) (s.close false)
  | kill (i) : Step s (.kill i) (s.kill i)

theorem unused_iff {s : State k} {c : Chan} :
    s.unused c = true ↔ ∀ i call, s.call i = some call → call.chan ≠ c := by
  simp [State.unused, Option.all_eq_true]

/-- **The cases of a step.** -/
theorem step_cases {s s' : State k} {a : Action k} (h : step s a = some s') : Step s a s' := by
  cases a with
  | read i n kl =>
    obtain ⟨⟨hc, ho⟩, h⟩ := Option.ite_none_right_eq_some.mp h
    exact Option.some.inj h ▸ .read i n kl (Option.isNone_iff_eq_none.mp hc) ho
  | write i bs kl =>
    obtain ⟨⟨hc, ho⟩, h⟩ := Option.ite_none_right_eq_some.mp h
    exact Option.some.inj h ▸ .write i bs kl (Option.isNone_iff_eq_none.mp hc) ho
  | resume i kl =>
    obtain ⟨hchan, h⟩ := Option.ite_none_right_eq_some.mp h
    split at h
    · rename_i n hc
      exact Option.some.inj h ▸ .resumeRead i n kl hchan hc
    · rename_i bs hc
      exact Option.some.inj h ▸ .resumeWrite i bs kl hchan hc
    · cases h
  | close writable =>
    cases writable with
    | false =>
      obtain ⟨⟨-, hu⟩, h⟩ := Option.ite_none_right_eq_some.mp h
      exact Option.some.inj h ▸ .closeRead (unused_iff.mp hu)
    | true =>
      obtain ⟨⟨-, hu⟩, h⟩ := Option.ite_none_right_eq_some.mp h
      exact Option.some.inj h ▸ .closeWrite (unused_iff.mp hu)
  | kill i => exact Option.some.inj h ▸ .kill i

/-! ## What the loops do to the contents -/

variable {p : Pipe} {l bs : List UInt8}

theorem PIPESIZE_dvd : PIPESIZE ∣ 2 ^ 32 := by decide

theorem PIPESIZE_lt : PIPESIZE < 2 ^ 32 := by decide

/-- `pipewrite` stores as many bytes as fit. -/
theorem store_spec (h : p.toRingBuffer.Holds l) (bs : List UInt8) :
    (store p bs).2 = min bs.length (PIPESIZE - l.length) ∧
      (store p bs).1.toRingBuffer.Holds (l ++ bs.take (store p bs).2) ∧
      (store p bs).1.readopen = p.readopen ∧ (store p bs).1.writeopen = p.writeopen := by
  induction bs generalizing p l with
  | nil => simp [store, h]
  | cons b bs ih =>
    have hle := h.length_le
    rw [store]
    by_cases hfull : p.toRingBuffer.Full
    · have hlen := (h.full_iff PIPESIZE_lt).mp hfull
      simp [hfull, hlen, h]
    · have hlen := mt (h.full_iff PIPESIZE_lt).mpr hfull
      obtain ⟨hm, hh, hr, hw⟩ := ih (p := p.put b) (h.put PIPESIZE_dvd (by omega) b)
      simp only [hfull, if_false, List.length_cons, List.take_succ_cons]
      refine ⟨?_, by simpa using hh, hr, hw⟩
      rw [hm, List.length_append, List.length_singleton]
      omega

/-- `piperead` takes the oldest bytes. -/
theorem copy_spec (h : p.toRingBuffer.Holds l) (n : ℕ) :
    (copy p n).2 = l.take n ∧ (copy p n).1.toRingBuffer.Holds (l.drop n) ∧
      (copy p n).1.readopen = p.readopen ∧ (copy p n).1.writeopen = p.writeopen := by
  induction n generalizing p l with
  | zero => simp [copy, h]
  | succ n ih =>
    rw [copy]
    cases l with
    | nil =>
      have hempty := (h.empty_iff PIPESIZE_lt).mpr rfl
      simp [hempty, h]
    | cons a l =>
      have hempty := mt (h.empty_iff PIPESIZE_lt).mp (List.cons_ne_nil a l)
      obtain ⟨hb, hh, hr, hw⟩ := ih (p := p.pop) h.pop
      simp only [hempty, if_false, List.take_succ_cons, List.drop_succ_cons]
      exact ⟨by rw [h.front, hb], hh, hr, hw⟩

end Xv6.Pipes
