import Xv6.Lib.Machine
import Mathlib.Data.Int.Notation
import Mathlib.Data.List.Nodup
import Mathlib.Logic.Function.Basic

/-!
# Nesting of `pushcli` and `popcli`

`pushcli`, `popcli`, `acquire` and `release` of `spinlock.c`, with `sched`, the scheduler's `swtch`
and `sti`, and interrupts.  On every CPU a scheduler thread or a process runs.  A thread takes and
releases locks in any order, and calls `pushcli` and `popcli` as it likes, but releases only locks
that it holds and calls `popcli` no more often than `pushcli`.

`pushcli` reads the flag and turns it off in two steps: in between, the thread can be interrupted
and go on on another CPU.  `acquire` spins in a step of its own.  A process that is switched out,
and a scheduler that waits for a process, both have `ptable.lock`: it goes from one to the other.

## Main definitions

* `Cpu.pushcli`, `Cpu.popcli` — the functions, behind `readeflags`.
* `State`, `step` — the machine.
* `Inv` — what a thread and its CPU agree on.

## Main results

* `Inv.step` — every step keeps the invariant.
* `nesting` — when interrupts are off, and when they are on again.
-/

namespace Xv6.Cli

open Machine

inductive Panic
  | acquire
  | release
  /-- `popcli - interruptible` -/
  | interruptible
  | popcli
  | schedPtable
  | schedLocks
  | schedInterruptible
  deriving DecidableEq

/-- `ncli` and `intena` of a `struct cpu`, and `FL_IF` of its flags. -/
structure Cpu where
  ncli : ℤ
  intena : Bool
  flag : Bool

/-- `pushcli`, when it has read the flag. -/
def Cpu.pushcli (x : Cpu) (eflags : Bool) : Cpu where
  ncli := x.ncli + 1
  intena := if x.ncli = 0 then eflags else x.intena
  flag := false

def Cpu.popcli (x : Cpu) : Except Panic Cpu :=
  if x.flag then .error .interruptible
  else if x.ncli - 1 < 0 then .error .popcli
  else .ok { x with ncli := x.ncli - 1, flag := if x.ncli - 1 = 0 then x.intena else x.flag }

/-- What a thread is at: `pending` is the flag that its `pushcli` has read, with the lock if it was
called by `acquire`; `spin` is the lock that it waits for.  `pushes` counts calls of `pushcli` by
the thread itself, and by an `acquire` that spins.  `frames` is what interrupts have interrupted.

No step reads `outer`, the flag before the outermost `acquire` or `pushcli`, and `before`, the flag
and `pushes` before the outermost `acquire`. -/
structure Thread (L : Type) where
  pending : Option (Bool × Option L)
  spin : Option L
  locks : List L
  pushes : ℕ
  frames : List (Option (Bool × Option L))
  outer : Option Bool
  before : Option (Bool × ℕ)

namespace Thread

variable {L : Type}

def nest (t : Thread L) : ℕ := t.locks.length + t.pushes

/-- The thread is in none of the calls. -/
def ready (t : Thread L) : Bool := t.pending.isNone && t.spin.isNone

/-- The thread has turned interrupts off. -/
def pushcli (t : Thread L) (eflags : Bool) (lock : Option L) : Thread L :=
  { t with
    pending := none
    spin := lock
    pushes := t.pushes + 1
    outer := if t.nest = 0 then some eflags else t.outer
    before := if lock.isSome ∧ t.locks = [] then some (eflags, t.pushes) else t.before }

/-- The thread has the lock that it was waiting for. -/
def take (t : Thread L) (l : L) : Thread L :=
  { t with spin := none, pushes := t.pushes - 1, locks := l :: t.locks }

def drop [DecidableEq L] (t : Thread L) (l : L) : Thread L :=
  { t with
    locks := t.locks.erase l
    before := if t.locks.erase l = [] then none else t.before }

end Thread

/-- Where a process goes on: it runs; it starts in `forkret`; it returns from `swtch` in `sched`,
which has saved `intena`. -/
inductive Context
  | running
  | forkret
  | sched (intena : Bool)

/-- The state: `on` is the process that a CPU runs, and `holder` is the CPU that has a lock. -/
structure State (C P L : Type) where
  cpu : C → Cpu
  on : C → Option P
  thread : C ⊕ P → Thread L
  context : P → Context
  holder : L → Option C
  panicked : Option Panic

variable {C P L : Type}

namespace State

def tid (s : State C P L) (c : C) : C ⊕ P :=
  match s.on c with
  | none => .inl c
  | some p => .inr p

/-- The thread that a CPU runs. -/
def cur (s : State C P L) (c : C) : Thread L := s.thread (s.tid c)

def panic (s : State C P L) (why : Panic) : State C P L := { s with panicked := some why }

end State

inductive Action (C P L : Type)
  /-- The beginning of `pushcli`, called by `acquire` if there is a lock. -/
  | readeflags (c : C) (lock : Option L)
  /-- The rest of `pushcli`, and the check of `acquire`. -/
  | cli (c : C)
  /-- The `xchg` of `acquire` finds the lock free. -/
  | xchg (c : C)
  | release (c : C) (l : L)
  | popcli (c : C)
  | sched (c : C)
  /-- The scheduler switches to a process. -/
  | swtch (c : C) (p : P)
  /-- The scheduler enables interrupts. -/
  | sti (c : C)
  | interrupt (c : C)
  /-- The return from an interrupt, or from the kernel. -/
  | iret (c : C)

section Steps

variable [DecidableEq C] [DecidableEq P] [DecidableEq L]

namespace State

/-- The thread that a CPU runs goes on. -/
def put (s : State C P L) (c : C) (x : Cpu) (t : Thread L) (holder : L → Option C) : State C P L :=
  { s with
    cpu := Function.update s.cpu c x
    thread := Function.update s.thread (s.tid c) t
    holder := holder }

/-- `popcli`, behind which the thread is `t`. -/
def pop (s : State C P L) (c : C) (t : Thread L) (holder : L → Option C) : State C P L :=
  match (s.cpu c).popcli with
  | .error why => s.panic why
  | .ok x => s.put c x t holder

/-- A CPU changes between its scheduler and process `p`: `away` says that the process stops.  Where
it goes on, `sched` sets `intena`. -/
def switch (s : State C P L) (c : C) (p : P) (away : Bool) (intena : Bool) : State C P L :=
  { s with
    on := Function.update s.on c (if away then none else some p)
    cpu := Function.update s.cpu c { s.cpu c with intena := intena }
    context := Function.update s.context p (if away then .sched intena else .running) }

/-- `sched`, up to `swtch`.  The process has changed its state before. -/
def sched (s : State C P L) (ptable : L) (c : C) (p : P) : State C P L :=
  if s.holder ptable ≠ some c then s.panic .schedPtable
  else if (s.cpu c).ncli ≠ 1 then s.panic .schedLocks
  else if (s.cpu c).flag then s.panic .schedInterruptible
  else s.switch c p true (s.cpu c).intena

end State

/-- One step. -/
def step (ptable : L) (s : State C P L) (a : Action C P L) : Option (State C P L) :=
  if s.panicked.isSome then none
  else
    match a with
    | .readeflags c lock =>
      if (s.cur c).ready then
        some (s.put c (s.cpu c) { s.cur c with pending := some ((s.cpu c).flag, lock) } s.holder)
      else none
    | .cli c =>
      match (s.cur c).pending with
      | none => none
      | some (eflags, lock) =>
        let s' := s.put c ((s.cpu c).pushcli eflags) ((s.cur c).pushcli eflags lock) s.holder
        if lock.any fun l => s.holder l = some c then some (s'.panic .acquire) else some s'
    | .xchg c =>
      match (s.cur c).spin with
      | none => none
      | some l =>
        if s.holder l = none then
          some (s.put c (s.cpu c) ((s.cur c).take l) (Function.update s.holder l (some c)))
        else none
    | .release c l =>
      if (s.cur c).ready ∧ l ∈ (s.cur c).locks then
        if s.holder l ≠ some c then some (s.panic .release)
        else some (s.pop c ((s.cur c).drop l) (Function.update s.holder l none))
      else none
    | .popcli c =>
      if (s.cur c).ready ∧ 0 < (s.cur c).pushes then
        some (s.pop c { s.cur c with pushes := (s.cur c).pushes - 1 } s.holder)
      else none
    | .sched c =>
      match s.on c with
      | none => none
      | some p => if (s.cur c).ready then some (s.sched ptable c p) else none
    | .swtch c p =>
      if s.on c = none ∧ (s.cur c).ready ∧ (s.cur c).locks = [ptable] ∧ (s.cur c).pushes = 0 then
        match s.context p with
        | .running => none
        | .forkret => some (s.switch c p false (s.cpu c).intena)
        | .sched intena => some (s.switch c p false intena)
      else none
    | .sti c =>
      if s.on c = none ∧ (s.cur c).ready ∧ (s.cur c).nest = 0 then
        some (s.put c { s.cpu c with flag := true } (s.cur c) s.holder)
      else none
    | .interrupt c =>
      if (s.cpu c).flag then
        some (s.put c { s.cpu c with flag := false }
          { s.cur c with pending := none, frames := (s.cur c).pending :: (s.cur c).frames }
          s.holder)
      else none
    | .iret c =>
      if (s.cur c).ready ∧ (s.cur c).nest = 0 ∧ (s.on c = none → (s.cur c).frames ≠ []) then
        some (s.put c { s.cpu c with flag := true }
          { s.cur c with
            pending := (s.cur c).frames.head?.join
            frames := (s.cur c).frames.tail } s.holder)
      else none

end Steps

/-- All CPUs are at the beginning of the scheduler, and no process has run. -/
def boot (ptable : L) (intena flag : C → Bool) : State C P L where
  cpu := fun c => ⟨0, intena c, flag c⟩
  on := fun _ => none
  thread
    | .inl _ => ⟨none, none, [], 0, [], none, none⟩
    | .inr _ => ⟨none, none, [ptable], 0, [], none, none⟩
  context := fun _ => .forkret
  holder := fun _ => none
  panicked := none

/-! ## The invariant -/

structure Thread.Sound (t : Thread L) : Prop where
  /-- Only a thread with interrupts on is interrupted. -/
  frames : ∀ e lock, some (e, lock) ∈ t.frames → e = true
  spin : t.spin.isSome → 0 < t.pushes
  before : ∀ b k, t.before = some (b, k) → (t.locks ≠ [] ∨ t.spin.isSome) ∧
    (k = 0 → t.outer = some b) ∧ (0 < k → b = false)

/-- Thread `t` runs on CPU `x`. -/
structure Runs (x : Cpu) (t : Thread L) : Prop where
  ncli : x.ncli = t.nest
  off : 0 < t.nest → x.flag = false
  /-- The flag is what `pushcli` has read. -/
  pending : ∀ e lock, t.pending = some (e, lock) → e = x.flag ∧ t.spin = none
  nodup : t.locks.Nodup
  sound : t.Sound

/-- A thread that is switched out. -/
structure Parked (ptable : L) (t : Thread L) : Prop where
  ready : t.ready = true
  locks : t.locks = [ptable]
  pushes : t.pushes = 0
  sound : t.Sound

structure Inv (ptable : L) (s : State C P L) : Prop where
  runs : ∀ c, Runs (s.cpu c) (s.cur c)
  holder : ∀ c l, s.holder l = some c ↔ l ∈ (s.cur c).locks
  intena : ∀ c p o, s.on c = some p → 0 < (s.cur c).nest → (s.cur c).outer = some o →
    (s.cpu c).intena = o
  scheduler : ∀ c p, s.on c = some p → Parked ptable (s.thread (.inl c))
  waiting : ∀ p, s.context p ≠ .running → Parked ptable (s.thread (.inr p))
  saved : ∀ p i o, s.context p = .sched i → (s.thread (.inr p)).outer = some o → i = o
  fresh : ∀ p, s.context p = .forkret → (s.thread (.inr p)).outer = none
  running : ∀ c p, s.on c = some p → s.context p = .running
  once : ∀ c d p, s.on c = some p → s.on d = some p → c = d
  balanced : s.panicked ≠ some .interruptible ∧ s.panicked ≠ some .popcli

variable {ptable : L} {s s' : State C P L} {c d : C} {p : P} {x : Cpu} {t : Thread L}
  {holder : L → Option C}

theorem Parked.nest (h : Parked ptable t) : t.nest = 1 := by
  simp [Thread.nest, h.locks, h.pushes]

theorem Parked.runs (h : Parked ptable t) (hncli : x.ncli = 1) (hflag : x.flag = false) :
    Runs x t := by
  have hready := h.ready
  simp only [Thread.ready, Bool.and_eq_true, Option.isNone_iff_eq_none] at hready
  refine ⟨by simp [hncli, h.nest], fun _ => hflag, fun e lock he => ?_, ?_, h.sound⟩
  · rw [hready.1] at he
    cases he
  · simp [h.locks]

theorem boot_inv (intena flag : C → Bool) : Inv ptable (boot ptable intena flag : State C P L) := by
  have hsound : ∀ l : List L, (⟨none, none, l, 0, [], none, none⟩ : Thread L).Sound := fun l =>
    ⟨by simp, by simp, by simp⟩
  refine ⟨fun c => ?_, fun c l => ?_, ?_, ?_, fun p _ => ?_, ?_, ?_, ?_, ?_, ?_⟩
  · exact ⟨rfl, fun hpos => absurd hpos (Nat.lt_irrefl 0), by simp [boot, State.cur, State.tid],
      by simp [boot, State.cur, State.tid], hsound []⟩
  · simp [boot, State.cur, State.tid]
  · simp [boot]
  · simp [boot]
  · exact ⟨rfl, rfl, rfl, hsound _⟩
  all_goals simp [boot]

theorem Inv.panic (h : Inv ptable s) {why : Panic} (hint : why ≠ .interruptible)
    (hpop : why ≠ .popcli) : Inv ptable (s.panic why) :=
  { h with balanced := ⟨by simpa [State.panic] using hint, by simpa [State.panic] using hpop⟩ }

theorem Inv.tid_ne (h : Inv ptable s) (hd : d ≠ c) : s.tid d ≠ s.tid c := by
  intro heq
  cases hon : s.on c with
  | none => cases hon' : s.on d <;> simp_all [State.tid]
  | some p =>
    cases hon' : s.on d with
    | none => simp [State.tid, hon, hon'] at heq
    | some q =>
      simp only [State.tid, hon, hon', Sum.inr.injEq] at heq
      exact hd (h.once d c p (heq ▸ hon') hon)

section Steps

variable [DecidableEq C] [DecidableEq P]

/-- A step of the thread that a CPU runs. -/
theorem Inv.put (h : Inv ptable s) (hruns : Runs x t)
    (hintena : ∀ p o, s.on c = some p → 0 < t.nest → t.outer = some o → x.intena = o)
    (hmine : ∀ l, holder l = some c ↔ l ∈ t.locks)
    (hothers : ∀ d l, d ≠ c → (holder l = some d ↔ s.holder l = some d)) :
    Inv ptable (s.put c x t holder) := by
  have hself : (s.put c x t holder).cur c = t := Function.update_self _ _ _
  have hcur : ∀ d, d ≠ c → (s.put c x t holder).cur d = s.cur d := fun d hd =>
    Function.update_of_ne (h.tid_ne hd) _ _
  have hxself : (s.put c x t holder).cpu c = x := Function.update_self _ _ _
  have hcpu : ∀ d, d ≠ c → (s.put c x t holder).cpu d = s.cpu d := fun d hd =>
    Function.update_of_ne hd _ _
  have hparked : ∀ i, i ≠ s.tid c → (s.put c x t holder).thread i = s.thread i := fun i hi =>
    Function.update_of_ne hi _ _
  have hproc : ∀ p, s.context p ≠ .running → Sum.inr p ≠ s.tid c := by
    intro p hp heq
    cases hon : s.on c with
    | none => simp [State.tid, hon] at heq
    | some q =>
      simp only [State.tid, hon, Sum.inr.injEq] at heq
      exact hp (heq ▸ h.running c q hon)
  refine ⟨fun d => ?_, fun d l => ?_, fun d p o hon => ?_, fun d p hon => ?_, fun p hp => ?_,
    fun p i o hp => ?_, fun p hp => ?_, h.running, h.once, h.balanced⟩
  · by_cases hd : d = c
    · subst hd
      rw [hself, hxself]
      exact hruns
    · rw [hcur d hd, hcpu d hd]
      exact h.runs d
  · by_cases hd : d = c
    · subst hd
      rw [hself]
      exact hmine l
    · rw [hcur d hd]
      exact (hothers d l hd).trans (h.holder d l)
  · by_cases hd : d = c
    · subst hd
      rw [hself, hxself]
      exact hintena p o hon
    · rw [hcur d hd, hcpu d hd]
      exact h.intena d p o hon
  · rw [hparked]
    · exact h.scheduler d p hon
    · intro heq
      cases hon' : s.on c with
      | none =>
        simp only [State.tid, hon', Sum.inl.injEq] at heq
        subst heq
        cases hon'.symm.trans hon
      | some q => simp [State.tid, hon'] at heq
  · rw [hparked _ (hproc p hp)]
    exact h.waiting p hp
  · rw [hparked _ (hproc p (by simp [show s.context p = .sched i from hp]))]
    exact h.saved p i o hp
  · rw [hparked _ (hproc p (by simp [show s.context p = .forkret from hp]))]
    exact h.fresh p hp

/-! ## The calls -/

theorem ready_iff : t.ready = true ↔ t.pending = none ∧ t.spin = none := by
  simp [Thread.ready]

/-- A step that does not touch locks. -/
theorem Inv.keep (h : Inv ptable s) (hruns : Runs x t) (hlocks : t.locks = (s.cur c).locks)
    (hintena : ∀ p o, s.on c = some p → 0 < t.nest → t.outer = some o → x.intena = o) :
    Inv ptable (s.put c x t s.holder) :=
  h.put hruns hintena (fun l => hlocks ▸ h.holder c l) fun _ _ _ => Iff.rfl

theorem Inv.readeflags (h : Inv ptable s) (hready : (s.cur c).ready = true) (lock : Option L) :
    Inv ptable
      (s.put c (s.cpu c) { s.cur c with pending := some ((s.cpu c).flag, lock) } s.holder) := by
  have hruns := h.runs c
  refine h.keep ⟨hruns.ncli, hruns.off, fun e lock' he => ?_, hruns.nodup, ?_⟩ rfl (h.intena c)
  · cases he
    exact ⟨rfl, (ready_iff.1 hready).2⟩
  · exact ⟨hruns.sound.frames, hruns.sound.spin, hruns.sound.before⟩

theorem Inv.cli (h : Inv ptable s) {e : Bool} {lock : Option L}
    (hpending : (s.cur c).pending = some (e, lock)) :
    Inv ptable (s.put c ((s.cpu c).pushcli e) ((s.cur c).pushcli e lock) s.holder) := by
  have hruns := h.runs c
  obtain ⟨he, hspin⟩ := hruns.pending e lock hpending
  have hnest : ((s.cur c).pushcli e lock).nest = (s.cur c).nest + 1 := rfl
  refine h.keep ⟨?_, fun _ => rfl, ?_, hruns.nodup, ⟨hruns.sound.frames, fun _ => Nat.succ_pos _,
    fun b k hb => ?_⟩⟩ rfl fun p o hon _ ho => ?_
  · simp [Cpu.pushcli, hruns.ncli, hnest]
  · intro e' lock' hno
    cases hno
  · simp only [Thread.pushcli] at hb ⊢
    split at hb
    · rename_i hlock
      cases hb
      refine ⟨.inr hlock.1, fun hk => ?_, fun hk => ?_⟩
      · rw [if_pos (by simp [Thread.nest, hlock.2, hk])]
      · exact he.trans (hruns.off (Nat.add_pos_right _ hk))
    · obtain ⟨hlive, hrest⟩ := hruns.sound.before b k hb
      have hlocks : (s.cur c).locks ≠ [] := by simpa [hspin] using hlive
      have hpos := List.length_pos_of_ne_nil hlocks
      rw [if_neg (by unfold Thread.nest; omega)]
      exact ⟨.inl hlocks, hrest⟩
  · simp only [Thread.pushcli] at ho
    split at ho
    · rename_i hzero
      cases ho
      simp [Cpu.pushcli, hruns.ncli, hzero]
    · rename_i hne
      have hintena := h.intena c p o hon (Nat.pos_of_ne_zero hne) ho
      simpa [Cpu.pushcli, hruns.ncli, hne] using hintena

theorem Inv.xchg [DecidableEq L] (h : Inv ptable s) {l : L} (hspin : (s.cur c).spin = some l)
    (hfree : s.holder l = none) :
    Inv ptable (s.put c (s.cpu c) ((s.cur c).take l) (Function.update s.holder l (some c))) := by
  have hruns := h.runs c
  have hpos : 0 < (s.cur c).pushes := hruns.sound.spin (by simp [hspin])
  have hnest : ((s.cur c).take l).nest = (s.cur c).nest := by
    simp only [Thread.nest, Thread.take, List.length_cons]
    omega
  have hnew : l ∉ (s.cur c).locks := by
    rw [← h.holder c l, hfree]
    simp
  refine h.put ⟨hnest ▸ hruns.ncli, hnest ▸ hruns.off, fun e lock he => ?_,
    List.nodup_cons.2 ⟨hnew, hruns.nodup⟩, ⟨hruns.sound.frames, by simp [Thread.take],
      fun b k hb => ⟨.inl (List.cons_ne_nil _ _), (hruns.sound.before b k hb).2⟩⟩⟩
    (hnest ▸ h.intena c) (fun l' => ?_) fun d l' hd => ?_
  · exact ⟨(hruns.pending e lock he).1, rfl⟩
  · by_cases hl : l' = l
    · simp [hl, Thread.take]
    · simp [hl, Thread.take, h.holder c l']
  · by_cases hl : l' = l
    · simp [hl, hfree, Ne.symm hd]
    · simp [hl]

/-- `popcli` does not panic. -/
theorem Inv.pop_eq (h : Inv ptable s) (hnest : (s.cur c).nest = t.nest + 1) :
    s.pop c t holder = s.put c { s.cpu c with
      ncli := (s.cpu c).ncli - 1
      flag := if t.nest = 0 then (s.cpu c).intena else false } t holder := by
  have hncli := (h.runs c).ncli
  have hoff := (h.runs c).off (by omega)
  rw [State.pop, Cpu.popcli, hoff, if_neg (by decide), if_neg (by omega)]
  dsimp only
  congr 2
  exact if_congr (by omega) rfl rfl

theorem Inv.pop (h : Inv ptable s) (hpending : t.pending = none)
    (hnest : (s.cur c).nest = t.nest + 1) (hnodup : t.locks.Nodup) (hsound : t.Sound)
    (houter : t.outer = (s.cur c).outer) (hmine : ∀ l, holder l = some c ↔ l ∈ t.locks)
    (hothers : ∀ d l, d ≠ c → (holder l = some d ↔ s.holder l = some d)) :
    Inv ptable (s.pop c t holder) := by
  have hncli := (h.runs c).ncli
  rw [h.pop_eq hnest]
  refine h.put ⟨?_, fun hpos => if_neg (by omega), fun e lock he => ?_, hnodup, hsound⟩
    (fun p o hon _ ho => h.intena c p o hon (by omega) (houter ▸ ho)) hmine hothers
  · simp only [hncli, hnest]
    omega
  · cases hpending.symm.trans he

theorem nest_drop [DecidableEq L] {l : L} (hl : l ∈ t.locks) : t.nest = (t.drop l).nest + 1 := by
  have hpos := List.length_pos_of_mem hl
  simp only [Thread.nest, Thread.drop, List.length_erase_of_mem hl]
  omega

theorem Inv.release [DecidableEq L] (h : Inv ptable s) (hready : (s.cur c).ready = true) {l : L}
    (hl : l ∈ (s.cur c).locks) :
    Inv ptable (s.pop c ((s.cur c).drop l) (Function.update s.holder l none)) := by
  have hruns := h.runs c
  obtain ⟨hpending, hspin⟩ := ready_iff.1 hready
  refine h.pop hpending (nest_drop hl) (hruns.nodup.erase l)
    ⟨hruns.sound.frames, hruns.sound.spin, fun b k hb => ?_⟩ rfl (fun l' => ?_) fun d l' hd => ?_
  · simp only [Thread.drop] at hb ⊢
    split at hb
    · cases hb
    · rename_i hne
      exact ⟨.inl hne, (hruns.sound.before b k hb).2⟩
  · by_cases hl' : l' = l
    · simp [hl', Thread.drop, hruns.nodup.mem_erase_iff]
    · simp [hl', Thread.drop, hruns.nodup.mem_erase_iff, h.holder c l']
  · by_cases hl' : l' = l
    · simp [hl', (h.holder c l).2 hl, Ne.symm hd]
    · simp [hl']

theorem Inv.popcli (h : Inv ptable s) (hready : (s.cur c).ready = true)
    (hpos : 0 < (s.cur c).pushes) :
    Inv ptable (s.pop c { s.cur c with pushes := (s.cur c).pushes - 1 } s.holder) := by
  have hruns := h.runs c
  obtain ⟨hpending, hspin⟩ := ready_iff.1 hready
  refine h.pop hpending ?_ hruns.nodup ⟨hruns.sound.frames, by simp [hspin], fun b k hb => ?_⟩ rfl
    (h.holder c) fun _ _ _ => Iff.rfl
  · simp only [Thread.nest]
    omega
  · obtain ⟨hlive, hrest⟩ := hruns.sound.before b k hb
    exact ⟨hlive, hrest⟩

/-- A CPU changes between two threads that have `ptable.lock`. -/
theorem Inv.switch (h : Inv ptable s) (hcur : Parked ptable (s.cur c))
    (hsched : Parked ptable (s.thread (.inl c))) (hproc : Parked ptable (s.thread (.inr p)))
    (hothers : ∀ d, d ≠ c → s.on d ≠ some p) {away intena : Bool}
    (hintena : ∀ o, (s.thread (.inr p)).outer = some o → intena = o) :
    Inv ptable (s.switch c p away intena) := by
  have hnew : Parked ptable ((s.switch c p away intena).cur c) := by
    cases away
    · simpa [State.switch, State.cur, State.tid] using hproc
    · simpa [State.switch, State.cur, State.tid] using hsched
  have hxself : (s.switch c p away intena).cpu c = { s.cpu c with intena := intena } :=
    Function.update_self _ _ _
  have hcpu : ∀ d, d ≠ c → (s.switch c p away intena).cpu d = s.cpu d := fun d hd =>
    Function.update_of_ne hd _ _
  have hcur' : ∀ d, d ≠ c → (s.switch c p away intena).cur d = s.cur d := fun d hd => by
    simp [State.switch, State.cur, State.tid, hd]
  have hother : ∀ q, q ≠ p → (s.switch c p away intena).context q = s.context q := fun q hq =>
    Function.update_of_ne hq _ _
  have hself : (s.switch c p away intena).context p = if away then .sched intena else .running :=
    Function.update_self _ _ _
  -- what the CPUs run: `p` on `c` if it goes on, and the rest as before
  have hon : ∀ d q, (s.switch c p away intena).on d = some q →
      d = c ∧ q = p ∧ away = false ∨ d ≠ c ∧ q ≠ p ∧ s.on d = some q := by
    intro d q hd
    by_cases hdc : d = c
    · simp only [State.switch, hdc, Function.update_self] at hd
      cases away with
      | false => exact .inl ⟨hdc, (Option.some.inj hd).symm, rfl⟩
      | true => cases hd
    · simp only [State.switch, Function.update_of_ne hdc] at hd
      refine .inr ⟨hdc, ?_, hd⟩
      rintro rfl
      exact hothers d hdc hd
  refine ⟨fun d => ?_, fun d l => ?_, fun d q o hd hpos ho => ?_, fun d q hd => ?_, fun q hq => ?_,
    fun q i o hq ho => ?_, fun q hq => ?_, fun d q hd => ?_, fun d e q hd he => ?_, h.balanced⟩
  · by_cases hd : d = c
    · subst hd
      rw [hxself]
      have hruns := h.runs d
      refine hnew.runs ?_ (hruns.off (by simp [hcur.nest]))
      simpa [hcur.nest] using hruns.ncli
    · rw [hcur' d hd, hcpu d hd]
      exact h.runs d
  · by_cases hd : d = c
    · subst hd
      rw [hnew.locks, ← hcur.locks]
      exact h.holder d l
    · rw [hcur' d hd]
      exact h.holder d l
  · rcases hon d q hd with ⟨rfl, rfl, rfl⟩ | ⟨hne, -, hd⟩
    · rw [hxself]
      refine hintena o ?_
      simpa [State.switch, State.cur, State.tid] using ho
    · rw [hcur' d hne] at hpos ho
      rw [hcpu d hne]
      exact h.intena d q o hd hpos ho
  · rcases hon d q hd with ⟨rfl, -, -⟩ | ⟨-, -, hd⟩
    · exact hsched
    · exact h.scheduler d q hd
  · by_cases hqp : q = p
    · subst hqp
      exact hproc
    · exact h.waiting q (hother q hqp ▸ hq)
  · by_cases hqp : q = p
    · subst hqp
      cases away with
      | false => cases hself.symm.trans hq
      | true =>
        cases hself.symm.trans hq
        exact hintena o ho
    · exact h.saved q i o (hother q hqp ▸ hq) ho
  · by_cases hqp : q = p
    · subst hqp
      cases away with
      | false => cases hself.symm.trans hq
      | true => cases hself.symm.trans hq
    · exact h.fresh q (hother q hqp ▸ hq)
  · rcases hon d q hd with ⟨-, rfl, rfl⟩ | ⟨-, hqp, hd⟩
    · exact hself
    · exact (hother q hqp).trans (h.running d q hd)
  · rcases hon d q hd with ⟨rfl, rfl, -⟩ | ⟨-, hqp, hd⟩
    · rcases hon e q he with ⟨rfl, -, -⟩ | ⟨-, hne, -⟩
      · rfl
      · exact absurd rfl hne
    · rcases hon e q he with ⟨-, rfl, -⟩ | ⟨-, -, he⟩
      · exact absurd rfl hqp
      · exact h.once d e q hd he

theorem Inv.sched (h : Inv ptable s) (hon : s.on c = some p) (hready : (s.cur c).ready = true) :
    Inv ptable (s.sched ptable c p) := by
  rw [State.sched]
  split
  · exact h.panic (by decide) (by decide)
  rename_i hholds
  split
  · exact h.panic (by decide) (by decide)
  rename_i hone
  split
  · exact h.panic (by decide) (by decide)
  have hcur : s.cur c = s.thread (.inr p) := by simp [State.cur, State.tid, hon]
  -- `ncli` is 1, so `ptable.lock` is all that the process has
  have hparked : Parked ptable (s.cur c) := by
    have hmem : ptable ∈ (s.cur c).locks := (h.holder c ptable).1 (not_not.1 hholds)
    have hlen := List.length_pos_of_mem hmem
    have hnest : (s.cur c).locks.length + (s.cur c).pushes = 1 := by
      have hncli := (h.runs c).ncli
      simp only [Thread.nest] at hncli
      omega
    obtain ⟨l, hl⟩ := List.length_eq_one_iff.1 (show (s.cur c).locks.length = 1 by omega)
    rw [hl, List.mem_singleton] at hmem
    exact ⟨hready, hmem ▸ hl, by omega, (h.runs c).sound⟩
  refine h.switch hparked (h.scheduler c p hon) (hcur ▸ hparked) (fun d hd hd' => ?_) fun o ho => ?_
  · exact hd (h.once d c p hd' hon)
  · exact h.intena c p o hon (by simp [hparked.nest]) (hcur ▸ ho)

theorem Inv.swtch (h : Inv ptable s) (hon : s.on c = none) (hparked : Parked ptable (s.cur c))
    (hp : s.context p ≠ .running) {intena : Bool}
    (hintena : ∀ i, s.context p = .sched i → intena = i) :
    Inv ptable (s.switch c p false intena) := by
  have hcur : s.cur c = s.thread (.inl c) := by simp [State.cur, State.tid, hon]
  refine h.switch hparked (hcur ▸ hparked) (h.waiting p hp) (fun d _ hd => ?_) fun o ho => ?_
  · exact hp (h.running d p hd)
  · cases hq : s.context p with
    | running => exact absurd hq hp
    | forkret => cases (h.fresh p hq).symm.trans ho
    | sched i => exact (hintena i hq).trans (h.saved p i o hq ho)

/-! ## Interrupts -/

theorem Inv.setFlag (h : Inv ptable s) (hready : (s.cur c).ready = true)
    (hnest : (s.cur c).nest = 0) {pending : Option (Bool × Option L)}
    (hpending : ∀ e lock, pending = some (e, lock) → e = true)
    {frames : List (Option (Bool × Option L))}
    (hframes : ∀ e lock, some (e, lock) ∈ frames → e = true) :
    Inv ptable (s.put c { s.cpu c with flag := true }
      { s.cur c with pending := pending, frames := frames } s.holder) := by
  have hruns := h.runs c
  have hzero : ¬0 < (s.cur c).nest := by omega
  refine h.keep ⟨hruns.ncli, fun hpos => absurd hpos hzero, fun e lock he => ?_, hruns.nodup,
    ⟨hframes, hruns.sound.spin, hruns.sound.before⟩⟩ rfl (h.intena c)
  exact ⟨hpending e lock he, (ready_iff.1 hready).2⟩

theorem Inv.interrupt (h : Inv ptable s) (hflag : (s.cpu c).flag = true) :
    Inv ptable (s.put c { s.cpu c with flag := false }
      { s.cur c with pending := none, frames := (s.cur c).pending :: (s.cur c).frames }
      s.holder) := by
  have hruns := h.runs c
  refine h.keep ⟨hruns.ncli, fun _ => rfl, by simp, hruns.nodup,
    ⟨fun e lock he => ?_, hruns.sound.spin, hruns.sound.before⟩⟩ rfl (h.intena c)
  rcases List.mem_cons.1 he with he | he
  · exact (hruns.pending e lock he.symm).1.trans hflag
  · exact hruns.sound.frames e lock he

/-! ## Runs -/

/-- `release` and `popcli` leave the flag off, or what `intena` says it was. -/
theorem Inv.pop_flag (h : Inv ptable s) (holder : L → Option C)
    (hnest : (s.cur c).nest = t.nest + 1) :
    ((s.pop c t holder).cur c) = t ∧ ((s.pop c t holder).cpu c).flag =
      if t.nest = 0 then (s.cpu c).intena else false := by
  rw [h.pop_eq hnest]
  simp [State.put, State.cur, State.tid]

variable [DecidableEq L]

/-- **Every step keeps the invariant.** -/
theorem Inv.step {a : Action C P L} (h : Inv ptable s) (hst : step ptable s a = some s') :
    Inv ptable s' := by
  simp only [Cli.step, Option.ite_none_left_eq_some] at hst
  obtain ⟨-, hst⟩ := hst
  cases a with
  | readeflags c lock =>
    simp only [Option.ite_none_right_eq_some] at hst
    obtain ⟨hready, hst⟩ := hst
    cases hst
    exact h.readeflags hready lock
  | cli c =>
    cases hpending : (s.cur c).pending with
    | none => simp [hpending] at hst
    | some e =>
      simp only [hpending] at hst
      split at hst
      · cases hst
        exact (h.cli hpending).panic (by decide) (by decide)
      · cases hst
        exact h.cli hpending
  | xchg c =>
    cases hspin : (s.cur c).spin with
    | none => simp [hspin] at hst
    | some l =>
      simp only [hspin, Option.ite_none_right_eq_some] at hst
      obtain ⟨hfree, hst⟩ := hst
      cases hst
      exact h.xchg hspin hfree
  | release c l =>
    simp only [Option.ite_none_right_eq_some] at hst
    obtain ⟨⟨hready, hl⟩, hst⟩ := hst
    split at hst
    · cases hst
      exact h.panic (by decide) (by decide)
    · cases hst
      exact h.release hready hl
  | popcli c =>
    simp only [Option.ite_none_right_eq_some] at hst
    obtain ⟨⟨hready, hpos⟩, hst⟩ := hst
    cases hst
    exact h.popcli hready hpos
  | sched c =>
    cases hon : s.on c with
    | none => simp [hon] at hst
    | some p =>
      simp only [hon, Option.ite_none_right_eq_some] at hst
      obtain ⟨hready, hst⟩ := hst
      cases hst
      exact h.sched hon hready
  | swtch c p =>
    simp only [Option.ite_none_right_eq_some] at hst
    obtain ⟨⟨hon, hready, hlocks, hpushes⟩, hst⟩ := hst
    have hparked : Parked ptable (s.cur c) := ⟨hready, hlocks, hpushes, (h.runs c).sound⟩
    cases hp : s.context p with
    | running => simp [hp] at hst
    | forkret =>
      simp only [hp, Option.some.injEq] at hst
      subst hst
      exact h.swtch hon hparked (by simp [hp]) (by simp [hp])
    | sched i =>
      simp only [hp, Option.some.injEq] at hst
      subst hst
      exact h.swtch hon hparked (by simp [hp]) (by simp [hp])
  | sti c =>
    simp only [Option.ite_none_right_eq_some] at hst
    obtain ⟨⟨hon, hready, hnest⟩, hst⟩ := hst
    cases hst
    refine h.setFlag hready hnest (fun e lock he => ?_) (h.runs c).sound.frames
    cases (ready_iff.1 hready).1.symm.trans he
  | interrupt c =>
    simp only [Option.ite_none_right_eq_some] at hst
    obtain ⟨hflag, hst⟩ := hst
    cases hst
    exact h.interrupt hflag
  | iret c =>
    simp only [Option.ite_none_right_eq_some] at hst
    obtain ⟨⟨hready, hnest, -⟩, hst⟩ := hst
    cases hst
    refine h.setFlag hready hnest (fun e lock he => ?_) fun e lock he => ?_
    · exact (h.runs c).sound.frames e lock (List.mem_of_mem_head? (Option.join_eq_some_iff.1 he))
    · exact (h.runs c).sound.frames e lock (List.mem_of_mem_tail he)

theorem Inv.step_release {l : L} (h : Inv ptable s)
    (hst : Cli.step ptable s (.release c l) = some s') :
    l ∈ (s.cur c).locks ∧
      s' = s.pop c ((s.cur c).drop l) (Function.update s.holder l none) := by
  simp only [Cli.step, Option.ite_none_left_eq_some, Option.ite_none_right_eq_some] at hst
  obtain ⟨-, ⟨-, hl⟩, hst⟩ := hst
  rw [if_neg (not_not.2 ((h.holder c l).2 hl))] at hst
  cases hst
  exact ⟨hl, rfl⟩

theorem step_popcli (hst : Cli.step ptable s (.popcli c) = some s') :
    0 < (s.cur c).pushes ∧
      s' = s.pop c { s.cur c with pushes := (s.cur c).pushes - 1 } s.holder := by
  simp only [Cli.step, Option.ite_none_left_eq_some, Option.ite_none_right_eq_some] at hst
  obtain ⟨-, ⟨-, hpos⟩, hst⟩ := hst
  cases hst
  exact ⟨hpos, rfl⟩

/-- When the outermost of its calls is undone, a process has its flag back. -/
theorem Inv.restored (h : Inv ptable s) (hon : s.on c = some p) {o : Bool}
    (ho : (s.cur c).outer = some o)
    (hst : Cli.step ptable s (.popcli c) = some s' ∨
      ∃ l, Cli.step ptable s (.release c l) = some s')
    (hzero : (s'.cur c).nest = 0) : (s'.cpu c).flag = o := by
  have hpop : ∃ t holder, (s.cur c).nest = t.nest + 1 ∧ s' = s.pop c t holder := by
    rcases hst with hst | ⟨l, hst⟩
    · obtain ⟨hpos, rfl⟩ := step_popcli hst
      refine ⟨_, _, ?_, rfl⟩
      simp only [Thread.nest]
      omega
    · obtain ⟨hl, rfl⟩ := h.step_release hst
      exact ⟨_, _, nest_drop hl, rfl⟩
  obtain ⟨t, holder, hnest, rfl⟩ := hpop
  obtain ⟨hcur, hflag⟩ := h.pop_flag holder hnest
  rw [hcur] at hzero
  rw [hflag, if_pos hzero]
  exact h.intena c p o hon (by omega) ho

/-- When the last lock is released, the flag is what it was before the first one was taken, unless
calls of `pushcli` or `popcli` in between make a difference. -/
theorem Inv.unlocked (h : Inv ptable s) (hon : s.on c = some p) {l : L} {b : Bool} {k : ℕ}
    (hbefore : (s.cur c).before = some (b, k))
    (hst : Cli.step ptable s (.release c l) = some s') (hlocks : (s'.cur c).locks = []) :
    (s'.cpu c).flag = b ↔ ((k = 0 ↔ (s.cur c).pushes = 0) ∨ (s.cpu c).intena = false) := by
  obtain ⟨hl, rfl⟩ := h.step_release hst
  obtain ⟨hcur, hflag⟩ := h.pop_flag (Function.update s.holder l none) (nest_drop hl)
  have hpushes : ((s.cur c).drop l).nest = (s.cur c).pushes := by
    rw [hcur] at hlocks
    rw [Thread.nest, hlocks]
    exact Nat.zero_add _
  have hpos : 0 < (s.cur c).nest := by
    rw [nest_drop hl]
    exact Nat.succ_pos _
  obtain ⟨-, hzero, hmore⟩ := (h.runs c).sound.before b k hbefore
  rw [hflag, hpushes]
  rcases Nat.eq_zero_or_pos k with hk | hk
  · have hb : (s.cpu c).intena = b := h.intena c p b hon hpos (hzero hk)
    by_cases hp : (s.cur c).pushes = 0
    · simp [hk, hp, hb]
    · simp [hk, hp, hb, eq_comm]
  · have hk' : k ≠ 0 := by omega
    by_cases hp : (s.cur c).pushes = 0
    · simp [hk', hp, hmore hk]
    · simp [hk', hp, hmore hk]

/-- **Nesting.**  In every run, interrupts are off on a CPU whose `ncli` is not zero, and `popcli`
does not panic.  When a process has undone its outermost `acquire` or `pushcli`, the flag is what it
was before; when it has released all its locks, the flag is what it was before it took the first of
them, exactly if it was in calls of `pushcli` at both times or at none, or `intena` is zero. -/
theorem nesting {intena flag : C → Bool} {acts : List (Action C P L)}
    (hrun : exec (Cli.step ptable) (boot ptable intena flag) acts = some s) :
    (∀ c, 0 < (s.cpu c).ncli → (s.cpu c).flag = false) ∧
      (s.panicked ≠ some .interruptible ∧ s.panicked ≠ some .popcli) ∧
      (∀ c p o s', s.on c = some p → (s.cur c).outer = some o →
        (Cli.step ptable s (.popcli c) = some s' ∨
          ∃ l, Cli.step ptable s (.release c l) = some s') →
        (s'.cur c).nest = 0 → (s'.cpu c).flag = o) ∧
      ∀ c p l b k s', s.on c = some p → (s.cur c).before = some (b, k) →
        Cli.step ptable s (.release c l) = some s' → (s'.cur c).locks = [] →
        ((s'.cpu c).flag = b ↔
          ((k = 0 ↔ (s.cur c).pushes = 0) ∨ (s.cpu c).intena = false)) := by
  have h : Inv ptable s := exec_invariant (fun s a s' hs _ hst => hs.step hst)
    (boot_inv intena flag) along_true hrun
  refine ⟨fun c hpos => ?_, h.balanced, fun c p o s' hon ho hst => h.restored hon ho hst,
    fun c p l b k s' hon hbefore hst => h.unlocked hon hbefore hst⟩
  refine (h.runs c).off ?_
  have hncli := (h.runs c).ncli
  omega

/-- **No interrupt finds a lock.**  In every run a CPU that has a lock takes no interrupts, and a
process that does not run has `ptable.lock` and no other. -/
theorem interrupts_find_no_lock (intena flag : C → Bool) (acts : List (Action C P L)) :
    Throughout (Cli.step ptable) (fun s =>
      (∀ c l, s.holder l = some c → Cli.step ptable s (.interrupt c) = none) ∧
      ∀ p, s.context p ≠ .running → (s.thread (.inr p)).locks = [ptable])
      (boot ptable intena flag) acts := by
  have hinv : Throughout (Cli.step ptable) (Inv ptable) (boot ptable intena flag) acts :=
    throughout_invariant (fun _ _ _ h _ hst => h.step hst) (boot_inv intena flag) along_true
  refine hinv.mono fun s h => ⟨fun c l hl => ?_, fun p hp => (h.waiting p hp).locks⟩
  have hlen := List.length_pos_of_mem ((h.holder c l).mp hl)
  have hoff := (h.runs c).off (Nat.add_pos_left hlen _)
  simp [Cli.step, hoff]

end Steps

/-- The scheduler of the only CPU starts the only process, which then calls `pushcli`, takes lock
`false` and calls `popcli`; `true` is `ptable.lock`. -/
def crossed : List (Action Unit Unit Bool) :=
  [.sti (), .readeflags () (some true), .cli (), .xchg (), .swtch () (), .release () true,
    .readeflags () none, .cli (), .readeflags () (some false), .cli (), .xchg (), .popcli ()]

theorem nesting_crossed :
    ∃ s, exec (step true) (boot true (fun _ => false) fun _ => false) crossed = some s ∧
      (s.cpu ()).ncli = 1 ∧ (s.cpu ()).flag = false := by
  have hncli : (exec (step true) (boot true (fun _ => false) fun _ => false) crossed).map
      (fun s => (s.cpu ()).ncli) = some 1 := by decide +kernel
  obtain ⟨s, hrun, hone⟩ := Option.map_eq_some_iff.1 hncli
  exact ⟨s, hrun, hone, (nesting hrun).1 () (by omega)⟩

/-- The flag was off before the lock was taken, and is on when the lock has been released. -/
theorem flag_crossed :
    ∃ s s', exec (step true) (boot true (fun _ => false) fun _ => false) crossed = some s ∧
      (s.on () = some () ∧ (s.cur ()).before = some (false, 1)) ∧
      step true s (.release () false) = some s' ∧ (s'.cur ()).locks = [] ∧
      (s'.cpu ()).flag = true := by
  have hrun : (exec (step true) (boot true (fun _ => false) fun _ => false) crossed).map
      (fun s => ((s.on (), (s.cur ()).before), (step true s (.release () false)).map
        fun s' => ((s'.cur ()).locks, (s'.cpu ()).flag))) =
      some ((some (), some (false, 1)), some ([], true)) := by decide +kernel
  obtain ⟨s, hs, hobs⟩ := Option.map_eq_some_iff.1 hrun
  obtain ⟨hthread, hstep⟩ := Prod.mk.inj hobs
  obtain ⟨s', hs', hobs'⟩ := Option.map_eq_some_iff.1 hstep
  exact ⟨s, s', hs, Prod.mk.inj hthread, hs', Prod.mk.inj hobs'⟩

end Xv6.Cli
