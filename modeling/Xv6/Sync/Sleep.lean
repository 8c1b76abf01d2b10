import Xv6.Lib.Machine
import Xv6.Ptable.Model

/-!
# `sleep` and `wakeup`, lock by lock

Any number of processes go, as often as they like, through one of two pieces of code:

    acquire(lk);                          acquire(lk);
    while(!cond)                          make cond true
      sleep(chan, lk);                    wakeup(chan);
    ...                                   release(lk);
    release(lk);

The second one may also release `lk` before it calls `wakeup`.  If `lk` is `ptable.lock`
itself it calls `wakeup1`.  Here the steps are the single acquires, releases and stores of
`sleep`, `sched`, `wakeup` and `wakeup1`, in any interleaving; `wakeup1` looks at one
process per step.  A process that calls `sched` hands `ptable.lock` to the scheduler, which
releases it or hands it on to a `RUNNABLE` process.

`acquire` spins until the lock is free, so it is a step that is enabled only then.  While the
waiting code is past its loop it may change `cond` in both directions.

## Main definitions

* `Pc`, `code` — the code, as what to do at each point and where to go on.
* `State`, `step` — the machine.

## Main results

* `Inv.step` — what every step keeps.
* `no_lost_wakeup` — nobody sleeps on the channel while `cond` holds, unless a wakeup is
  still to come.
-/

namespace Xv6.Sync

open Function Machine Ptable

/-- The two locks: `ptable.lock`, and another one. -/
inductive Lock
  | ptable
  | other
  deriving DecidableEq

/-- Who holds a lock. -/
inductive Holder (n : ℕ)
  | free
  | proc (p : Fin n)
  | scheduler
  deriving DecidableEq

/-- Where a process is.  `held` says that it still holds `lk`, which it is to release after the
wakeup. -/
inductive Pc
  | idle
  /-- At `while(!cond)`. -/
  | check
  /-- In `sleep`, from here on. -/
  | acquirePtable
  | releaseLk
  | setChan
  | setState
  | callSched
  /-- In `sched`, switched away from. -/
  | switched
  | clearChan
  | releasePtable
  | acquireLk
  /-- Past the loop. -/
  | body
  /-- About to make `cond` true. -/
  | signal
  /-- `cond` is made; `lk` is released before the wakeup. -/
  | dropLk
  | wakeAcquire (held : Bool)
  /-- In the loop of `wakeup1`, at slot `i`. -/
  | scan (held : Bool) (i : ℕ)
  | wakeRelease (held : Bool)
  | leave
  deriving DecidableEq

inductive Instr
  | acquire (l : Lock)
  | release (l : Lock)
  /-- Goes on if `cond` has the value. -/
  | test (b : Bool)
  | setChan
  | clearChan
  | setSleeping
  | sched
  | setCond (b : Bool)
  | wake (i : ℕ)
  deriving DecidableEq

/-- What a process can do at each point, and where it goes on, in a table of `n` processes. -/
def code (lk : Lock) (n : ℕ) : Pc → List (Instr × Pc)
  | .idle => [(.acquire lk, .check), (.acquire lk, .signal)]
  | .check => [(.test true, .body),
      (.test false, if lk ≠ .ptable then .acquirePtable else .setChan)]
  | .acquirePtable => [(.acquire .ptable, .releaseLk)]
  | .releaseLk => [(.release lk, .setChan)]
  | .setChan => [(.setChan, .setState)]
  | .setState => [(.setSleeping, .callSched)]
  | .callSched => [(.sched, .switched)]
  | .switched => []
  | .clearChan => [(.clearChan, if lk ≠ .ptable then .releasePtable else .check)]
  | .releasePtable => [(.release .ptable, .acquireLk)]
  | .acquireLk => [(.acquire lk, .check)]
  | .body => [(.setCond true, .body), (.setCond false, .body), (.release lk, .idle)]
  | .signal =>
    if lk ≠ .ptable then [(.setCond true, .wakeAcquire true), (.setCond true, .dropLk)]
    else [(.setCond true, .scan true 0)]
  | .dropLk => [(.release lk, .wakeAcquire false)]
  | .wakeAcquire held => [(.acquire .ptable, .scan held 0)]
  | .scan held i =>
    [(.wake i, if i + 1 < n then .scan held (i + 1)
      else if lk ≠ .ptable then .wakeRelease held else .leave)]
  | .wakeRelease held => [(.release .ptable, if held then .leave else .idle)]
  | .leave => [(.release lk, .idle)]

/-- `chan p` says that `proc->chan` is the channel. -/
structure State (n : ℕ) where
  pc : Fin n → Pc
  state : Fin n → ProcState
  chan : Fin n → Bool
  locked : Lock → Holder n
  cond : Bool

variable {n : ℕ}

/-- One instruction of process `p`.  A release of a lock that `p` does not hold panics, and so does
`sched` without `ptable.lock` or by a process that is still `RUNNING`. -/
def perform (s : State n) (p : Fin n) : Instr → Option (State n)
  | .acquire l =>
    if s.locked l = .free then
      some { s with locked := update s.locked l (.proc p) }
    else none
  | .release l =>
    if s.locked l = .proc p then some { s with locked := update s.locked l .free }
    else none
  | .test b => if s.cond = b then some s else none
  | .setChan => some { s with chan := update s.chan p true }
  | .clearChan => some { s with chan := update s.chan p false }
  | .setSleeping => some { s with state := update s.state p .sleeping }
  | .sched =>
    if s.locked .ptable = .proc p ∧ s.state p ≠ .running then
      some { s with locked := update s.locked .ptable .scheduler }
    else none
  | .setCond b => some { s with cond := b }
  | .wake i => some { s with
      state := fun j =>
        if (j : ℕ) = i ∧ s.state j = .sleeping ∧ s.chan j = true then .runnable else s.state j }

/-- A process takes the `k`th of its alternatives, or a scheduler takes `ptable.lock`, hands it to
a process it switches to, or releases it. -/
inductive Action (n : ℕ)
  | run (p : Fin n) (k : ℕ)
  | schedAcquire
  | schedRun (p : Fin n)
  | schedRelease
  deriving DecidableEq

def State.goto (s : State n) (p : Fin n) (c : Pc) : State n :=
  { s with pc := update s.pc p c }

def step (lk : Lock) (s : State n) : Action n → Option (State n)
  | .run p k =>
    match (code lk n (s.pc p))[k]? with
    | some (ins, c) => (perform s p ins).map fun s' => s'.goto p c
    | none => none
  | .schedAcquire =>
    if s.locked .ptable = .free then
      some { s with locked := update s.locked .ptable .scheduler }
    else none
  | .schedRun p =>
    if s.locked .ptable = .scheduler ∧ s.pc p = .switched ∧ s.state p = .runnable then
      some ({ s with
        state := update s.state p .running
        locked := update s.locked .ptable (.proc p) }.goto p .clearChan)
    else none
  | .schedRelease =>
    if s.locked .ptable = .scheduler then
      some { s with locked := update s.locked .ptable .free }
    else none

/-- Nobody has begun. -/
def init (n : ℕ) (cond : Bool) : State n where
  pc _ := .idle
  state _ := .running
  chan _ := false
  locked _ := .free
  cond := cond

/-! ## The code, point by point -/

/-- The locks a process holds. -/
def Pc.holds (lk : Lock) : Pc → Lock → Bool
  | .idle, _ => false
  | .check, l => l = lk
  | .acquirePtable, l => l = lk
  | .releaseLk, l => l = lk || l = .ptable
  | .setChan, l => l = .ptable
  | .setState, l => l = .ptable
  | .callSched, l => l = .ptable
  | .switched, _ => false
  | .clearChan, l => l = .ptable
  | .releasePtable, l => l = .ptable
  | .acquireLk, _ => false
  | .body, l => l = lk
  | .signal, l => l = lk
  | .dropLk, l => l = lk
  | .wakeAcquire held, l => held && l = lk
  | .scan held _, l => held && l = lk || l = .ptable
  | .wakeRelease held, l => held && l = lk || l = .ptable
  | .leave, l => l = lk

/-- The points that are reached with this lock. -/
def Pc.used : Lock → Pc → Bool
  | .ptable, .acquirePtable => false
  | .ptable, .releaseLk => false
  | .ptable, .releasePtable => false
  | .ptable, .acquireLk => false
  | .ptable, .dropLk => false
  | .ptable, .wakeAcquire _ => false
  | .ptable, .wakeRelease _ => false
  | _, _ => true

/-- Between the test that failed and `sched`. -/
def Pc.sleepy : Pc → Bool
  | .acquirePtable => true
  | .releaseLk => true
  | .setChan => true
  | .setState => true
  | .callSched => true
  | _ => false

/-- `cond` is made, and `wakeup1` is still to come to slot `w`. -/
def Pc.due (w : ℕ) : Pc → Bool
  | .dropLk => true
  | .wakeAcquire _ => true
  | .scan _ i => i ≤ w
  | _ => false

variable {lk l : Lock} {ins : Instr} {b c : Pc}

theorem used_code (h : (ins, c) ∈ code lk n b) (hb : b.used lk = true) : c.used lk = true := by
  cases lk <;> cases b <;> simp_all [code, Pc.used] <;> grind [Pc.used]

/-- Whether a process that holds `l` or does not holds it after the instruction. -/
def Instr.keeps (l : Lock) (held : Bool) : Instr → Bool
  | .acquire l' => held || l = l'
  | .release l' => held && l ≠ l'
  | .sched => held && l ≠ .ptable
  | _ => held

theorem holds_code (h : (ins, c) ∈ code lk n b) (hb : b.used lk = true) (l : Lock) :
    c.holds lk l = ins.keeps l (b.holds lk l) := by
  cases lk <;> cases b <;> simp_all [code, Pc.used] <;> grind [Pc.holds, Instr.keeps]

/-- Past the loop one gets by the test only. -/
theorem body_code (h : (ins, .body) ∈ code lk n b) : b = .body ∨ ins = .test true := by
  cases lk <;> cases b <;> simp_all [code] <;> grind

/-- To sleep one gets by a failed test; on the way there no lock but `ptable.lock` is taken. -/
theorem sleepy_code (h : (ins, c) ∈ code lk n b) (hb : b.used lk = true)
    (hc : c.sleepy = true) :
    b.sleepy = true ∧ (c.holds lk lk = true → b.holds lk lk = true) ∨
      b = .check ∧ ins = .test false := by
  cases lk <;> cases b <;> simp_all [code, Pc.used] <;> grind [Pc.sleepy, Pc.holds]

/-- A process in `sched`, or about to call it, goes nowhere else by itself. -/
theorem sched_code (h : (ins, c) ∈ code lk n b) :
    (c = .switched ↔ b = .callSched) ∧ b ≠ .switched ∧ (ins = .setSleeping → c = .callSched) := by
  cases lk <;> cases b <;> simp_all [code] <;> grind

/-- `cond` is changed with `lk` held: past the loop, or to make it true. -/
theorem setCond_code {t : Bool} (h : (.setCond t, c) ∈ code lk n b) : b = .body ∨ b = .signal := by
  cases lk <;> cases b <;> simp_all [code]

/-- Whoever makes `cond` true has all slots before it. -/
theorem signal_code (h : (ins, c) ∈ code lk n .signal) (w : ℕ) : c.due w = true := by
  cases lk <;> simp_all [code] <;> grind [Pc.due]

/-- A slot that is still to come stays so, unless it is the one `wakeup1` looks at. -/
theorem due_code (h : (ins, c) ∈ code lk n b) {w : ℕ} (hw : w < n) (hd : b.due w = true) :
    c.due w = true ∨ ins = .wake w ∧ ∃ held, b = .scan held w := by
  cases lk <;> cases b <;> simp_all [code] <;> grind [Pc.due]

/-- Whether `proc->chan` is set. -/
def Pc.onChan : Pc → Bool
  | .setState => true
  | .callSched => true
  | .switched => true
  | _ => false

theorem onChan_code (h : (ins, c) ∈ code lk n b) (hc : c.onChan = true) :
    ins = .setChan ∨ b.onChan = true ∧ ins ≠ .clearChan := by
  cases lk <;> cases b <;> simp_all [code] <;> grind [Pc.onChan]

/-- On the way to sleep one of the two locks is always held. -/
theorem holds_of_sleepy (hb : b.sleepy = true) :
    b.holds lk lk = true ∨ b.holds lk .ptable = true := by
  cases b <;> simp_all [Pc.sleepy, Pc.holds]

/-! ## The invariant -/

/-- On the way to sleep, or asleep. -/
def State.Committed (s : State n) (w : Fin n) : Prop :=
  (s.pc w).sleepy = true ∨ s.pc w = .switched ∧ s.state w = .sleeping

structure Inv (lk : Lock) (s : State n) : Prop where
  used : ∀ p, (s.pc p).used lk = true
  locks : ∀ p l, s.locked l = .proc p ↔ (s.pc p).holds lk l = true
  chan : ∀ p, (s.pc p).onChan = true → s.chan p = true
  asleep : ∀ p, s.state p = .sleeping → s.pc p = .callSched ∨ s.pc p = .switched
  /-- A process on its way to sleep that still holds `lk` found `cond` false. -/
  quiet : ∀ w, (s.pc w).sleepy = true → (s.pc w).holds lk lk = true → s.cond = false
  /-- If `cond` holds, or somebody is past the loop, a wakeup is still to come. -/
  due : ∀ w, s.Committed w → (s.cond = true ∨ ∃ v, s.pc v = .body) →
    ∃ q, (s.pc q).due w = true

variable {s s₁ : State n} {p q w : Fin n}

/-- Only one process holds a lock. -/
theorem Inv.holder_unique (h : Inv lk s) (hp : (s.pc p).holds lk l = true)
    (hq : (s.pc q).holds lk l = true) : p = q := by
  have hp' := (h.locks p l).mpr hp
  have hq' := (h.locks q l).mpr hq
  simpa using hp'.symm.trans hq'

/-- **The cases of an instruction.** -/
inductive Performs (s : State n) (p : Fin n) : Instr → State n → Prop
  | acquire (l : Lock) : s.locked l = .free →
      Performs s p (.acquire l) { s with locked := update s.locked l (.proc p) }
  | release (l : Lock) : s.locked l = .proc p →
      Performs s p (.release l) { s with locked := update s.locked l .free }
  | test : Performs s p (.test s.cond) s
  | setChan : Performs s p .setChan { s with chan := update s.chan p true }
  | clearChan : Performs s p .clearChan { s with chan := update s.chan p false }
  | setSleeping :
      Performs s p .setSleeping { s with state := update s.state p .sleeping }
  | sched : s.locked .ptable = .proc p → s.state p ≠ .running →
      Performs s p .sched { s with locked := update s.locked .ptable .scheduler }
  | setCond (b : Bool) : Performs s p (.setCond b) { s with cond := b }
  | wake (i : ℕ) : Performs s p (.wake i) { s with
      state := fun j =>
        if (j : ℕ) = i ∧ s.state j = .sleeping ∧ s.chan j = true then .runnable else s.state j }

theorem perform_cases (h : perform s p ins = some s₁) : Performs s p ins s₁ := by
  cases ins with
  | acquire l =>
    obtain ⟨hl, rfl⟩ : s.locked l = .free ∧ _ := by simpa [perform] using h
    exact .acquire l hl
  | release l =>
    obtain ⟨hl, rfl⟩ : s.locked l = .proc p ∧ _ := by simpa [perform] using h
    exact .release l hl
  | test b =>
    obtain ⟨rfl, rfl⟩ : s.cond = b ∧ s = s₁ := by simpa [perform] using h
    exact .test
  | sched =>
    obtain ⟨⟨hl, hs⟩, rfl⟩ : (s.locked .ptable = .proc p ∧ _) ∧ _ := by
      simpa [perform] using h
    exact .sched hl hs
  | setChan => exact Option.some.inj h ▸ .setChan
  | clearChan => exact Option.some.inj h ▸ .clearChan
  | setSleeping => exact Option.some.inj h ▸ .setSleeping
  | setCond b => exact Option.some.inj h ▸ .setCond b
  | wake i => exact Option.some.inj h ▸ .wake i

section

variable (h : Performs s p ins s₁)
include h

theorem Performs.pc : s₁.pc = s.pc := by
  cases h <;> rfl

theorem Performs.locked (q : Fin n) (l : Lock) :
    s₁.locked l = .proc q ↔
      if q = p then ins.keeps l (s.locked l = .proc p) = true else s.locked l = .proc q := by
  cases h <;> grind [Instr.keeps, update_apply]

theorem Performs.chan (q : Fin n) : s₁.chan q =
    if q = p ∧ ins = .setChan then true else if q = p ∧ ins = .clearChan then false
      else s.chan q := by
  cases h <;> grind [update_apply]

theorem Performs.sleeping (hq : s₁.state q = .sleeping) :
    (s.state q = .sleeping ∧ ∀ i, ins = .wake i → (q : ℕ) = i → s.chan q = false) ∨
      q = p ∧ ins = .setSleeping := by
  cases h <;> grind [update_apply]

theorem Performs.cond (hins : ∀ t, ins ≠ .setCond t) :
    s₁.cond = s.cond := by
  cases h <;> simp_all

end

@[simp] theorem goto_pc_self (s : State n) (p : Fin n) (c : Pc) : (s.goto p c).pc p = c := by
  simp [State.goto]

@[simp] theorem goto_pc_of_ne (s : State n) (c : Pc) (h : q ≠ p) :
    (s.goto p c).pc q = s.pc q := by
  simp [State.goto, h]

@[simp] theorem goto_state (s : State n) (p : Fin n) (c : Pc) : (s.goto p c).state = s.state := rfl

/-- `cond` may hold: it does, or somebody is past the loop and may change it. -/
def State.Seen (s : State n) : Prop := s.cond = true ∨ ∃ v, s.pc v = .body

/-- Whoever is on the way to sleep with `lk` still held keeps everybody out of the loop. -/
theorem Inv.not_seen (h : Inv lk s) (hs : (s.pc w).sleepy = true)
    (hl : (s.pc w).holds lk lk = true) : ¬ s.Seen := by
  rintro (hcond | ⟨v, hv⟩)
  · simp [h.quiet w hs hl] at hcond
  · obtain rfl := h.holder_unique hl (q := v) (by simp [hv, Pc.holds])
    simp [hv, Pc.sleepy] at hs

section Run

variable (h : Inv lk s) (hc : (ins, c) ∈ code lk n (s.pc p)) (hp : Performs s p ins s₁)
include h hc hp

theorem Inv.run_locks (q : Fin n) (l : Lock) :
    (s₁.goto p c).locked l = .proc q ↔ ((s₁.goto p c).pc q).holds lk l = true := by
  have hl := hp.locked q l
  by_cases hq : q = p
  · subst hq
    have hheld : decide (s.locked l = .proc q) = (s.pc q).holds lk l := by
      rw [Bool.eq_iff_iff, decide_eq_true_iff]
      exact h.locks q l
    rw [if_pos rfl, hheld] at hl
    rw [goto_pc_self, holds_code hc (h.used q)]
    exact hl
  · rw [if_neg hq] at hl
    rw [goto_pc_of_ne _ _ hq, hp.pc]
    exact hl.trans (h.locks q l)

theorem Inv.run_quiet (hs : ((s₁.goto p c).pc w).sleepy = true)
    (hl : ((s₁.goto p c).pc w).holds lk lk = true) : (s₁.goto p c).cond = false := by
  show s₁.cond = false
  by_cases hset : ∃ t, ins = .setCond t
  · -- Whoever changes `cond` holds `lk` and is not on the way to sleep.
    obtain ⟨t, rfl⟩ := hset
    have hpl : (s.pc p).holds lk lk = true := by
      rcases setCond_code hc with hb | hb <;> simp [hb, Pc.holds]
    by_cases hw : w = p
    · subst hw
      rw [goto_pc_self] at hs
      rcases sleepy_code hc (h.used w) hs with ⟨hb, -⟩ | ⟨-, hb⟩
      · rcases setCond_code hc with hb' | hb' <;> simp [hb', Pc.sleepy] at hb
      · simp at hb
    · rw [goto_pc_of_ne _ _ hw, hp.pc] at hl
      exact absurd (h.holder_unique hl hpl) hw
  · rw [hp.cond fun t ht => hset ⟨t, ht⟩]
    by_cases hw : w = p
    · subst hw
      rw [goto_pc_self] at hs hl
      rcases sleepy_code hc (h.used w) hs with ⟨hb, hbl⟩ | ⟨-, rfl⟩
      · exact h.quiet w hb (hbl hl)
      · generalize ht : false = t at hp
        cases hp
        rfl
    · rw [goto_pc_of_ne _ _ hw, hp.pc] at hs hl
      exact h.quiet w hs hl

omit h in
/-- Whoever is on the way to sleep was before, or has just failed the test. -/
theorem committed_of_run (hu : (s.pc p).used lk = true) (hw : (s₁.goto p c).Committed w) :
    s.Committed w ∨ w = p ∧ s.pc p = .check ∧ ins = .test false := by
  by_cases hwp : w = p
  · subst hwp
    simp only [State.Committed, goto_pc_self] at hw
    rcases hw with hw | ⟨hw, -⟩
    · rcases sleepy_code hc hu hw with ⟨hb, -⟩ | hb
      · exact .inl (.inl hb)
      · exact .inr ⟨rfl, hb⟩
    · have hb := (sched_code hc).1.mp hw
      exact .inl (.inl (by simp [hb, Pc.sleepy]))
  · refine .inl ?_
    simp only [State.Committed, goto_pc_of_ne _ _ hwp, hp.pc] at hw
    refine hw.imp id fun ⟨hsw, hst⟩ => ⟨hsw, ?_⟩
    rcases hp.sleeping hst with ⟨hs, -⟩ | ⟨hq, -⟩
    · exact hs
    · exact absurd hq hwp

omit h in
/-- `cond` may hold only if it might before, or somebody has just made it. -/
theorem seen_of_run (hsig : s.pc p ≠ .signal) (hseen : (s₁.goto p c).Seen) : s.Seen := by
  rcases hseen with hcond | ⟨v, hv⟩
  · by_cases hset : ∃ t, ins = .setCond t
    · obtain ⟨t, rfl⟩ := hset
      exact .inr ⟨p, (setCond_code hc).resolve_right hsig⟩
    · exact .inl ((hp.cond fun t ht => hset ⟨t, ht⟩).symm.trans hcond)
  · by_cases hvp : v = p
    · subst hvp
      rw [goto_pc_self] at hv
      subst hv
      rcases body_code hc with hb | rfl
      · exact .inr ⟨v, hb⟩
      · generalize ht : true = t at hp
        cases hp
        exact .inl ht.symm
    · rw [goto_pc_of_ne _ _ hvp, hp.pc] at hv
      exact .inr ⟨v, hv⟩

/-- Whoever is on the way to sleep, or asleep, while `cond` may hold is still to be woken. -/
theorem Inv.run_due (hw : (s₁.goto p c).Committed w) (hseen : (s₁.goto p c).Seen) :
    ∃ q, ((s₁.goto p c).pc q).due w = true := by
  by_cases hsig : s.pc p = .signal
  · refine ⟨p, ?_⟩
    rw [hsig] at hc
    rw [goto_pc_self]
    exact signal_code hc w
  have hseen' := seen_of_run hc hp hsig hseen
  rcases committed_of_run hc hp (h.used p) hw with hw' | ⟨rfl, hb, rfl⟩
  · obtain ⟨q, hq⟩ := h.due w hw' hseen'
    by_cases hqp : q = p
    · subst hqp
      rcases due_code hc w.isLt hq with hd | ⟨rfl, held, hscan⟩
      · exact ⟨q, by rwa [goto_pc_self]⟩
      · -- `wakeup1` looks at `w`: it wakes `w`, or `w` still holds a lock.
        exfalso
        rcases hw' with hs | ⟨hsw, -⟩
        · rcases holds_of_sleepy hs with hl | hl
          · exact h.not_seen hs hl hseen'
          · obtain rfl := h.holder_unique hl (q := q) (by simp [hscan, Pc.holds])
            simp [hscan, Pc.sleepy] at hs
        · have hwq : w ≠ q := by
            rintro rfl
            simp [hsw] at hscan
          simp only [State.Committed, goto_pc_of_ne _ _ hwq, hp.pc, hsw] at hw
          have hst : s₁.state w = .sleeping := by simpa [Pc.sleepy] using hw
          have hchan := h.chan w (by simp [hsw, Pc.onChan])
          simpa [hchan] using hp.sleeping hst
    · exact ⟨q, by rwa [goto_pc_of_ne _ _ hqp, hp.pc]⟩
  · -- The test failed with `lk` held.
    exfalso
    rcases hseen' with hcond | ⟨v, hv⟩
    · generalize ht : false = t at hp
      cases hp
      simp [← ht] at hcond
    · have hheld : (s.pc w).holds lk lk = true := by simp [hb, Pc.holds]
      obtain rfl := h.holder_unique hheld (q := v) (by simp [hv, Pc.holds])
      simp [hb] at hv

/-- **One instruction** of a process. -/
theorem Inv.run : Inv lk (s₁.goto p c) where
  used q := by
    by_cases hq : q = p
    · simp [hq, used_code hc (h.used p)]
    · simp [hq, hp.pc, h.used q]
  locks := h.run_locks hc hp
  chan q hq := by
    show s₁.chan q = true
    rw [hp.chan]
    by_cases hqp : q = p
    · subst hqp
      rw [goto_pc_self] at hq
      rcases onChan_code hc hq with rfl | ⟨hb, hne⟩
      · simp
      · simp [hne, h.chan q hb]
    · rw [goto_pc_of_ne _ _ hqp, hp.pc] at hq
      simp [hqp, h.chan q hq]
  asleep q hq := by
    obtain ⟨hsw, hnsw, hset⟩ := sched_code hc
    rcases hp.sleeping hq with ⟨hs, -⟩ | ⟨rfl, hins⟩
    · by_cases hqp : q = p
      · subst hqp
        simp [hsw.mpr ((h.asleep q hs).resolve_right hnsw)]
      · simpa [hqp, hp.pc] using h.asleep q hs
    · simp [hset hins]
  quiet _ := h.run_quiet hc hp
  due _ := h.run_due hc hp

end Run

/-- The scheduler hands `ptable.lock` to a process that was woken. -/
theorem Inv.schedRun (h : Inv lk s) (hl : s.locked .ptable = .scheduler)
    (hpc : s.pc p = .switched) :
    Inv lk ({ s with
      state := update s.state p .running
      locked := update s.locked .ptable (.proc p) }.goto p .clearChan) := by
  have hpc' : ∀ q, update s.pc p .clearChan q = if q = p then .clearChan else s.pc q :=
    fun q => update_apply _ _ _ _
  constructor <;> simp only [State.goto, State.Committed, hpc']
  case used =>
    intro q
    split
    · cases lk <;> rfl
    · exact h.used q
  case locks =>
    intro q l
    have hq := h.locks q l
    by_cases hqp : q = p
    · by_cases hlp : l = .ptable <;> simp_all [Pc.holds]
    · by_cases hlp : l = .ptable <;> simp_all [Ne.symm hqp]
  case chan =>
    intro q
    split
    · simp [Pc.onChan]
    · exact h.chan q
  case asleep =>
    intro q hq
    by_cases hqp : q = p
    · simp [hqp] at hq
    · simpa [hqp] using h.asleep q (by simpa [hqp] using hq)
  case quiet =>
    intro w
    split
    · simp [Pc.sleepy]
    · exact h.quiet w
  case due =>
    intro w hw hseen
    have hwp : w ≠ p := by
      rintro rfl
      simp [Pc.sleepy] at hw
    have hseen' : s.Seen := by
      refine hseen.imp id fun ⟨v, hv⟩ => ⟨v, ?_⟩
      split at hv
      · cases hv
      · exact hv
    obtain ⟨q, hq⟩ := h.due w (by simpa [hwp, State.Committed] using hw) hseen'
    have hqp : q ≠ p := by
      rintro rfl
      simp [hpc, Pc.due] at hq
    exact ⟨q, by simp [hqp, hq]⟩

/-- **One step** of the machine. -/
theorem Inv.step {s' : State n} {a : Action n} (h : Inv lk s) (hs : step lk s a = some s') :
    Inv lk s' := by
  cases a with
  | run p k =>
    unfold Sync.step at hs
    dsimp only at hs
    split at hs
    · rename_i ins c hcode
      obtain ⟨s₁, hp, rfl⟩ := Option.map_eq_some_iff.mp hs
      exact h.run (List.mem_of_getElem? hcode) (perform_cases hp)
    · cases hs
  | schedAcquire =>
    obtain ⟨hl, hs⟩ := Option.ite_none_right_eq_some.mp hs
    cases hs
    refine ⟨h.used, fun p l => ?_, h.chan, h.asleep, h.quiet, h.due⟩
    rw [← h.locks]
    by_cases hlp : l = .ptable <;> simp [hlp, hl]
  | schedRelease =>
    obtain ⟨hl, hs⟩ := Option.ite_none_right_eq_some.mp hs
    cases hs
    refine ⟨h.used, fun p l => ?_, h.chan, h.asleep, h.quiet, h.due⟩
    rw [← h.locks]
    by_cases hlp : l = .ptable <;> simp [hlp, hl]
  | schedRun p =>
    obtain ⟨⟨hl, hpc, -⟩, hs⟩ := Option.ite_none_right_eq_some.mp hs
    cases hs
    exact h.schedRun hl hpc

theorem inv_init (lk : Lock) (n : ℕ) (cond : Bool) : Inv lk (init n cond) := by
  constructor <;> simp [init, Pc.holds, Pc.onChan, Pc.sleepy, State.Committed]
  intro
  cases lk <;> rfl

/-- `cond` is made and the wakeup not finished. -/
def Pc.signalling : Pc → Bool
  | .dropLk => true
  | .wakeAcquire _ => true
  | .scan _ _ => true
  | _ => false

/-- **No lost wakeup.**  For any number of processes, whether `lk` is `ptable.lock` or not, and
in every interleaving, no process is `SLEEPING` on the channel while `cond` holds and nobody
is between making `cond` true and the end of the wakeup's loop. -/
theorem no_lost_wakeup (lk : Lock) (n : ℕ) (cond : Bool) (xs : List (Action n)) :
    Throughout (step lk) (fun s => ¬ (s.cond = true ∧ (∀ q, (s.pc q).signalling = false) ∧
      ∃ w, s.state w = .sleeping ∧ s.chan w = true)) (init n cond) xs := by
  have hinv : Throughout (step lk) (Inv lk) (init n cond) xs :=
    throughout_invariant (fun _ _ _ h _ hs => h.step hs) (inv_init lk n cond) along_true
  refine hinv.mono fun s h => ?_
  rintro ⟨hcond, hnone, w, hw, -⟩
  have hcom : s.Committed w := by
    rcases h.asleep w hw with hpc | hpc
    · exact .inl (by simp [hpc, Pc.sleepy])
    · exact .inr ⟨hpc, hw⟩
  obtain ⟨q, hq⟩ := h.due w hcom (.inl hcond)
  have := hnone q
  cases hpc : s.pc q <;> simp_all [Pc.due, Pc.signalling]

/-- One of two processes. -/
def waiter : Fin 2 := ⟨0, Nat.two_pos⟩

/-- The other one. -/
def waker : Fin 2 := ⟨1, Nat.one_lt_two⟩

/-- The waiter goes to sleep. -/
def goToSleep : List (Action 2) :=
  [.run waiter 0, .run waiter 1, .run waiter 0, .run waiter 0, .run waiter 0, .run waiter 0,
    .run waiter 0, .schedRelease]

/-- The waker makes `cond` true, releases `lk` and looks at the waiter's slot. -/
def wakeIt : List (Action 2) :=
  [.run waker 1, .run waker 1, .run waker 0, .run waker 0, .run waker 0]

-- The waiter does fall asleep, and the wakeup does reach it.
example : (exec (step .other) (init 2 false) goToSleep).map (fun s => s.state waiter) =
      some .sleeping ∧
    (exec (step .other) (init 2 false) (goToSleep ++ wakeIt)).map
      (fun s => (s.state waiter, s.cond)) =
      some (.runnable, true) := by
  decide +kernel

end Xv6.Sync
