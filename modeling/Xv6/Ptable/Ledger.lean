import Xv6.Ptable.Fields
import Xv6.Ptable.OnCpu

/-!
# What the kernel should have recorded

A history beside the table, kept from the outside: when the process of a slot was created,
on how many ticks since then it was `RUNNING`, how many of those found it on CPU 0, and
what happened to the children it outlived.  When the sort of `allocproc` moves a process
to another slot, its page of the ledger goes with it.

## Main definitions

* `Ledger`, `Exited` — the history of one process.
* `post cfg s a led` — what step `a` from state `s` adds.
* `bookedStep` — the machine with its ledger.

## Main results

* `fork_times`, `tick_times` — what the two sections that set times do to them.
* `posting_of_step` — the cases of a step.
-/

namespace Xv6.Ptable

open Function Machine

/-- The history of a child: the ticks at which it was created and exited, the ticks that
found it running on CPU 0, and its last priority. -/
structure Exited where
  created : ℕ
  exited : ℕ
  charged : ℕ
  piority : ℤ
  deriving DecidableEq

/-- The history of a process since it was created.  The child that exited first comes
first. -/
structure Ledger where
  created : ℕ
  ran : ℕ
  charged : ℕ
  children : List Exited
  deriving DecidableEq

/-- The ledger of a process created at tick `ticks`. -/
def Ledger.opened (ticks : ℕ) : Ledger := ⟨ticks, 0, 0, []⟩

/-- A tick finds the process `RUNNING`, on CPU 0 or not. -/
def Ledger.runs (l : Ledger) (onCpu0 : Bool) : Ledger :=
  { l with ran := l.ran + 1, charged := if onCpu0 then l.charged + 1 else l.charged }

/-- A child with ledger `child` exits at tick `ticks`. -/
def Ledger.outlives (l child : Ledger) (ticks : ℕ) (piority : ℤ) : Ledger :=
  { l with children := l.children ++ [⟨child.created, ticks, child.charged, piority⟩] }

/-- The ledgers after step `a` from state `s`. -/
def post (cfg : Config) (s : State) (led : Slot → Ledger) : Action → Slot → Ledger
  | .tick => fun i =>
    if (s.procs i).state = .running then (led i).runs ((s.cpus 0).proc = some i) else led i
  | .fork c =>
    match s.caller c, freeSlot s.procs with
    | some _, some q => update led q (.opened s.ticks) ∘ reseat cfg s q
    | _, _ => led
  | .exit c =>
    match exiting s (.exit c) with
    | some (p, q) =>
      update led q ((led q).outlives (led p) s.ticks (s.procs p).piority)
    | none => led
  | _ => led

/-- The machine and its ledgers. -/
structure Booked where
  state : State
  ledger : Slot → Ledger

def bookedStep (cfg : Config) (b : Booked) (a : Action) : Option Booked :=
  (step cfg b.state a).map fun s' => ⟨s', post cfg b.state b.ledger a⟩

def bookedBoot (cfg : Config) : Booked := ⟨boot cfg, fun _ => .opened 0⟩

variable {cfg : Config} {s s' : State} {b b' : Booked} {a : Action} {c : Cid}

theorem bookedStep_eq_some : bookedStep cfg b a = some b' ↔
    ∃ s', step cfg b.state a = some s' ∧ b' = ⟨s', post cfg b.state b.ledger a⟩ := by
  simp [bookedStep, eq_comm]

/-! ## Times in `fork` and on a tick -/

/-- A `fork` that finds no slot changes nothing. -/
theorem fork_of_none (hq : freeSlot s.procs = none) (cur : Slot) : fork cfg s cur = s := by
  simp [fork, hq]

/-- A field that no other section looks at, after a `fork`. -/
theorem fork_apart (cfg : Config) {α : Type*} {f : Proc → α} (hf : Apart f)
    (hpiority : ∀ (p : Proc) v, f { p with piority := v } = f p) {q : Slot}
    (hq : freeSlot s.procs = some q) (cur i : Slot) :
    f ((fork cfg s cur).procs i) = f ((marked s q).procs (reseat cfg s q i)) := by
  obtain ⟨v, hv⟩ := allocproc_apply cfg s q i
  have hnp : f ((fork cfg s cur).procs i) = f ((allocproc cfg s q).procs i) := by
    simp only [fork, hq]
    exact setProc_proj f _ cur _ (hf.control _ _ _ _ _ _ _ _ _ _) i
  rw [hnp, hv, hpiority]

theorem fork_times (cfg : Config) {q : Slot} (hq : freeSlot s.procs = some q) (cur i : Slot) :
    ((fork cfg s cur).procs i).times = ((marked s q).procs (reseat cfg s q i)).times :=
  fork_apart cfg apart_times (fun _ _ => rfl) hq cur i

theorem marked_times (s : State) (q i : Slot) : ((marked s q).procs i).times =
    update (fun j => (s.procs j).times) q (s.ticks, 0) i := by
  by_cases hi : i = q
  · subst hi
    simp [marked, State.setProc, Proc.times]
  · simp [marked, State.setProc, hi]

/-- The timer charges the current process of CPU 0. -/
theorem tick_times (h1 : OneCpu s) (i : Slot) : ((tick s).procs i).times =
    if (s.cpus 0).proc = some i then ((s.procs i).ctime, uint32 ((s.procs i).rtime + 1))
    else (s.procs i).times := by
  unfold tick
  dsimp only
  rw [wakeup1_proj Proc.times fun _ => rfl]
  split
  · rename_i p hp
    rw [if_pos (h1.state_eq hp)]
    by_cases hi : i = p
    · subst hi
      simp [State.setProc, Proc.times, hp]
    · simp [State.setProc, hi, hp, Ne.symm hi]
  · rename_i hnone
    simp [hnone]

/-! ## The clock -/

theorem wait_ticks (s : State) (p : Slot) : (wait s p).state.ticks = s.ticks := by
  unfold wait
  split <;> rfl

theorem ticks_passRule (c : Cid) (n : ℕ) :
    PassRule c (fun t => t.ticks = n) (fun t => t.ticks = n) where
  flags _ _ _ h := h
  endPass _ h := h
  dispatch s pc p h _ _ := by
    apply Outcome.ends_state (I := fun t => t.ticks = n)
    unfold dispatch
    dsimp only
    split
    · rw [wait_ticks]
      exact h
    · exact h

theorem finish_ticks (cfg : Config) (c : Cid) (o : Outcome) :
    (finish cfg c o).ticks = o.state.ticks := by
  cases o with
  | released t => rfl
  | sched t => exact (ticks_passRule c t.ticks).resume (fun _ => rfl) rfl

theorem fork_ticks (s : State) (cur : Slot) : (fork cfg s cur).ticks = s.ticks := by
  unfold fork
  split
  · rfl
  · unfold allocproc
    dsimp only
    split <;> rfl

/-- Only the timer counts. -/
theorem step_ticks (hs : step cfg s a = some s') (htick : a ≠ .tick) : s'.ticks = s.ticks := by
  obtain ⟨⟨c, o⟩, hent, rfl⟩ := Option.map_eq_some_iff.mp hs
  rw [finish_ticks]
  cases entry_cases hent with
  | schedule c _ => exact (ticks_passRule c s.ticks).pass rfl
  | fork c p _ => exact fork_ticks s p
  | wait c p _ => exact wait_ticks s p
  | yield c p _ =>
    unfold yield
    split
    · rfl
    split
    · rfl
    split <;> rfl
  | nice c p _ =>
    show (nice s p).ticks = s.ticks
    unfold nice
    split <;> rfl
  | tick => exact absurd rfl htick
  | _ => rfl

/-! ## The cases of a step -/

/-- What a step can be to the ledgers: a tick, a `fork` that finds slot `q` or none, an
`exit` of `p` with parent `q`, or a step that leaves alone all fields that have nothing to
do with how a process is run. -/
inductive Posting (cfg : Config) (b : Booked) : Action → Booked → Prop
  | tick : Posting cfg b .tick ⟨tick b.state, post cfg b.state b.ledger .tick⟩
  | fork (c : Cid) (cur q : Slot) : freeSlot b.state.procs = some q →
      Posting cfg b (.fork c) ⟨fork cfg b.state cur,
        update b.ledger q (.opened b.state.ticks) ∘ reseat cfg b.state q⟩
  | full (c : Cid) : Posting cfg b (.fork c) b
  | exit (c : Cid) (s' : State) (p q : Slot) : exiting b.state (.exit c) = some (p, q) →
      s'.ticks = b.state.ticks →
      (∀ {α : Type} {f : Proc → α}, Apart f → ∀ i, f (s'.procs i) =
        f (update b.state.procs q (recordChild (b.state.procs q) (b.state.procs p)
          b.state.ticks) i)) →
      Posting cfg b (.exit c) ⟨s', update b.ledger q
        ((b.ledger q).outlives (b.ledger p) b.state.ticks (b.state.procs p).piority)⟩
  | other (a : Action) (s' : State) : a ≠ .tick → s'.ticks = b.state.ticks →
      (∀ {α : Type} {f : Proc → α}, Apart f → (∀ (p : Proc) v, f { p with piority := v } = f p) →
        ∀ i, f (s'.procs i) = f (b.state.procs i)) →
      Posting cfg b a ⟨s', b.ledger⟩

/-- **The cases of a step.** -/
theorem posting_of_step (hs : bookedStep cfg b a = some b') : Posting cfg b a b' := by
  obtain ⟨s', hstep, rfl⟩ := bookedStep_eq_some.mp hs
  obtain ⟨⟨c, o⟩, hent, rfl⟩ := Option.map_eq_some_iff.mp hstep
  -- Where the ledger stays, all that is left to say is which fields stay.
  have other : a ≠ .tick → (∀ c, a ≠ .fork c) → (∀ c, a ≠ .exit c) →
      post cfg b.state b.ledger a = b.ledger →
      Posting cfg b a ⟨finish cfg c o, post cfg b.state b.ledger a⟩ := by
    intro htick hfork hexit hpost
    rw [hpost]
    refine .other a _ htick (step_ticks hstep htick) fun {α f} hf hp i => ?_
    by_cases hnice : ∃ c, a = .nice c
    · obtain ⟨c, rfl⟩ := hnice
      cases entry_cases hent with
      | nice c p _ =>
        show f ((nice b.state p).procs i) = _
        unfold nice
        split
        · exact setProc_proj f b.state p _ (hp _ _) i
        · rfl
    · exact hf.step hstep hfork hexit (fun c hc => hnice ⟨c, hc⟩) htick i
  cases entry_cases hent with
  | tick => exact .tick
  | fork c cur hcur =>
    cases hq : freeSlot b.state.procs with
    | none =>
      simp only [finish, fork_of_none hq, post, hcur, hq]
      exact .full c
    | some q =>
      simp only [finish, post, hcur, hq]
      exact .fork c cur q hq
  | exit c p q hp hne hq =>
    have hex : exiting b.state (.exit c) = some (p, q) := by simp [exiting, hp, hne, hq]
    simp only [post, hex]
    refine .exit c _ p q hex (step_ticks hstep (by simp)) fun {α f} hf i => ?_
    rw [hf.finish]
    exact hf.exit b.state p q i
  | _ => exact other (by simp) (by simp) (by simp) rfl

end Xv6.Ptable
