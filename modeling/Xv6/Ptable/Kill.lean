import Xv6.Ptable.Effects

/-!
# `kill` and the reuse of slots

`kill` marks the first slot with the given pid, whatever the state of that slot.  A slot
that was never used or was reaped by `wait` has pid 0, and one that a failed `fork` gave
back keeps its pid, so `kill` can mark a slot that holds no process, and the next
process allocated there starts out killed.  `wait` clears `killed` when it frees a slot;
a `fork` that fails does not.

## Main definitions

* `KillOk procs pid` — what `kill` should do.
* `KillsProcess`, `GivesBackUnkilled` — conditions on the steps of a run.

## Main results

* `kill_slot_reuse` — in a run in which every slot that `kill` finds holds a process and
  no failed `fork` gives back a killed slot, `kill` does what it should and every slot
  that `allocproc` hands out has `killed == 0`.
* `kill_unused_slot` — `kill(0)` and the process it kills before it exists.
-/

namespace Xv6.Ptable

open Machine

variable {cfg : Config} {s s' : State} {a : Action}

/-- `kill(pid)` returns 0 exactly when a slot in use has that pid, and then changes only
such a slot; otherwise it changes nothing. -/
structure KillOk (procs : Slot → Proc) (pid : ℤ) : Prop where
  result : (kill procs pid).2 = 0 ↔ ∃ i, (procs i).state ≠ .unused ∧ (procs i).pid = pid
  only : (kill procs pid).2 = 0 → ∃ i, (procs i).state ≠ .unused ∧ (procs i).pid = pid ∧
    ∀ j, j ≠ i → (kill procs pid).1 j = procs j
  unchanged : (kill procs pid).2 ≠ 0 → (kill procs pid).1 = procs

/-- `kill` does what it should when the slot it finds, if any, holds a process. -/
theorem killOk_of_inUse {procs : Slot → Proc} {pid : ℤ}
    (h : ∀ i ∈ pidSlot procs pid, (procs i).state ≠ .unused) : KillOk procs pid := by
  cases hslot : pidSlot procs pid with
  | none =>
    have hkill : kill procs pid = (procs, -1) := by rw [kill, hslot]
    have hnone : ∀ i, (procs i).pid ≠ pid := by
      simpa [pidSlot, List.find?_eq_none] using hslot
    constructor
    · rw [hkill]
      refine iff_of_false (by simp) ?_
      rintro ⟨i, -, hi⟩
      exact hnone i hi
    · rw [hkill]
      exact fun h => absurd h (by simp)
    · rw [hkill]
      exact fun _ => rfl
  | some i =>
    have hpid : (procs i).pid = pid := by simpa using List.find?_some hslot
    have hzero : (kill procs pid).2 = 0 := by rw [kill, hslot]
    have hrest : ∀ j, j ≠ i → (kill procs pid).1 j = procs j := by
      intro j hj
      rw [kill, hslot]
      exact Function.update_of_ne hj ..
    have hst := h i hslot
    exact ⟨iff_of_true hzero ⟨i, hst, hpid⟩, fun _ => ⟨i, hst, hpid, hrest⟩,
      fun h => absurd hzero h⟩

/-! ## The slots `allocproc` hands out -/

/-- `allocproc` leaves `killed` as it finds it. -/
theorem allocproc_killed (cfg : Config) (s : State) (p : Slot) :
    ((allocproc cfg s p).procs p).killed = (s.procs p).killed := by
  unfold allocproc
  dsimp only
  split
  · dsimp only
    rw [sortProcessFIFO_apply (by simp [State.setProc])]
    simp [State.setProc]
  · simp [State.setProc]
  · simp [State.setProc]

/-- The process `allocproc` hands out in a step. -/
def handedOut (cfg : Config) (s : State) : Action → Option Proc
  | .fork c => (s.caller c).bind fun _ =>
    (freeSlot s.procs).map fun p => (allocproc cfg s p).procs p
  | _ => none

/-- A free slot is not marked. -/
def FreeUnkilled (p : Proc) : Prop := p.state = .unused → p.killed = false

/-- The step is not a `kill` that finds a slot without a process. -/
def KillsProcess (s : State) : Action → Prop
  | .kill _ pid => ∀ i ∈ pidSlot s.procs pid, (s.procs i).state ≠ .unused
  | _ => True

instance (s : State) : ∀ a, Decidable (KillsProcess s a)
  | .kill _ pid => Option.decidableForallMem (pidSlot s.procs pid)
  | .schedule _ | .fork _ | .forkFail _ | .forkDone _ | .exit _ | .wait _ | .sleep _ _
  | .yield _ | .nice _ | .wakeup _ | .tick => .isTrue trivial

/-- The step is not a failing `fork` whose new slot was marked meanwhile. -/
def GivesBackUnkilled (s : State) : Action → Prop
  | .forkFail c => ∀ pq ∈ s.forking c, (s.procs pq.2).killed = false
  | _ => True

instance (s : State) : ∀ a, Decidable (GivesBackUnkilled s a)
  | .forkFail c => Option.decidableForallMem (s.forking c)
  | .schedule _ | .fork _ | .forkDone _ | .exit _ | .wait _ | .sleep _ _ | .yield _ | .nice _
  | .kill _ _ | .wakeup _ | .tick => .isTrue trivial

theorem freeUnkilled_edit (hk : KillsProcess s a) (hg : GivesBackUnkilled s a) {p p' : Proc}
    (he : Edit s a p p') (hp : FreeUnkilled p) : FreeUnkilled p' := by
  cases he with
  | reap => exact fun _ => rfl
  | giveBack c cur np ha hf =>
    subst ha
    exact fun _ => hg (cur, np) hf
  | kill c pid i ha hi =>
    subst ha
    have hst := hk i hi
    intro hst'
    exfalso
    dsimp only at hst'
    split at hst'
    · simp at hst'
    · exact hst hst'
  | record cur par hex =>
    have hsame := recordChild_sameControl (s.procs par) (s.procs cur) s.ticks
    rw [FreeUnkilled, hsame.state, hsame.killed]
    exact hp
  | count => exact hp
  | inWait => exact hp
  | np => exact hp
  | high => exact hp
  | adopt => exact hp
  | ran => exact hp
  | nice => exact hp
  | _ => exact fun hst => absurd hst (by simp)

/-- **`kill` and slot reuse.**  In every run in which no `kill` finds a slot without a
process, and no failing `fork` gives back a slot that was marked meanwhile: every `kill`
does what it should, and every slot `allocproc` hands out has `killed == 0`. -/
theorem kill_slot_reuse (cfg : Config) (xs : List Action)
    (hk : Along (step cfg) KillsProcess (boot cfg) xs)
    (hg : Along (step cfg) GivesBackUnkilled (boot cfg) xs) :
    Along (step cfg) (fun s a => (∀ c pid, a = .kill c pid → KillOk s.procs pid) ∧
      ∀ p ∈ handedOut cfg s a, p.killed = false) (boot cfg) xs := by
  have hboot : All FreeUnkilled (boot cfg).procs :=
    All.boot cfg
      (fun _ _ he hp => freeUnkilled_edit (s := emptyTable) (a := .fork 0) trivial trivial he hp)
      (fun _ => rfl) fun _ _ h => absurd h (by simp)
  refine (hk.and hg).of_invariant (I := fun t => All FreeUnkilled t.procs) ?_ ?_ hboot
  · intro t a t' h hc hst
    exact step_forall (fun _ _ he hp => freeUnkilled_edit hc.1 hc.2 he hp) h hst
  · intro t a h hc
    constructor
    · rintro c pid rfl
      exact killOk_of_inUse hc.1
    · intro p hp
      cases a with
      | fork c =>
        obtain ⟨cur, -, hp⟩ := Option.bind_eq_some_iff.mp hp
        obtain ⟨q, hq, rfl⟩ := Option.map_eq_some_iff.mp hp
        rw [allocproc_killed]
        exact h q (by simpa using List.find?_some hq)
      | _ => exact absurd hp (by simp [handedOut])

/-- Init forks, kills its child and a pid that nobody has. -/
theorem kill_slot_reuse_child :
    Along (step q3) (fun s a => (∀ c pid, a = .kill c pid → KillOk s.procs pid) ∧
      ∀ p ∈ handedOut q3 s a, p.killed = false) (boot q3)
        [.schedule 0, .fork 0, .forkDone 0, .kill 0 2, .kill 0 3, .fork 0, .forkFail 0] :=
  kill_slot_reuse q3 _ (by decide +kernel) (by decide +kernel)

/-- `kill(0)` finds the first free slot and returns 0, although no process has pid 0.
The next `fork` allocates that slot, with `killed` set. -/
theorem kill_unused_slot :
    ∃ s s', exec (step q3) (boot q3) [.schedule 0] = some s ∧ (kill s.procs 0).2 = 0 ∧
      (∀ i, (s.procs i).state ≠ .unused → (s.procs i).pid ≠ 0) ∧
      exec (step q3) s [.kill 0 0, .fork 0] = some s' ∧
      (s'.procs 1).state = .embryo ∧ (s'.procs 1).killed = true := by
  have h : (exec (step q3) (boot q3) [.schedule 0]).any (fun s =>
      ((kill s.procs 0).2 = 0 ∧ ∀ i, (s.procs i).state ≠ .unused → (s.procs i).pid ≠ 0) &&
      (exec (step q3) s [.kill 0 0, .fork 0]).any fun s' =>
        (s'.procs 1).state = .embryo ∧ (s'.procs 1).killed = true) = true := by
    decide +kernel
  obtain ⟨s, hs, h⟩ := (Option.any_eq_true _ _).mp h
  obtain ⟨hkill, h⟩ := Bool.and_eq_true_iff.mp h
  obtain ⟨s', hs', h⟩ := (Option.any_eq_true _ _).mp h
  obtain ⟨h₁, h₂⟩ := of_decide_eq_true hkill
  exact ⟨s, s', hs, h₁, h₂, hs', of_decide_eq_true h⟩

end Xv6.Ptable
