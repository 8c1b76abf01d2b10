import Xv6.Ptable.Effects

/-!
# Fields that have nothing to do with how a process is run

Times, priority and child records are set by `allocproc`, the timer, `nice` and `exit` and
by nothing else: neither the scheduler nor any other section looks at or changes them, but
for the scheduler's choice.  `Apart f` says that `f` is made of such fields; the rules say
it of passes and of the sections once for all such `f`.

## Main definitions

* `Apart f` — `f` looks at no field that says how a process is run.
* `Proc.times` — when a process was created and how long it ran.

## Main results

* `Apart.finish` — passes leave `f` alone.
* `Apart.step` — so does every step but a `fork`, an `exit`, a tick and a `nice`.
-/

namespace Xv6.Ptable

variable {α : Type*} {f : Proc → α} {cfg : Config} {c : Cid} {s s' : State} {a : Action}

/-- `f` looks at no field that says how a process is run. -/
structure Apart (f : Proc → α) : Prop where
  control : ∀ (p : Proc) st pid par chan k e n np w, f { p with
    state := st, pid := pid, parent := par, chan := chan, killed := k, etime := e,
    processCounter := n, np := np, inWait := w } = f p

section

variable (hf : Apart f)
include hf

theorem Apart.wait (s : State) (p i : Slot) :
    f ((wait s p).state.procs i) = f (s.procs i) := by
  apply wait_proj f
  · exact fun q => hf.control q _ _ _ _ _ _ _ _ _
  · exact fun q _ => hf.control q _ _ _ _ _ _ _ _ _
  · exact fun q _ => hf.control q _ _ _ _ _ _ _ _ _

theorem Apart.dispatch (s : State) (c : Cid) (pc : SchedPc) (p i : Slot) :
    f ((dispatch s c pc p).state.procs i) = f (s.procs i) := by
  have hs : f ((switchTo s c pc p).procs i) = f (s.procs i) := by
    refine update_proj f s.procs ?_ i
    exact hf.control _ _ _ _ _ _ _ _ _ _
  unfold Ptable.dispatch
  dsimp only
  split
  · rw [hf.wait, hs]
  · exact hs

theorem Apart.passRule (c : Cid) (v : Slot → α) :
    PassRule c (fun t => ∀ i, f (t.procs i) = v i) (fun t => ∀ i, f (t.procs i) = v i) where
  flags _ _ _ h := h
  endPass _ h := h
  dispatch s pc p h _ _ := by
    refine Outcome.ends_state (I := fun t => ∀ i, f (t.procs i) = v i) fun i => ?_
    rw [hf.dispatch, h i]

/-- The rest of a pass leaves the fields alone. -/
theorem Apart.finish (cfg : Config) (c : Cid) (o : Outcome) (i : Slot) :
    f ((finish cfg c o).procs i) = f (o.state.procs i) := by
  have R := hf.passRule c fun j => f (o.state.procs j)
  cases o with
  | released t => rfl
  | sched t => exact R.resume (fun _ _ => rfl) (fun _ => rfl) i

theorem Apart.forkDone (s : State) (cur np i : Slot) :
    f ((forkDone s cur np).procs i) = f (s.procs i) := by
  apply forkDone_proj f
  · exact fun q _ => hf.control q _ _ _ _ _ _ _ _ _
  · exact fun q _ => hf.control q _ _ _ _ _ _ _ _ _

theorem Apart.forkFail (s : State) (cur np i : Slot) :
    f ((forkFail s cur np).procs i) = f (s.procs i) := by
  apply forkFail_proj f
  · exact fun q => hf.control q _ _ _ _ _ _ _ _ _
  · exact fun q _ => hf.control q _ _ _ _ _ _ _ _ _

theorem Apart.yield (s : State) (p i : Slot) :
    f ((yield cfg s p).state.procs i) = f (s.procs i) := by
  unfold Ptable.yield
  split
  · rfl
  split
  · rfl
  split
  · exact setProc_proj f s p _ (hf.control _ _ _ _ _ _ _ _ _ _) i
  · exact setProc_proj f s p _ (hf.control _ _ _ _ _ _ _ _ _ _) i

/-- The parent's part of `exit` apart, it leaves the fields alone. -/
theorem Apart.exit (s : State) (cur par i : Slot) :
    f ((exit s cur par).procs i) =
      f (Function.update s.procs par (recordChild (s.procs par) (s.procs cur) s.ticks) i) := by
  have hrun : ∀ q : Proc, f { q with state := .runnable } = f q :=
    fun q => hf.control q _ _ _ _ _ _ _ _ _
  refine (setProc_proj f _ cur _ (hf.control _ _ _ _ _ _ _ _ _ _) i).trans ?_
  dsimp only
  rw [abandon_proj f hrun fun q _ => hf.control q _ _ _ _ _ _ _ _ _, wakeup1_proj f hrun]

/-- Every step but a `fork`, an `exit`, a tick and a `nice` leaves the fields alone. -/
theorem Apart.step (hs : step cfg s a = some s') (hfork : ∀ c, a ≠ .fork c)
    (hexit : ∀ c, a ≠ .exit c) (hnice : ∀ c, a ≠ .nice c) (htick : a ≠ .tick) (i : Slot) :
    f (s'.procs i) = f (s.procs i) := by
  obtain ⟨⟨c, o⟩, hent, rfl⟩ := Option.map_eq_some_iff.mp hs
  rw [hf.finish]
  cases entry_cases hent with
  | schedule c _ => exact (hf.passRule c fun j => f (s.procs j)).pass (fun _ => rfl) i
  | fork c _ _ => exact absurd rfl (hfork c)
  | forkFail c cur np _ => exact hf.forkFail s cur np i
  | forkDone c cur np _ => exact hf.forkDone s cur np i
  | exit c _ _ _ _ _ => exact absurd rfl (hexit c)
  | wait c p _ => exact hf.wait s p i
  | sleep c addr p _ =>
    exact sleep_proj f (fun q _ => hf.control q _ _ _ _ _ _ _ _ _) s p _ i
  | yield c p _ => exact hf.yield s p i
  | nice c _ _ => exact absurd rfl (hnice c)
  | kill c pid p _ =>
    exact kill_proj f (fun q _ => hf.control q _ _ _ _ _ _ _ _ _) s.procs pid i
  | wakeup addr =>
    exact wakeup1_proj f (fun q => hf.control q _ _ _ _ _ _ _ _ _) s.procs _ i
  | tick => exact absurd rfl htick

end

/-! ## Times -/

/-- When the process was created, and how many ticks it was charged. -/
def Proc.times (p : Proc) : ℕ × ℕ := (p.ctime, p.rtime)

theorem apart_times : Apart Proc.times := ⟨fun _ _ _ _ _ _ _ _ _ _ => rfl⟩

theorem store_times (p : Proc) (w v : ℤ) : (p.store w v).times = p.times := by
  unfold Proc.store
  repeat' split
  all_goals rfl

/-- Wherever the stores land, the parent's own times stay. -/
theorem recordChild_times (parent child : Proc) (ticks : ℕ) :
    (recordChild parent child ticks).times = parent.times := by
  unfold recordChild
  extract_lets p₁ p₂ p₃ p₄
  calc p₄.times = p₃.times := store_times _ _ _
    _ = p₂.times := store_times _ _ _
    _ = p₁.times := store_times _ _ _
    _ = parent.times := store_times _ _ _

theorem exit_times (s : State) (cur par i : Slot) :
    ((exit s cur par).procs i).times = (s.procs i).times := by
  rw [apart_times.exit]
  exact update_proj Proc.times s.procs (recordChild_times _ _ _) i

theorem nice_times (s : State) (cur i : Slot) :
    ((nice s cur).procs i).times = (s.procs i).times := by
  unfold nice
  split
  · refine setProc_proj Proc.times s cur _ ?_ i
    rfl
  · rfl

end Xv6.Ptable
