import Xv6.Ptable.Scan

/-!
# A rule for passes

A pass goes through its levels with `ptable.lock` held and releases it in two ways: by
switching to a process, which releases it, or at its end.  So what a whole pass keeps
follows from what its three kinds of moves keep: recomputing the flags, switching to a
`RUNNABLE` process, and ending.  `PassRule` collects the three facts, and the proof that
goes through the levels is done once.

## Main definitions

* `Outcome.Ends I H` — a section ends in `I` if it releases the lock and in `H` if it
  hands the lock to the scheduler.
* `PassRule c I H` — the moves of a pass of CPU `c` lead from `H` to `H` or, where they
  release the lock, to `I`.
* `ScanRule cfg c I H` — the same of its two scans only, with what they may switch to.

## Main results

* `PassRule.pass`, `PassRule.resume` — the rule.
* `rrLoop_switches`, `frrLoop_switches` — a scan with a candidate switches to one.
-/

namespace Xv6.Ptable

/-- The section ends in `I` if it releases the lock, in `H` if it calls `sched`. -/
def Outcome.Ends (I H : State → Prop) : Outcome → Prop
  | .released s => I s
  | .sched s => H s

/-- What the moves of a pass of CPU `c` keep.  `H` holds while the scheduler has the lock,
`I` when the lock is released. -/
structure PassRule (c : Cid) (I H : State → Prop) : Prop where
  flags : ∀ s g f, H s → H { s with grtExists := g, frrExists := f }
  dispatch : ∀ s pc p, H s → pc ≠ .top → (s.procs p).state = .runnable →
    (dispatch s c pc p).Ends I H
  endPass : ∀ s, H s → I (endPass s c)

variable {cfg : Config} {c : Cid} {s : State} {I H : State → Prop}

/-! ## The two scans -/

/-- What the moves of the two scans of a pass of CPU `c` keep; they switch to candidates only. -/
structure ScanRule (cfg : Config) (c : Cid) (I H : State → Prop) : Prop where
  flags : ∀ s g f, H s → H { s with grtExists := g, frrExists := f }
  frr : ∀ s p, H s → FrrCandidate cfg s p → (dispatch s c (.frr p) p).Ends I H
  rr : ∀ s p, H s → RrCandidate s p → (dispatch s c (.rr p) p).Ends I H
  endPass : ∀ s, H s → I (endPass s c)

section

variable (R : ScanRule cfg c I H)
include R

theorem ScanRule.rrBack {loop : State → State} (hloop : ∀ t, H t → I (loop t)) (h : H s) :
    I (rrBack cfg c loop s) := by
  unfold Ptable.rrBack
  split
  · have hflags : H (checkForHigherPiority s) := R.flags s _ _ h
    dsimp only
    split
    · exact R.endPass _ hflags
    · exact hloop _ hflags
  · exact hloop _ h

theorem ScanRule.rrLoop (ps : List Slot) (h : H s) :
    I (rrLoop cfg c ps s) := by
  induction ps generalizing s with
  | nil => exact R.endPass s h
  | cons p ps ih =>
    unfold Ptable.rrLoop
    split
    · rename_i hp
      have hd := R.rr s p h hp
      split
      · rename_i heq
        rwa [heq] at hd
      · rename_i heq
        rw [heq] at hd
        exact R.rrBack (fun t => ih) hd
    · exact ih h

theorem ScanRule.rrLevel (h : H s) : I (rrLevel cfg c s) := by
  unfold Ptable.rrLevel
  split
  · exact R.rrLoop _ h
  · exact R.endPass s h

theorem ScanRule.frrBack {loop : State → State} (hloop : ∀ t, H t → I (loop t)) (h : H s) :
    I (frrBack cfg c loop s) := by
  unfold Ptable.frrBack
  split
  · have hflags : H (checkForHigherPiority s) := R.flags s _ _ h
    dsimp only
    split
    · exact R.rrLevel hflags
    · exact hloop _ hflags
  · exact hloop _ h

theorem ScanRule.frrLoop (ps : List Slot) (h : H s) :
    I (frrLoop cfg c ps s) := by
  induction ps generalizing s with
  | nil => exact R.rrLevel h
  | cons p ps ih =>
    unfold Ptable.frrLoop
    split
    · rename_i hp
      dsimp only
      have hd : (Ptable.dispatch (if cfg.policy = .Q3 then { s with frrExists := true } else s)
          c (.frr p) p).Ends I H := by
        split
        · exact R.frr _ p (R.flags s _ _ h) hp
        · exact R.frr s p h hp
      split
      · rename_i heq
        rwa [heq] at hd
      · rename_i heq
        rw [heq] at hd
        exact R.frrBack (fun t => ih) hd
    · exact ih h

theorem ScanRule.frrLevel (h : H s) : I (frrLevel cfg c s) := by
  unfold Ptable.frrLevel
  split
  · exact R.frrLoop _ h
  · exact R.rrLevel h

end

/-! ## The whole pass -/

/-- What holds of every switch holds of those that the scans make. -/
theorem PassRule.scan (R : PassRule c I H) (cfg : Config) : ScanRule cfg c I H where
  flags := R.flags
  frr s p h hp := R.dispatch s (.frr p) p h (by simp) hp.1
  rr s p h hp := R.dispatch s (.rr p) p h (by simp) hp.1
  endPass := R.endPass

theorem PassRule.grtLevel (R : PassRule c I H) (h : H s) : I (grtLevel cfg c s) := by
  unfold Ptable.grtLevel
  split
  · split
    · rename_i p hp
      have hd := R.dispatch s .grt p h (by simp) (grtCandidate_of_bestIndex hp).1
      split
      · rename_i heq
        rwa [heq] at hd
      · rename_i heq
        rw [heq] at hd
        exact (R.scan cfg).frrLevel hd
    · exact (R.scan cfg).frrLevel h
  · exact (R.scan cfg).frrLevel h

/-- **The rule**, for a pass from its top. -/
theorem PassRule.pass (R : PassRule c I H) (h : H s) : I (pass cfg c s) :=
  R.grtLevel (R.flags s _ _ h)

/-- The rule for the rest of a pass, after the process it switched to called `sched`. -/
theorem PassRule.resume (R : PassRule c I H) (htop : (s.cpus c).pc = .top → I s) (h : H s) :
    I (resume cfg c s) := by
  unfold Ptable.resume
  split
  · rename_i hpc
    exact htop hpc
  · exact (R.scan cfg).frrLevel h
  · exact (R.scan cfg).frrBack (fun t => (R.scan cfg).frrLoop _) h
  · exact (R.scan cfg).rrBack (fun t => (R.scan cfg).rrLoop _) h

/-- The rule for what follows a process's own part of a step. -/
theorem PassRule.finish (R : PassRule c I H) {o : Outcome} (h : o.Ends I H)
    (htop : ∀ t, o = .sched t → (t.cpus c).pc = .top → I t) : I (finish cfg c o) := by
  cases o with
  | released t => exact h
  | sched t => exact R.resume (htop t rfl) h

/-! ## The history of switches -/

/-- The state at the end of a section. -/
def Outcome.state : Outcome → State
  | .released s => s
  | .sched s => s

theorem Outcome.ends_of_state {o : Outcome} (hI : I o.state) (hH : H o.state) : o.Ends I H := by
  cases o
  · exact hI
  · exact hH

theorem Outcome.ends_state {o : Outcome} (h : I o.state) : o.Ends I I :=
  Outcome.ends_of_state h h

/-- What belongs to the scheduler is the same in `u` as in `s`. -/
structure SameSched (s u : State) : Prop where
  cpus : u.cpus = s.cpus
  switches : u.switches = s.switches
  grtExists : u.grtExists = s.grtExists
  frrExists : u.frrExists = s.frrExists

theorem SameSched.refl (s : State) : SameSched s s := ⟨rfl, rfl, rfl, rfl⟩

theorem wait_sameSched (s : State) (p : Slot) : SameSched s (wait s p).state := by
  unfold wait
  split <;> exact ⟨rfl, rfl, rfl, rfl⟩

/-- After the switch the process does nothing that belongs to the scheduler. -/
theorem dispatch_sameSched (s : State) (c : Cid) (pc : SchedPc) (p : Slot) :
    SameSched (switchTo s c pc p) (dispatch s c pc p).state := by
  unfold dispatch
  dsimp only
  split
  · apply wait_sameSched
  · exact SameSched.refl _

theorem dispatch_switches (s : State) (c : Cid) (pc : SchedPc) (p : Slot) :
    (dispatch s c pc p).state.switches = s.switches ++ [⟨p, s.procs⟩] :=
  (dispatch_sameSched s c pc p).switches

/-- Switches that are recorded stay recorded. -/
theorem switchesRule (c : Cid) (sws : List Switch) :
    PassRule c (fun t => sws <+: t.switches) (fun t => sws <+: t.switches) where
  flags _ _ _ h := h
  dispatch s pc p h _ _ := by
    refine Outcome.ends_state (I := fun t => sws <+: t.switches) ?_
    rw [dispatch_switches]
    exact h.trans (List.prefix_append _ _)
  endPass _ h := h

/-- The RR scan switches to a candidate if it meets one. -/
theorem rrLoop_switches {ps : List Slot} {q : Slot} (hq : q ∈ ps) (hc : RrCandidate s q) :
    ∃ p, RrCandidate s p ∧ s.switches ++ [⟨p, s.procs⟩] <+: (rrLoop cfg c ps s).switches := by
  induction ps with
  | nil => exact absurd hq List.not_mem_nil
  | cons p ps ih =>
    by_cases hp : RrCandidate s p
    · refine ⟨p, hp, ?_⟩
      have hd := dispatch_switches s c (.rr p) p
      have R := (switchesRule c (s.switches ++ [⟨p, s.procs⟩])).scan cfg
      rw [rrLoop, if_pos hp]
      split
      · rename_i heq
        rw [heq] at hd
        exact hd ▸ List.prefix_refl _
      · rename_i heq
        rw [heq] at hd
        exact R.rrBack (fun t => R.rrLoop _) (hd ▸ List.prefix_refl _)
    · rw [rrLoop, if_neg hp]
      refine ih ((List.mem_cons.mp hq).resolve_left ?_)
      rintro rfl
      exact hp hc

/-- The FRR scan switches to a candidate if it meets one. -/
theorem frrLoop_switches {ps : List Slot} {q : Slot} (hq : q ∈ ps) (hc : FrrCandidate cfg s q) :
    ∃ p, FrrCandidate cfg s p ∧
      s.switches ++ [⟨p, s.procs⟩] <+: (frrLoop cfg c ps s).switches := by
  induction ps with
  | nil => exact absurd hq List.not_mem_nil
  | cons p ps ih =>
    by_cases hp : FrrCandidate cfg s p
    · refine ⟨p, hp, ?_⟩
      have R := (switchesRule c (s.switches ++ [⟨p, s.procs⟩])).scan cfg
      have hd : (dispatch (if cfg.policy = .Q3 then { s with frrExists := true } else s) c
          (.frr p) p).state.switches = s.switches ++ [⟨p, s.procs⟩] := by
        rw [dispatch_switches]
        split <;> rfl
      rw [frrLoop, if_pos hp]
      dsimp only
      split
      · rename_i heq
        rw [heq] at hd
        exact hd ▸ List.prefix_refl _
      · rename_i heq
        rw [heq] at hd
        exact R.frrBack (fun t => R.frrLoop _) (hd ▸ List.prefix_refl _)
    · rw [frrLoop, if_neg hp]
      refine ih ((List.mem_cons.mp hq).resolve_left ?_)
      rintro rfl
      exact hp hc

end Xv6.Ptable
