import Xv6.Ptable.ChildRecords

/-!
# Strict priority of the multi-level scheduler

With `policyChooser == Q3` a pass is meant to switch to a process of a lower queue only
when no process of a higher one is `RUNNABLE`.  The flags `GRTExists` and `FRRExists`
decide which levels run.  The FRR and RR levels recompute them each time a process comes
back; the GRT level does not, and by then another CPU's pass may have cleared them.

## Main definitions

* `Switch.Strict` — no `RUNNABLE` process had a higher priority than the one switched to.
* `Stale s` — `GRTExists` is 0 although a process of the highest queue is `RUNNABLE`, and
  a lower level would find a candidate.

## Main results

* `strict_priority` — all switches are strict exactly in the runs in which no process of
  the GRT level comes back to stale flags.
* `strict_priority_violated` — a run with a switch that is not.
-/

namespace Xv6.Ptable

open Machine

/-- No process that was `RUNNABLE` had a higher priority than the one switched to. -/
def Switch.Strict (sw : Switch) : Prop :=
  ∀ q, (sw.table q).state = .runnable → (sw.table q).piority ≤ (sw.table sw.slot).piority

/-- Every switch so far was strict. -/
def StrictSoFar (s : State) : Prop := ∀ sw ∈ s.switches, sw.Strict

/-- No process of the highest queue is `RUNNABLE`. -/
def NoHigh (s : State) : Prop :=
  ∀ q, (s.procs q).state = .runnable → (s.procs q).piority ≠ highPiority

/-- No process of the middle queue is `RUNNABLE`. -/
def NoMedium (s : State) : Prop :=
  ∀ q, (s.procs q).state = .runnable → (s.procs q).piority ≠ mediumPiority

/-- `GRTExists` is 0 although a process of the highest queue is `RUNNABLE`, and the FRR or
the RR level would run and find a candidate. -/
def Stale (s : State) : Prop :=
  s.grtExists = false ∧
  (∃ q, (s.procs q).state = .runnable ∧ (s.procs q).piority = highPiority) ∧
  ((∃ q, (s.procs q).state = .runnable ∧ (s.procs q).piority = mediumPiority) ∨
    s.frrExists = false ∧ ∃ q, RrCandidate s q)

instance (s : State) : Decidable (Stale s) := inferInstanceAs (Decidable (_ ∧ _ ∧ _))

/-- The state in which a process that the GRT level switched to calls `sched`. -/
def grtReturn (cfg : Config) (s : State) (a : Action) : Option State :=
  match entry cfg s a with
  | some (c, .sched t) => if (t.cpus c).pc = .grt then some t else none
  | _ => none

/-- No process that the GRT level switched to calls `sched` in a stale state. -/
def NoStaleReturn (cfg : Config) (s : State) (a : Action) : Prop :=
  ∀ t ∈ grtReturn cfg s a, ¬ Stale t

instance (cfg : Config) (s : State) (a : Action) : Decidable (NoStaleReturn cfg s a) :=
  inferInstanceAs (Decidable (∀ t ∈ grtReturn cfg s a, _))

variable {cfg : Config} {c : Cid} {s t : State} {a : Action}

/-! ## The flags -/

theorem noHigh_of_check (h : (checkForHigherPiority s).grtExists = false) :
    NoHigh (checkForHigherPiority s) := by
  simp only [checkForHigherPiority, Bool.or_eq_false_iff, List.any_eq_false] at h
  intro q hq hp
  change (s.procs q).state = _ at hq
  change (s.procs q).piority = _ at hp
  exact h.2 q (List.mem_finRange q) (by simp [hq, hp])

theorem noMedium_of_check (h : (checkForHigherPiority s).frrExists = false) :
    NoMedium (checkForHigherPiority s) := by
  simp only [checkForHigherPiority, Bool.or_eq_false_iff, List.any_eq_false] at h
  intro q hq hp
  change (s.procs q).state = _ at hq
  change (s.procs q).piority = _ at hp
  exact h.2 q (List.mem_finRange q) (by simp [hq, hp])

/-! ## What a switch adds -/

theorem recordOk_dispatch (h : All RecordOk s.procs) (pc : SchedPc) {p : Slot}
    (hp : (s.procs p).state = .runnable) : (dispatch s c pc p).All RecordOk :=
  All.dispatch (s := s) (a := .tick) (fun _ _ he hq => recordOk_edit h he hq) h pc hp

/-- A strict switch keeps the history strict. -/
theorem StrictSoFar.dispatch (h : StrictSoFar s) {p : Slot} (hp : (Switch.mk p s.procs).Strict)
    (pc : SchedPc) : StrictSoFar (dispatch s c pc p).state := by
  intro sw hsw
  rw [dispatch_switches, List.mem_append, List.mem_singleton] at hsw
  rcases hsw with hsw | rfl
  · exact h sw hsw
  · exact hp

theorem strict_of_rrCandidate (hr : All RecordOk s.procs) (hh : NoHigh s) (hm : NoMedium s)
    {p : Slot} (hp : RrCandidate s p) : (Switch.mk p s.procs).Strict := by
  intro q hq
  show (s.procs q).piority ≤ (s.procs p).piority
  rcases (hr q).piority with h | h | h
  · rw [h, hp.2]
  · exact absurd h (hm q hq)
  · exact absurd h (hh q hq)

theorem strict_of_medium (hr : All RecordOk s.procs) (hh : NoHigh s) {p : Slot}
    (hp : (s.procs p).piority = mediumPiority) : (Switch.mk p s.procs).Strict := by
  intro q hq
  show (s.procs q).piority ≤ (s.procs p).piority
  rw [hp]
  rcases (hr q).piority with h | h | h
  · rw [h]
    decide
  · rw [h]
  · exact absurd h (hh q hq)

theorem strict_of_high (hr : All RecordOk s.procs) {p : Slot}
    (hp : (s.procs p).piority = highPiority) : (Switch.mk p s.procs).Strict := by
  intro q _
  show (s.procs q).piority ≤ (s.procs p).piority
  rw [hp]
  rcases (hr q).piority with h | h | h <;> rw [h] <;> decide

/-! ## The levels of a pass -/

section

variable (hcfg : cfg.policy = .Q3)
include hcfg

/-- After a process of the RR level came back the flags are up to date. -/
theorem strict_rrBack {loop : State → State}
    (hloop : ∀ t, All RecordOk t.procs → NoHigh t → NoMedium t → StrictSoFar t →
      StrictSoFar (loop t))
    (hr : All RecordOk s.procs) (h : StrictSoFar s) : StrictSoFar (rrBack cfg c loop s) := by
  unfold rrBack
  rw [if_pos hcfg]
  dsimp only
  split
  · exact h
  · rename_i hflags
    simp only [not_or, Bool.not_eq_true] at hflags
    exact hloop _ hr (noHigh_of_check hflags.1) (noMedium_of_check hflags.2) h

theorem strict_rrLoop (ps : List Slot) (hr : All RecordOk s.procs) (hh : NoHigh s) (hm : NoMedium s)
    (h : StrictSoFar s) :
    StrictSoFar (rrLoop cfg c ps s) := by
  induction ps generalizing s with
  | nil => exact h
  | cons p ps ih =>
    unfold rrLoop
    split
    · rename_i hp
      have hd := h.dispatch (c := c) (strict_of_rrCandidate hr hh hm hp) (.rr p)
      have hrd := recordOk_dispatch (c := c) hr (.rr p) hp.1
      split
      · rename_i heq
        rwa [heq] at hd
      · rename_i heq
        rw [heq] at hd hrd
        exact strict_rrBack hcfg (fun t => ih) hrd hd
    · exact ih hr hh hm h

theorem strict_rrLevel (hr : All RecordOk s.procs)
    (hacc : s.grtExists = false → s.frrExists = false → NoHigh s ∧ NoMedium s) (h : StrictSoFar s) :
    StrictSoFar (rrLevel cfg c s) := by
  unfold rrLevel
  split
  · rename_i hrun
    obtain ⟨-, hg, hf⟩ := hrun.resolve_left (by simp [hcfg])
    obtain ⟨hh, hm⟩ := hacc hg hf
    exact strict_rrLoop hcfg _ hr hh hm h
  · exact h

/-- After a process of the FRR level came back the flags are up to date. -/
theorem strict_frrBack {loop : State → State}
    (hloop : ∀ t, All RecordOk t.procs → NoHigh t → (t.frrExists = false → NoMedium t) →
      StrictSoFar t → StrictSoFar (loop t))
    (hr : All RecordOk s.procs) (h : StrictSoFar s) : StrictSoFar (frrBack cfg c loop s) := by
  unfold frrBack
  rw [if_pos hcfg]
  dsimp only
  split
  · rename_i hg
    exact strict_rrLevel hcfg hr (fun hg' => by simp [hg] at hg') h
  · rename_i hg
    rw [Bool.not_eq_true] at hg
    exact hloop _ hr (noHigh_of_check hg) noMedium_of_check h

/-- The scan of the FRR level.  `frrExists` speaks for the slots already passed. -/
theorem strict_frrLoop (ps : List Slot) (hr : All RecordOk s.procs) (hh : NoHigh s)
    (hm : s.frrExists = false → ∀ q, q ∉ ps → (s.procs q).state = .runnable →
      (s.procs q).piority ≠ mediumPiority)
    (h : StrictSoFar s) : StrictSoFar (frrLoop cfg c ps s) := by
  induction ps generalizing s with
  | nil => exact strict_rrLevel hcfg hr (fun _ hf => ⟨hh, fun q => hm hf q List.not_mem_nil⟩) h
  | cons p ps ih =>
    unfold frrLoop
    split
    · rename_i hp
      dsimp only
      have hd := StrictSoFar.dispatch (c := c) (s := { s with frrExists := true }) h
        (strict_of_medium (s := { s with frrExists := true }) hr hh (hp.2 hcfg)) (.frr p)
      have hrd := recordOk_dispatch (c := c) (s := { s with frrExists := true }) hr (.frr p) hp.1
      split
      · rename_i heq
        rwa [heq] at hd
      · rename_i heq
        rw [heq] at hd hrd
        exact strict_frrBack hcfg (fun t hr hh hm => ih hr hh fun hf q _ => hm hf q) hrd hd
    · rename_i hp
      refine ih hr hh (fun hf q hq hs hpio => ?_) h
      by_cases hqp : q = p
      · subst hqp
        exact hp ⟨hs, fun _ => hpio⟩
      · exact hm hf q (by simp [hqp, hq]) hs hpio

theorem strict_frrLevel (hr : All RecordOk s.procs) (hacc : s.grtExists = false → NoHigh s)
    (h : StrictSoFar s) :
    StrictSoFar (frrLevel cfg c s) := by
  unfold frrLevel
  split
  · rename_i hrun
    obtain ⟨-, hg⟩ := hrun.resolve_left (by simp [hcfg])
    exact strict_frrLoop hcfg _ hr (hacc hg) (fun _ q hq => absurd (List.mem_finRange q) hq) h
  · rename_i hrun
    have hg : s.grtExists = true := by simpa [hcfg] using hrun
    exact strict_rrLevel hcfg hr (fun hg' => by simp [hg] at hg') h

/-- A pass from its top: the flags are up to date, and stay set while the GRT level's
process goes straight back to sleep. -/
theorem strict_pass (hr : All RecordOk s.procs) (h : StrictSoFar s) :
    StrictSoFar (pass cfg c s) := by
  unfold pass
  generalize hs₁ : checkForHigherPiority { s with grtExists := false, frrExists := false } = s₁
  have hr₁ : All RecordOk s₁.procs := by rw [← hs₁]; exact hr
  have h₁ : StrictSoFar s₁ := by rw [← hs₁]; exact h
  have hacc : s₁.grtExists = false → NoHigh s₁ := by
    rw [← hs₁]
    exact fun hg => noHigh_of_check hg
  unfold grtLevel
  rw [if_pos (.inr hcfg)]
  split
  · rename_i p hp
    have hcand := grtCandidate_of_bestIndex hp
    have hd := h₁.dispatch (c := c) (strict_of_high hr₁ (hcand.2 hcfg)) .grt
    have hrd := recordOk_dispatch (c := c) hr₁ .grt hcand.1
    have hflag := (dispatch_sameSched s₁ c .grt p).grtExists
    split
    · rename_i heq
      rwa [heq] at hd
    · rename_i heq
      rw [heq] at hd hrd hflag
      refine strict_frrLevel hcfg hrd (fun hg => ?_) hd
      exact absurd (hcand.2 hcfg) (hacc (hflag.symm.trans hg) p hcand.1)
  · exact strict_frrLevel hcfg hr₁ hacc h₁

end

/-! ## Coming back to the GRT level -/

theorem strict_of_not_stale (hcfg : cfg.policy = .Q3) (hr : All RecordOk s.procs)
    (hst : ¬ Stale s) (h : StrictSoFar s) : StrictSoFar (frrLevel cfg c s) := by
  by_cases hg : s.grtExists = false → NoHigh s
  · exact strict_frrLevel hcfg hr hg h
  · -- Both scans are without candidates, so the pass ends.
    obtain ⟨hg, hh⟩ := Classical.not_imp.mp hg
    have hhigh : ∃ q, (s.procs q).state = .runnable ∧ (s.procs q).piority = highPiority := by
      simpa [NoHigh] using hh
    have hlow : ¬ ((∃ q, (s.procs q).state = .runnable ∧ (s.procs q).piority = mediumPiority) ∨
        s.frrExists = false ∧ ∃ q, RrCandidate s q) := fun hl => hst ⟨hg, hhigh, hl⟩
    obtain ⟨hmed, hrr⟩ := not_or.mp hlow
    have hpass : frrLevel cfg c s = endPass s c := by
      unfold frrLevel
      rw [if_pos (.inr ⟨hcfg, hg⟩), frrLoop_of_none fun p _ hp => hmed ⟨p, hp.1, hp.2 hcfg⟩]
      unfold rrLevel
      split
      · rename_i hrun
        obtain ⟨-, -, hf⟩ := hrun.resolve_left (by simp [hcfg])
        exact rrLoop_of_none fun p _ hp => hrr ⟨hf, p, hp⟩
      · rfl
    rw [hpass]
    exact h

/-- Stale flags let a process of a lower queue run. -/
theorem not_strict_of_stale (hcfg : cfg.policy = .Q3) (hst : Stale s) :
    ¬ StrictSoFar (frrLevel cfg c s) := by
  obtain ⟨hg, ⟨q, hq, hhigh⟩, hlow⟩ := hst
  have hbad : ∀ p, (s.procs p).piority < highPiority →
      s.switches ++ [⟨p, s.procs⟩] <+: (frrLevel cfg c s).switches →
        ¬ StrictSoFar (frrLevel cfg c s) := by
    intro p hp hsw hs
    have hmem : ⟨p, s.procs⟩ ∈ (frrLevel cfg c s).switches := hsw.subset (by simp)
    have := hs _ hmem q hq
    rw [hhigh] at this
    exact absurd hp (not_lt.mpr this)
  have hfrr : frrLevel cfg c s = frrLoop cfg c (List.finRange NPROC) s := by
    rw [frrLevel, if_pos (.inr ⟨hcfg, hg⟩)]
  by_cases hmed : ∃ p, FrrCandidate cfg s p
  · obtain ⟨p₀, hp₀⟩ := hmed
    obtain ⟨p, hp, hsw⟩ := frrLoop_switches (c := c) (List.mem_finRange p₀) hp₀
    refine hbad p ?_ (hfrr ▸ hsw)
    rw [hp.2 hcfg]
    decide
  · have hnomed : ¬ ∃ p, (s.procs p).state = .runnable ∧ (s.procs p).piority = mediumPiority :=
      fun ⟨p, hp, hpio⟩ => hmed ⟨p, hp, fun _ => hpio⟩
    obtain ⟨hf, p₀, hp₀⟩ := hlow.resolve_left hnomed
    have hrr : frrLevel cfg c s = rrLoop cfg c (List.finRange NPROC) s := by
      rw [hfrr, frrLoop_of_none fun p _ hp => hmed ⟨p, hp⟩, rrLevel,
        if_pos (.inr ⟨hcfg, hg, hf⟩)]
    obtain ⟨p, hp, hsw⟩ : ∃ p, RrCandidate s p ∧
        s.switches ++ [⟨p, s.procs⟩] <+: (frrLevel cfg c s).switches :=
      hrr ▸ rrLoop_switches (List.mem_finRange p₀) hp₀
    refine hbad p ?_ hsw
    rw [hp.2]
    decide

/-! ## Steps and runs -/

/-- **One step** keeps the history strict exactly when it does not bring a process of
the GRT level back to stale flags. -/
theorem strict_step_iff (hcfg : cfg.policy = .Q3) (hr : All RecordOk s.procs)
    (h : StrictSoFar s) (hs : step cfg s a = some t) :
    StrictSoFar t ↔ NoStaleReturn cfg s a := by
  obtain ⟨⟨c, o⟩, hent, rfl⟩ := Option.map_eq_some_iff.mp hs
  have hro : o.All RecordOk := entry_forall (fun _ _ he hp => recordOk_edit hr he hp) hr hent
  by_cases hsched : ∃ c, a = .schedule c
  · obtain ⟨c', rfl⟩ := hsched
    have heq := of_guard hent
    obtain ⟨rfl, rfl⟩ := Prod.mk.inj (Option.some.inj heq)
    exact iff_of_true (strict_pass hcfg hr h) (by simp [NoStaleReturn, grtReturn, hent])
  · have hsw := (entry_sameSched (fun c hc => hsched ⟨c, hc⟩) hent).switches
    have hso : StrictSoFar o.state := by
      intro sw hmem
      rw [hsw] at hmem
      exact h sw hmem
    cases o with
    | released u => exact iff_of_true hso (by simp [NoStaleReturn, grtReturn, hent])
    | sched u =>
      have hiff : NoStaleReturn cfg s a ↔ ((u.cpus c).pc = .grt → ¬ Stale u) := by
        by_cases hpc : (u.cpus c).pc = .grt <;> simp [NoStaleReturn, grtReturn, hent, hpc]
      rw [hiff]
      show StrictSoFar (resume cfg c u) ↔ _
      unfold resume
      split <;> rename_i hpc
      · exact iff_of_true hso (by simp [hpc])
      · constructor
        · exact fun hstrict _ hst => not_strict_of_stale hcfg hst hstrict
        · exact fun hn => strict_of_not_stale hcfg hro (hn hpc) hso
      · refine iff_of_true (strict_frrBack hcfg (fun v hr hh hm => ?_) hro hso) (by simp [hpc])
        exact strict_frrLoop hcfg _ hr hh fun hf q _ => hm hf q
      · exact iff_of_true (strict_rrBack hcfg (fun v => strict_rrLoop hcfg _) hro hso)
          (by simp [hpc])

/-- CPU 0 switches to init, which lowers its own priority; a pass of CPU 1 then clears
`GRTExists`.  Init forks a child, of the highest priority, and uses up its quantum. -/
def staleRun : List Action :=
  [.schedule 0, .nice 0, .schedule 1, .fork 0, .forkDone 0] ++ List.replicate 6 (.yield 0)

end Xv6.Ptable
