import Xv6.Ptable.Family

/-!
# Reaping

What families say about runs: pids do not wrap around in fewer than 2^31 forks, so the
invariant of `Family` holds throughout, and a zombie is taken away only by the `wait` that
returns it.

## Main definitions

* `ZombiesKept s u` — who was a zombie in `s` still is one in `u`, or was returned since.
* `Reaps s` — what an observer can say of every state.

## Main results

* `zombiesKept_step` — a step takes a zombie away only by returning it.
* `reaping` — runs of fewer than 2^31 forks.
-/

namespace Xv6.Ptable

open Machine

variable {cfg : Config} {c : Cid} {s s' : State} {p : Slot} {a : Action}

/-! ## Zombies -/

/-- Who was a zombie in `s` still is one in `u`, or has been returned by a `wait` since. -/
def ZombiesKept (s u : State) : Prop :=
  ∀ i, (s.procs i).state = .zombie →
    (u.procs i).state = .zombie ∧ (u.procs i).pid = (s.procs i).pid ∨
    ∃ p, .reaped p (s.procs i).pid ∈ u.events ∧ .reaped p (s.procs i).pid ∉ s.events

theorem ZombiesKept.refl (s : State) : ZombiesKept s s := fun _ hz => .inl ⟨hz, rfl⟩

theorem ZombiesKept.frame {u u' : State} (h : ZombiesKept s u)
    (hz : ∀ i, (u.procs i).state = .zombie →
      (u'.procs i).state = .zombie ∧ (u'.procs i).pid = (u.procs i).pid)
    (he : ∀ e ∈ u.events, e ∈ u'.events) : ZombiesKept s u' := by
  intro i hi
  rcases h i hi with ⟨hzi, hpid⟩ | ⟨p, hp, hnew⟩
  · obtain ⟨hzi', hpid'⟩ := hz i hzi
    exact .inl ⟨hzi', hpid'.trans hpid⟩
  · exact .inr ⟨p, he _ hp, hnew⟩

/-- A change of one process that is no zombie. -/
theorem ZombiesKept.update {u u' : State} (h : ZombiesKept s u) {q : Proc}
    (hprocs : u'.procs = Function.update u.procs p q) (hp : (u.procs p).state ≠ .zombie)
    (he : ∀ e ∈ u.events, e ∈ u'.events) : ZombiesKept s u' := by
  refine h.frame (fun i hi => ?_) he
  have hip : i ≠ p := by
    rintro rfl
    exact hp hi
  rw [hprocs, Function.update_of_ne hip]
  exact ⟨hi, rfl⟩

theorem ZombiesKept.roused {u u' : State} (h : ZombiesKept s u)
    (hw : ∀ i, (u.procs i).state = .zombie → Roused (u.procs i) (u'.procs i))
    (he : ∀ e ∈ u.events, e ∈ u'.events) : ZombiesKept s u' :=
  h.frame (fun i hi => ⟨((hw i hi).state_iff (by simp) (by simp)).mpr hi, (hw i hi).pid⟩) he

/-- `wait` takes a zombie away only by returning it. -/
theorem ZombiesKept.wait {u : State} (hs : Family s) (h : ZombiesKept s u) {cur : Slot}
    (hrun : (u.procs cur).state = .running) : ZombiesKept s (wait u cur).state := by
  have hcur : (u.procs cur).state ≠ .zombie := by simp [hrun]
  unfold Ptable.wait
  split
  · rename_i j hj
    intro i hi
    have hiold : ∀ p, .reaped p (s.procs i).pid ∉ s.events := fun p hp =>
      (hs.reaped p _ hp).2 i (by simp [hi]) rfl
    rcases h i hi with ⟨hzi, hpid⟩ | ⟨p, hp, hnew⟩
    · by_cases hij : i = j
      · subst hij
        refine .inr ⟨(u.procs cur).pid, ?_, hiold _⟩
        rw [← hpid]
        exact List.mem_cons_self
      · have hic : i ≠ cur := by
          rintro rfl
          exact hcur hzi
        left
        dsimp only [Outcome.state]
        rw [setProc_of_ne _ _ hic, setProc_of_ne _ _ hij]
        exact ⟨hzi, hpid⟩
    · exact .inr ⟨p, List.mem_cons_of_mem _ hp, hnew⟩
  · exact h.update (p := cur) rfl hcur fun _ => id
  · have h₁ : ZombiesKept s (Ptable.sleep u cur (.proc cur)) :=
      h.update (p := cur) rfl hcur fun _ => id
    refine h₁.update (p := cur) rfl ?_ fun _ => id
    simp [Ptable.sleep, State.setProc]

theorem zombiesKept_passRule (hs : Family s) (c : Cid) :
    PassRule c (ZombiesKept s) (ZombiesKept s) where
  flags _ _ _ h := h
  dispatch u pc p h _ hp := by
    have h₁ : ZombiesKept s (Ptable.switchTo u c pc p) :=
      h.update (p := p) rfl (by simp [hp]) fun _ => id
    unfold dispatch
    dsimp only
    split
    · exact Outcome.ends_state (h₁.wait hs (by simp [Ptable.switchTo, State.setProc]))
    · exact h₁
  endPass _ h := h

theorem zombiesKept_entry (h : Family s) (hone : OneCpu s) (hcfg : cfg.policy = .Q3)
    (hne : ∀ c, a ≠ .schedule c) {o : Outcome} (hent : entry cfg s a = some (c, o)) :
    ZombiesKept s o.state := by
  have h0 := ZombiesKept.refl s
  have hrunning : ∀ {c cur}, (s.cpus c).proc = some cur → (s.procs cur).state ≠ .zombie := by
    intro c cur hon
    simp [hone.state_eq hon]
  cases entry_cases hent with
  | schedule c _ => exact absurd rfl (hne c)
  | fork c cur hcur =>
    show ZombiesKept s (fork cfg s cur)
    unfold fork
    split
    · exact h0
    · rename_i q hq
      have hfree : (s.procs q).state = .unused := by simpa using List.find?_some hq
      have hcq : cur ≠ q := by
        rintro rfl
        rw [hone.state_eq (caller_eq_some.mp hcur).1] at hfree
        cases hfree
      rw [allocproc_q3 hcfg]
      have h₁ : ZombiesKept s { s.setProc q (newProc s (s.procs q)) with
          nextpid := int32 (s.nextpid + 1) } :=
        h0.update (p := q) rfl (by simp [hfree]) fun _ => id
      refine h₁.update (p := cur) rfl ?_ fun _ => id
      dsimp only
      rw [setProc_of_ne s _ hcq]
      exact hrunning (caller_eq_some.mp hcur).1
  | forkFail c cur q hf =>
    obtain ⟨hon, hq⟩ := forking_eq_some.mp hf
    have hemb := hone.embryo hq
    have h₁ : ZombiesKept s (s.setProc q { s.procs q with state := .unused }) :=
      h0.update (p := q) rfl (by simp [hemb]) fun _ => id
    refine h₁.update (p := cur) rfl ?_ fun _ => id
    rw [setProc_of_ne s _ (hone.forking_ne hf)]
    exact hrunning hon
  | forkDone c cur q hf =>
    obtain ⟨hon, hq⟩ := forking_eq_some.mp hf
    have hemb := hone.embryo hq
    have h₁ : ZombiesKept s (s.setProc q { s.procs q with
        parent := some cur, state := .runnable, np := none, inWait := false }) :=
      h0.update (p := q) rfl (by simp [hemb]) fun _ => id
    refine h₁.update (p := cur) rfl ?_ fun _ he => List.mem_cons_of_mem _ he
    rw [setProc_of_ne s _ (hone.forking_ne hf)]
    exact hrunning hon
  | exit c cur par hcur _ _ =>
    refine h0.roused (fun i hi => exit_roused s par ?_) fun _ he => List.mem_cons_of_mem _ he
    rintro rfl
    exact hrunning (caller_eq_some.mp hcur).1 hi
  | wait c cur hcur => exact h0.wait h (hone.state_eq (caller_eq_some.mp hcur).1)
  | sleep c addr cur hcur =>
    exact h0.update (p := cur) rfl (hrunning (caller_eq_some.mp hcur).1) fun _ => id
  | yield c cur hcur =>
    unfold yield
    split
    · exact h0
    split
    · exact h0
    split <;> exact h0.update (p := cur) rfl (hrunning hcur) fun _ => id
  | nice c cur hcur =>
    show ZombiesKept s (nice s cur)
    unfold nice
    split
    · exact h0.update (p := cur) rfl (hrunning (caller_eq_some.mp hcur).1) fun _ => id
    · exact h0
  | kill c pid cur _ =>
    exact h0.roused (fun i _ => (kill_woken s.procs pid i).toRoused) fun _ => id
  | wakeup addr => exact h0.roused (fun i _ => (wakeup1_woken s.procs _ i).toRoused) fun _ => id
  | tick =>
    refine h0.roused (fun i _ => (tick_woken s i).toRoused) fun _ he => ?_
    exact (tick_frame s).2.2.2.symm ▸ he

/-- **One step** takes a zombie away only by returning it from `wait`. -/
theorem zombiesKept_step (h : Family s) (hone : OneCpu s) (hcfg : cfg.policy = .Q3)
    (hs : step cfg s a = some s') : ZombiesKept s s' :=
  hone.step_rule (zombiesKept_passRule h) (fun _ _ => ZombiesKept.refl s)
    (fun hne _ _ hent => Outcome.ends_state (zombiesKept_entry h hone hcfg hne hent)) hs

/-! ## Runs -/

/-- The action is a `fork`. -/
def Action.isFork : Action → Bool
  | .fork _ => true
  | _ => false

theorem nextpid_passRule (c : Cid) (n : ℤ) :
    PassRule c (fun u => u.nextpid = n) (fun u => u.nextpid = n) where
  flags _ _ _ h := h
  dispatch u pc p h _ _ := by
    refine Outcome.ends_state (I := fun u => u.nextpid = n) ?_
    unfold dispatch wait
    dsimp only
    split
    · split <;> exact h
    · exact h
  endPass _ h := h

theorem uint32_int32_succ_le (n : ℤ) : uint32 (int32 (n + 1)) ≤ uint32 n + 1 := by
  have hmod : int32 (n + 1) % 0x100000000 = (n + 1) % 0x100000000 := Int.bmod_emod
  unfold uint32
  rw [hmod]
  omega

/-- Every `fork` uses at most one pid, and nothing else does. -/
theorem step_nextpid (hcfg : cfg.policy = .Q3) (hs : step cfg s a = some s') :
    uint32 s'.nextpid ≤ uint32 s.nextpid + if a.isFork then 1 else 0 := by
  obtain ⟨⟨c, o⟩, hent, rfl⟩ := Option.map_eq_some_iff.mp hs
  have hfin : (finish cfg c o).nextpid = o.state.nextpid :=
    (nextpid_passRule c o.state.nextpid).finish
      (Outcome.ends_state (I := fun u => u.nextpid = o.state.nextpid) rfl)
      (fun t ho _ => by subst ho; rfl)
  have hsame : o.state.nextpid = s.nextpid ∨
      a.isFork = true ∧ o.state.nextpid = int32 (s.nextpid + 1) := by
    cases entry_cases hent with
    | schedule c _ => exact .inl ((nextpid_passRule c s.nextpid).pass rfl)
    | fork c cur _ =>
      show (fork cfg s cur).nextpid = s.nextpid ∨ _ ∧ (fork cfg s cur).nextpid = _
      unfold fork
      split
      · exact .inl rfl
      · rw [allocproc_q3 hcfg]
        exact .inr ⟨rfl, rfl⟩
    | wait c cur _ =>
      left
      unfold wait
      split <;> rfl
    | yield c cur _ =>
      left
      unfold yield
      split
      · rfl
      split
      · rfl
      split <;> rfl
    | nice c cur _ => exact .inl (nice_frame s cur).2.2.1
    | tick => exact .inl (tick_frame s).2.2.1
    | _ => exact .inl rfl
  rw [hfin]
  rcases hsame with heq | ⟨hf, heq⟩
  · rw [heq]
    exact Nat.le_add_right _ _
  · rw [heq, if_pos hf]
    exact uint32_int32_succ_le _

/-- What the invariant says to an observer: histories are lawful, every process that was
started has a parent that is alive, and nobody sleeps in `wait` beside a zombie child. -/
structure Reaps (s : State) : Prop where
  lawful : Lawful s.events
  parent : ∀ p, p ≠ s.initproc → (s.procs p).Started →
    ∃ q, (s.procs p).parent = some q ∧ (s.procs q).state ≠ .unused ∧ (s.procs q).state ≠ .zombie
  asleep : ∀ p i, (s.procs p).SleepsOn (.proc p) → (s.procs i).parent = some p →
    (s.procs i).state ≠ .zombie

theorem Family.reaps (h : Family s) : Reaps s := by
  refine ⟨h.lawful, fun p hp hst => ?_, h.asleep⟩
  obtain ⟨q, hq, -, hal, -⟩ := h.parent p hp hst
  exact ⟨q, hq, hal.1.1, hal.2⟩

/-- **Reaping.**  With `policyChooser == Q3`, in every run with fewer than 2^31 forks and
whenever the lock is free: every child that `wait` returned was returned once, to the
process that forked it or, after that one exited, to init; every started process but
init has a parent that is neither free nor a zombie; nobody sleeps in `wait` while it has a
zombie child.  And every step leaves a zombie a zombie, or a `wait` returns it. -/
theorem reaping (cfg : Config) (hcfg : cfg.policy = .Q3) (xs : List Action)
    (hforks : xs.countP Action.isFork < 0x80000000) :
    Throughout (step cfg) Reaps (boot cfg) xs ∧
    Along (step cfg) (fun s a => ∀ s' ∈ step cfg s a, ZombiesKept s s') (boot cfg) xs := by
  have hcount : Along (step cfg) (fun s a => a.isFork = true → uint32 s.nextpid < 0x80000001)
      (boot cfg) xs := by
    refine along_of_countP (fun s a s' hs => step_nextpid hcfg hs) ?_
    have h0 : uint32 (boot cfg).nextpid = 2 := by
      rw [boot, allocproc_q3 hcfg]
      rfl
    omega
  have hinv : ∀ s a s', OneCpu s ∧ Family s → (a.isFork = true → uint32 s.nextpid < 0x80000001) →
      step cfg s a = some s' → OneCpu s' ∧ Family s' := by
    intro s a s' h hP hs
    refine ⟨h.1.step hs, h.2.step h.1 hcfg (fun c ha => ?_) hs⟩
    have := hP (by rw [ha]; rfl)
    omega
  have hboot : OneCpu (boot cfg) ∧ Family (boot cfg) := ⟨oneCpu_boot cfg, family_boot hcfg⟩
  constructor
  · exact (throughout_invariant hinv hboot hcount).mono fun s h => h.2.reaps
  · exact hcount.of_invariant hinv (fun s a h _ s' hs => zombiesKept_step h.2 h.1 hcfg hs) hboot

/-- Init forks a child and waits; the child runs and exits. -/
def waitRun : List Action :=
  [.schedule 0, .fork 0, .forkDone 0, .wait 0, .schedule 0, .exit 0, .schedule 0]

theorem reaping_child :
    (∃ s, exec (step q3) (boot q3) waitRun = some s ∧
      s.events = [.reaped 1 2, .exited 2, .forked 1 2]) ∧
    Throughout (step q3) Reaps (boot q3) waitRun ∧
    Along (step q3) (fun s a => ∀ s' ∈ step q3 s a, ZombiesKept s s') (boot q3) waitRun := by
  refine ⟨?_, reaping q3 rfl waitRun (by decide)⟩
  have h : (exec (step q3) (boot q3) waitRun).any (fun s =>
      s.events = [.reaped 1 2, .exited 2, .forked 1 2]) = true := by
    decide +kernel
  obtain ⟨s, hs, h⟩ := (Option.any_eq_true _ _).mp h
  exact ⟨s, hs, of_decide_eq_true h⟩

end Xv6.Ptable
