import Xv6.Ptable.Table
import Xv6.Lib.Exchange

/-!
# What the sections leave of a process

Most sections of `proc.c` leave nearly all processes as they are: they wake some up, pass
some to init, and count times.  `Roused` says that of one process, `Woken` also that its
parent stays; the lemmas below say it of the sections.  The invariants of the table that
are about several processes at once are proved from these lemmas and not from the code.

## Main definitions

* `Roused p p'`, `Woken p p'` — `p'` is what is left of `p`.

## Main results

* `wakeup1_woken`, `kill_woken`, `tick_woken`, `nice_woken` — the sections that do no more.
* `abandon_roused`, `abandon_parent`, `abandon_wakes` — the loop of `exit`.
-/

namespace Xv6.Ptable

open Function

/-- `p'` is `p`, perhaps woken up, with another parent, times or child records. -/
structure Roused (p p' : Proc) : Prop where
  state : p'.state = p.state ∨ p.state = .sleeping ∧ p'.state = .runnable
  pid : p'.pid = p.pid
  chan : p'.chan = p.chan
  processCounter : p'.processCounter = p.processCounter
  np : p'.np = p.np

/-- `p'` is `p` with the same parent, perhaps woken up. -/
structure Woken (p p' : Proc) : Prop extends Roused p p' where
  parent : p'.parent = p.parent

/-- `p` is asleep on the channel. -/
def Proc.SleepsOn (p : Proc) (chan : Chan) : Prop := p.state = .sleeping ∧ p.chan = some chan

section Roused

variable {p p' p'' : Proc}

theorem Roused.refl (p : Proc) : Roused p p := ⟨.inl rfl, rfl, rfl, rfl, rfl⟩

theorem Woken.refl (p : Proc) : Woken p p := ⟨Roused.refl p, rfl⟩

theorem Roused.trans (h : Roused p p') (h' : Roused p' p'') : Roused p p'' where
  state := by
    rcases h'.state with heq | ⟨hs, hr⟩
    · rw [heq]
      exact h.state
    · rcases h.state with heq' | ⟨-, hr'⟩
      · exact .inr ⟨heq' ▸ hs, hr⟩
      · rw [hr'] at hs
        cases hs
  pid := h'.pid.trans h.pid
  chan := h'.chan.trans h.chan
  processCounter := h'.processCounter.trans h.processCounter
  np := h'.np.trans h.np

theorem Woken.trans (h : Woken p p') (h' : Woken p' p'') : Woken p p'' :=
  ⟨h.toRoused.trans h'.toRoused, h'.parent.trans h.parent⟩

theorem woken_inWait (p : Proc) (b : Bool) : Woken p { p with inWait := b } :=
  ⟨⟨.inl rfl, rfl, rfl, rfl, rfl⟩, rfl⟩

theorem SameControl.woken (h : SameControl p p') : Woken p p' :=
  ⟨⟨.inl h.state, h.pid, h.chan, h.processCounter, h.np⟩, h.parent⟩

/-- Only a sleeping process changes its state. -/
theorem Roused.state_eq (h : Roused p p') (hp : p.state ≠ .sleeping) : p'.state = p.state :=
  h.state.resolve_right fun hs => hp hs.1

/-- A state other than the two of waking is reached only by staying in it. -/
theorem Roused.state_iff (h : Roused p p') {st : ProcState} (hs : st ≠ .sleeping)
    (hr : st ≠ .runnable) : p'.state = st ↔ p.state = st := by
  rcases h.state with heq | ⟨hp, hp'⟩
  · rw [heq]
  · rw [hp, hp']
    exact iff_of_false (Ne.symm hr) (Ne.symm hs)

/-- A process that sleeps afterwards slept before, on the same channel. -/
theorem Roused.sleepsOn (h : Roused p p') {chan : Chan} (hp : p'.SleepsOn chan) :
    p.SleepsOn chan := by
  refine ⟨?_, h.chan ▸ hp.2⟩
  rcases h.state with heq | ⟨hs, -⟩
  · exact heq ▸ hp.1
  · exact hs

end Roused

variable {procs : Slot → Proc} {cfg : Config} {s : State}

theorem woken_update {i : Slot} {p : Proc} (h : Woken (procs i) p) (j : Slot) :
    Woken (procs j) (update procs i p j) := by
  by_cases hj : j = i
  · subst hj
    rw [update_self]
    exact h
  · rw [update_of_ne hj]
    exact Woken.refl _

/-! ## `wakeup`, `kill`, the timer and `nice` -/

theorem wakeup1_woken (procs : Slot → Proc) (chan : Chan) (i : Slot) :
    Woken (procs i) (wakeup1 procs chan i) := by
  unfold wakeup1
  split
  · rename_i hi
    exact ⟨⟨.inr ⟨hi.1, rfl⟩, rfl, rfl, rfl, rfl⟩, rfl⟩
  · exact Woken.refl _

/-- Nobody sleeps on the channel any more. -/
theorem wakeup1_wakes (procs : Slot → Proc) (chan : Chan) (i : Slot) :
    ¬ (wakeup1 procs chan i).SleepsOn chan := by
  unfold wakeup1
  split
  · exact fun h => by cases h.1
  · assumption

/-- Only a process that slept on the channel is woken. -/
theorem wakeup1_runnable {chan : Chan} {i : Slot} (h : (wakeup1 procs chan i).state = .runnable) :
    (procs i).state = .runnable ∨ (procs i).SleepsOn chan := by
  unfold wakeup1 at h
  split at h
  · rename_i hs
    exact .inr hs
  · exact .inl h

theorem kill_woken (procs : Slot → Proc) (pid : ℤ) (i : Slot) :
    Woken (procs i) ((kill procs pid).1 i) := by
  unfold kill
  split
  · exact Woken.refl _
  · dsimp only
    refine woken_update ?_ i
    refine ⟨⟨?_, rfl, rfl, rfl, rfl⟩, rfl⟩
    dsimp only
    split
    · rename_i hs
      exact .inr ⟨hs, rfl⟩
    · exact .inl rfl

theorem tick_woken (s : State) (i : Slot) : Woken (s.procs i) ((tick s).procs i) := by
  unfold tick
  refine Woken.trans ?_ (wakeup1_woken _ ticksChan i)
  dsimp only
  split
  · split
    · exact woken_update (SameControl.woken (by constructor <;> rfl)) i
    · exact Woken.refl _
  · exact Woken.refl _

/-- The timer touches `ticks` and the table only. -/
theorem tick_frame (s : State) : (tick s).cpus = s.cpus ∧ (tick s).initproc = s.initproc ∧
    (tick s).nextpid = s.nextpid ∧ (tick s).events = s.events := by
  unfold tick
  dsimp only
  split
  · split <;> exact ⟨rfl, rfl, rfl, rfl⟩
  · exact ⟨rfl, rfl, rfl, rfl⟩

/-- `nice` touches the table only. -/
theorem nice_frame (s : State) (cur : Slot) : (nice s cur).cpus = s.cpus ∧
    (nice s cur).initproc = s.initproc ∧ (nice s cur).nextpid = s.nextpid ∧
    (nice s cur).events = s.events := by
  unfold nice
  split <;> exact ⟨rfl, rfl, rfl, rfl⟩

theorem nice_woken (s : State) (cur i : Slot) : Woken (s.procs i) ((nice s cur).procs i) := by
  unfold nice
  split
  · exact woken_update (SameControl.woken (by constructor <;> rfl)) i
  · exact Woken.refl _

/-! ## `allocproc` under Q3 -/

/-- The slot `allocproc` hands out under Q3. -/
def newProc (s : State) (p : Proc) : Proc :=
  { p with
    state := .embryo
    pid := s.nextpid
    rtime := 0
    ctime := s.ticks
    allChildSize := 0
    exits := 0
    piority := highPiority }

theorem allocproc_q3 (hcfg : cfg.policy = .Q3) (s : State) (p : Slot) : allocproc cfg s p =
    { s.setProc p (newProc s (s.procs p)) with nextpid := int32 (s.nextpid + 1) } := by
  simp [allocproc, hcfg, State.setProc, newProc]

/-! ## Fields that a section does not touch -/

section Proj

variable {α : Type*} (f : Proc → α)

theorem fork_proj (hcfg : cfg.policy = .Q3) (hnew : ∀ q, f (newProc s q) = f q)
    (hnp : ∀ (q : Proc) o, f { q with np := o } = f q) (cur i : Slot) :
    f ((fork cfg s cur).procs i) = f (s.procs i) := by
  unfold fork
  split
  · rfl
  · rw [allocproc_q3 hcfg]
    refine Eq.trans (setProc_proj f _ cur _ ?_ i) (setProc_proj f s _ _ ?_ i)
    · exact hnp _ _
    · exact hnew _

theorem forkFail_proj (hst : ∀ q : Proc, f { q with state := .unused } = f q)
    (hnp : ∀ (q : Proc) o, f { q with np := o } = f q) (s : State) (cur np i : Slot) :
    f ((forkFail s cur np).procs i) = f (s.procs i) := by
  refine Eq.trans (setProc_proj f _ cur _ ?_ i) (setProc_proj f s _ _ ?_ i)
  · exact hnp _ _
  · exact hst _

theorem forkDone_proj (hst : ∀ (q : Proc) cur, f { q with
      parent := some cur, state := .runnable, np := none, inWait := false } = f q)
    (hnp : ∀ (q : Proc) o, f { q with np := o } = f q) (s : State) (cur np i : Slot) :
    f ((forkDone s cur np).procs i) = f (s.procs i) := by
  refine Eq.trans (setProc_proj f _ cur _ ?_ i) (setProc_proj f s _ _ ?_ i)
  · exact hnp _ _
  · exact hst _ _

theorem sleep_proj
    (hst : ∀ (q : Proc) chan, f { q with chan := some chan, state := .sleeping } = f q) (s : State)
    (cur : Slot) (chan : Chan) (i : Slot) :
    f ((sleep s cur chan).procs i) = f (s.procs i) := by
  refine setProc_proj f s cur _ ?_ i
  exact hst _ _

theorem wait_proj (hreap : ∀ q : Proc,
      f { q with pid := 0, parent := none, killed := false, state := .unused } = f q)
    (hst : ∀ (q : Proc) chan, f { q with chan := some chan, state := .sleeping } = f q)
    (hin : ∀ (q : Proc) b, f { q with inWait := b } = f q) (s : State) (p i : Slot) :
    f ((wait s p).state.procs i) = f (s.procs i) := by
  unfold wait
  split
  · refine Eq.trans (setProc_proj f _ p _ ?_ i) (setProc_proj f s _ _ ?_ i)
    · exact hin _ _
    · exact hreap _
  · refine setProc_proj f s p _ ?_ i
    exact hin _ _
  · refine Eq.trans (setProc_proj f _ p _ ?_ i) (setProc_proj f s p _ ?_ i)
    · exact hin _ _
    · exact hst _ _

theorem update_proj (procs : Slot → Proc) {i : Slot} {p : Proc} (h : f p = f (procs i)) (j : Slot) :
    f (update procs i p j) = f (procs j) := by
  by_cases hj : j = i
  · rw [hj, update_self, h]
  · rw [update_of_ne hj]

theorem wakeup1_proj (hst : ∀ q : Proc, f { q with state := .runnable } = f q)
    (procs : Slot → Proc) (chan : Chan) (i : Slot) :
    f (wakeup1 procs chan i) = f (procs i) := by
  unfold wakeup1
  split
  · apply hst
  · rfl

theorem kill_proj (hk : ∀ (q : Proc) st, f { q with killed := true, state := st } = f q)
    (procs : Slot → Proc) (pid : ℤ) (i : Slot) : f ((kill procs pid).1 i) = f (procs i) := by
  unfold kill
  split
  · rfl
  · refine update_proj f procs ?_ i
    apply hk

section

variable (hst : ∀ q : Proc, f { q with state := .runnable } = f q)
include hst

theorem tick_proj (hrt : ∀ (q : Proc) n, f { q with rtime := n } = f q) (s : State) (i : Slot) :
    f ((tick s).procs i) = f (s.procs i) := by
  unfold tick
  dsimp only
  rw [wakeup1_proj f hst]
  split
  · split
    · refine setProc_proj f { s with ticks := _ } _ _ ?_ i
      apply hrt
    · rfl
  · rfl

theorem abandon_proj (hpar : ∀ (q : Proc) o, f { q with parent := o } = f q) (cur init : Slot)
    (procs : Slot → Proc) (i : Slot) : f (abandon cur init procs i) = f (procs i) := by
  have hround : ∀ (procs : Slot → Proc) j, f (reparent cur init procs j i) = f (procs i) := by
    intro procs j
    unfold reparent
    split
    · have hu := update_proj f procs (hpar (procs j) (some init)) i
      dsimp only
      split
      · rw [wakeup1_proj f hst, hu]
      · exact hu
    · rfl
  unfold abandon
  induction List.finRange NPROC generalizing procs with
  | nil => rfl
  | cons j l ih => rw [List.foldl_cons, ih, hround]

/-- A field that `exit` touches in neither process. -/
theorem exit_proj (hpar : ∀ (q : Proc) o, f { q with parent := o } = f q)
    (hz : ∀ (q : Proc) n, f { q with state := .zombie, etime := n } = f q) {cur par : Slot}
    (hrec : f (recordChild (s.procs par) (s.procs cur) s.ticks) = f (s.procs par)) (i : Slot) :
    f ((exit s cur par).procs i) = f (s.procs i) := by
  refine Eq.trans (setProc_proj f _ cur _ ?_ i) ?_
  · apply hz
  · dsimp only
    rw [abandon_proj f hst hpar, wakeup1_proj f hst, update_proj f _ hrec]

end

end Proj

theorem waitScan_reaped {procs : Slot → Proc} {cur i : Slot} (h : waitScan procs cur = .reaped i) :
    (procs i).parent = some cur ∧ (procs i).state = .zombie := by
  unfold waitScan at h
  split at h
  · rename_i j hj
    obtain rfl : j = i := by simpa using h
    simpa using List.find?_some hj
  · split at h <;> cases h

/-- `wait` leaves the other processes as they are, but for a zombie that it reaps. -/
theorem wait_of_ne {p i : Slot} (hi : i ≠ p) : (wait s p).state.procs i = s.procs i ∨
    (s.procs i).state = .zombie ∧ ((wait s p).state.procs i).state = .unused := by
  unfold wait
  split
  · rename_i j hj
    dsimp only [Outcome.state]
    rw [setProc_of_ne _ _ hi]
    by_cases hij : i = j
    · subst hij
      rw [setProc_self]
      exact .inr ⟨(waitScan_reaped hj).2, rfl⟩
    · exact .inl (setProc_of_ne _ _ hij)
  · exact .inl (setProc_of_ne _ _ hi)
  · dsimp only [Outcome.state]
    rw [setProc_of_ne _ _ hi]
    exact .inl (setProc_of_ne _ _ hi)

/-! ## The loop of `exit` -/

section Abandon

variable {cur init : Slot}

/-- One round passes on at most one child and wakes at most init. -/
theorem reparent_roused (i j : Slot) :
    Roused (procs j) (reparent cur init procs i j) := by
  unfold reparent
  split
  · have hu : Roused (procs j)
        (update procs i { procs i with parent := some init } j) := by
      by_cases hj : j = i
      · subst hj
        rw [update_self]
        exact ⟨.inl rfl, rfl, rfl, rfl, rfl⟩
      · rw [update_of_ne hj]
        exact Roused.refl _
    dsimp only
    split
    · exact hu.trans (wakeup1_woken _ _ j).toRoused
    · exact hu
  · exact Roused.refl _

theorem reparent_parent (i j : Slot) : (reparent cur init procs i j).parent =
    if j = i ∧ (procs j).parent = some cur then some init else (procs j).parent := by
  unfold reparent
  split
  · rename_i hi
    have hu : (update procs i { procs i with parent := some init } j).parent =
        if j = i ∧ (procs j).parent = some cur then some init else (procs j).parent := by
      by_cases hj : j = i
      · subst hj
        rw [update_self, if_pos ⟨rfl, hi⟩]
      · rw [update_of_ne hj, if_neg fun h => hj h.1]
    dsimp only
    split
    · rw [(wakeup1_woken _ _ j).parent, hu]
    · exact hu
  · rename_i hi
    refine (if_neg ?_).symm
    rintro ⟨rfl, h⟩
    exact hi h

theorem reparent_runnable {i j : Slot} (h : (reparent cur init procs i j).state = .runnable) :
    (procs j).state = .runnable ∨ (procs j).SleepsOn (.proc init) ∧
      (procs i).parent = some cur ∧ (procs i).state = .zombie := by
  unfold reparent at h
  split at h
  · rename_i hi
    obtain ⟨p', hp', hs, hc⟩ : ∃ p', { procs i with parent := some init } = p' ∧
        p'.state = (procs i).state ∧ p'.chan = (procs i).chan := ⟨_, rfl, rfl, rfl⟩
    have hu : (update procs i p' j).state = (procs j).state ∧
        (update procs i p' j).chan = (procs j).chan :=
      ⟨update_proj (fun q => q.state) procs hs j, update_proj (fun q => q.chan) procs hc j⟩
    rw [hp'] at h
    dsimp only at h
    split at h
    · rename_i hz
      rw [update_self, hs] at hz
      refine (wakeup1_runnable h).imp (fun hr => ?_) fun hs => ⟨?_, hi, hz⟩
      · exact hu.1.symm.trans hr
      · exact ⟨hu.1.symm.trans hs.1, hu.2.symm.trans hs.2⟩
    · exact .inl (hu.1.symm.trans h)
  · exact .inl h

theorem foldl_reparent_roused (cur init : Slot) (l : List Slot) (procs : Slot → Proc) (j : Slot) :
    Roused (procs j) (l.foldl (reparent cur init) procs j) := by
  induction l generalizing procs with
  | nil => exact Roused.refl _
  | cons i l ih => exact (reparent_roused i j).trans (ih _)

theorem abandon_roused (cur init : Slot) (procs : Slot → Proc) (j : Slot) :
    Roused (procs j) (abandon cur init procs j) := by
  unfold abandon
  exact foldl_reparent_roused cur init _ procs j

/-- Every child of `cur` is passed on to init, and no other process gets a new parent. -/
theorem abandon_parent (cur init : Slot) (procs : Slot → Proc) (j : Slot) :
    (abandon cur init procs j).parent =
      if (procs j).parent = some cur then some init else (procs j).parent := by
  have key : ∀ (l : List Slot) (procs : Slot → Proc),
      (l.foldl (reparent cur init) procs j).parent =
        if j ∈ l ∧ (procs j).parent = some cur then some init else (procs j).parent := by
    intro l
    induction l with
    | nil =>
      intro procs
      exact (if_neg fun h => List.not_mem_nil h.1).symm
    | cons i l ih =>
      intro procs
      rw [List.foldl_cons, ih, reparent_parent]
      by_cases hi : j = i ∧ (procs j).parent = some cur
      · rw [if_pos hi, ite_self, if_pos ⟨hi.1 ▸ List.mem_cons_self, hi.2⟩]
      · rw [if_neg hi]
        refine if_congr (and_congr_left fun hp => ?_) rfl rfl
        rw [List.mem_cons, or_iff_right fun hj => hi ⟨hj, hp⟩]
  unfold abandon
  rw [key, if_congr (and_iff_right (List.mem_finRange j)) rfl rfl]

/-- The loop wakes init, if one of the children passed on is a zombie, and nobody else. -/
theorem abandon_runnable {j : Slot} (h : (abandon cur init procs j).state = .runnable) :
    (procs j).state = .runnable ∨ (procs j).SleepsOn (.proc init) ∧
      ∃ i, (procs i).parent = some cur ∧ (procs i).state = .zombie := by
  unfold abandon at h
  revert h
  induction List.finRange NPROC generalizing procs with
  | nil => exact .inl
  | cons i l ih =>
    intro h
    rcases ih h with hr | ⟨hs, k, hk, hz⟩
    · exact (reparent_runnable hr).imp_right fun ⟨hs, hi⟩ => ⟨hs, i, hi⟩
    · -- A zombie child that is still to come was one before this round.
      have hk' : (procs k).parent = some cur := by
        rw [reparent_parent] at hk
        split at hk
        · rename_i hki
          exact hki.2
        · exact hk
      refine .inr ⟨(reparent_roused i j).sleepsOn hs, k, hk', ?_⟩
      exact ((reparent_roused i k).state_iff (by simp) (by simp)).mp hz

/-- If a child passed on is a zombie, init does not stay asleep in `wait`. -/
theorem abandon_wakes (cur init : Slot) (procs : Slot → Proc) {j : Slot}
    (hp : (procs j).parent = some cur) (hz : (procs j).state = .zombie) :
    ¬ (abandon cur init procs init).SleepsOn (.proc init) := by
  -- Until the loop gets to `j` it leaves `j` a zombie child of `cur`.
  have key : ∀ (l : List Slot) (procs : Slot → Proc), j ∈ l → (procs j).parent = some cur →
      (procs j).state = .zombie → ¬ (l.foldl (reparent cur init) procs init).SleepsOn
        (.proc init) := by
    intro l
    induction l with
    | nil => exact fun _ hj => absurd hj List.not_mem_nil
    | cons i l ih =>
      intro procs hj hp hz
      rw [List.foldl_cons]
      by_cases hi : j = i
      · subst hi
        intro hs
        have hs' := (foldl_reparent_roused cur init l _ init).sleepsOn hs
        rw [reparent, if_pos hp] at hs'
        dsimp only at hs'
        rw [update_self, if_pos hz] at hs'
        exact wakeup1_wakes _ _ init hs'
      · refine ih _ ((List.mem_cons.mp hj).resolve_left hi) ?_ ?_
        · rw [reparent_parent, if_neg fun h => hi h.1]
          exact hp
        · exact ((reparent_roused i j).state_iff (by simp) (by simp)).mpr hz
  unfold abandon
  exact key _ procs (List.mem_finRange j) hp hz

end Abandon

/-! ## `exit` -/

section Exit

variable {cur par : Slot}

/-- The table of `exit` before the loop over the children. -/
def exitRecorded (s : State) (cur par : Slot) : Slot → Proc :=
  wakeup1 (update s.procs par (recordChild (s.procs par) (s.procs cur) s.ticks))
    (.proc par)

theorem exitRecorded_woken (s : State) (cur par i : Slot) :
    Woken (s.procs i) (exitRecorded s cur par i) :=
  (woken_update (recordChild_sameControl _ _ _).woken i).trans (wakeup1_woken _ _ i)

theorem exit_of_ne (s : State) (par : Slot) {i : Slot} (hi : i ≠ cur) :
    (exit s cur par).procs i = abandon cur s.initproc (exitRecorded s cur par) i :=
  update_of_ne hi _ _

theorem exit_self (s : State) (cur par : Slot) : (exit s cur par).procs cur =
    { abandon cur s.initproc (exitRecorded s cur par) cur with
      state := .zombie, etime := s.ticks } :=
  update_self _ _ _

theorem abandon_exitRecorded_roused (s : State) (cur par i : Slot) :
    Roused (s.procs i) (abandon cur s.initproc (exitRecorded s cur par) i) :=
  (exitRecorded_woken s cur par i).toRoused.trans (abandon_roused _ _ _ i)

theorem exit_roused (s : State) (par : Slot) {i : Slot} (hi : i ≠ cur) :
    Roused (s.procs i) ((exit s cur par).procs i) := by
  rw [exit_of_ne s par hi]
  exact abandon_exitRecorded_roused s cur par i

theorem exit_parent (s : State) (cur par i : Slot) : ((exit s cur par).procs i).parent =
    if (s.procs i).parent = some cur then some s.initproc else (s.procs i).parent := by
  have h := abandon_parent cur s.initproc (exitRecorded s cur par) i
  rw [(exitRecorded_woken s cur par i).parent] at h
  by_cases hi : i = cur
  · subst hi
    rw [exit_self]
    exact h
  · rw [exit_of_ne s par hi]
    exact h

theorem exit_pid (s : State) (cur par i : Slot) :
    ((exit s cur par).procs i).pid = (s.procs i).pid := by
  by_cases hi : i = cur
  · subst hi
    rw [exit_self]
    exact (abandon_exitRecorded_roused s i par i).pid
  · exact (exit_roused s par hi).pid

theorem exit_np (s : State) (cur par i : Slot) :
    ((exit s cur par).procs i).np = (s.procs i).np := by
  by_cases hi : i = cur
  · subst hi
    rw [exit_self]
    exact (abandon_exitRecorded_roused s i par i).np
  · exact (exit_roused s par hi).np

/-- The parent does not stay asleep in `wait`. -/
theorem exit_wakes_parent (s : State) (hpar : par ≠ cur) :
    ¬ ((exit s cur par).procs par).SleepsOn (.proc par) := by
  rw [exit_of_ne s par hpar]
  exact fun h => wakeup1_wakes _ _ par ((abandon_roused _ _ _ par).sleepsOn h)

/-- If a zombie is passed on, init does not stay asleep in `wait`. -/
theorem exit_wakes_init (s : State) (hinit : s.initproc ≠ cur) {j : Slot}
    (hp : (s.procs j).parent = some cur) (hz : (s.procs j).state = .zombie) :
    ¬ ((exit s cur par).procs s.initproc).SleepsOn (.proc s.initproc) := by
  have hj := exitRecorded_woken s cur par j
  rw [exit_of_ne s par hinit]
  exact abandon_wakes cur s.initproc _ (hj.parent.trans hp)
    ((hj.state_iff (by simp) (by simp)).mpr hz)

/-- `exit` wakes the parent and, if it passes on a zombie, init. -/
theorem exit_runnable {i : Slot} (hi : i ≠ cur)
    (h : ((exit s cur par).procs i).state = .runnable) :
    (s.procs i).state = .runnable ∨ (s.procs i).SleepsOn (.proc par) ∨
      (s.procs i).SleepsOn (.proc s.initproc) ∧
        ∃ j, (s.procs j).parent = some cur ∧ (s.procs j).state = .zombie := by
  have hsame := recordChild_sameControl (s.procs par) (s.procs cur) s.ticks
  rw [exit_of_ne s par hi] at h
  rcases abandon_runnable h with hr | ⟨hs, j, hj, hz⟩
  · refine (wakeup1_runnable hr).imp (fun hr => ?_) fun hs => .inl ?_
    · rw [update_proj (fun q => q.state) s.procs hsame.state] at hr
      exact hr
    · exact (woken_update hsame.woken i).sleepsOn hs
  · have hw := exitRecorded_woken s cur par j
    refine .inr (.inr ⟨(exitRecorded_woken s cur par i).sleepsOn hs, j, hw.parent ▸ hj, ?_⟩)
    exact (hw.state_iff (by simp) (by simp)).mp hz

end Exit

/-! ## The sort of `allocproc` -/

/-- The new order of a table in which only `RUNNABLE` processes move. -/
def Reorders (σ : Equiv.Perm Slot) (procs : Slot → Proc) : Prop :=
  ∀ p, (procs p).state ≠ .runnable → σ p = p

theorem Reorders.runnable {σ : Equiv.Perm Slot} (h : Reorders σ procs) {p : Slot}
    (hp : (procs p).state = .runnable) : (procs (σ p)).state = .runnable := by
  by_contra hne
  have hfix : σ p = p := σ.injective (h (σ p) hne)
  rw [hfix] at hne
  exact hne hp

/-- The slot that a round of the sort exchanges `i` with: the last `RUNNABLE` one after `i`
that was created before it, or `i` itself. -/
def sortPick (procs : Slot → Proc) (i : Slot) : Slot :=
  if (procs i).state = .runnable then
    (List.finRange NPROC).foldl (fun m j =>
      if i < j ∧ (procs j).state = .runnable ∧ (procs j).ctime < (procs i).ctime then j else m) i
  else i

/-- A round exchanges a `RUNNABLE` process with one in a later slot that was created before
it, or does nothing. -/
theorem sortPick_cases (procs : Slot → Proc) (i : Slot) : sortPick procs i = i ∨
    i < sortPick procs i ∧ (procs i).state = .runnable ∧
      (procs (sortPick procs i)).state = .runnable ∧
      (procs (sortPick procs i)).ctime < (procs i).ctime := by
  unfold sortPick
  split
  · rename_i hi
    have key : ∀ (l : List Slot) (m : Slot), (m = i ∨ i < m ∧ (procs i).state = .runnable ∧
        (procs m).state = .runnable ∧ (procs m).ctime < (procs i).ctime) →
        let k := l.foldl (fun m j => if i < j ∧ (procs j).state = .runnable ∧
          (procs j).ctime < (procs i).ctime then j else m) m
        k = i ∨ i < k ∧ (procs i).state = .runnable ∧ (procs k).state = .runnable ∧
          (procs k).ctime < (procs i).ctime := by
      intro l
      induction l with
      | nil => exact fun _ hm => hm
      | cons j l ih =>
        intro m hm
        refine ih _ ?_
        dsimp only
        split
        · rename_i hj
          exact .inr ⟨hj.1, hi, hj.2.1, hj.2.2⟩
        · exact hm
    exact key _ i (.inl rfl)
  · exact .inl rfl

theorem le_sortPick (procs : Slot → Proc) (i : Slot) : i ≤ sortPick procs i := by
  rcases sortPick_cases procs i with h | h
  · exact h.ge
  · exact h.1.le

theorem sortPick_runnable (procs : Slot → Proc) (i : Slot) (hne : sortPick procs i ≠ i) :
    (procs i).state = .runnable ∧ (procs (sortPick procs i)).state = .runnable :=
  have h := (sortPick_cases procs i).resolve_left hne
  ⟨h.2.1, h.2.2.1⟩

theorem sortRound_eq_round : sortRound = Exchange.round sortPick := by
  funext procs i j
  unfold sortRound Exchange.round sortPick
  split
  · dsimp only
    generalize (List.finRange NPROC).foldl _ i = m
    rw [Function.comp_apply, Equiv.swap_apply_def, update_apply, update_apply]
    by_cases hjm : j = m
    · by_cases hji : j = i
      · rw [if_pos hjm, if_pos hji, ← hjm, hji]
      · rw [if_pos hjm, if_neg hji, if_pos hjm]
    · rw [if_neg hjm, if_neg hjm]
      split <;> rfl
  · simp

/-- The new order of the table: slot `p` gets the process of slot `sortOrder procs p`. -/
def sortOrder (procs : Slot → Proc) : Equiv.Perm Slot :=
  Exchange.order sortPick (List.finRange NPROC) procs

theorem sortProcessFIFO_eq_comp (procs : Slot → Proc) :
    sortProcessFIFO procs = procs ∘ sortOrder procs := by
  unfold sortProcessFIFO
  rw [sortRound_eq_round]
  exact Exchange.foldl_round _ _

theorem sortOrder_reorders (procs : Slot → Proc) : Reorders (sortOrder procs) procs := by
  intro p hp
  apply Exchange.order_of_not_mem
  intro hmem
  exact hp (Exchange.forall_exchanged (P := fun q => q.state = .runnable) sortPick_runnable hmem)

theorem sortProcessFIFO_eq (procs : Slot → Proc) :
    ∃ σ : Equiv.Perm Slot, Reorders σ procs ∧ sortProcessFIFO procs = procs ∘ σ :=
  ⟨_, sortOrder_reorders procs, sortProcessFIFO_eq_comp procs⟩

/-- The sort leaves a process that is not `RUNNABLE` in its slot. -/
theorem sortProcessFIFO_apply {p : Slot} (hp : (procs p).state ≠ .runnable) :
    sortProcessFIFO procs p = procs p := by
  obtain ⟨σ, hσ, heq⟩ := sortProcessFIFO_eq procs
  rw [heq, Function.comp_apply, hσ p hp]

/-- The table that `allocproc` sorts: slot `q` is taken. -/
def marked (s : State) (q : Slot) : State :=
  { s.setProc q { s.procs q with
      state := .embryo
      pid := s.nextpid
      rtime := 0
      ctime := s.ticks
      allChildSize := 0
      exits := 0 } with
    nextpid := int32 (s.nextpid + 1) }

theorem allocproc_frr (hcfg : cfg.policy = .FRR) (s : State) (q : Slot) : allocproc cfg s q =
    { marked s q with procs := sortProcessFIFO (marked s q).procs } := by
  simp [allocproc, hcfg, marked]

/-- The slot whose process slot `i` has after `allocproc` took slot `q`. -/
def reseat (cfg : Config) (s : State) (q i : Slot) : Slot :=
  if cfg.policy = .FRR then sortOrder (marked s q).procs i else i

/-- Whatever the policy, `allocproc` takes the slot and sorts at most; under Q3 it also sets
the priority. -/
theorem allocproc_apply (cfg : Config) (s : State) (q i : Slot) : ∃ v, (allocproc cfg s q).procs i =
    { (marked s q).procs (reseat cfg s q i) with piority := v } := by
  unfold allocproc reseat
  split
  · rename_i hcfg
    refine ⟨((marked s q).procs (sortOrder (marked s q).procs i)).piority, ?_⟩
    show sortProcessFIFO (marked s q).procs i = _
    rw [sortProcessFIFO_eq_comp, if_pos hcfg, Function.comp_apply]
  · rename_i hcfg
    rw [if_neg (by simp [hcfg])]
    by_cases hi : i = q
    · subst hi
      exact ⟨highPiority, setProc_self _ _ _⟩
    · exact ⟨_, setProc_of_ne _ _ hi⟩
  · rename_i hcfg _
    exact ⟨_, by rw [if_neg hcfg]; rfl⟩

end Xv6.Ptable
