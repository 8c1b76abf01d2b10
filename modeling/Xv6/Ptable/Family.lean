import Xv6.Ptable.OnCpu

/-!
# Families

A process that exits stays `ZOMBIE` until its parent's `wait` finds it, and children of a
process that exits go to init.  `exit` wakes the parent before it makes itself a zombie,
and wakes init for every zombie it passes on, all with the lock held; `wait` sleeps only
after a scan without zombies, also with the lock held.

The events of the history carry pids, because slots are reused.  Pids are compared as
unsigned numbers, so that they are ordered up to the end of their range.

## Main definitions

* `Lawful` — a history in which `wait` returns every child at most once, to the process
  that forked it or, once that process exited, to init.
* `Family s` — the invariant of families: parents, sleepers in `wait`, pids and history.

## Main results

* `Family.exit`, `Family.wait`, `Family.fork`, … — one lemma for each section.
* `Family.step` — every step keeps the invariant.
-/

namespace Xv6.Ptable

open Machine

/-- The process in the slot has been made `RUNNABLE`. -/
def Proc.Started (p : Proc) : Prop := p.state ≠ .unused ∧ p.state ≠ .embryo

/-- The process has been started and has not exited. -/
def Proc.Alive (p : Proc) : Prop := p.Started ∧ p.state ≠ .zombie

/-- `parent` forked `child`, or it is init and the process that forked `child` exited. -/
def Inherits (es : List Event) (parent child : ℤ) : Prop :=
  .forked parent child ∈ es ∨ parent = 1 ∧ ∃ f, .forked f child ∈ es ∧ .exited f ∈ es

/-- Every `wait` that returned a child returned it for the first time, and to the process
that forked it or, after that one exited, to init. -/
def Lawful : List Event → Prop
  | [] => True
  | .reaped parent child :: es =>
    Inherits es parent child ∧ (∀ p, .reaped p child ∉ es) ∧ Lawful es
  | _ :: es => Lawful es

/-- Families: who has which parent, who sleeps in `wait`, and how pids and the history
bear on each other. -/
structure Family (s : State) : Prop where
  init : (s.procs s.initproc).Alive
  initPid : (s.procs s.initproc).pid = 1
  parent : ∀ p, p ≠ s.initproc → (s.procs p).Started → ∃ q, (s.procs p).parent = some q ∧
    q ≠ p ∧ (s.procs q).Alive ∧ Inherits s.events (s.procs q).pid (s.procs p).pid
  asleep : ∀ p i, (s.procs p).SleepsOn (.proc p) → (s.procs i).parent = some p →
    (s.procs i).state ≠ .zombie
  pidInj : ∀ i j, (s.procs i).state ≠ .unused → (s.procs j).state ≠ .unused →
    (s.procs i).pid = (s.procs j).pid → i = j
  pidLt : ∀ i, (s.procs i).state ≠ .unused → uint32 (s.procs i).pid < uint32 s.nextpid
  lawful : Lawful s.events
  reaped : ∀ p c, .reaped p c ∈ s.events →
    uint32 c < uint32 s.nextpid ∧ ∀ i, (s.procs i).state ≠ .unused → (s.procs i).pid ≠ c

variable {cfg : Config} {c : Cid} {s s' : State} {p : Slot} {a : Action}

theorem Inherits.mono {es es' : List Event} (h : ∀ e ∈ es, e ∈ es') {x y : ℤ}
    (hi : Inherits es x y) : Inherits es' x y := by
  rcases hi with hf | ⟨rfl, f, hf, he⟩
  · exact .inl (h _ hf)
  · exact .inr ⟨rfl, f, h _ hf, h _ he⟩

/-! ## Sections that keep every process where it is in its life -/

/-- `p'` is at the same point of its life as `p`. -/
structure Kept (p p' : Proc) : Prop where
  pid : p'.pid = p.pid
  parent : p'.parent = p.parent
  unused : p'.state = .unused ↔ p.state = .unused
  embryo : p'.state = .embryo ↔ p.state = .embryo
  zombie : p'.state = .zombie ↔ p.state = .zombie

theorem Kept.refl (p : Proc) : Kept p p := ⟨rfl, rfl, Iff.rfl, Iff.rfl, Iff.rfl⟩

theorem Kept.trans {p p' p'' : Proc} (h : Kept p p') (h' : Kept p' p'') : Kept p p'' :=
  ⟨h'.pid.trans h.pid, h'.parent.trans h.parent, h'.unused.trans h.unused,
    h'.embryo.trans h.embryo, h'.zombie.trans h.zombie⟩

theorem Kept.started {p p' : Proc} (h : Kept p p') : p'.Started ↔ p.Started := by
  rw [Proc.Started, Proc.Started, Ne, Ne, h.unused, h.embryo]

theorem Kept.alive {p p' : Proc} (h : Kept p p') : p'.Alive ↔ p.Alive := by
  rw [Proc.Alive, Proc.Alive, h.started, Ne, h.zombie]

theorem Woken.kept {p p' : Proc} (h : Woken p p') : Kept p p' :=
  ⟨h.pid, h.parent, h.state_iff (by simp) (by simp), h.state_iff (by simp) (by simp),
    h.state_iff (by simp) (by simp)⟩

/-- A process that is on a CPU or waits for one or for an event stays alive. -/
theorem kept_of_alive {p p' : Proc} (hpid : p'.pid = p.pid) (hparent : p'.parent = p.parent)
    (hp : p.Alive) (hp' : p'.Alive) : Kept p p' :=
  ⟨hpid, hparent, iff_of_false hp'.1.1 hp.1.1, iff_of_false hp'.1.2 hp.1.2,
    iff_of_false hp'.2 hp.2⟩

theorem kept_update {procs : Slot → Proc} {i : Slot} {q : Proc} (h : Kept (procs i) q) (j : Slot) :
    Kept (procs j) (Function.update procs i q j) := by
  by_cases hj : j = i
  · subst hj
    rw [Function.update_self]
    exact h
  · rw [Function.update_of_ne hj]
    exact Kept.refl _

section

variable (h : Family s) (hi : s'.initproc = s.initproc) (hn : s'.nextpid = s.nextpid)
  (he : s'.events = s.events)
include h hi hn he

theorem Family.kept (hk : ∀ i, Kept (s.procs i) (s'.procs i))
    (hs : ∀ p i, (s'.procs p).SleepsOn (.proc p) → (s.procs i).parent = some p →
      (s.procs i).state ≠ .zombie) :
    Family s' where
  init := by
    rw [hi]
    exact (hk _).alive.mpr h.init
  initPid := by
    rw [hi, (hk _).pid]
    exact h.initPid
  parent p hp hst := by
    obtain ⟨q, hq, hne, hal, hin⟩ := h.parent p (hi ▸ hp) ((hk p).started.mp hst)
    refine ⟨q, (hk p).parent.trans hq, hne, (hk q).alive.mpr hal, ?_⟩
    rw [he, (hk q).pid, (hk p).pid]
    exact hin
  asleep p i hp hpar := by
    rw [Ne, (hk i).zombie]
    exact hs p i hp ((hk i).parent.symm.trans hpar)
  pidInj i j hi hj hpid := by
    rw [(hk i).pid, (hk j).pid] at hpid
    exact h.pidInj i j (mt (hk i).unused.mpr hi) (mt (hk j).unused.mpr hj) hpid
  pidLt i hi := by
    rw [hn, (hk i).pid]
    exact h.pidLt i (mt (hk i).unused.mpr hi)
  lawful := he ▸ h.lawful
  reaped p c hpc := by
    obtain ⟨hlt, hgone⟩ := h.reaped p c (he ▸ hpc)
    refine ⟨hn ▸ hlt, fun i hi => ?_⟩
    rw [(hk i).pid]
    exact hgone i (mt (hk i).unused.mpr hi)

theorem Family.woken (hw : ∀ i, Woken (s.procs i) (s'.procs i)) : Family s' :=
  h.kept hi hn he (fun i => (hw i).kept) fun p i hp => h.asleep p i ((hw p).sleepsOn hp)

/-- One process changes, and does not fall asleep in `wait`. -/
theorem Family.update {q : Proc} (hprocs : s'.procs = Function.update s.procs p q)
    (hk : Kept (s.procs p) q) (hq : ¬ q.SleepsOn (.proc p)) : Family s' := by
  refine h.kept hi hn he (fun i => hprocs ▸ kept_update hk i) fun j i hj => ?_
  rw [hprocs] at hj
  by_cases hjp : j = p
  · subst hjp
    rw [Function.update_self] at hj
    exact absurd hj hq
  · rw [Function.update_of_ne hjp] at hj
    exact h.asleep j i hj

end

/-! ## `exit` -/

theorem Roused.started {p p' : Proc} (h : Roused p p') : p'.Started ↔ p.Started := by
  rw [Proc.Started, Proc.Started, Ne, Ne, h.state_iff (by simp) (by simp),
    h.state_iff (by simp) (by simp)]

theorem Roused.alive {p p' : Proc} (h : Roused p p') : p'.Alive ↔ p.Alive := by
  rw [Proc.Alive, Proc.Alive, h.started, Ne, h.state_iff (by simp) (by simp)]

theorem alive_of_running {p : Proc} (h : p.state = .running) : p.Alive := by
  simp [Proc.Alive, Proc.Started, h]

theorem Family.exit (h : Family s) {cur par : Slot} (hrun : (s.procs cur).state = .running)
    (hcur : cur ≠ s.initproc) (hpar : (s.procs cur).parent = some par) :
    Family (exit s cur par) := by
  have hal := alive_of_running hrun
  obtain ⟨par', hpar', hne, hparAlive, hin⟩ := h.parent cur hcur hal.1
  obtain rfl : par' = par := Option.some.inj (hpar'.symm.trans hpar)
  have hzombie : ((Ptable.exit s cur par').procs cur).state = .zombie := by rw [exit_self]
  have hroused : ∀ i, i ≠ cur → Roused (s.procs i) ((Ptable.exit s cur par').procs i) :=
    fun i hi => exit_roused s par' hi
  have hinit : ((Ptable.exit s cur par').procs s.initproc).Alive :=
    (hroused _ hcur.symm).alive.mpr h.init
  have hunused : ∀ i, ((Ptable.exit s cur par').procs i).state ≠ .unused →
      (s.procs i).state ≠ .unused := by
    intro i hi
    by_cases hic : i = cur
    · rw [hic]
      exact hal.1.1
    · exact mt ((hroused i hic).state_iff (by simp) (by simp)).mpr hi
  have hsub : ∀ e ∈ s.events, e ∈ (Ptable.exit s cur par').events :=
    fun e he => List.mem_cons_of_mem _ he
  constructor
  case init => exact hinit
  case initPid => exact (exit_pid s cur par' s.initproc).trans h.initPid
  case parent =>
    intro p hp hst
    rw [exit_parent, exit_pid]
    by_cases hpc : p = cur
    · subst hpc
      refine ⟨par', ?_, hne, (hroused par' hne).alive.mpr hparAlive, ?_⟩
      · rw [if_neg fun h => hne (Option.some.inj (hpar.symm.trans h)), hpar]
      · rw [exit_pid]
        exact hin.mono hsub
    · obtain ⟨q, hq, hqp, hqal, hqin⟩ := h.parent p hp ((hroused p hpc).started.mp hst)
      by_cases hqc : q = cur
      · -- A child of the exiting process goes to init.
        subst hqc
        refine ⟨s.initproc, if_pos hq, hp.symm, hinit, .inr ⟨?_, (s.procs q).pid, ?_, ?_⟩⟩
        · exact (exit_pid s q par' s.initproc).trans h.initPid
        · rcases hqin with hf | ⟨hone, -⟩
          · exact hsub _ hf
          · exact absurd (h.pidInj q s.initproc hal.1.1 h.init.1.1 (hone.trans h.initPid.symm)) hcur
        · exact List.mem_cons_self
      · refine ⟨q, ?_, hqp, (hroused q hqc).alive.mpr hqal, ?_⟩
        · rw [if_neg fun h => hqc (Option.some.inj (hq.symm.trans h)), hq]
        · rw [exit_pid]
          exact hqin.mono hsub
  case asleep =>
    intro p i hp hi hz
    have hpc : p ≠ cur := by
      rintro rfl
      rw [Proc.SleepsOn, hzombie] at hp
      cases hp.1
    rw [exit_parent] at hi
    by_cases hic : i = cur
    · -- The exiting process woke its parent.
      subst hic
      rw [if_neg fun h => hne (Option.some.inj (hpar.symm.trans h)), hpar] at hi
      cases hi
      exact exit_wakes_parent s hne hp
    · have hzi : (s.procs i).state = .zombie :=
        ((hroused i hic).state_iff (by simp) (by simp)).mp hz
      by_cases hi' : (s.procs i).parent = some cur
      · rw [if_pos hi'] at hi
        cases hi
        exact exit_wakes_init s hcur.symm hi' hzi hp
      · rw [if_neg hi'] at hi
        exact h.asleep p i ((hroused p hpc).sleepsOn hp) hi hzi
  case pidInj =>
    intro i j hi hj hpid
    rw [exit_pid, exit_pid] at hpid
    exact h.pidInj i j (hunused i hi) (hunused j hj) hpid
  case pidLt =>
    intro i hi
    rw [exit_pid]
    exact h.pidLt i (hunused i hi)
  case lawful => exact h.lawful
  case reaped =>
    intro p c hpc
    obtain ⟨hlt, hgone⟩ := h.reaped p c ((List.mem_cons.mp hpc).resolve_left (by simp))
    refine ⟨hlt, fun i hi => ?_⟩
    rw [exit_pid]
    exact hgone i (hunused i hi)

/-! ## `wait` -/

/-- `wait` returns child `i` to `cur`. -/
theorem Family.reap (h : Family s) {cur i : Slot} (hpar : (s.procs i).parent = some cur)
    (hz : (s.procs i).state = .zombie) (hi : s'.initproc = s.initproc)
    (hn : s'.nextpid = s.nextpid)
    (he : s'.events = .reaped (s.procs cur).pid (s.procs i).pid :: s.events)
    (hfree : (s'.procs i).state = .unused) (hrest : ∀ j, j ≠ i → Woken (s.procs j) (s'.procs j)) :
    Family s' := by
  have hused : (s.procs i).state ≠ .unused := by simp [hz]
  have hii : i ≠ s.initproc := by
    rintro rfl
    exact h.init.2 hz
  have hne : ∀ j, (s'.procs j).state ≠ .unused → j ≠ i := by
    rintro j hj rfl
    exact hj hfree
  have hkept : ∀ j, j ≠ i → Kept (s.procs j) (s'.procs j) := fun j hj => (hrest j hj).kept
  have hin : Inherits s.events (s.procs cur).pid (s.procs i).pid := by
    obtain ⟨q, hq, -, -, hin⟩ := h.parent i hii ⟨hused, by simp [hz]⟩
    rw [← Option.some.inj (hpar.symm.trans hq)] at hin
    exact hin
  constructor
  case init =>
    rw [hi]
    exact (hkept _ hii.symm).alive.mpr h.init
  case initPid =>
    rw [hi, (hkept _ hii.symm).pid]
    exact h.initPid
  case parent =>
    intro p hp hst
    have hpi := hne p hst.1
    obtain ⟨q, hq, hqp, hqal, hqin⟩ := h.parent p (hi ▸ hp) ((hkept p hpi).started.mp hst)
    have hqi : q ≠ i := by
      rintro rfl
      exact hqal.2 hz
    refine ⟨q, (hkept p hpi).parent.trans hq, hqp, (hkept q hqi).alive.mpr hqal, ?_⟩
    rw [he, (hkept q hqi).pid, (hkept p hpi).pid]
    exact hqin.mono fun e he => List.mem_cons_of_mem _ he
  case asleep =>
    intro p j hp hj hzj
    have hji := hne j (by simp [hzj])
    have hpi := hne p (by simp [hp.1])
    exact h.asleep p j ((hrest p hpi).sleepsOn hp) ((hkept j hji).parent.symm.trans hj)
      ((hkept j hji).zombie.mp hzj)
  case pidInj =>
    intro j k hj hk hpid
    have hji := hne j hj
    have hki := hne k hk
    rw [(hkept j hji).pid, (hkept k hki).pid] at hpid
    exact h.pidInj j k (mt (hkept j hji).unused.mpr hj) (mt (hkept k hki).unused.mpr hk) hpid
  case pidLt =>
    intro j hj
    have hji := hne j hj
    rw [hn, (hkept j hji).pid]
    exact h.pidLt j (mt (hkept j hji).unused.mpr hj)
  case lawful =>
    rw [he]
    exact ⟨hin, fun p hp => (h.reaped p _ hp).2 i hused rfl, h.lawful⟩
  case reaped =>
    intro p c hpc
    rw [he, List.mem_cons] at hpc
    rw [hn]
    rcases hpc with heq | hpc
    · obtain ⟨-, rfl⟩ := Event.reaped.inj heq
      refine ⟨h.pidLt i hused, fun j hj hpid => ?_⟩
      have hji := hne j hj
      rw [(hkept j hji).pid] at hpid
      exact hji (h.pidInj j i (mt (hkept j hji).unused.mpr hj) hused hpid)
    · obtain ⟨hlt, hgone⟩ := h.reaped p c hpc
      refine ⟨hlt, fun j hj => ?_⟩
      have hji := hne j hj
      rw [(hkept j hji).pid]
      exact hgone j (mt (hkept j hji).unused.mpr hj)

theorem waitScan_sleeps {procs : Slot → Proc} {cur i : Slot} (h : waitScan procs cur = .sleeps)
    (hi : (procs i).parent = some cur) : (procs i).state ≠ .zombie := by
  unfold waitScan at h
  split at h
  · cases h
  · rename_i hnone
    intro hz
    rw [List.find?_eq_none] at hnone
    exact hnone i (List.mem_finRange i) (by simp [hi, hz])

theorem Family.wait (h : Family s) {cur : Slot} (hrun : (s.procs cur).state = .running) :
    Family (wait s cur).state := by
  have hal := alive_of_running hrun
  unfold Ptable.wait
  split
  · rename_i i hi
    obtain ⟨hpar, hz⟩ := waitScan_reaped hi
    have hic : i ≠ cur := by
      rintro rfl
      exact hal.2 hz
    refine h.reap hpar hz rfl rfl rfl ?_ fun j hj => ?_
    · dsimp only [Outcome.state]
      rw [setProc_of_ne _ _ hic, setProc_self]
    · dsimp only [Outcome.state]
      by_cases hjc : j = cur
      · rw [hjc, setProc_self, setProc_of_ne _ _ hic.symm]
        exact woken_inWait _ _
      · rw [setProc_of_ne _ _ hjc, setProc_of_ne _ _ hj]
        exact Woken.refl _
  · exact h.woken rfl rfl rfl fun j => woken_update (woken_inWait _ false) j
  · rename_i hsleeps
    -- The process falls asleep after a scan that found no zombie.
    have hk : ∀ j, Kept (s.procs j)
        (Function.update (Ptable.sleep s cur (.proc cur)).procs cur
          { (Ptable.sleep s cur (.proc cur)).procs cur with inWait := true } j) := by
      intro j
      refine Kept.trans (kept_update ?_ j) (kept_update (woken_inWait _ true).kept j)
      exact kept_of_alive rfl rfl hal (by simp [Proc.Alive, Proc.Started])
    refine h.kept rfl rfl rfl hk fun p i hp hi => ?_
    by_cases hpc : p = cur
    · subst hpc
      exact waitScan_sleeps hsleeps hi
    · have hp' : (s.procs p).SleepsOn (.proc p) := by
        simpa [Outcome.state, Ptable.sleep, State.setProc, hpc] using hp
      exact h.asleep p i hp' hi

/-! ## `fork` -/

theorem uint32_succ {n : ℤ} (h : uint32 n + 1 < 0x100000000) :
    uint32 (int32 (n + 1)) = uint32 n + 1 := by
  have hmod : int32 (n + 1) % 0x100000000 = (n + 1) % 0x100000000 := Int.bmod_emod
  unfold uint32 at h ⊢
  rw [hmod]
  omega

section Slot

/-- What is about a slot that holds no started process. -/
theorem Family.parent_of_ne (h : Family s) {q : Slot} (hq : ¬ (s.procs q).Started)
    (hi : s'.initproc = s.initproc) (he : ∀ e ∈ s.events, e ∈ s'.events)
    (hrest : ∀ j, j ≠ q → s'.procs j = s.procs j) (hp : p ≠ s'.initproc) (hpq : p ≠ q)
    (hst : (s'.procs p).Started) : ∃ r, (s'.procs p).parent = some r ∧ r ≠ p ∧
      (s'.procs r).Alive ∧ Inherits s'.events (s'.procs r).pid (s'.procs p).pid := by
  rw [hrest p hpq] at hst ⊢
  obtain ⟨r, hr, hrp, hral, hrin⟩ := h.parent p (hi ▸ hp) hst
  have hrq : r ≠ q := by
    rintro rfl
    exact hq hral.1
  refine ⟨r, hr, hrp, ?_, ?_⟩
  · rw [hrest r hrq]
    exact hral
  · rw [hrest r hrq]
    exact hrin.mono he

theorem Family.init_ne (h : Family s) {q : Slot} (hq : ¬ (s.procs q).Started) : s.initproc ≠ q := by
  rintro rfl
  exact hq h.init.1

/-- `allocproc` marks a free slot. -/
theorem Family.alloc (h : Family s) {q : Slot} (hfree : (s.procs q).state = .unused)
    (hwrap : uint32 s.nextpid + 1 < 0x100000000) :
    Family { s.setProc q (newProc s (s.procs q)) with nextpid := int32 (s.nextpid + 1) } := by
  generalize hs' : ({ s.setProc q (newProc s (s.procs q)) with
    nextpid := int32 (s.nextpid + 1) } : State) = s'
  have hself : s'.procs q = newProc s (s.procs q) := by
    rw [← hs']
    exact setProc_self s q _
  have hrest : ∀ j, j ≠ q → s'.procs j = s.procs j := fun j hj => by
    rw [← hs']
    exact setProc_of_ne s _ hj
  have hi : s'.initproc = s.initproc := by rw [← hs']; rfl
  have he : s'.events = s.events := by rw [← hs']; rfl
  have hn : uint32 s'.nextpid = uint32 s.nextpid + 1 := by
    rw [← hs']
    exact uint32_succ hwrap
  have hq : ¬ (s.procs q).Started := fun hst => hst.1 hfree
  have hinit := h.init_ne hq
  have hpid : (s'.procs q).pid = s.nextpid := by rw [hself]; rfl
  have hold : ∀ j, j ≠ q → (s.procs j).state ≠ .unused → (s.procs j).pid ≠ s.nextpid := by
    intro j _ hj heq
    have := h.pidLt j hj
    rw [heq] at this
    exact lt_irrefl _ this
  constructor
  case init =>
    rw [hi, hrest _ hinit]
    exact h.init
  case initPid =>
    rw [hi, hrest _ hinit]
    exact h.initPid
  case parent =>
    intro p hp hst
    have hpq : p ≠ q := by
      rintro rfl
      rw [hself] at hst
      exact hst.2 rfl
    exact h.parent_of_ne hq hi (fun e => he ▸ id) hrest hp hpq hst
  case asleep =>
    intro p i hp hpar hz
    have hpq : p ≠ q := by
      rintro rfl
      rw [hself] at hp
      cases hp.1
    have hiq : i ≠ q := by
      rintro rfl
      rw [hself] at hz
      cases hz
    rw [hrest p hpq] at hp
    rw [hrest i hiq] at hpar hz
    exact h.asleep p i hp hpar hz
  case pidInj =>
    intro i j hui huj hpij
    by_cases hiq : i = q <;> by_cases hjq : j = q
    · rw [hiq, hjq]
    · rw [hiq, hpid, hrest j hjq] at hpij
      rw [hrest j hjq] at huj
      exact absurd hpij.symm (hold j hjq huj)
    · rw [hjq, hpid, hrest i hiq] at hpij
      rw [hrest i hiq] at hui
      exact absurd hpij (hold i hiq hui)
    · rw [hrest i hiq] at hui hpij
      rw [hrest j hjq] at huj hpij
      exact h.pidInj i j hui huj hpij
  case pidLt =>
    intro i hui
    rw [hn]
    by_cases hiq : i = q
    · rw [hiq, hpid]
      exact Nat.lt_succ_self _
    · rw [hrest i hiq] at hui ⊢
      exact Nat.lt_succ_of_lt (h.pidLt i hui)
  case lawful => exact he ▸ h.lawful
  case reaped =>
    intro p c hpc
    obtain ⟨hlt, hgone⟩ := h.reaped p c (he ▸ hpc)
    refine ⟨hn ▸ Nat.lt_succ_of_lt hlt, fun i hui => ?_⟩
    by_cases hiq : i = q
    · rw [hiq, hpid]
      rintro rfl
      exact lt_irrefl _ hlt
    · rw [hrest i hiq] at hui ⊢
      exact hgone i hui

/-- `fork` delivers the slot it filled, as a process or back. -/
theorem Family.deliver (h : Family s) {q : Slot} (hemb : (s.procs q).state = .embryo)
    (hi : s'.initproc = s.initproc) (hn : s'.nextpid = s.nextpid)
    (he : ∀ e ∈ s.events, e ∈ s'.events) (hlaw : Lawful s'.events)
    (hreap : ∀ p c, .reaped p c ∈ s'.events → .reaped p c ∈ s.events)
    (hrest : ∀ j, j ≠ q → s'.procs j = s.procs j) (hpid : (s'.procs q).pid = (s.procs q).pid)
    (hst : (s'.procs q).state = .unused ∨ (s'.procs q).state = .runnable)
    (hq : (s'.procs q).state = .runnable → ∃ r, (s'.procs q).parent = some r ∧ r ≠ q ∧
      (s'.procs r).Alive ∧ Inherits s'.events (s'.procs r).pid (s'.procs q).pid) : Family s' := by
  have hq' : ¬ (s.procs q).Started := fun h => h.2 hemb
  have hinit := h.init_ne hq'
  have hused : (s.procs q).state ≠ .unused := by simp [hemb]
  have hpids : ∀ i, (s'.procs i).pid = (s.procs i).pid := by
    intro i
    by_cases hiq : i = q
    · rw [hiq, hpid]
    · rw [hrest i hiq]
  have hunused : ∀ i, (s'.procs i).state ≠ .unused → (s.procs i).state ≠ .unused := by
    intro i hui
    by_cases hiq : i = q
    · rw [hiq]
      exact hused
    · rw [hrest i hiq] at hui
      exact hui
  constructor
  case init =>
    rw [hi, hrest _ hinit]
    exact h.init
  case initPid =>
    rw [hi, hpids]
    exact h.initPid
  case parent =>
    intro p hp hps
    by_cases hpq : p = q
    · subst hpq
      exact hq (hst.resolve_left hps.1)
    · exact h.parent_of_ne hq' hi he hrest hp hpq hps
  case asleep =>
    intro p i hp hpar hz
    have hpq : p ≠ q := by
      rintro rfl
      rcases hst with hst | hst <;> rw [Proc.SleepsOn, hst] at hp <;> cases hp.1
    have hiq : i ≠ q := by
      rintro rfl
      rcases hst with hst | hst <;> rw [hst] at hz <;> cases hz
    rw [hrest p hpq] at hp
    rw [hrest i hiq] at hpar hz
    exact h.asleep p i hp hpar hz
  case pidInj =>
    intro i j hui huj hpij
    rw [hpids, hpids] at hpij
    exact h.pidInj i j (hunused i hui) (hunused j huj) hpij
  case pidLt =>
    intro i hui
    rw [hn, hpids]
    exact h.pidLt i (hunused i hui)
  case lawful => exact hlaw
  case reaped =>
    intro p c hpc
    obtain ⟨hlt, hgone⟩ := h.reaped p c (hreap p c hpc)
    refine ⟨hn ▸ hlt, fun i hui => ?_⟩
    rw [hpids]
    exact hgone i (hunused i hui)

end Slot

theorem woken_np (p : Proc) (o : Option Slot) : Kept p { p with np := o } :=
  ⟨rfl, rfl, Iff.rfl, Iff.rfl, Iff.rfl⟩

/-- `fork` notes the slot, or forgets it. -/
theorem Family.setNp (h : Family s) (cur : Slot) (o : Option Slot) :
    Family (s.setProc cur { s.procs cur with np := o }) := by
  refine h.kept rfl rfl rfl (kept_update (woken_np _ o)) fun p i hp => ?_
  have hp' : (s.procs p).SleepsOn (.proc p) := by
    have hst := setProc_proj Proc.state s cur { s.procs cur with np := o } rfl p
    have hch := setProc_proj Proc.chan s cur { s.procs cur with np := o } rfl p
    rw [Proc.SleepsOn, hst, hch] at hp
    exact hp
  exact h.asleep p i hp'

theorem Family.fork (h : Family s) (hcfg : cfg.policy = .Q3)
    (hwrap : uint32 s.nextpid + 1 < 0x100000000) (cur : Slot) : Family (fork cfg s cur) := by
  unfold Ptable.fork
  split
  · exact h
  · rename_i q hq
    have hfree : (s.procs q).state = .unused := by simpa using List.find?_some hq
    rw [allocproc_q3 hcfg]
    exact (h.alloc hfree hwrap).setNp cur _

theorem Family.forkFail (h : Family s) {cur q : Slot} (hemb : (s.procs q).state = .embryo) :
    Family (forkFail s cur q) := by
  have h₁ : Family (s.setProc q { s.procs q with state := .unused }) := by
    refine h.deliver hemb rfl rfl (fun e => id) h.lawful (fun p c => id)
      (fun j hj => setProc_of_ne s _ hj) ?_ ?_ fun hr => ?_
    · rw [setProc_self]
    · rw [setProc_self]
      exact .inl rfl
    · rw [setProc_self] at hr
      cases hr
  exact h₁.setNp cur none

theorem Family.forkDone (h : Family s) {cur q : Slot} (hrun : (s.procs cur).state = .running)
    (hemb : (s.procs q).state = .embryo) : Family (forkDone s cur q) := by
  have hcq : cur ≠ q := by
    rintro rfl
    rw [hrun] at hemb
    cases hemb
  have h₁ : Family { s.setProc q { s.procs q with
      parent := some cur, state := .runnable, np := none, inWait := false } with
        events := .forked (s.procs cur).pid (s.procs q).pid :: s.events } := by
    refine h.deliver hemb rfl rfl (fun e he => List.mem_cons_of_mem _ he) h.lawful
      (fun p c hpc => (List.mem_cons.mp hpc).resolve_left (by simp))
      (fun j hj => setProc_of_ne s _ hj) ?_ ?_ fun _ => ?_
    · dsimp only
      rw [setProc_self]
    · dsimp only
      rw [setProc_self]
      exact .inr rfl
    · dsimp only
      rw [setProc_self]
      refine ⟨cur, rfl, hcq, ?_, ?_⟩
      · rw [setProc_of_ne s _ hcq]
        exact alive_of_running hrun
      · rw [setProc_of_ne s _ hcq]
        exact .inl List.mem_cons_self
  exact h₁.setNp cur none

/-! ## Steps -/

theorem Family.switchTo (h : Family s) {pc : SchedPc} (hp : (s.procs p).state = .runnable) :
    Family (switchTo s c pc p) := by
  refine h.update (p := p) rfl rfl rfl rfl ?_ ?_
  · exact kept_of_alive rfl rfl (by simp [Proc.Alive, Proc.Started, hp])
      (by simp [Proc.Alive, Proc.Started])
  · simp [Proc.SleepsOn]

/-- The moves of a pass keep families, given who is on which CPU. -/
theorem family_passRule (c : Cid) : PassRule c (fun u => OneCpu u ∧ Family u)
    fun u => OneCpu (endPass u c) ∧ Family u where
  flags u g f h := ⟨(oneCpu_passRule c).flags u g f h.1,
    h.2.kept rfl rfl rfl (fun _ => Kept.refl _) fun p i hp => h.2.asleep p i hp⟩
  dispatch u pc p h hpc hp := by
    have hone := h.1.switchTo hpc hp
    have hfam : Family (switchTo u c pc p) := h.2.switchTo hp
    unfold dispatch
    dsimp only
    split
    · have hon : ((Ptable.switchTo u c pc p).cpus c).proc = some p := by simp [Ptable.switchTo]
      have hends := hone.wait hon
      have hwait := hfam.wait (hone.state_eq hon)
      cases hout : wait (Ptable.switchTo u c pc p) p with
      | released v =>
        rw [hout] at hends hwait
        exact ⟨hends, hwait⟩
      | sched v =>
        rw [hout] at hends hwait
        exact ⟨hends, hwait⟩
    · exact ⟨hone, hfam⟩
  endPass u h := ⟨h.1, h.2.kept rfl rfl rfl (fun _ => Kept.refl _) fun p i hp => h.2.asleep p i hp⟩

/-- The process leaves its CPU, and does not sleep in `wait`. -/
theorem Family.leave (h : Family s) (hrun : (s.procs p).state = .running) {q : Proc}
    (hpid : q.pid = (s.procs p).pid) (hpar : q.parent = (s.procs p).parent) (hq : q.Alive)
    (hs : ¬ q.SleepsOn (.proc p)) : Family (s.setProc p q) :=
  h.update rfl rfl rfl rfl (kept_of_alive hpid hpar (alive_of_running hrun) hq) hs

theorem Family.yield (h : Family s) (hrun : (s.procs p).state = .running) :
    Family (yield cfg s p).state := by
  unfold Ptable.yield
  split
  · exact h
  split
  · exact h
  split
  · refine h.leave hrun rfl rfl (alive_of_running hrun) ?_
    simp [Proc.SleepsOn, hrun]
  · refine h.leave hrun rfl rfl ?_ ?_
    · simp [Proc.Alive, Proc.Started]
    · simp [Proc.SleepsOn]

/-- The process's own part of a step. -/
theorem Family.entry (h : Family s) (hone : OneCpu s) (hcfg : cfg.policy = .Q3)
    (hne : ∀ c, a ≠ .schedule c)
    (hwrap : ∀ c, a = .fork c → uint32 s.nextpid + 1 < 0x100000000) {o : Outcome}
    (hent : entry cfg s a = some (c, o)) : Family o.state := by
  cases entry_cases hent with
  | schedule c _ => exact absurd rfl (hne c)
  | fork c cur _ => exact h.fork hcfg (hwrap c rfl) cur
  | forkFail c cur q hf => exact h.forkFail (hone.embryo (forking_eq_some.mp hf).2)
  | forkDone c cur q hf =>
    obtain ⟨hon, hq⟩ := forking_eq_some.mp hf
    exact h.forkDone (hone.state_eq hon) (hone.embryo hq)
  | exit c cur par hcur hinit hpar =>
    exact h.exit (hone.state_eq (caller_eq_some.mp hcur).1) hinit hpar
  | wait c cur hcur => exact h.wait (hone.state_eq (caller_eq_some.mp hcur).1)
  | sleep c addr cur hcur =>
    refine h.leave (hone.state_eq (caller_eq_some.mp hcur).1) rfl rfl ?_ ?_
    · simp [Proc.Alive, Proc.Started]
    · simp [Proc.SleepsOn]
  | yield c cur hcur => exact h.yield (hone.state_eq hcur)
  | nice c cur _ =>
    obtain ⟨-, hi, hn, he⟩ := nice_frame s cur
    exact h.woken hi hn he (nice_woken s cur)
  | kill c pid cur _ => exact h.woken rfl rfl rfl (kill_woken s.procs pid)
  | wakeup addr => exact h.woken rfl rfl rfl (wakeup1_woken s.procs _)
  | tick =>
    obtain ⟨-, hi, hn, he⟩ := tick_frame s
    exact h.woken hi hn he (tick_woken s)

/-- **Every step** keeps families, as long as pids do not wrap around. -/
theorem Family.step (h : Family s) (hone : OneCpu s) (hcfg : cfg.policy = .Q3)
    (hwrap : ∀ c, a = .fork c → uint32 s.nextpid + 1 < 0x100000000)
    (hs : step cfg s a = some s') : Family s' := by
  refine (hone.step_rule family_passRule (fun c hpc => ?_) (fun hne c o hent => ?_) hs).2
  · exact ⟨(hone.endPass_eq hpc).symm ▸ hone, h⟩
  · have hends := hone.entry hent
    have hfam := h.entry hone hcfg hne hwrap hent
    cases o <;> exact ⟨hends, hfam⟩

theorem family_boot (hcfg : cfg.policy = .Q3) : Family (boot cfg) := by
  have hboot : boot cfg = { emptyTable.setProc 0 { newProc emptyTable zeroProc with
      state := .runnable } with nextpid := 2 } := by
    rw [boot, allocproc_q3 hcfg]
    simp [State.setProc, emptyTable, int32]
  rw [hboot]
  have hslot : ∀ i, (emptyTable.setProc 0 { newProc emptyTable zeroProc with
      state := .runnable }).procs i = if i = 0 then { newProc emptyTable zeroProc with
        state := .runnable } else zeroProc := fun i => Function.update_apply _ _ _ i
  -- Slot 0 is the only one in use.
  have honly : ∀ i, ((emptyTable.setProc 0 { newProc emptyTable zeroProc with
      state := .runnable }).procs i).state ≠ .unused → i = 0 := by
    intro i hi
    rw [hslot] at hi
    split at hi
    · assumption
    · exact absurd rfl hi
  constructor
  case init =>
    dsimp only
    rw [hslot]
    simp [Proc.Alive, Proc.Started, emptyTable, State.setProc]
  case initPid =>
    dsimp only
    rw [hslot]
    simp [newProc, emptyTable, State.setProc]
  case parent => exact fun p hp hst => absurd (honly p hst.1) hp
  case asleep =>
    intro p i hp
    have h0 : p = 0 := honly p fun hu => by cases hp.1.symm.trans hu
    rw [Proc.SleepsOn, hslot, if_pos h0] at hp
    cases hp.1
  case pidInj => exact fun i j hi hj _ => (honly i hi).trans (honly j hj).symm
  case pidLt =>
    intro i hi
    dsimp only
    rw [hslot, if_pos (honly i hi)]
    decide
  case lawful => trivial
  case reaped => exact fun p c hpc => absurd hpc List.not_mem_nil

end Xv6.Ptable
