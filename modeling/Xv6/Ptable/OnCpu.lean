import Xv6.Ptable.Effects

/-!
# A process runs on at most one CPU

Three places of `scheduler` make a process `RUNNING`, and `yield`, `sleep`, `wait` and
`exit` end that, each together with the current `proc` of its CPU.  While a scheduler
holds the lock between two processes its CPU's `proc` still names the last one; what
holds then is what would hold if the pass ended there (`endPass`).

Under FRR `allocproc` sorts the table, which moves `RUNNABLE` processes from slot to slot.
A `RUNNING` process and a slot that `fork` is filling stay where they are.

## Main definitions

* `OneCpu s` — the invariant: who runs where, and which slots are being filled.

## Main results

* `OneCpu.step` — every step keeps it.
* `one_cpu` — a process is `RUNNING` exactly when it is the current process of one CPU.
-/

namespace Xv6.Ptable

open Function Machine

/-- Who runs where.  The last two fields are about forks in progress, which own the slot
they fill. -/
structure OneCpu (s : State) : Prop where
  running : ∀ p, (s.procs p).state = .running ↔ ∃ c, (s.cpus c).proc = some p
  inj : ∀ {c c' p}, (s.cpus c).proc = some p → (s.cpus c').proc = some p → c = c'
  idle : ∀ c, (s.cpus c).pc = .top → (s.cpus c).proc = none
  embryo : ∀ {p q}, (s.procs p).np = some q → (s.procs q).state = .embryo
  npInj : ∀ {p p' q}, (s.procs p).np = some q → (s.procs p').np = some q → p = p'

variable {cfg : Config} {c : Cid} {s s' : State} {p : Slot} {a : Action}

@[simp] theorem endPass_procs (s : State) (c : Cid) : (endPass s c).procs = s.procs := rfl

@[simp] theorem endPass_cpus_self (s : State) (c : Cid) :
    (endPass s c).cpus c = ⟨none, .top⟩ :=
  update_self _ _ _

theorem endPass_cpus_of_ne (s : State) {c c' : Cid} (h : c' ≠ c) :
    (endPass s c).cpus c' = s.cpus c' :=
  update_of_ne h _ _

/-- After the pass of `c` ended, the other CPUs are as they were and `c` is idle. -/
theorem endPass_proc {c' : Cid} {q : Slot} :
    ((endPass s c).cpus c').proc = some q ↔ c' ≠ c ∧ (s.cpus c').proc = some q := by
  by_cases h : c' = c
  · subst h
    simp
  · simp [endPass_cpus_of_ne s h, h]

/-! ## Sections that leave the CPU alone -/

theorem OneCpu.congr (h : OneCpu s) (hcpus : s'.cpus = s.cpus)
    (hnp : ∀ i, (s'.procs i).np = (s.procs i).np)
    (hrun : ∀ i, (s'.procs i).state = .running ↔ (s.procs i).state = .running)
    (hemb : ∀ i, (s.procs i).state = .embryo → (s'.procs i).state = .embryo) : OneCpu s' where
  running i := by rw [hrun, hcpus, h.running]
  inj hc hc' := by
    rw [hcpus] at hc hc'
    exact h.inj hc hc'
  idle c := by
    rw [hcpus]
    exact h.idle c
  embryo hq := by
    rw [hnp] at hq
    exact hemb _ (h.embryo hq)
  npInj hq hq' := by
    rw [hnp] at hq hq'
    exact h.npInj hq hq'

theorem OneCpu.roused (h : OneCpu s) (hcpus : s'.cpus = s.cpus)
    (hw : ∀ i, Roused (s.procs i) (s'.procs i)) : OneCpu s' :=
  h.congr hcpus (fun i => (hw i).np) (fun i => (hw i).state_iff (by simp) (by simp))
    fun i => ((hw i).state_iff (by simp) (by simp)).mpr

/-- A process that is on a CPU is neither a zombie nor being made. -/
theorem OneCpu.state_eq (h : OneCpu s) (hp : (s.cpus c).proc = some p) :
    (s.procs p).state = .running :=
  (h.running p).mpr ⟨c, hp⟩

/-- A CPU outside a pass is idle already. -/
theorem OneCpu.endPass_eq (h : OneCpu s) (hpc : (s.cpus c).pc = .top) : endPass s c = s := by
  have hcpu : s.cpus c = ⟨none, .top⟩ := by
    rw [← h.idle c hpc, ← hpc]
  unfold endPass
  rw [← hcpu, update_eq_self]

/-! ## Leaving the CPU and getting it -/

/-- The process on CPU `c` calls `sched` in another state. -/
theorem OneCpu.leave (h : OneCpu s) (hp : (s.cpus c).proc = some p) (hcpus : s'.cpus = s.cpus)
    (hnp : ∀ i, (s'.procs i).np = (s.procs i).np)
    (hrest : ∀ i, i ≠ p → Roused (s.procs i) (s'.procs i))
    (hst : (s'.procs p).state ≠ .running) : OneCpu (endPass s' c) where
  running i := by
    rw [endPass_procs]
    simp only [endPass_proc, hcpus]
    by_cases hi : i = p
    · subst hi
      refine iff_of_false hst ?_
      rintro ⟨c', hne, hc'⟩
      exact hne (h.inj hc' hp)
    · rw [(hrest i hi).state_iff (by simp) (by simp), h.running]
      refine exists_congr fun c' => (and_iff_right_of_imp fun hc' => ?_).symm
      rintro rfl
      exact hi (Option.some.inj (hc'.symm.trans hp))
  inj hc hc' := by
    rw [endPass_proc, hcpus] at hc hc'
    exact h.inj hc.2 hc'.2
  idle c' hpc := by
    by_cases hc : c' = c
    · rw [hc, endPass_cpus_self]
    · rw [endPass_cpus_of_ne s' hc, hcpus] at hpc ⊢
      exact h.idle c' hpc
  embryo {i q} hq := by
    rw [endPass_procs, hnp] at hq
    have hemb := h.embryo hq
    have hqp : q ≠ p := by
      rintro rfl
      rw [h.state_eq hp] at hemb
      cases hemb
    exact ((hrest q hqp).state_iff (by simp) (by simp)).mpr hemb
  npInj hq hq' := by
    rw [endPass_procs, hnp] at hq hq'
    exact h.npInj hq hq'

/-- The scheduler of CPU `c` switches to a `RUNNABLE` process. -/
theorem OneCpu.switchTo (h : OneCpu (endPass s c)) {pc : SchedPc} (hpc : pc ≠ .top)
    (hp : (s.procs p).state = .runnable) : OneCpu (switchTo s c pc p) := by
  have hfree : ∀ c', c' ≠ c → (s.cpus c').proc ≠ some p := by
    intro c' hc' hproc
    have := (h.running p).mpr ⟨c', endPass_proc.mpr ⟨hc', hproc⟩⟩
    rw [endPass_procs, hp] at this
    cases this
  have hself : (Ptable.switchTo s c pc p).cpus c = ⟨some p, pc⟩ := update_self _ _ _
  have hother : ∀ c', c' ≠ c → (Ptable.switchTo s c pc p).cpus c' = s.cpus c' := fun c' hc' =>
    update_of_ne hc' _ _
  have hprocs : ∀ i, i ≠ p → (Ptable.switchTo s c pc p).procs i = s.procs i := fun i hi =>
    update_of_ne hi _ _
  have hrun : ((Ptable.switchTo s c pc p).procs p).state = .running := by
    simp [Ptable.switchTo, State.setProc]
  have hnp : ∀ i, ((Ptable.switchTo s c pc p).procs i).np = (s.procs i).np := by
    intro i
    by_cases hi : i = p
    · subst hi
      simp [Ptable.switchTo, State.setProc]
    · rw [hprocs i hi]
  constructor
  case running =>
    intro i
    by_cases hi : i = p
    · subst hi
      exact iff_of_true hrun ⟨c, by rw [hself]⟩
    · have hi' : (s.procs i).state = .running ↔ _ := h.running i
      rw [hprocs i hi, hi']
      refine exists_congr fun c' => ?_
      rw [endPass_proc]
      by_cases hc' : c' = c
      · subst hc'
        rw [hself]
        exact iff_of_false (fun h => h.1 rfl) fun h => hi (Option.some.inj h).symm
      · rw [hother c' hc']
        exact and_iff_right hc'
  case inj =>
    intro c₁ c₂ q h₁ h₂
    by_cases hc₁ : c₁ = c <;> by_cases hc₂ : c₂ = c
    · rw [hc₁, hc₂]
    · rw [hc₁, hself] at h₁
      rw [hother c₂ hc₂, ← h₁] at h₂
      exact absurd h₂ (hfree c₂ hc₂)
    · rw [hc₂, hself] at h₂
      rw [hother c₁ hc₁, ← h₂] at h₁
      exact absurd h₁ (hfree c₁ hc₁)
    · rw [hother c₁ hc₁] at h₁
      rw [hother c₂ hc₂] at h₂
      exact h.inj (endPass_proc.mpr ⟨hc₁, h₁⟩) (endPass_proc.mpr ⟨hc₂, h₂⟩)
  case idle =>
    intro c' htop
    by_cases hc' : c' = c
    · rw [hc', hself] at htop
      exact absurd htop hpc
    · rw [hother c' hc'] at htop ⊢
      have := h.idle c'
      rw [endPass_cpus_of_ne s hc'] at this
      exact this htop
  case embryo =>
    intro i q hq
    rw [hnp] at hq
    have hemb : (s.procs q).state = .embryo := h.embryo hq
    have hqp : q ≠ p := by
      rintro rfl
      rw [hp] at hemb
      cases hemb
    rw [hprocs q hqp]
    exact hemb
  case npInj =>
    intro i i' q hq hq'
    rw [hnp] at hq hq'
    exact h.npInj hq hq'

/-- `wait`, from the top of its loop. -/
theorem OneCpu.wait (h : OneCpu s) (hp : (s.cpus c).proc = some p) :
    (wait s p).Ends OneCpu fun t => OneCpu (endPass t c) := by
  have hrun := h.state_eq hp
  unfold Ptable.wait
  split
  · rename_i i hi
    obtain ⟨-, hz⟩ := waitScan_reaped hi
    have hip : i ≠ p := by
      rintro rfl
      rw [hrun] at hz
      cases hz
    refine h.congr rfl (fun j => ?_) (fun j => ?_) fun j hj => ?_ <;>
      by_cases hjp : j = p <;> by_cases hji : j = i <;>
        simp_all [State.setProc, update_apply]
  · exact h.roused rfl fun i => (woken_update (woken_inWait _ false) i).toRoused
  · refine h.leave hp rfl (fun i => ?_) (fun i hi => ?_) ?_
    · by_cases hi : i = p <;> simp [State.setProc, Ptable.sleep, hi]
    · simp [State.setProc, Ptable.sleep, hi, Roused.refl]
    · simp [State.setProc, Ptable.sleep]

/-- The moves of a pass keep the invariant. -/
theorem oneCpu_passRule (c : Cid) : PassRule c OneCpu fun t => OneCpu (endPass t c) where
  flags s g f h := h.congr rfl (fun _ => rfl) (fun _ => Iff.rfl) fun _ => id
  dispatch s pc p h hpc hp := by
    have hs := h.switchTo hpc hp
    unfold dispatch
    dsimp only
    split
    · refine hs.wait ?_
      simp [switchTo]
    · exact hs
  endPass _ h := h

/-! ## `fork` -/

section

variable (h : OneCpu s)
include h

/-- `cur` remembers the slot that `allocproc` marked for it. -/
theorem OneCpu.own {q : Slot} (hemb : (s.procs q).state = .embryo)
    (hfree : ∀ i, (s.procs i).np ≠ some q) (cur : Slot) :
    OneCpu (s.setProc cur { s.procs cur with np := some q }) := by
  have hstate : ∀ i, ((s.setProc cur { s.procs cur with np := some q }).procs i).state =
      (s.procs i).state := by
    intro i
    by_cases hi : i = cur <;> simp [State.setProc, hi]
  have hself : ((s.setProc cur { s.procs cur with np := some q }).procs cur).np = some q := by
    simp [State.setProc]
  have hother : ∀ i, i ≠ cur →
      ((s.setProc cur { s.procs cur with np := some q }).procs i).np = (s.procs i).np := by
    intro i hi
    simp [State.setProc, hi]
  constructor
  case running =>
    intro i
    rw [hstate]
    exact h.running i
  case inj => exact h.inj
  case idle => exact h.idle
  case embryo =>
    intro i r hr
    rw [hstate]
    by_cases hi : i = cur
    · rw [hi, hself] at hr
      exact Option.some.inj hr ▸ hemb
    · rw [hother i hi] at hr
      exact h.embryo hr
  case npInj =>
    intro i i' r hr hr'
    by_cases hi : i = cur <;> by_cases hi' : i' = cur
    · rw [hi, hi']
    · rw [hi, hself] at hr
      rw [hother i' hi', ← hr] at hr'
      exact absurd hr' (hfree i')
    · rw [hi', hself] at hr'
      rw [hother i hi, ← hr'] at hr
      exact absurd hr (hfree i)
    · rw [hother i hi] at hr
      rw [hother i' hi'] at hr'
      exact h.npInj hr hr'

/-- `fork` hands its slot on, as a process or back. -/
theorem OneCpu.delivered (hcpus : s'.cpus = s.cpus) {cur q : Slot} (hq : (s.procs cur).np = some q)
    (hst : (s'.procs q).state ≠ .running)
    (hrest : ∀ i, i ≠ q → (s'.procs i).state = (s.procs i).state) (hcur : (s'.procs cur).np = none)
    (hnp : ∀ i r, (s'.procs i).np = some r → (s.procs i).np = some r) : OneCpu s' := by
  have hemb := h.embryo hq
  constructor
  case running =>
    intro i
    rw [hcpus, ← h.running]
    by_cases hi : i = q
    · subst hi
      rw [hemb]
      exact iff_of_false hst (by simp)
    · rw [hrest i hi]
  case inj =>
    rw [hcpus]
    exact h.inj
  case idle =>
    rw [hcpus]
    exact h.idle
  case embryo =>
    intro i r hr
    have hrq : r ≠ q := by
      rintro rfl
      obtain rfl := h.npInj hq (hnp i r hr)
      rw [hcur] at hr
      cases hr
    rw [hrest r hrq]
    exact h.embryo (hnp i r hr)
  case npInj =>
    exact fun hr hr' => h.npInj (hnp _ _ hr) (hnp _ _ hr')

/-- A marked slot that no `fork` is filling becomes a process. -/
theorem OneCpu.start {q : Slot} (hemb : (s.procs q).state = .embryo)
    (hfree : ∀ i, (s.procs i).np ≠ some q) :
    OneCpu (s.setProc q { s.procs q with state := .runnable }) where
  running i := by
    by_cases hi : i = q
    · subst hi
      rw [setProc_self]
      exact iff_of_false (by simp) fun ⟨c, hc⟩ => by
        rw [h.state_eq hc] at hemb
        cases hemb
    · rw [setProc_of_ne s _ hi]
      exact h.running i
  inj := h.inj
  idle := h.idle
  embryo {i r} hr := by
    have hr' : (s.procs i).np = some r := by
      by_cases hi : i = q
      · subst hi
        simpa [State.setProc] using hr
      · simpa [State.setProc, hi] using hr
    have hrq : r ≠ q := by
      rintro rfl
      exact hfree i hr'
    rw [setProc_of_ne s _ hrq]
    exact h.embryo hr'
  npInj {i i' r} hr hr' := by
    have hnp : ∀ j, ((s.setProc q { s.procs q with state := .runnable }).procs j).np =
        (s.procs j).np := by
      intro j
      by_cases hj : j = q <;> simp [State.setProc, hj]
    rw [hnp] at hr hr'
    exact h.npInj hr hr'

/-- The sort moves no process that runs or is being made. -/
theorem OneCpu.reorder {σ : Equiv.Perm Slot} (hσ : Reorders σ s.procs) :
    OneCpu { s with procs := s.procs ∘ σ } where
  running i := by
    show (s.procs (σ i)).state = .running ↔ _
    by_cases hi : (s.procs i).state = .runnable
    · rw [hσ.runnable hi, ← h.running i, hi]
    · rw [hσ i hi]
      exact h.running i
  inj := h.inj
  idle := h.idle
  embryo {i q} hq := by
    have hemb : (s.procs q).state = .embryo := h.embryo hq
    show (s.procs (σ q)).state = .embryo
    rw [hσ q (by simp [hemb])]
    exact hemb
  npInj hq hq' := σ.injective (h.npInj hq hq')

/-- `allocproc` marks a slot that no `fork` is filling. -/
theorem OneCpu.allocproc {q : Slot} (hq : (s.procs q).state = .unused) :
    OneCpu (allocproc cfg s q) ∧ ((allocproc cfg s q).procs q).state = .embryo ∧
      ∀ i, ((allocproc cfg s q).procs i).np ≠ some q := by
  have hfree : ∀ i, (s.procs i).np ≠ some q := by
    intro i hi
    have := h.embryo hi
    rw [hq] at this
    cases this
  -- The state before the sort, which the other policies leave as it is but for `piority`.
  have key : ∀ s' : State, s'.cpus = s.cpus → (s'.procs q).state = .embryo →
      (∀ i, i ≠ q → s'.procs i = s.procs i) → (∀ i, (s'.procs i).np = (s.procs i).np) →
        OneCpu s' ∧ (s'.procs q).state = .embryo ∧ ∀ i, (s'.procs i).np ≠ some q := by
    intro s' hcpus hemb hrest hnp
    refine ⟨h.congr hcpus hnp (fun i => ?_) fun i hi => ?_, hemb, fun i => ?_⟩
    · by_cases hiq : i = q
      · rw [hiq, hemb, hq]
        exact iff_of_false (by simp) (by simp)
      · rw [hrest i hiq]
    · by_cases hiq : i = q
      · rw [hiq]
        exact hemb
      · rw [hrest i hiq]
        exact hi
    · rw [hnp]
      exact hfree i
  unfold Ptable.allocproc
  dsimp only
  split
  · obtain ⟨h₁, hemb, hnp⟩ := key { s.setProc q { s.procs q with
        state := .embryo, pid := s.nextpid, rtime := 0, ctime := s.ticks, allChildSize := 0,
        exits := 0 } with nextpid := int32 (s.nextpid + 1) } rfl (by simp [State.setProc])
      (fun i hi => by simp [State.setProc, hi])
      (fun i => by by_cases hi : i = q <;> simp [State.setProc, hi])
    obtain ⟨σ, hσ, hsort⟩ := sortProcessFIFO_eq (s.setProc q { s.procs q with
      state := .embryo, pid := s.nextpid, rtime := 0, ctime := s.ticks, allChildSize := 0,
      exits := 0 }).procs
    dsimp only
    rw [hsort]
    refine ⟨h₁.reorder hσ, ?_, fun i => hnp (σ i)⟩
    show (State.procs _ (σ q)).state = _
    rw [hσ q (by rw [hemb]; simp)]
    exact hemb
  · refine key _ rfl ?_ (fun i hi => ?_) fun i => ?_
    · simp [State.setProc]
    · simp [State.setProc, hi]
    · by_cases hi : i = q <;> simp [State.setProc, hi]
  · refine key _ rfl ?_ (fun i hi => ?_) fun i => ?_
    · simp [State.setProc]
    · simp [State.setProc, hi]
    · by_cases hi : i = q <;> simp [State.setProc, hi]

theorem OneCpu.fork (cur : Slot) : OneCpu (fork cfg s cur) := by
  unfold Ptable.fork
  split
  · exact h
  · rename_i q hq
    have hfree : (s.procs q).state = .unused := by simpa using List.find?_some hq
    obtain ⟨h₁, hemb, hnp⟩ : OneCpu (Ptable.allocproc cfg s q) ∧ _ ∧ _ := h.allocproc hfree
    exact h₁.own hemb hnp cur

/-- The slot that `fork` fills is not the forking process's own. -/
theorem OneCpu.forking_ne {cur q : Slot} (hf : s.forking c = some (cur, q)) :
    cur ≠ q := by
  obtain ⟨hon, hq⟩ := forking_eq_some.mp hf
  rintro rfl
  have := h.embryo hq
  rw [h.state_eq hon] at this
  cases this

theorem OneCpu.forkFail {cur q : Slot} (hf : s.forking c = some (cur, q)) :
    OneCpu (forkFail s cur q) := by
  obtain ⟨-, hq⟩ := forking_eq_some.mp hf
  have hne := (h.forking_ne hf).symm
  refine h.delivered rfl hq ?_ (fun i hi => ?_) ?_ fun i r hr => ?_
  · simp [Ptable.forkFail, State.setProc, hne]
  · by_cases hic : i = cur <;> simp [Ptable.forkFail, State.setProc, hi, hic, hne.symm]
  · simp [Ptable.forkFail, State.setProc]
  · by_cases hic : i = cur <;> by_cases hiq : i = q <;>
      simp_all [Ptable.forkFail, State.setProc]

theorem OneCpu.forkDone {cur q : Slot} (hf : s.forking c = some (cur, q)) :
    OneCpu (forkDone s cur q) := by
  obtain ⟨-, hq⟩ := forking_eq_some.mp hf
  have hne := (h.forking_ne hf).symm
  refine h.delivered rfl hq ?_ (fun i hi => ?_) ?_ fun i r hr => ?_
  · simp [Ptable.forkDone, State.setProc, hne]
  · by_cases hic : i = cur <;> simp [Ptable.forkDone, State.setProc, hi, hic, hne.symm]
  · simp [Ptable.forkDone, State.setProc]
  · by_cases hic : i = cur <;> by_cases hiq : i = q <;>
      simp_all [Ptable.forkDone, State.setProc]

end

/-! ## Steps and runs -/

theorem OneCpu.exit (h : OneCpu s) {cur par : Slot} (hon : (s.cpus c).proc = some cur) :
    OneCpu (endPass (exit s cur par) c) := by
  refine h.leave hon rfl (exit_np s cur par) (fun i hi => exit_roused s par hi) ?_
  rw [exit_self]
  simp

theorem OneCpu.yield (h : OneCpu s) (hp : (s.cpus c).proc = some p) :
    (yield cfg s p).Ends OneCpu fun t => OneCpu (endPass t c) := by
  unfold Ptable.yield
  split
  · exact h
  split
  · exact h
  split
  · refine h.congr rfl (fun i => ?_) (fun i => ?_) fun i hi => ?_ <;>
      by_cases hip : i = p <;> simp_all [State.setProc]
  · refine h.leave hp rfl (fun i => ?_) (fun i hi => ?_) ?_
    · by_cases hip : i = p <;> simp [State.setProc, hip]
    · simp [State.setProc, hi, Roused.refl]
    · simp [State.setProc]

theorem OneCpu.sleep (h : OneCpu s) (hp : (s.cpus c).proc = some p) (chan : Chan) :
    OneCpu (endPass (sleep s p chan) c) := by
  refine h.leave hp rfl (fun i => ?_) (fun i hi => ?_) ?_
  · by_cases hip : i = p <;> simp [Ptable.sleep, State.setProc, hip]
  · simp [Ptable.sleep, State.setProc, hi, Roused.refl]
  · simp [Ptable.sleep, State.setProc]

/-- The process's own part of a step. -/
theorem OneCpu.entry (h : OneCpu s) {o : Outcome} (hent : entry cfg s a = some (c, o)) :
    o.Ends OneCpu fun t => OneCpu (endPass t c) := by
  cases entry_cases hent with
  | schedule c hpc => exact (oneCpu_passRule c).pass ((h.endPass_eq hpc).symm ▸ h)
  | fork c cur _ => exact h.fork cur
  | forkFail c cur q hf => exact h.forkFail hf
  | forkDone c cur q hf => exact h.forkDone hf
  | exit c cur par hcur _ _ => exact h.exit (caller_eq_some.mp hcur).1
  | wait c cur hcur => exact h.wait (caller_eq_some.mp hcur).1
  | sleep c addr cur hcur => exact h.sleep (caller_eq_some.mp hcur).1 _
  | yield c cur hcur => exact h.yield hcur
  | nice c cur _ => exact h.roused (nice_frame s cur).1 fun i => (nice_woken s cur i).toRoused
  | kill c pid cur _ => exact h.roused rfl fun i => (kill_woken s.procs pid i).toRoused
  | wakeup addr => exact h.roused rfl fun i => (wakeup1_woken s.procs _ i).toRoused
  | tick => exact h.roused (tick_frame s).1 fun i => (tick_woken s i).toRoused

/-- A process that calls `sched` is the current one of its CPU. -/
theorem entry_sched {t : State} (hent : entry cfg s a = some (c, .sched t)) :
    ∃ p, (s.cpus c).proc = some p := by
  generalize ho : Outcome.sched t = o at hent
  cases entry_cases hent with
  | exit c p q hp _ _ => exact ⟨p, (caller_eq_some.mp hp).1⟩
  | wait c p hp => exact ⟨p, (caller_eq_some.mp hp).1⟩
  | sleep c addr p hp => exact ⟨p, (caller_eq_some.mp hp).1⟩
  | yield c p hp => exact ⟨p, hp⟩
  | _ => cases ho

/-- **The rule for steps.**  A step is a pass from its top, or a section and the rest of a
pass. -/
theorem OneCpu.step_rule (h : OneCpu s) {I : State → Prop} {H : Cid → State → Prop}
    (R : ∀ c, PassRule c I (H c)) (hpass : ∀ c, (s.cpus c).pc = .top → H c s)
    (hent : (∀ c, a ≠ .schedule c) → ∀ c o, Ptable.entry cfg s a = some (c, o) → o.Ends I (H c))
    (hs : step cfg s a = some s') : I s' := by
  obtain ⟨⟨c, o⟩, ho, rfl⟩ := Option.map_eq_some_iff.mp hs
  by_cases hsched : ∃ c', a = .schedule c'
  · obtain ⟨c', rfl⟩ := hsched
    obtain ⟨hpc, heq⟩ := Option.ite_none_right_eq_some.mp ho
    obtain ⟨rfl, rfl⟩ := Prod.mk.inj (Option.some.inj heq)
    exact (R c').pass (hpass c' hpc)
  · have hne : ∀ c', a ≠ .schedule c' := fun c' hc => hsched ⟨c', hc⟩
    refine (R c).finish (hent hne c o ho) fun t hot hpc => ?_
    -- A process that calls `sched` was on the CPU, so its pass has begun.
    subst hot
    have hcpus : t.cpus = s.cpus := (entry_sameSched hne ho).cpus
    obtain ⟨p, hp⟩ := entry_sched ho
    rw [h.idle c (hcpus ▸ hpc)] at hp
    cases hp

/-- **Every step** keeps the invariant. -/
theorem OneCpu.step (h : OneCpu s) (hs : step cfg s a = some s') : OneCpu s' :=
  h.step_rule oneCpu_passRule (fun _ hpc => (h.endPass_eq hpc).symm ▸ h)
    (fun _ _ _ hent => h.entry hent) hs

theorem oneCpu_boot (cfg : Config) : OneCpu (boot cfg) := by
  have h0 : OneCpu emptyTable :=
    ⟨fun _ => iff_of_false (by simp [emptyTable, zeroProc]) (by simp [emptyTable]),
      fun h => absurd h (by simp [emptyTable]), fun _ _ => rfl,
      fun h => absurd h (by simp [emptyTable, zeroProc]),
      fun h => absurd h (by simp [emptyTable, zeroProc])⟩
  obtain ⟨h, hemb, hfree⟩ : OneCpu (allocproc cfg emptyTable 0) ∧ _ ∧ _ := h0.allocproc rfl
  exact h.start hemb hfree

/-- **A process runs on at most one CPU.**  Under every policy, on any number of CPUs and in
every interleaving, whenever the lock is free a process is `RUNNING` exactly when it is
the current process of exactly one CPU, and no CPU's current process is in another
state. -/
theorem one_cpu (cfg : Config) (xs : List Action) :
    Throughout (step cfg) (fun s =>
      (∀ p, (s.procs p).state = .running ↔ ∃! c, (s.cpus c).proc = some p) ∧
      ∀ c p, (s.cpus c).proc = some p → (s.procs p).state = .running) (boot cfg) xs := by
  have hinv : Throughout (step cfg) OneCpu (boot cfg) xs :=
    throughout_invariant (fun _ _ _ h _ hst => h.step hst) (oneCpu_boot cfg) along_true
  refine hinv.mono fun s h => ⟨fun p => ?_, fun c p hp => h.state_eq hp⟩
  rw [h.running]
  constructor
  · rintro ⟨c, hc⟩
    exact ⟨c, hc, fun c' hc' => h.inj hc' hc⟩
  · exact fun hc => hc.exists

/-! ## Runs on CPU 0 alone -/

/-- The CPU an action is on.  Interrupts are served by CPU 0. -/
def Action.cpu : Action → Cid
  | .schedule c => c
  | .fork c => c
  | .forkFail c => c
  | .forkDone c => c
  | .exit c => c
  | .wait c => c
  | .sleep c _ => c
  | .yield c => c
  | .nice c => c
  | .kill c _ => c
  | .wakeup _ => 0
  | .tick => 0

theorem entry_cpu {o : Outcome} (hent : entry cfg s a = some (c, o)) : c = a.cpu := by
  cases entry_cases hent <;> rfl

/-- Only CPU 0 has a process. -/
def OnlyCpu0 (s : State) : Prop := ∀ c, c ≠ 0 → (s.cpus c).proc = none

theorem OnlyCpu0.eq_zero (h : OnlyCpu0 s) (hp : (s.cpus c).proc = some p) : c = 0 := by
  by_contra hc
  simp [h c hc] at hp

theorem onlyCpu0_passRule : PassRule 0 OnlyCpu0 OnlyCpu0 where
  flags _ _ _ h := h
  dispatch s pc p h _ _ := by
    refine Outcome.ends_state (I := OnlyCpu0) fun c hc => ?_
    simp [(dispatch_sameSched s 0 pc p).cpus, switchTo, hc, h c hc]
  endPass s h c hc := by simp [endPass_cpus_of_ne s hc, h c hc]

theorem OnlyCpu0.step (h : OnlyCpu0 s) (ha : a.cpu = 0) (hs : step cfg s a = some s') :
    OnlyCpu0 s' := by
  obtain ⟨⟨c, o⟩, hent, rfl⟩ := Option.map_eq_some_iff.mp hs
  obtain rfl : c = 0 := (entry_cpu hent).trans ha
  by_cases hsched : ∃ c, a = .schedule c
  · obtain ⟨c, rfl⟩ := hsched
    cases entry_cases hent
    exact onlyCpu0_passRule.pass h
  · have hsame := entry_sameSched (fun c hc => hsched ⟨c, hc⟩) hent
    have ho : OnlyCpu0 o.state := by
      rw [OnlyCpu0, hsame.cpus]
      exact h
    refine onlyCpu0_passRule.finish (Outcome.ends_state ho) fun t (ht : o = .sched t) _ => ?_
    rw [ht] at ho
    exact ho

end Xv6.Ptable
