import Xv6.Ptable.OnCpu

/-!
# Timer preemption

A timer interrupt calls `yield`, which counts up to `QUANTA` interrupts in `processCounter`
and then gives the CPU up; the three dispatch sites of `scheduler` reset the counter.  So a
process should take at most `QUANTA + 1` timer interrupts between being switched to and
leaving `RUNNING`.  But under Q3 `yield` returns at once in a process of the highest
priority.

The interrupts are counted in a history variable beside the state: for every slot one
entry per turn, the last turn first.

## Main definitions

* `Timed`, `timedStep` — the machine with its turns; a timer interrupt is taken in user
  mode or in the kernel.
* `SinceBase b u` — what a pass has done since state `b`.

## Main results

* `timer_preemption` — no turn has more than `QUANTA + 1` interrupts from user mode in a run
  in which none is taken by a process of the highest priority.
* `high_keeps_cpu` — a process of the highest priority takes seven.
-/

namespace Xv6.Ptable

open Machine

/-! ## The machine -/

/-- The machine and, for every slot, the timer interrupts taken from user mode in each of
its turns on a CPU, the last turn first. -/
structure Timed where
  state : State
  turns : Slot → List ℕ

/-- A timer interrupt on a CPU, taken in user mode or in the kernel, or another step. -/
inductive TimedAction
  | timer (c : Cid) (user : Bool)
  | other (a : Action)
  deriving DecidableEq

/-- The process on CPU `c` was killed. -/
def killedOn (s : State) (c : Cid) : Bool := (s.cpus c).proc.any fun p => (s.procs p).killed

/-- What `trap` does: a killed process exits when interrupted in user mode, and every other
one calls `yield`.  Nothing else calls `yield`. -/
def TimedAction.action (s : State) : TimedAction → Option Action
  | .timer c user => some (if user && killedOn s c then .exit c else .yield c)
  | .other (.yield _) => none
  | .other a => some a

/-- The process that takes a timer interrupt in user mode. -/
def interrupted (s : State) : TimedAction → Option Slot
  | .timer c true => (s.cpus c).proc
  | _ => none

/-- The slots switched to between `b` and `u`. -/
def newSlots (b u : State) : List Slot := (u.switches.drop b.switches.length).map Switch.slot

def countInterrupt (turns : Slot → List ℕ) : Option Slot → Slot → List ℕ
  | none => turns
  | some p => Function.update turns p ((turns p).modifyHead (· + 1))

def startTurns (turns : Slot → List ℕ) (slots : List Slot) (p : Slot) : List ℕ :=
  List.replicate (slots.count p) 0 ++ turns p

def timedStep (cfg : Config) (t : Timed) (a : TimedAction) : Option Timed :=
  (a.action t.state).bind fun act => (step cfg t.state act).map fun s' =>
    ⟨s', startTurns (countInterrupt t.turns (interrupted t.state a)) (newSlots t.state s')⟩

def timedBoot (cfg : Config) : Timed := ⟨boot cfg, fun _ => []⟩

/-! ## What a pass does to the current processes -/

/-- Since `b`, a CPU has kept its process and the counter of it, or switched to a new one
with counter 0. -/
structure SinceBase (b u : State) : Prop where
  one : OneCpu u
  history : b.switches <+: u.switches
  current : ∀ c p, (u.cpus c).proc = some p →
    p ∈ newSlots b u ∧ (u.procs p).processCounter = 0 ∨
    p ∉ newSlots b u ∧ (b.cpus c).proc = some p ∧
      (u.procs p).processCounter = (b.procs p).processCounter

variable {cfg : Config} {c : Cid} {s s' b u u' : State} {p : Slot} {a : Action}

@[simp] theorem newSlots_self (b : State) : newSlots b b = [] := by
  simp [newSlots]

theorem newSlots_append (sw : Switch) (h : b.switches <+: u.switches)
    (hu : u'.switches = u.switches ++ [sw]) : newSlots b u' = newSlots b u ++ [sw.slot] := by
  rw [newSlots, hu, List.drop_append_of_le_length h.length_le, List.map_append]
  rfl

theorem SinceBase.refl (h : OneCpu b) : SinceBase b b :=
  ⟨h, List.prefix_refl _, fun c p hp => .inr ⟨by simp, hp, rfl⟩⟩

/-- Sections that switch to nobody and count nothing. -/
theorem SinceBase.frame (h : SinceBase b u) (one : OneCpu u') (hsw : u'.switches = u.switches)
    (hcpus : ∀ c p, (u'.cpus c).proc = some p → (u.cpus c).proc = some p)
    (hcount : ∀ i, (u'.procs i).processCounter = (u.procs i).processCounter) :
    SinceBase b u' := by
  refine ⟨one, hsw ▸ h.history, fun c p hp => ?_⟩
  have hnew : newSlots b u' = newSlots b u := by
    rw [newSlots, hsw]
    rfl
  rw [hnew, hcount]
  exact h.current c p (hcpus c p hp)

theorem SinceBase.switchTo (h : SinceBase b (endPass u c)) {pc : SchedPc} (hpc : pc ≠ .top)
    (hp : (u.procs p).state = .runnable) : SinceBase b (switchTo u c pc p) := by
  have hone := h.one.switchTo hpc hp
  have hnew : newSlots b (Ptable.switchTo u c pc p) = newSlots b u ++ [p] :=
    newSlots_append ⟨p, u.procs⟩ h.history rfl
  refine ⟨hone, h.history.trans (List.prefix_append _ _), fun c' q hq => ?_⟩
  rw [hnew]
  by_cases hqp : q = p
  · subst hqp
    exact .inl ⟨by simp, by simp [Ptable.switchTo, State.setProc]⟩
  · -- Another process: it is on another CPU, and nothing happened to it.
    have hc' : c' ≠ c := by
      rintro rfl
      have : ((Ptable.switchTo u c' pc p).cpus c').proc = some p := by
        simp [Ptable.switchTo]
      exact hqp (Option.some.inj (hq.symm.trans this))
    have hold : (u.cpus c').proc = some q := by
      simpa [Ptable.switchTo, hc'] using hq
    have hcount : ((Ptable.switchTo u c pc p).procs q).processCounter =
        (u.procs q).processCounter := by
      simp [Ptable.switchTo, State.setProc, hqp]
    rw [hcount, List.mem_append, List.mem_singleton, or_iff_left hqp]
    exact h.current c' q (endPass_proc.mpr ⟨hc', hold⟩)

theorem sinceBase_passRule (b : State) (c : Cid) :
    PassRule c (SinceBase b) fun u => SinceBase b (endPass u c) where
  flags u g f h := ⟨(oneCpu_passRule c).flags u g f h.one, h.history, h.current⟩
  dispatch u pc p h hpc hp := by
    have hs := h.switchTo hpc hp
    unfold dispatch
    dsimp only
    split
    · have hon : ((switchTo u c pc p).cpus c).proc = some p := by simp [switchTo]
      have hends := hs.one.wait hon
      obtain ⟨hcpus, hsw, -, -⟩ := wait_sameSched (switchTo u c pc p) p
      have hcount := wait_proj Proc.processCounter (fun _ => rfl) (fun _ _ => rfl)
        (fun _ _ => rfl) (switchTo u c pc p) p
      cases hout : wait (switchTo u c pc p) p with
      | released v =>
        rw [hout] at hends hsw hcpus hcount
        exact hs.frame hends hsw (fun c' q hq => hcpus ▸ hq) hcount
      | sched v =>
        rw [hout] at hends hsw hcpus hcount
        exact hs.frame hends hsw (fun c' q hq => hcpus ▸ (endPass_proc.mp hq).2) hcount
    · exact hs
  endPass _ h := h

/-! ## Steps -/

/-- Only `yield` and the scheduler touch the counter. -/
theorem entry_processCounter (hcfg : cfg.policy = .Q3) (hne : ∀ c, a ≠ .schedule c)
    (hny : ∀ c, a ≠ .yield c) {o : Outcome} (hent : entry cfg s a = some (c, o)) (i : Slot) :
    (o.state.procs i).processCounter = (s.procs i).processCounter := by
  cases entry_cases hent with
  | schedule c _ => exact absurd rfl (hne c)
  | yield c p _ => exact absurd rfl (hny c)
  | fork c cur _ => exact fork_proj _ hcfg (fun _ => rfl) (fun _ _ => rfl) cur i
  | forkFail c cur q _ => exact forkFail_proj _ (fun _ => rfl) (fun _ _ => rfl) s cur q i
  | forkDone c cur q _ => exact forkDone_proj _ (fun _ _ => rfl) (fun _ _ => rfl) s cur q i
  | exit c cur par _ _ _ =>
    show ((exit s cur par).procs i).processCounter = _
    by_cases hi : i = cur
    · rw [hi, exit_self]
      exact (abandon_exitRecorded_roused s cur par cur).processCounter
    · exact (exit_roused s par hi).processCounter
  | wait c cur _ => exact wait_proj _ (fun _ => rfl) (fun _ _ => rfl) (fun _ _ => rfl) s cur i
  | sleep c addr cur _ => exact sleep_proj _ (fun _ _ => rfl) s cur _ i
  | nice c cur _ => exact (nice_woken s cur i).processCounter
  | kill c pid cur _ => exact (kill_woken s.procs pid i).processCounter
  | wakeup addr => exact (wakeup1_woken s.procs _ i).processCounter
  | tick => exact (tick_woken s i).processCounter

/-- What one timer interrupt does to the process that stays on its CPU. -/
def CountsTimer (s b : State) (p : Slot) : Prop :=
  (s.procs p).piority = highPiority ∧
    (b.procs p).processCounter = (s.procs p).processCounter ∨
  (s.procs p).processCounter < QUANTA ∧
    (b.procs p).processCounter = (s.procs p).processCounter + 1

/-- `yield` counts, or the process leaves its CPU. -/
theorem yield_released (hcfg : cfg.policy = .Q3) {t : State}
    (h : yield cfg s p = .released t) : CountsTimer s t p := by
  unfold yield at h
  rw [if_neg (by simp [hcfg])] at h
  split at h
  · rename_i hhigh
    cases h
    exact .inl ⟨hhigh.1, rfl⟩
  split at h
  · rename_i hlt
    cases h
    exact .inr ⟨hlt, by rw [setProc_self]⟩
  · cases h

theorem yield_processCounter_of_ne {i : Slot} (hi : i ≠ p) :
    ((yield cfg s p).state.procs i).processCounter = (s.procs i).processCounter := by
  unfold yield
  split
  · rfl
  split
  · rfl
  split <;> exact congrArg Proc.processCounter (setProc_of_ne s _ hi)

/-- A step leads to a base, where the processes that stay on their CPUs have counted, and a
pass goes on from there. -/
theorem exists_base (hcfg : cfg.policy = .Q3) (h : OneCpu s) (hs : step cfg s a = some s') :
    ∃ b, SinceBase b s' ∧ b.switches = s.switches ∧ ∀ c p, (b.cpus c).proc = some p →
      (s.cpus c).proc = some p ∧ a ≠ .exit c ∧ (a = .yield c → CountsTimer s b p) ∧
        (a ≠ .yield c → (b.procs p).processCounter = (s.procs p).processCounter) := by
  obtain ⟨⟨c, o⟩, hent, rfl⟩ := Option.map_eq_some_iff.mp hs
  by_cases hsched : ∃ c', a = .schedule c'
  · obtain ⟨c', rfl⟩ := hsched
    obtain ⟨hpc, heq⟩ := Option.ite_none_right_eq_some.mp hent
    obtain ⟨rfl, rfl⟩ := Prod.mk.inj (Option.some.inj heq)
    have hbase : SinceBase s (endPass s c') := (h.endPass_eq hpc).symm ▸ SinceBase.refl h
    refine ⟨s, (sinceBase_passRule s c').pass hbase, rfl, fun c p hp => ?_⟩
    exact ⟨hp, by simp, fun hy => (by cases hy), fun _ => rfl⟩
  · have hne : ∀ c', a ≠ .schedule c' := fun c' hc => hsched ⟨c', hc⟩
    have hends := h.entry hent
    obtain ⟨hcpus, hsw, -, -⟩ := entry_sameSched hne hent
    -- Who is not interrupted keeps the counter.
    have hkeep : ∀ c' p, (s.cpus c').proc = some p → (a ≠ .yield c') →
        (o.state.procs p).processCounter = (s.procs p).processCounter := by
      intro c' p hp hny
      by_cases hy : ∃ c', a = .yield c'
      · obtain ⟨c'', rfl⟩ := hy
        cases entry_cases hent with
        | yield c cur hcur =>
          refine yield_processCounter_of_ne ?_
          rintro rfl
          exact hny (congrArg Action.yield (h.inj hcur hp))
      · exact entry_processCounter hcfg hne (fun c hc => hy ⟨c, hc⟩) hent p
    cases o with
    | released t =>
      refine ⟨t, SinceBase.refl hends, hsw, fun c' p hp => ?_⟩
      have hp' : (s.cpus c').proc = some p := hcpus ▸ hp
      generalize ho : Outcome.released t = o at hent
      refine ⟨hp', ?_, ?_, hkeep c' p hp'⟩
      · rintro rfl
        cases entry_cases hent
        cases ho
      · rintro rfl
        cases entry_cases hent with
        | yield c cur hcur =>
          obtain rfl : cur = p := Option.some.inj (hcur.symm.trans hp')
          exact yield_released hcfg ho.symm
    | sched t =>
      have htop : (t.cpus c).pc = .top → SinceBase (endPass t c) t := by
        intro hpc
        obtain ⟨p, hp⟩ := entry_sched hent
        have hidle := h.idle c (hcpus ▸ hpc)
        rw [hp] at hidle
        cases hidle
      refine ⟨endPass t c, (sinceBase_passRule (endPass t c) c).resume htop
        (SinceBase.refl hends), hsw, fun c' p hp => ?_⟩
      obtain ⟨hc', hp⟩ := endPass_proc.mp hp
      have hp' : (s.cpus c').proc = some p := hcpus ▸ hp
      generalize Outcome.sched t = o at hent
      refine ⟨hp', ?_, ?_, hkeep c' p hp'⟩
      · rintro rfl
        cases entry_cases hent
        exact hc' rfl
      · rintro rfl
        cases entry_cases hent
        exact absurd rfl hc'

/-! ## Runs -/

/-- No turn is too long, and the turn of a process on a CPU is no longer than its counter
says. -/
structure TurnInv (t : Timed) : Prop where
  one : OneCpu t.state
  bound : ∀ p, ∀ n ∈ t.turns p, n ≤ QUANTA + 1
  current : ∀ c p, (t.state.cpus c).proc = some p →
    (t.state.procs p).processCounter ≤ QUANTA ∧
      ∃ n ns, t.turns p = n :: ns ∧ (n : ℤ) ≤ (t.state.procs p).processCounter

/-- The process interrupted in user mode, if any, is not of the highest priority. -/
def InterruptsLower (t : Timed) (a : TimedAction) : Prop :=
  ∀ p ∈ interrupted t.state a, (t.state.procs p).piority ≠ highPiority

instance (t : Timed) (a : TimedAction) : Decidable (InterruptsLower t a) :=
  Option.decidableForallMem (interrupted t.state a)

theorem countInterrupt_of_ne {turns : Slot → List ℕ} {o : Option Slot} (h : o ≠ some p) :
    countInterrupt turns o p = turns p := by
  cases o with
  | none => rfl
  | some q => exact Function.update_of_ne (fun hpq => h (congrArg some hpq.symm)) _ _

theorem countInterrupt_self (turns : Slot → List ℕ) (p : Slot) :
    countInterrupt turns (some p) p = (turns p).modifyHead (· + 1) :=
  Function.update_self _ _ _

theorem interrupted_eq_some {a : TimedAction} (h : interrupted s a = some p) :
    ∃ c, a = .timer c true ∧ (s.cpus c).proc = some p := by
  cases a with
  | timer c user =>
    cases user with
    | true => exact ⟨c, rfl, h⟩
    | false => cases h
  | other a => cases h

/-- A turn is at most one interrupt longer than the counter said. -/
theorem TurnInv.countInterrupt_le {t : Timed} (h : TurnInv t) (a : TimedAction) :
    ∀ n ∈ countInterrupt t.turns (interrupted t.state a) p, n ≤ QUANTA + 1 := by
  intro n hn
  by_cases hint : interrupted t.state a = some p
  · obtain ⟨c, -, hc⟩ := interrupted_eq_some hint
    obtain ⟨hle, m, ms, hturns, hm⟩ := h.current c p hc
    rw [hint, countInterrupt_self, hturns, List.modifyHead_cons, List.mem_cons] at hn
    rcases hn with rfl | hn
    · omega
    · exact h.bound p n (hturns ▸ List.mem_cons_of_mem _ hn)
  · rw [countInterrupt_of_ne hint] at hn
    exact h.bound p n hn

/-- **One step** keeps the turns within bounds. -/
theorem TurnInv.step (hcfg : cfg.policy = .Q3) {t t' : Timed} {a : TimedAction} (h : TurnInv t)
    (hlow : InterruptsLower t a) (hs : timedStep cfg t a = some t') : TurnInv t' := by
  obtain ⟨act, hact, hs⟩ := Option.bind_eq_some_iff.mp hs
  obtain ⟨s', hs', rfl⟩ := Option.map_eq_some_iff.mp hs
  obtain ⟨b, hb, hsw, hkept⟩ := exists_base hcfg h.one hs'
  have hnew : newSlots t.state s' = newSlots b s' := by rw [newSlots, newSlots, hsw]
  refine ⟨hb.one, fun p n hn => ?_, fun c p hp => ?_⟩
  · rcases List.mem_append.mp hn with hn | hn
    · obtain ⟨-, rfl⟩ := List.mem_replicate.mp hn
      exact Nat.zero_le _
    · exact h.countInterrupt_le a n hn
  · dsimp only
    rcases hb.current c p hp with ⟨hfresh, hzero⟩ | ⟨hold, hbp, hcount⟩
    · -- A new turn.
      obtain ⟨k, hk⟩ := Nat.exists_eq_succ_of_ne_zero
        (List.count_pos_iff.mpr hfresh).ne'
      have hturns : startTurns (countInterrupt t.turns (interrupted t.state a))
          (newSlots t.state s') p =
            0 :: (List.replicate k 0 ++ countInterrupt t.turns (interrupted t.state a) p) := by
        rw [startTurns, hnew, hk, List.replicate_succ, List.cons_append]
      rw [hzero]
      exact ⟨by decide, 0, _, hturns, le_rfl⟩
    · obtain ⟨hsp, hexit, hyield, hother⟩ := hkept c p hbp
      obtain ⟨hle, n, ns, hturns, hn⟩ := h.current c p hsp
      have hsame : startTurns (countInterrupt t.turns (interrupted t.state a))
          (newSlots t.state s') p = countInterrupt t.turns (interrupted t.state a) p := by
        rw [startTurns, hnew, List.count_eq_zero_of_not_mem hold]
        rfl
      rw [hsame, hcount]
      by_cases hint : interrupted t.state a = some p
      · -- Interrupted in user mode, and still on the CPU: `yield` counted it.
        obtain ⟨c', rfl, hc'⟩ := interrupted_eq_some hint
        obtain rfl := h.one.inj hc' hsp
        have hyes : act = .yield c' := by
          have := Option.some.inj hact
          split at this
          · exact absurd this.symm hexit
          · exact this.symm
        rcases hyield hyes with ⟨hhigh, -⟩ | ⟨hlt, hinc⟩
        · exact absurd hhigh (hlow p hint)
        · rw [hint, countInterrupt_self, hturns, hinc]
          refine ⟨by omega, n + 1, ns, rfl, ?_⟩
          push_cast
          omega
      · rw [countInterrupt_of_ne hint, hturns]
        by_cases hyes : act = .yield c
        · rcases hyield hyes with ⟨-, heq⟩ | ⟨hlt, hinc⟩
          · rw [heq]
            exact ⟨hle, n, ns, rfl, hn⟩
          · rw [hinc]
            exact ⟨by omega, n, ns, rfl, by omega⟩
        · rw [hother hyes]
          exact ⟨hle, n, ns, rfl, hn⟩

theorem turnInv_boot (cfg : Config) : TurnInv (timedBoot cfg) := by
  refine ⟨oneCpu_boot cfg, fun p n hn => absurd hn List.not_mem_nil, fun c p hp => ?_⟩
  have hcpus : (boot cfg).cpus = emptyTable.cpus := by
    unfold boot allocproc
    dsimp only
    split <;> rfl
  rw [timedBoot, hcpus] at hp
  cases hp

/-- **Timer preemption.**  With `policyChooser == Q3`, on any number of CPUs and in every run
in which no process takes a timer interrupt in user mode while its priority is the
highest, a process takes at most `QUANTA + 1` of them between being switched to and
leaving `RUNNING`. -/
theorem timer_preemption (cfg : Config) (hcfg : cfg.policy = .Q3) (xs : List TimedAction)
    (hlow : Along (timedStep cfg) InterruptsLower (timedBoot cfg) xs) :
    Throughout (timedStep cfg) (fun t => ∀ p, ∀ n ∈ t.turns p, n ≤ QUANTA + 1)
      (timedBoot cfg) xs :=
  (throughout_invariant (fun _ _ _ h hP hst => h.step hcfg hP hst) (turnInv_boot cfg) hlow).mono
    fun _ h => h.bound

/-- Init lowers its priority and is preempted by its sixth timer interrupt. -/
def preemptedRun : List TimedAction :=
  [.other (.schedule 0), .other (.nice 0)] ++ List.replicate 6 (.timer 0 true) ++
    [.other (.schedule 0)]

theorem timer_preemption_nice :
    (∃ t, exec (timedStep q3) (timedBoot q3) preemptedRun = some t ∧ t.turns 0 = [0, 6]) ∧
    Throughout (timedStep q3) (fun t => ∀ p, ∀ n ∈ t.turns p, n ≤ QUANTA + 1)
      (timedBoot q3) preemptedRun := by
  refine ⟨?_, timer_preemption q3 rfl preemptedRun (by decide +kernel)⟩
  have h : (exec (timedStep q3) (timedBoot q3) preemptedRun).any (fun t =>
      t.turns 0 = [0, 6]) = true := by
    decide +kernel
  obtain ⟨t, ht, h⟩ := (Option.any_eq_true _ _).mp h
  exact ⟨t, ht, of_decide_eq_true h⟩

/-- Init keeps the highest priority, which every process starts with, and goes on running
after seven timer interrupts, although its child is `RUNNABLE`. -/
theorem high_keeps_cpu :
    ∃ t, exec (timedStep q3) (timedBoot q3)
        ([.other (.schedule 0), .other (.fork 0), .other (.forkDone 0)] ++
          List.replicate 7 (.timer 0 true)) = some t ∧
      t.turns 0 = [7] ∧ (t.state.procs 0).state = .running ∧
        (t.state.procs 1).state = .runnable := by
  have h : (exec (timedStep q3) (timedBoot q3)
      ([.other (.schedule 0), .other (.fork 0), .other (.forkDone 0)] ++
        List.replicate 7 (.timer 0 true))).any (fun t =>
      t.turns 0 = [7] ∧ (t.state.procs 0).state = .running ∧
        (t.state.procs 1).state = .runnable) = true := by
    decide +kernel
  obtain ⟨t, ht, h⟩ := (Option.any_eq_true _ _).mp h
  exact ⟨t, ht, of_decide_eq_true h⟩

end Xv6.Ptable
