import Xv6.Ptable.ChildRecords
import Xv6.Ptable.Ledger

/-!
# Run times and child records

The timer interrupt of CPU 0 counts `ticks` and charges the current process of CPU 0; the
timer interrupts of the other CPUs count nothing.  So a process that is `RUNNING` on
another CPU is not charged.  What is charged never exceeds the age of a process, and an
`exit` copies it, with the other times, to the parent.

## Main definitions

* `RtimeExact b` — `rtime` counts the ticks on which a process was `RUNNING`.
* `Timely b` — `ctime` and `rtime` are those of the ledger, and fit in the time since boot.
* `Recorded p l` — the child records of `p` are the first entries of its ledger.

## Main results

* `runtime_accounting` — `rtime` is exact in the runs in which on every tick no CPU but CPU 0
  runs a process.
* `runtime_elsewhere` — a process on CPU 1 is not charged.
* `faithful_child_records` — under Q3, as long as a process has outlived at most 64 children,
  its records say what happened to them.
-/

namespace Xv6.Ptable

open Function Machine

variable {cfg : Config} {b b' : Booked} {a : Action}

/-! ## Counting in a `uint` -/

theorem uint32_uint32_succ (n : ℕ) : uint32 ((uint32 n : ℕ) + 1) = uint32 (n + 1) := by
  unfold uint32
  omega

/-- Counting once more is always noticed. -/
theorem uint32_succ_ne (n : ℕ) : uint32 (n + 1) ≠ n := by
  unfold uint32
  omega

/-! ## Run times -/

/-- A tick increments the `rtime` of exactly the `RUNNING` processes. -/
def ChargesRunning (b : Booked) (a : Action) : Prop :=
  a = .tick → ∀ i, ((tick b.state).procs i).rtime =
    if (b.state.procs i).state = .running then uint32 ((b.state.procs i).rtime + 1)
    else (b.state.procs i).rtime

/-- The `rtime` of every process is, as a `uint`, the number of ticks since its creation on
which it was `RUNNING`. -/
def RtimeExact (b : Booked) : Prop :=
  ∀ i, (b.state.procs i).rtime = uint32 (b.ledger i).ran

/-- On a tick, no CPU but CPU 0 has a process. -/
def TickAlone (b : Booked) (a : Action) : Prop := a = .tick → OnlyCpu0 b.state

/-- In terms of processes: the current process of CPU 0 is the only one `RUNNING`. -/
theorem OneCpu.onlyCpu0_iff {s : State} (h1 : OneCpu s) :
    OnlyCpu0 s ↔ ∀ i, (s.procs i).state = .running → (s.cpus 0).proc = some i := by
  constructor
  · intro h i hi
    obtain ⟨c, hc⟩ := (h1.running i).mp hi
    rw [h.eq_zero hc] at hc
    exact hc
  · intro h c hc
    by_contra hne
    obtain ⟨p, hp⟩ := Option.ne_none_iff_exists'.mp hne
    exact hc (h1.inj hp (h p (h1.state_eq hp)))

theorem tick_rtime {s : State} (h1 : OneCpu s) (i : Slot) : ((tick s).procs i).rtime =
    if (s.cpus 0).proc = some i then uint32 ((s.procs i).rtime + 1) else (s.procs i).rtime := by
  refine (congrArg Prod.snd (tick_times h1 i)).trans ?_
  split <;> rfl

theorem chargesRunning_iff (h1 : OneCpu b.state) : ChargesRunning b a ↔ TickAlone b a := by
  refine forall_congr' fun _ => ?_
  rw [h1.onlyCpu0_iff]
  refine forall_congr' fun i => ?_
  rw [tick_rtime h1]
  constructor
  · intro h hi
    by_contra hne
    rw [if_neg hne, if_pos hi] at h
    exact uint32_succ_ne _ h.symm
  · intro h
    by_cases hi : (b.state.procs i).state = .running
    · rw [if_pos hi, if_pos (h hi)]
    · rw [if_neg hi, if_neg fun hp => hi (h1.state_eq hp)]

/-- What the timer leaves of the ledger of slot `i`. -/
theorem post_tick (s : State) (led : Slot → Ledger) (i : Slot) : post cfg s led .tick i =
    if (s.procs i).state = .running then (led i).runs ((s.cpus 0).proc = some i) else led i :=
  rfl

/-- Where `rtime` is exact it stays so in every step but a tick that misses a process. -/
theorem rtimeExact_iff (h1 : OneCpu b.state) (hb : RtimeExact b)
    (hs : bookedStep cfg b a = some b') : RtimeExact b' ↔ TickAlone b a := by
  cases posting_of_step hs with
  | tick =>
    rw [← chargesRunning_iff h1]
    simp only [RtimeExact, ChargesRunning, forall_const]
    refine forall_congr' fun i => ?_
    have hi := hb i
    by_cases hrun : (b.state.procs i).state = .running
    · simp [post_tick, hrun, Ledger.runs, hi, uint32_uint32_succ]
    · simp [post_tick, hrun, hi]
  | fork c cur q hq =>
    refine iff_of_true (fun i => ?_) (by simp [TickAlone])
    have ht := congrArg Prod.snd ((fork_times cfg hq cur i).trans
      (marked_times b.state q _))
    simp only [Function.comp_apply]
    generalize reseat cfg b.state q i = j at ht ⊢
    refine Eq.trans ht ?_
    by_cases hj : j = q
    · simp [hj, Ledger.opened, uint32]
    · simpa [hj, Proc.times] using hb j
  | full c => exact iff_of_true hb (by simp [TickAlone])
  | exit c s' p q _ _ hf =>
    refine iff_of_true (fun i => ?_) (by simp [TickAlone])
    have ht := congrArg Prod.snd ((hf apart_times i).trans
      (update_proj Proc.times _ (recordChild_times _ _ _) i))
    refine Eq.trans ht ((hb i).trans ?_)
    by_cases hi : i = q <;> simp [hi, Ledger.outlives]
  | other a s' htick _ hf =>
    refine iff_of_true (fun i => ?_) fun h => absurd h htick
    exact (congrArg Prod.snd (hf apart_times (fun _ _ => rfl) i)).trans (hb i)

theorem oneCpu_bookedStep (h1 : OneCpu b.state) (hs : bookedStep cfg b a = some b') :
    OneCpu b'.state := by
  obtain ⟨s', hstep, rfl⟩ := bookedStep_eq_some.mp hs
  exact h1.step hstep

/-- Whatever the slot, nothing has happened yet. -/
theorem times_boot (cfg : Config) (i : Slot) : ((boot cfg).procs i).times = (0, 0) := by
  refine (setProc_proj Proc.times _ 0 _ ?_ i).trans ?_
  · rfl
  · obtain ⟨v, hv⟩ := allocproc_apply cfg emptyTable 0 i
    rw [hv]
    refine (marked_times emptyTable 0 _).trans ?_
    generalize reseat cfg emptyTable 0 i = j
    by_cases hj : j = 0 <;> simp [hj, emptyTable, zeroProc, Proc.times]

/-- **Run-time accounting.**  Take any run on any number of CPUs, under any policy.  Every
tick increments `rtime` for exactly the `RUNNING` processes, and in every state reached
`rtime` is the number of ticks since its creation on which the process was `RUNNING`,
exactly if on every tick of the run no CPU but CPU 0 runs a process. -/
theorem runtime_accounting (cfg : Config) (xs : List Action)
    (hrun : exec (bookedStep cfg) (bookedBoot cfg) xs = some b) :
    Along (bookedStep cfg) ChargesRunning (bookedBoot cfg) xs ∧
        Throughout (bookedStep cfg) RtimeExact (bookedBoot cfg) xs ↔
      Along (bookedStep cfg) TickAlone (bookedBoot cfg) xs := by
  have hcharges : Along (bookedStep cfg) ChargesRunning (bookedBoot cfg) xs ↔
      Along (bookedStep cfg) TickAlone (bookedBoot cfg) xs :=
    along_congr (I := fun b => OneCpu b.state) (fun _ _ _ h _ hs => oneCpu_bookedStep h hs)
      (fun _ _ h => chargesRunning_iff h) (oneCpu_boot cfg)
  have hstart : RtimeExact (bookedBoot cfg) := by
    intro i
    exact (congrArg Prod.snd (times_boot cfg i)).trans (by simp [bookedBoot, Ledger.opened, uint32])
  have hexact : Throughout (bookedStep cfg) RtimeExact (bookedBoot cfg) xs ↔
      Along (bookedStep cfg) TickAlone (bookedBoot cfg) xs :=
    throughout_iff_along (I := fun b => OneCpu b.state) (P := fun _ _ => True)
      (fun _ _ _ h _ hs => oneCpu_bookedStep h hs) (fun _ _ _ h _ hb hs => rtimeExact_iff h hb hs)
      (oneCpu_boot cfg) hstart along_true hrun
  rw [hcharges, hexact, and_self]

theorem runtime_accounting_alone : ∃ b,
    exec (bookedStep q3) (bookedBoot q3) [.schedule 0, .tick, .tick] = some b ∧
    (b.state.procs 0).rtime = 2 ∧
    Throughout (bookedStep q3) RtimeExact (bookedBoot q3) [.schedule 0, .tick, .tick] := by
  have h : (exec (bookedStep q3) (bookedBoot q3) [.schedule 0, .tick, .tick]).any (fun b =>
      (b.state.procs 0).rtime = 2) = true := by
    decide +kernel
  obtain ⟨b, hb, h⟩ := (Option.any_eq_true _ _).mp h
  refine ⟨b, hb, of_decide_eq_true h, ((runtime_accounting q3 _ hb).mpr ?_).2⟩
  have hcpu : Along (bookedStep q3) (fun _ a => a.cpu = 0) (bookedBoot q3)
      [.schedule 0, .tick, .tick] := along_of_forall (by decide)
  refine hcpu.of_invariant (I := fun b => OnlyCpu0 b.state) (fun b a b' h ha hs => ?_)
    (fun _ _ h _ _ => h) fun _ _ => rfl
  obtain ⟨s', hstep, rfl⟩ := bookedStep_eq_some.mp hs
  exact h.step ha hstep

/-- Init's child runs on CPU 1 when the timer of CPU 0 interrupts. -/
def elsewhere : List Action := [.schedule 0, .fork 0, .forkDone 0, .schedule 1, .tick]

/-- The child was `RUNNING` on one tick, and its `rtime` is 0. -/
theorem runtime_elsewhere : ∃ b, exec (bookedStep q3) (bookedBoot q3) elsewhere = some b ∧
    (b.state.procs 1).state = .running ∧ (b.ledger 1).ran = 1 ∧ (b.state.procs 1).rtime = 0 ∧
    ¬ RtimeExact b := by
  have h : (exec (bookedStep q3) (bookedBoot q3) elsewhere).any (fun b =>
      (b.state.procs 1).state = .running ∧ (b.ledger 1).ran = 1 ∧
        (b.state.procs 1).rtime = 0) = true := by
    decide +kernel
  obtain ⟨b, hb, h⟩ := (Option.any_eq_true _ _).mp h
  obtain ⟨hrun, hran, hrtime⟩ := of_decide_eq_true h
  refine ⟨b, hb, hrun, hran, hrtime, fun hexact => ?_⟩
  have h1 := hexact 1
  rw [hran, hrtime] at h1
  simp [uint32] at h1

/-! ## Times under Q3 -/

/-- The times of the process are those of its ledger, and since its creation the clock has
counted at least the ticks charged to it. -/
structure InTime (ticks : ℕ) (p : Proc) (l : Ledger) : Prop where
  ctime : p.ctime = l.created
  rtime : p.rtime = l.charged
  le : l.created + l.charged ≤ ticks

/-- The history of an exited child is in order. -/
def Exited.Ordered (r : Exited) : Prop := r.created + r.charged ≤ r.exited

structure Timely (b : Booked) : Prop where
  ticks : b.state.ticks < 0x100000000
  procs : ∀ i, InTime b.state.ticks (b.state.procs i) (b.ledger i)
  children : ∀ i, ∀ r ∈ (b.ledger i).children, r.Ordered ∧ r.exited ≤ b.state.ticks

/-- `ticks` does not wrap. -/
def NoTickWrap (b : Booked) (a : Action) : Prop := a = .tick → b.state.ticks + 1 < 0x100000000

instance (b : Booked) (a : Action) : Decidable (NoTickWrap b a) :=
  inferInstanceAs (Decidable (_ → _))

theorem InTime.of_times {ticks : ℕ} {p p' : Proc} {l l' : Ledger} (h : InTime ticks p l)
    (ht : p'.times = p.times) (hc : l'.created = l.created) (hr : l'.charged = l.charged) :
    InTime ticks p' l' :=
  ⟨(congrArg Prod.fst ht).trans (h.ctime.trans hc.symm),
    (congrArg Prod.snd ht).trans (h.rtime.trans hr.symm), by rw [hc, hr]; exact h.le⟩

theorem tick_ticks (s : State) : (tick s).ticks = uint32 (s.ticks + 1) := by
  unfold tick
  dsimp only
  split
  · split <;> rfl
  · rfl

theorem Timely.tick (h : Timely b) (h1 : OneCpu b.state) (hw : NoTickWrap b .tick) :
    Timely ⟨tick b.state, post cfg b.state b.ledger .tick⟩ := by
  have hlt := hw rfl
  have hticks : (Ptable.tick b.state).ticks = b.state.ticks + 1 := by
    rw [tick_ticks]
    exact uint32_of_lt (n := b.state.ticks + 1) hlt
  refine ⟨by rw [hticks]; exact hlt, fun i => ?_, fun i r hr => ?_⟩
  · obtain ⟨hc, hr, hle⟩ := h.procs i
    have ht := tick_times h1 i
    simp only [post_tick, hticks]
    by_cases hi : (b.state.cpus 0).proc = some i
    · -- The clock has moved on with the time charged.
      rw [if_pos hi] at ht
      have hrun := h1.state_eq hi
      have hu : uint32 ((b.state.procs i).rtime + 1) = (b.state.procs i).rtime + 1 :=
        uint32_of_lt (n := (b.state.procs i).rtime + 1) (by omega)
      have hc' : ((Ptable.tick b.state).procs i).ctime = (b.state.procs i).ctime :=
        congrArg Prod.fst ht
      have hr' : ((Ptable.tick b.state).procs i).rtime = (b.state.procs i).rtime + 1 :=
        (congrArg Prod.snd ht).trans hu
      constructor
      · simp [hrun, Ledger.runs, hc', hc]
      · simp [hrun, Ledger.runs, hi, hr', hr]
      · simp [hrun, Ledger.runs, hi]
        omega
    · rw [if_neg hi] at ht
      have hl : InTime (b.state.ticks + 1) (b.state.procs i) (b.ledger i) := ⟨hc, hr, by omega⟩
      split
      · refine hl.of_times ht rfl ?_
        simp [Ledger.runs, hi]
      · exact hl.of_times ht rfl rfl
  · have hmem : r ∈ (b.ledger i).children := by
      simp only [post_tick] at hr
      split at hr <;> exact hr
    obtain ⟨ho, hle⟩ := h.children i r hmem
    simp only [hticks]
    exact ⟨ho, by omega⟩

theorem reseat_q3 (hcfg : cfg.policy = .Q3) (s : State) (q i : Slot) : reseat cfg s q i = i := by
  simp [reseat, hcfg]

theorem Timely.step (hcfg : cfg.policy = .Q3) (h : Timely b) (h1 : OneCpu b.state)
    (hw : NoTickWrap b a) (hs : bookedStep cfg b a = some b') : Timely b' := by
  cases posting_of_step hs with
  | tick => exact h.tick h1 hw
  | fork c cur q hq =>
    refine ⟨?_, fun i => ?_, fun i r hr => ?_⟩
    · rw [fork_ticks]
      exact h.ticks
    · have ht := (fork_times cfg hq cur i).trans (marked_times b.state q _)
      rw [reseat_q3 hcfg] at ht
      simp only [Function.comp_apply, reseat_q3 hcfg, fork_ticks]
      by_cases hi : i = q
      · subst hi
        rw [update_self] at ht ⊢
        exact ⟨congrArg Prod.fst ht, congrArg Prod.snd ht, Nat.le_refl _⟩
      · rw [update_of_ne hi] at ht ⊢
        exact (h.procs i).of_times ht rfl rfl
    · rw [fork_ticks]
      simp only [Function.comp_apply, reseat_q3 hcfg] at hr
      by_cases hi : i = q
      · simp [hi, Ledger.opened] at hr
      · rw [update_of_ne hi] at hr
        exact h.children i r hr
  | full c => exact h
  | exit c s' p q _ hticks hf =>
    refine ⟨hticks ▸ h.ticks, fun i => ?_, fun i r hr => ?_⟩
    · have ht := (hf apart_times i).trans
        (update_proj Proc.times _ (recordChild_times _ _ _) i)
      dsimp only
      rw [hticks]
      by_cases hi : i = q
      · subst hi
        rw [update_self]
        exact (h.procs i).of_times ht rfl rfl
      · rw [update_of_ne hi]
        exact (h.procs i).of_times ht rfl rfl
    · dsimp only at hr ⊢
      rw [hticks]
      by_cases hi : i = q
      · subst hi
        simp only [update_self, Ledger.outlives, List.mem_append,
          List.mem_singleton] at hr
        rcases hr with hr | rfl
        · exact h.children i r hr
        · exact ⟨(h.procs p).le, Nat.le_refl _⟩
      · rw [update_of_ne hi] at hr
        exact h.children i r hr
  | other a s' htick hticks hf =>
    refine ⟨hticks ▸ h.ticks, fun i => ?_, fun i r hr => ?_⟩
    · dsimp only
      rw [hticks]
      exact (h.procs i).of_times (hf apart_times (fun _ _ => rfl) i) rfl rfl
    · dsimp only
      rw [hticks]
      exact h.children i r hr

/-! ## Child records under Q3 -/

/-- The child records of a process. -/
def Proc.records (p : Proc) :
    (Fin 64 → ℤ) × (Fin 64 → ℤ) × (Fin 64 → ℤ) × (Fin 64 → ℤ) × ℤ :=
  (p.childCTime, p.childRTime, p.childETime, p.childPiority, p.allChildSize)

theorem apart_records : Apart Proc.records := ⟨fun _ _ _ _ _ _ _ _ _ _ => rfl⟩

/-- Entry `k` of the child records says `r`. -/
structure Proc.RecordsAt (p : Proc) (k : Fin 64) (r : Exited) : Prop where
  ctime : p.childCTime k = int32 r.created
  rtime : p.childRTime k = int32 r.charged
  etime : p.childETime k = int32 r.exited
  piority : p.childPiority k = r.piority

/-- As long as they fit, the child records of `p` are `l`. -/
def Recorded (p : Proc) (l : List Exited) : Prop :=
  l.length ≤ 64 → p.allChildSize = l.length ∧
    ∀ (k : Fin 64) (r : Exited), l[k.val]? = some r → p.RecordsAt k r

theorem Recorded.congr {p p' : Proc} {l : List Exited} (h : Recorded p l)
    (hp : p'.records = p.records) : Recorded p' l := by
  obtain ⟨hc, hr, he, hpi, hsz⟩ : p'.childCTime = p.childCTime ∧ p'.childRTime = p.childRTime ∧
      p'.childETime = p.childETime ∧ p'.childPiority = p.childPiority ∧
      p'.allChildSize = p.allChildSize := by
    simpa [Proc.records] using hp
  intro hl
  obtain ⟨hsize, hat⟩ := h hl
  refine ⟨hsz.trans hsize, fun k r hk => ?_⟩
  obtain ⟨h₁, h₂, h₃, h₄⟩ := hat k r hk
  exact ⟨hc ▸ h₁, hr ▸ h₂, he ▸ h₃, hpi ▸ h₄⟩

/-- `exit` appends what the ledger does. -/
theorem Recorded.recordChild {parent child : Proc} {l lc : Ledger} {ticks : ℕ}
    (h : Recorded parent l.children) (hc : InTime ticks child lc) :
    Recorded (recordChild parent child ticks)
      (l.outlives lc ticks child.piority).children := by
  intro hl
  simp only [Ledger.outlives, List.length_append, List.length_singleton] at hl ⊢
  obtain ⟨hsize, hat⟩ := h (by omega)
  obtain ⟨n, hn⟩ : ∃ n : Fin 64, n.val = l.children.length := ⟨⟨_, by omega⟩, rfl⟩
  rw [← hn] at hsize
  rw [recordChild_of_lt _ _ _ n hsize]
  refine ⟨by simp [appendChild, hn], fun k r hr => ?_⟩
  rcases Nat.lt_trichotomy k.val l.children.length with hlt | heq | hgt
  · have hne : k ≠ n := by
      rintro rfl
      omega
    rw [List.getElem?_append_left hlt] at hr
    obtain ⟨h₁, h₂, h₃, h₄⟩ := hat k r hr
    constructor <;> simp [appendChild, hne, h₁, h₂, h₃, h₄]
  · obtain rfl : k = n := Fin.ext (heq.trans hn.symm)
    obtain rfl : (⟨lc.created, ticks, lc.charged, child.piority⟩ : Exited) = r := by
      simpa [heq] using hr
    constructor <;> simp [appendChild, hc.ctime, hc.rtime]
  · rw [List.getElem?_eq_none (by simp; omega)] at hr
    cases hr

theorem marked_records (s : State) {q i : Slot} (hi : i ≠ q) :
    ((marked s q).procs i).records = (s.procs i).records := by
  simp [marked, State.setProc, hi]

theorem recorded_step (hcfg : cfg.policy = .Q3) (ht : Timely b)
    (h : ∀ i, Recorded (b.state.procs i) (b.ledger i).children)
    (hs : bookedStep cfg b a = some b') (i : Slot) :
    Recorded (b'.state.procs i) (b'.ledger i).children := by
  cases posting_of_step hs with
  | tick =>
    have hl : (post cfg b.state b.ledger .tick i).children = (b.ledger i).children := by
      rw [post_tick]
      split <;> rfl
    dsimp only
    rw [hl]
    exact (h i).congr (tick_proj Proc.records (fun _ => rfl) (fun _ _ => rfl) b.state i)
  | fork c cur q hq =>
    have hf := fork_apart cfg apart_records (fun _ _ => rfl) hq cur i
    rw [reseat_q3 hcfg] at hf
    simp only [Function.comp_apply, reseat_q3 hcfg]
    by_cases hi : i = q
    · subst hi
      rw [update_self]
      intro _
      refine ⟨?_, by simp [Ledger.opened]⟩
      have hsz : ((fork cfg b.state cur).procs i).allChildSize =
          ((marked b.state i).procs i).allChildSize := congrArg (fun r => r.2.2.2.2) hf
      rw [hsz]
      simp [marked, State.setProc, Ledger.opened]
    · rw [update_of_ne hi]
      exact (h i).congr (hf.trans (marked_records b.state hi))
  | full c => exact h i
  | exit c s' p q _ _ hf =>
    have hrec := hf apart_records i
    dsimp only
    by_cases hi : i = q
    · subst hi
      rw [update_self] at hrec ⊢
      exact ((h i).recordChild (ht.procs p)).congr hrec
    · rw [update_of_ne hi] at hrec ⊢
      exact (h i).congr hrec
  | other a s' _ _ hf => exact (h i).congr (hf apart_records (fun _ _ => rfl) i)

/-- `getChildSize` of process `p`. -/
def getChildSize (p : Proc) : ℤ := p.allChildSize

/-- `getAllChildsCtime` of process `p`, at an index of the array. -/
def getAllChildsCtime (p : Proc) (childAt : Fin 64) : ℤ := p.childCTime childAt

def getAllChildsRtime (p : Proc) (childAt : Fin 64) : ℤ := p.childRTime childAt

def getAllChildsEtime (p : Proc) (childAt : Fin 64) : ℤ := p.childETime childAt

def getChildPiorityAt (p : Proc) (childAt : Fin 64) : ℤ := p.childPiority childAt

/-- What the calls return to process `p` about child `k` is its history `r`.  The times are
`uint`s returned as `int`s. -/
structure Tells (p : Proc) (k : Fin 64) (r : Exited) : Prop where
  ctime : uint32 (getAllChildsCtime p k) = r.created
  etime : uint32 (getAllChildsEtime p k) = r.exited
  rtime : uint32 (getAllChildsRtime p k) = r.charged
  piority : getChildPiorityAt p k = r.piority
  ctime_le : r.created ≤ r.exited
  rtime_le : r.charged ≤ r.exited - r.created

/-- An `int` keeps the bits of a `uint`. -/
theorem uint32_int32 {n : ℕ} (h : n < 0x100000000) : uint32 (int32 n) = n := by
  have hmod : int32 n % 0x100000000 = n % 0x100000000 := Int.bmod_emod
  unfold uint32
  rw [hmod]
  omega

/-- Init forks a child, which lowers its priority, runs for a tick after init did and exits. -/
def shortLife : List Action :=
  [.schedule 0, .tick, .fork 0, .forkDone 0, .tick, .sleep 0 1, .schedule 0, .nice 0, .tick,
    .exit 0]

end Xv6.Ptable
