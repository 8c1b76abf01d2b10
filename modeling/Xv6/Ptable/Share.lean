import Xv6.Lib.Rounding
import Xv6.Ptable.OnCpu
import Xv6.Ptable.Priority

/-!
# The policy of one CPU

On one CPU the flags of a pass cannot go stale: a pass that the GRT level has switched in found
`GRTExists` set, and nobody clears it before the pass goes on.  So every switch is to a process of
the highest class.  Within that class the GRT level compares `rtime/(ticks - ctime)` as `float`.
Quotients that are closer than the rounding are the same to it, and then the lower slot wins,
whichever has the smaller share.

## Main definitions

* `Proc.share` — the quotient, exactly.
* `Switch.Policy` — a process of the highest class, and in the first class one of least share.
* `Told s` — the quotients are equal or differ by more than the rounding.

## Main results

* `bestIndex_first` — the GRT level finds the first of the least values.
* `one_cpu_policy` — every switch keeps to the policy, in runs in which the quotients can be told
  apart whenever a pass starts.
* `one_cpu_rounding` — a run in which they cannot.
-/

namespace Xv6.Ptable

open Machine

/-- IEEE single precision.  The numbers of the scheduler are 0 or between `2^(-32)` and `2^32`, so
its bounds on the exponent play no role. -/
def binary32 : ℚ → ℚ := Rounding.roundTo 24

/-- The configuration of the source, `policyChooser = Q3`, with `float` in single precision. -/
def q3Float : Config := ⟨.Q3, binary32⟩

theorem q3Float_policy : q3Float.policy = .Q3 := rfl

/-- `ticks - ctime` -/
def Proc.lifetime (p : Proc) (ticks : ℕ) : ℕ := uint32 ((ticks : ℤ) - p.ctime)

/-- The part of its lifetime that a process has run. -/
def Proc.share (p : Proc) (ticks : ℕ) : ℚ :=
  if p.lifetime ticks = 0 then 0 else p.rtime / p.lifetime ticks

/-- `RUNNABLE`, in the highest class. -/
def Proc.Ready (p : Proc) : Prop := p.state = .runnable ∧ p.piority = highPiority

instance (p : Proc) : Decidable p.Ready := inferInstanceAs (Decidable (_ ∧ _))

/-- The switch was to a `RUNNABLE` process of the highest class there was.  In the first class it
was one of least share, and of these the first of the table. -/
structure Switch.Policy (sw : Switch) (ticks : ℕ) : Prop where
  runnable : (sw.table sw.slot).state = .runnable
  strict : sw.Strict
  least : (sw.table sw.slot).piority = highPiority → ∀ q, (sw.table q).Ready →
    (sw.table sw.slot).share ticks < (sw.table q).share ticks ∨
      (sw.table sw.slot).share ticks = (sw.table q).share ticks ∧ sw.slot ≤ q

/-- The switches that a step makes, none of which moves the clock, keep to the policy. -/
def PolicyStep (cfg : Config) (s : State) (a : Action) : Prop :=
  ∀ t, step cfg s a = some t →
    ∃ l, t.switches = s.switches ++ l ∧ ∀ sw ∈ l, sw.Policy s.ticks

/-- The shares in the highest class are equal or differ by more than `2^(-23)` of the larger, and
the times they come from have 24 bits at most. -/
structure Told (s : State) : Prop where
  short : ∀ q, (s.procs q).Ready →
    (s.procs q).rtime < 0x1000000 ∧ (s.procs q).lifetime s.ticks < 0x1000000
  apart : ∀ q r, (s.procs q).Ready → (s.procs r).Ready →
    (s.procs q).share s.ticks < (s.procs r).share s.ticks →
      (s.procs r).share s.ticks <
        0x800000 * ((s.procs r).share s.ticks - (s.procs q).share s.ticks)

instance (s : State) : Decidable (Told s) :=
  decidable_of_iff (_ ∧ _) ⟨fun h => ⟨h.1, h.2⟩, fun h => ⟨h.short, h.apart⟩⟩

/-- Whenever a pass starts, the shares can be told apart. -/
def ToldStep (s : State) : Action → Prop
  | .schedule _ => Told s
  | _ => True

instance (s : State) (a : Action) : Decidable (ToldStep s a) := by
  cases a <;> unfold ToldStep <;> infer_instance

variable {cfg : Config} {c : Cid} {s t : State} {a : Action} {p : Slot}

/-! ## The best process -/

/-- The first of the slots that `C` allows at which `f` is least. -/
def First (C : Slot → Prop) (f : Slot → ℚ) (p : Slot) : Prop :=
  C p ∧ ∀ q, C q → f p < f q ∨ f p = f q ∧ p ≤ q

/-- Functions that put the slots in the same order have the same first one. -/
theorem First.congr {C : Slot → Prop} {f g : Slot → ℚ} (h : First C f p)
    (hlt : ∀ q r, C q → C r → g q < g r → f q < f r)
    (heq : ∀ q r, C q → C r → g q = g r → f q = f r) : First C g p := by
  refine ⟨h.1, fun q hq => ?_⟩
  rcases lt_trichotomy (g p) (g q) with hpq | hpq | hpq
  · exact .inl hpq
  · have hsame := heq p q h.1 hq hpq
    rcases h.2 q hq with hless | ⟨-, hle⟩
    · exact absurd hsame hless.ne
    · exact .inr ⟨hpq, hle⟩
  · have hless := hlt q p hq h.1 hpq
    rcases h.2 q hq with hless' | ⟨hsame, -⟩
    · exact absurd hless hless'.not_gt
    · exact absurd hsame hless.ne'

/-- What the search knows when it has looked at the slots of `l`. -/
def Best (cfg : Config) (s : State) (l : List Slot) (best : Option Slot × ℚ) : Prop :=
  best = (none, -1) ∧ (∀ q ∈ l, ¬ GrtCandidate cfg s q) ∨
    ∃ p, best = (some p, procValue cfg s p) ∧
      First (fun q => q ∈ l ∧ GrtCandidate cfg s q) (procValue cfg s) p

theorem Best.step {l : List Slot} {best : Option Slot × ℚ} {i : Slot} (h : Best cfg s l best)
    (hval : ∀ q, 0 ≤ procValue cfg s q) (hi : ∀ q ∈ l, q < i) :
    Best cfg s (l ++ [i]) (bestStep cfg s best i) := by
  unfold bestStep
  rcases h with ⟨rfl, hnone⟩ | ⟨p, rfl, hp, hmin⟩
  · split
    · rename_i hcand
      rw [if_pos (.inl rfl)]
      refine .inr ⟨i, rfl, ⟨by simp, hcand⟩, ?_⟩
      rintro q ⟨hq, hc⟩
      rcases List.mem_append.mp hq with hq | hq
      · exact absurd hc (hnone q hq)
      · obtain rfl := List.mem_singleton.mp hq
        exact .inr ⟨rfl, le_rfl⟩
    · rename_i hcand
      refine .inl ⟨rfl, fun q hq => ?_⟩
      rcases List.mem_append.mp hq with hq | hq
      · exact hnone q hq
      · obtain rfl := List.mem_singleton.mp hq
        exact hcand
  · -- from here on `bestProcValue` is not -1
    have hpos : procValue cfg s p ≠ -1 := by
      have := hval p
      linarith
    have hpi := hi p hp.1
    split
    · rename_i hcand
      split
      · rename_i hbetter
        have hlt : procValue cfg s i < procValue cfg s p := hbetter.resolve_left hpos
        refine .inr ⟨i, rfl, ⟨by simp, hcand⟩, ?_⟩
        rintro q ⟨hq, hc⟩
        rcases List.mem_append.mp hq with hq | hq
        · rcases hmin q ⟨hq, hc⟩ with h | ⟨h, -⟩
          · exact .inl (hlt.trans h)
          · exact .inl (h ▸ hlt)
        · obtain rfl := List.mem_singleton.mp hq
          exact .inr ⟨rfl, le_rfl⟩
      · rename_i hworse
        obtain ⟨-, hge⟩ := not_or.mp hworse
        refine .inr ⟨p, rfl, ⟨by simp [hp.1], hp.2⟩, ?_⟩
        rintro q ⟨hq, hc⟩
        rcases List.mem_append.mp hq with hq | hq
        · exact hmin q ⟨hq, hc⟩
        · obtain rfl := List.mem_singleton.mp hq
          exact (not_lt.mp hge).lt_or_eq.imp id fun h => ⟨h, hpi.le⟩
    · rename_i hcand
      refine .inr ⟨p, rfl, ⟨by simp [hp.1], hp.2⟩, ?_⟩
      rintro q ⟨hq, hc⟩
      rcases List.mem_append.mp hq with hq | hq
      · exact hmin q ⟨hq, hc⟩
      · obtain rfl := List.mem_singleton.mp hq
        exact absurd hc hcand

/-- **The GRT level finds the first of the least values.** -/
theorem bestIndex_first (hval : ∀ q, 0 ≤ procValue cfg s q) (h : bestIndex cfg s = some p) :
    First (GrtCandidate cfg s) (procValue cfg s) p := by
  have key : ∀ l : List Slot, l.Pairwise (· < ·) →
      Best cfg s l (l.foldl (bestStep cfg s) (none, -1)) := by
    intro l
    induction l using List.reverseRecOn with
    | nil => exact fun _ => .inl ⟨rfl, fun q hq => absurd hq List.not_mem_nil⟩
    | append_singleton l i ih =>
      intro hl
      obtain ⟨hl, -, hi⟩ := List.pairwise_append.mp hl
      rw [List.foldl_append]
      exact (ih hl).step hval fun q hq => hi q hq i (List.mem_singleton_self i)
  rcases key _ (List.pairwise_lt_finRange NPROC) with ⟨hbest, -⟩ | ⟨p', hbest, hfirst⟩
  · rw [bestIndex, hbest] at h
    cases h
  · rw [bestIndex, hbest] at h
    cases h
    exact ⟨hfirst.1.2, fun q hq => hfirst.2 q ⟨List.mem_finRange q, hq⟩⟩

/-! ## Rounding -/

theorem Proc.share_nonneg (p : Proc) (ticks : ℕ) : 0 ≤ p.share ticks := by
  unfold Proc.share
  split
  · exact le_rfl
  · positivity

theorem procValue_nonneg (s : State) (q : Slot) : 0 ≤ procValue q3Float s q := by
  have hrnd : ∀ n : ℕ, 0 ≤ q3Float.rnd n := fun n =>
    Rounding.roundTo_nonneg 24 (Nat.cast_nonneg n)
  unfold procValue
  dsimp only
  split
  · exact Rounding.roundTo_nonneg 24 (div_nonneg (hrnd _) (hrnd _))
  · exact le_rfl

/-- For times of 24 bits only the quotient is rounded. -/
theorem procValue_eq {q : Slot} (hr : (s.procs q).rtime < 0x1000000)
    (hd : (s.procs q).lifetime s.ticks < 0x1000000) :
    procValue q3Float s q = binary32 ((s.procs q).share s.ticks) := by
  have hrtime : q3Float.rnd (s.procs q).rtime = (s.procs q).rtime := Rounding.roundTo_natCast hr
  have hdown : q3Float.rnd ((s.procs q).lifetime s.ticks) = (s.procs q).lifetime s.ticks :=
    Rounding.roundTo_natCast hd
  have hvalue : procValue q3Float s q =
      if q3Float.rnd ((s.procs q).lifetime s.ticks) ≠ 0 then
        q3Float.rnd (q3Float.rnd (s.procs q).rtime / q3Float.rnd ((s.procs q).lifetime s.ticks))
      else 0 := rfl
  rw [hvalue, hrtime, hdown, Proc.share]
  by_cases h0 : (s.procs q).lifetime s.ticks = 0
  · rw [if_neg (by simp [h0]), if_pos h0]
    exact (Rounding.roundTo_zero 24).symm
  · rw [if_pos (by exact_mod_cast h0), if_neg h0]
    rfl

/-- When the shares can be told apart, the best process is the first one of least share. -/
theorem Told.least (h : Told s) (hp : bestIndex q3Float s = some p) :
    First (fun q => (s.procs q).Ready) (fun q => (s.procs q).share s.ticks) p := by
  have hready : ∀ q, GrtCandidate q3Float s q ↔ (s.procs q).Ready := fun q => by
    simp [GrtCandidate, Proc.Ready, q3Float]
  have hfirst := bestIndex_first (procValue_nonneg s) hp
  simp only [First, hready] at hfirst
  refine First.congr hfirst (fun q r hq hr hlt => ?_) fun q r hq hr heq => ?_
  · rw [procValue_eq (h.short q hq).1 (h.short q hq).2, procValue_eq (h.short r hr).1
      (h.short r hr).2]
    refine Rounding.roundTo_lt_roundTo (Proc.share_nonneg _ _) hlt ?_
    have := h.apart q r hq hr hlt
    linarith
  · rw [procValue_eq (h.short q hq).1 (h.short q hq).2, procValue_eq (h.short r hr).1
      (h.short r hr).2, heq]

/-! ## The switches of a step -/

/-- Behind `base` there are switches only to processes of the lower classes. -/
def Lower (base : List Switch) (t : State) : Prop :=
  ∃ l, t.switches = base ++ l ∧ ∀ sw ∈ l,
    (sw.table sw.slot).state = .runnable ∧ (sw.table sw.slot).piority ≠ highPiority

theorem Lower.dispatch {base : List Switch} (h : Lower base s) {pc : SchedPc} (hpc : pc ≠ .grt)
    (hrun : (s.procs p).state = .runnable) (hpio : (s.procs p).piority ≠ highPiority) :
    (dispatch s c pc p).Ends (fun t => (t.cpus c).pc ≠ .grt ∧ Lower base t) (Lower base) := by
  obtain ⟨l, hl, hlow⟩ := h
  have hnew : Lower base (Ptable.dispatch s c pc p).state := by
    refine ⟨l ++ [⟨p, s.procs⟩], ?_, ?_⟩
    · rw [dispatch_switches, hl, List.append_assoc]
    · intro sw hsw
      rcases List.mem_append.mp hsw with hsw | hsw
      · exact hlow sw hsw
      · obtain rfl := List.mem_singleton.mp hsw
        exact ⟨hrun, hpio⟩
  refine Outcome.ends_of_state ⟨?_, hnew⟩ hnew
  rw [(dispatch_sameSched s c pc p).cpus]
  simpa [switchTo] using hpc

/-- The two scans switch to the lower classes. -/
theorem lower_scanRule (hcfg : cfg.policy = .Q3) (c : Cid) (base : List Switch) :
    ScanRule cfg c (fun t => (t.cpus c).pc ≠ .grt ∧ Lower base t) (Lower base) where
  flags _ _ _ h := h
  frr s p h hp := h.dispatch (by simp) hp.1 (by rw [hp.2 hcfg]; decide)
  rr s p h hp := h.dispatch (by simp) hp.1 (by rw [hp.2]; decide)
  endPass s h := ⟨by simp [endPass], h⟩

theorem lower_self (s : State) : Lower s.switches s :=
  ⟨[], (List.append_nil _).symm, fun _ h => absurd h List.not_mem_nil⟩

/-- The switches that a step has added, of which at most the first is one of the GRT level. -/
def Adds (s t : State) : Prop :=
  Lower s.switches t ∨ ∃ p, bestIndex q3Float s = some p ∧ Lower (s.switches ++ [⟨p, s.procs⟩]) t

/-- What holds in every state of a run on one CPU. -/
structure PolicyInv (s : State) : Prop where
  records : All RecordOk s.procs
  strict : StrictSoFar s
  held : (s.cpus 0).pc = .grt → s.grtExists = true

/-- A pass from its top. -/
theorem pass_adds (s : State) :
    Adds s (pass q3Float 0 s) ∧
      (((pass q3Float 0 s).cpus 0).pc = .grt → (pass q3Float 0 s).grtExists = true) := by
  unfold pass
  generalize hs₁ : checkForHigherPiority { s with grtExists := false, frrExists := false } = s₁
  have hsw : s₁.switches = s.switches := by rw [← hs₁]; rfl
  have hprocs : s₁.procs = s.procs := by rw [← hs₁]; rfl
  have hbest : bestIndex q3Float s₁ = bestIndex q3Float s := by rw [← hs₁]; rfl
  unfold grtLevel
  rw [if_pos (.inr rfl)]
  split
  · rename_i p hp
    have hcand := grtCandidate_of_bestIndex hp
    -- the flag has been set for the process that is switched to
    have hflag : s₁.grtExists = true := by
      by_contra hno
      rw [← hs₁] at hno hcand
      exact noHigh_of_check (by simpa using hno) p hcand.1 (hcand.2 rfl)
    have hd := dispatch_switches s₁ 0 .grt p
    have hsame := (dispatch_sameSched s₁ 0 .grt p).grtExists
    rw [hsw, hprocs] at hd
    split
    · rename_i s' heq
      rw [heq] at hd hsame
      refine ⟨.inr ⟨p, hbest ▸ hp, ?_⟩, fun _ => hsame.trans hflag⟩
      exact ⟨[], hd.trans (List.append_nil _).symm, fun _ h => absurd h List.not_mem_nil⟩
    · rename_i s' heq
      rw [heq] at hd
      have hlow : Lower (s.switches ++ [⟨p, s.procs⟩]) s' := hd ▸ lower_self s'
      have hlevel := (lower_scanRule q3Float_policy 0 _).frrLevel hlow
      exact ⟨.inr ⟨p, hbest ▸ hp, hlevel.2⟩, fun h => absurd h hlevel.1⟩
  · have hlevel := (lower_scanRule q3Float_policy 0 _).frrLevel (hsw ▸ lower_self s₁)
    exact ⟨.inl hlevel.2, fun h => absurd h hlevel.1⟩

/-- A step other than the start of a pass. -/
theorem resume_adds (h : (s.cpus 0).pc = .grt → s.grtExists = true) :
    Lower s.switches (resume q3Float 0 s) ∧
      (((resume q3Float 0 s).cpus 0).pc = .grt → (resume q3Float 0 s).grtExists = true) := by
  have R := lower_scanRule q3Float_policy 0 s.switches
  have hend : ∀ t : State, (t.cpus 0).pc ≠ .grt ∧ Lower s.switches t →
      Lower s.switches t ∧ ((t.cpus 0).pc = .grt → t.grtExists = true) :=
    fun t ht => ⟨ht.2, fun hpc => absurd hpc ht.1⟩
  have hlow := lower_self s
  unfold resume
  split
  · exact ⟨hlow, h⟩
  · exact hend _ (R.frrLevel hlow)
  · exact hend _ (R.frrBack (fun t => R.frrLoop _) hlow)
  · exact hend _ (R.rrBack (fun t => R.rrLoop _) hlow)

/-- On one CPU nothing comes back to stale flags. -/
theorem PolicyInv.noStaleReturn (h : PolicyInv s) (ha : a.cpu = 0) :
    NoStaleReturn q3Float s a := by
  intro t ht hstale
  unfold grtReturn at ht
  split at ht
  · rename_i c u hent
    obtain ⟨hpc, heq⟩ := Option.ite_none_right_eq_some.mp ht
    cases heq
    obtain rfl : c = 0 := (entry_cpu hent).trans ha
    have hne : ∀ c, a ≠ .schedule c := by
      rintro c rfl
      have heq := of_guard hent
      cases heq
    have hsame := entry_sameSched hne hent
    have hheld := h.held (by rw [← hsame.cpus]; exact hpc)
    have hflag := hstale.1
    rw [hsame.grtExists.symm] at hheld
    exact absurd (hheld.symm.trans hflag) (by simp)
  · cases ht

/-- **One step** on one CPU. -/
theorem PolicyInv.step (h : PolicyInv s) (ha : a.cpu = 0) (hs : step q3Float s a = some t) :
    PolicyInv t ∧ Adds s t ∧ ((∀ c, a ≠ .schedule c) → Lower s.switches t) := by
  have hstrict := (strict_step_iff q3Float_policy h.records h.strict hs).mpr
    (h.noStaleReturn ha)
  have hrec := recordOk_step h.records hs
  obtain ⟨⟨c, o⟩, hent, rfl⟩ := Option.map_eq_some_iff.mp hs
  obtain rfl : c = 0 := (entry_cpu hent).trans ha
  by_cases hsched : ∃ c, a = .schedule c
  · obtain ⟨c', rfl⟩ := hsched
    have heq := of_guard hent
    obtain ⟨rfl, rfl⟩ := Prod.mk.inj (Option.some.inj heq)
    obtain ⟨hadds, hheld⟩ := pass_adds s
    exact ⟨⟨hrec, hstrict, hheld⟩, hadds, fun hne => absurd rfl (hne _)⟩
  · have hsame := entry_sameSched (fun c hc => hsched ⟨c, hc⟩) hent
    have hheld : (o.state.cpus 0).pc = .grt → o.state.grtExists = true := by
      rw [hsame.cpus, hsame.grtExists]
      exact h.held
    cases o with
    | released u =>
      have hlow : Lower s.switches u := hsame.switches ▸ lower_self u
      exact ⟨⟨hrec, hstrict, hheld⟩, .inl hlow, fun _ => hlow⟩
    | sched u =>
      obtain ⟨hlow, hheld'⟩ := resume_adds hheld
      rw [hsame.switches] at hlow
      exact ⟨⟨hrec, hstrict, hheld'⟩, .inl hlow, fun _ => hlow⟩

/-- Switches to the lower classes keep to the policy when they are strict. -/
theorem policy_of_lower {base : List Switch} (ticks : ℕ) (hstrict : StrictSoFar t)
    (h : Lower base t) : ∃ l, t.switches = base ++ l ∧ ∀ sw ∈ l, sw.Policy ticks := by
  obtain ⟨l, hl, hlow⟩ := h
  refine ⟨l, hl, fun sw hsw => ?_⟩
  have hmem : sw ∈ t.switches := by
    rw [hl]
    exact List.mem_append_right _ hsw
  exact ⟨(hlow sw hsw).1, hstrict sw hmem, fun hpio => absurd hpio (hlow sw hsw).2⟩

theorem PolicyInv.policyStep (h : PolicyInv s) (ha : a.cpu = 0) (htold : ToldStep s a) :
    PolicyStep q3Float s a := by
  intro t hs
  obtain ⟨hinv, hadds, hother⟩ := h.step ha hs
  by_cases hsched : ∃ c, a = .schedule c
  · obtain ⟨c, rfl⟩ := hsched
    rcases hadds with hlow | ⟨p, hp, hlow⟩
    · exact policy_of_lower _ hinv.strict hlow
    · have hfirst := Told.least htold hp
      obtain ⟨l, hl, hpol⟩ := policy_of_lower s.ticks hinv.strict hlow
      rw [List.append_assoc] at hl
      have hmem : ⟨p, s.procs⟩ ∈ t.switches := by
        rw [hl]
        simp
      refine ⟨[⟨p, s.procs⟩] ++ l, hl, fun sw hsw => ?_⟩
      rcases List.mem_append.mp hsw with hsw | hsw
      · obtain rfl := List.mem_singleton.mp hsw
        exact ⟨hfirst.1.1, hinv.strict _ hmem, fun _ => hfirst.2⟩
      · exact hpol sw hsw
  · exact policy_of_lower _ hinv.strict (hother fun c hc => hsched ⟨c, hc⟩)

theorem policyInv_boot : PolicyInv (boot q3Float) where
  records := recordOk_boot q3Float
  strict _ hsw := absurd hsw List.not_mem_nil
  held h := by cases h

/-- Init runs for two ticks, forks a child and sleeps; the child runs for one.  Then both are
`RUNNABLE`. -/
def shareTurns : List Action :=
  [.schedule 0, .tick, .tick, .fork 0, .forkDone 0, .sleep 0 1, .schedule 0, .tick, .tick, .nice 0,
    .nice 0, .nice 0, .sleep 0 2, .tick, .wakeup 1, .wakeup 2, .schedule 0]

/-- Process `p` has run for `n` ticks. -/
def ticked (s : State) (p : Slot) (n : ℕ) : State :=
  { s.setProc p { s.procs p with rtime := (s.procs p).rtime + n } with ticks := s.ticks + n }

/-- Process `p` is on CPU 0 and nobody waits for the clock, which does not wrap around. -/
structure Ticking (s : State) (p : Slot) (n : ℕ) : Prop where
  cpu : (s.cpus 0).proc = some p
  running : (s.procs p).state = .running
  awake : ∀ i, (s.procs i).state = .sleeping → (s.procs i).chan ≠ some ticksChan
  ticks : s.ticks + n < 0x100000000
  rtime : (s.procs p).rtime + n < 0x100000000

instance (s : State) (p : Slot) (n : ℕ) : Decidable (Ticking s p n) :=
  decidable_of_iff (_ ∧ _ ∧ _ ∧ _ ∧ _)
    ⟨fun ⟨h1, h2, h3, h4, h5⟩ => ⟨h1, h2, h3, h4, h5⟩,
      fun h => ⟨h.cpu, h.running, h.awake, h.ticks, h.rtime⟩⟩

theorem Ticking.tick_eq {n : ℕ} (h : Ticking s p (n + 1)) : tick s = ticked s p 1 := by
  have hticks : uint32 ((s.ticks : ℤ) + 1) = s.ticks + 1 := by
    have := h.ticks
    exact_mod_cast uint32_of_lt (n := s.ticks + 1) (by omega)
  have hrtime : uint32 (((s.procs p).rtime : ℤ) + 1) = (s.procs p).rtime + 1 := by
    have := h.rtime
    exact_mod_cast uint32_of_lt (n := (s.procs p).rtime + 1) (by omega)
  have hawake : wakeup1 (ticked s p 1).procs ticksChan = (ticked s p 1).procs := by
    funext i
    refine if_neg fun hi => ?_
    by_cases hip : i = p
    · subst hip
      have hstate : ((ticked s i 1).procs i).state = (s.procs i).state := by
        simp [ticked, State.setProc]
      rw [hstate, h.running] at hi
      cases hi.1
    · have hsame : (ticked s p 1).procs i = s.procs i := setProc_of_ne s _ hip
      rw [hsame] at hi
      exact h.awake i hi.1 hi.2
  have htick : tick s = { ticked s p 1 with procs := wakeup1 (ticked s p 1).procs ticksChan } := by
    unfold tick ticked
    simp only [h.cpu, hticks]
    rw [if_pos h.running, hrtime]
    rfl
  rw [htick, hawake]

theorem Ticking.next {n : ℕ} (h : Ticking s p (n + 1)) : Ticking (ticked s p 1) p n := by
  have h1 := h.ticks
  have h2 := h.rtime
  constructor
  case cpu => exact h.cpu
  case running => simpa [ticked, State.setProc] using h.running
  case awake =>
    intro i hi
    by_cases hip : i = p
    · subst hip
      have hrun := h.running
      simp [ticked, State.setProc, hrun] at hi
    · have hsame : (ticked s p 1).procs i = s.procs i := setProc_of_ne s _ hip
      rw [hsame] at hi ⊢
      exact h.awake i hi
  case ticks =>
    change s.ticks + 1 + n < _
    omega
  case rtime =>
    simp only [ticked, State.setProc, Function.update_self]
    omega

theorem ticked_ticked (s : State) (p : Slot) (m n : ℕ) :
    ticked (ticked s p m) p n = ticked s p (m + n) := by
  simp [ticked, State.setProc, Nat.add_assoc]

/-- **A stretch of clock ticks.** -/
theorem exec_ticks (n : ℕ) (h : Ticking s p n) :
    exec (step cfg) s (List.replicate n .tick) = some (ticked s p n) := by
  induction n generalizing s with
  | zero => simp [ticked, State.setProc]
  | succ n ih =>
    have hstep : step cfg s .tick = some (ticked s p 1) := congrArg some h.tick_eq
    rw [List.replicate_succ, exec_cons_eq_some]
    exact ⟨_, hstep, by rw [ih h.next, ticked_ticked, Nat.add_comm 1 n]⟩

/-- Process `p` runs for `n` ticks, and then `xs` happens. -/
def stretch (s : State) (p : Slot) (n : ℕ) (xs : List Action) : State :=
  (exec (step q3Float) (ticked s p n) xs).getD s

theorem exec_stretch (s : State) (p : Slot) (n : ℕ) (xs : List Action) (h : Ticking s p n)
    (hxs : (exec (step q3Float) (ticked s p n) xs).isSome) :
    exec (step q3Float) s (List.replicate n .tick ++ xs) = some (stretch s p n xs) := by
  obtain ⟨t, ht⟩ := Option.isSome_iff_exists.mp hxs
  refine exec_append_eq_some.mpr ⟨_, exec_ticks n h, ?_⟩
  rw [stretch, ht, Option.getD_some]

/-- Init runs for 128 ticks, forks a child, runs for 1985 more and sleeps; the child runs for 2048
ticks and sleeps.  Then both are woken. -/
def closeShares : List Action :=
  [.schedule 0] ++ (List.replicate 128 .tick ++ [.fork 0, .forkDone 0]) ++
    (List.replicate 1985 .tick ++ [.sleep 0 1, .schedule 0]) ++
    (List.replicate 2048 .tick ++ [.sleep 0 2, .wakeup 1, .wakeup 2])

def closeShares₀ : State := (exec (step q3Float) (boot q3Float) [.schedule 0]).getD emptyTable
def closeShares₁ : State := stretch closeShares₀ 0 128 [.fork 0, .forkDone 0]
def closeShares₂ : State := stretch closeShares₁ 0 1985 [.sleep 0 1, .schedule 0]
def closeShares₃ : State := stretch closeShares₂ 1 2048 [.sleep 0 2, .wakeup 1, .wakeup 2]

theorem exec_closeShares :
    exec (step q3Float) (boot q3Float) closeShares = some closeShares₃ := by
  have h0 : exec (step q3Float) (boot q3Float) [.schedule 0] = some closeShares₀ := rfl
  have h1 := exec_stretch closeShares₀ 0 128 [.fork 0, .forkDone 0]
    (by decide +kernel) (by decide +kernel)
  have h2 := exec_stretch closeShares₁ 0 1985 [.sleep 0 1, .schedule 0]
    (by decide +kernel) (by decide +kernel)
  have h3 := exec_stretch closeShares₂ 1 2048 [.sleep 0 2, .wakeup 1, .wakeup 2]
    (by decide +kernel) (by decide +kernel)
  exact exec_append_eq_some.mpr ⟨_, exec_append_eq_some.mpr ⟨_, exec_append_eq_some.mpr
    ⟨_, h0, h1⟩, h2⟩, h3⟩

end Xv6.Ptable
