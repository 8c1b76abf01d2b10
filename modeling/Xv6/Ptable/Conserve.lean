import Xv6.Ptable.Pass
import Xv6.Lib.Machine

/-!
# Work conservation

A pass of `scheduler` that finds a `RUNNABLE` process should switch to one.  Each level
filters by `piority`, the lowest one also under plain RR, where `piority` plays no part
otherwise; and the flags that keep the lower levels from running also count processes
`RUNNING` on other CPUs.

## Main definitions

* `Grows s t` — a switch was recorded between `s` and `t`.
* `Qualifies cfg s p` — `p` is `RUNNABLE` and passes the filter of a level that runs.

## Main results

* `work_conservation` — a pass switches to a process exactly when some process qualifies.
* `pass_idles` — two passes that do not, although a process is `RUNNABLE`.
-/

namespace Xv6.Ptable

open Machine

variable {cfg : Config} {c : Cid} {s : State}

/-- At least one switch was recorded between `s` and `t`. -/
def Grows (s t : State) : Prop := s.switches.length < t.switches.length

instance (s t : State) : Decidable (Grows s t) := inferInstanceAs (Decidable (_ < _))

theorem not_grows_of_eq {t : State} (h : t.switches = s.switches) : ¬ Grows s t := by
  rw [Grows, h]
  exact lt_irrefl _

theorem grows_of_switch {t : State} {sw : Switch} (h : s.switches ++ [sw] <+: t.switches) :
    Grows s t := by
  have := h.length_le
  rw [List.length_append, List.length_singleton] at this
  exact this

/-! ## The levels -/

theorem grows_rrLevel : Grows s (rrLevel cfg c s) ↔
    (cfg.policy = .RR ∨ cfg.policy = .Q3 ∧ s.grtExists = false ∧ s.frrExists = false) ∧
      ∃ p, RrCandidate s p := by
  unfold rrLevel
  split
  · rename_i hruns
    by_cases hc : ∃ p, RrCandidate s p
    · obtain ⟨q, hq⟩ := hc
      obtain ⟨p, -, hsw⟩ : ∃ p, RrCandidate s p ∧ s.switches ++ [⟨p, s.procs⟩] <+:
          (rrLoop cfg c (List.finRange NPROC) s).switches :=
        rrLoop_switches (List.mem_finRange q) hq
      exact iff_of_true (grows_of_switch hsw) ⟨hruns, q, hq⟩
    · rw [rrLoop_of_none fun p _ hp => hc ⟨p, hp⟩]
      exact iff_of_false (not_grows_of_eq rfl) fun h => hc h.2
  · rename_i hruns
    exact iff_of_false (not_grows_of_eq rfl) fun h => hruns h.1

/-- The FRR level switches, or leaves it to the RR level. -/
theorem grows_frrLevel : Grows s (frrLevel cfg c s) ↔
    ((cfg.policy = .FRR ∨ cfg.policy = .Q3 ∧ s.grtExists = false) ∧ ∃ p, FrrCandidate cfg s p) ∨
      Grows s (rrLevel cfg c s) := by
  unfold frrLevel
  split
  · rename_i hruns
    by_cases hc : ∃ p, FrrCandidate cfg s p
    · obtain ⟨q, hq⟩ := hc
      obtain ⟨p, -, hsw⟩ : ∃ p, FrrCandidate cfg s p ∧ s.switches ++ [⟨p, s.procs⟩] <+:
          (frrLoop cfg c (List.finRange NPROC) s).switches :=
        frrLoop_switches (List.mem_finRange q) hq
      exact iff_of_true (grows_of_switch hsw) (.inl ⟨hruns, q, hq⟩)
    · rw [frrLoop_of_none fun p _ hp => hc ⟨p, hp⟩]
      exact (or_iff_right fun h => hc h.2).symm
  · rename_i hruns
    exact (or_iff_right fun h => hruns h.1).symm

/-- The switch to the best process of the GRT level comes before all that follows it. -/
theorem grtLevel_switches {p : Slot} (hruns : cfg.policy = .GRT ∨ cfg.policy = .Q3)
    (hp : bestIndex cfg s = some p) :
    s.switches ++ [⟨p, s.procs⟩] <+: (grtLevel cfg c s).switches := by
  have hd := dispatch_switches s c .grt p
  simp only [grtLevel, if_pos hruns, hp]
  split
  · rename_i heq
    rw [heq] at hd
    exact hd ▸ List.prefix_refl _
  · rename_i heq
    rw [heq] at hd
    exact ((switchesRule c _).scan _).frrLevel (hd ▸ List.prefix_refl _)

/-- The GRT level switches, or leaves it to the FRR level. -/
theorem grows_grtLevel : Grows s (grtLevel cfg c s) ↔
    ((cfg.policy = .GRT ∨ cfg.policy = .Q3) ∧ ∃ p, GrtCandidate cfg s p) ∨
      Grows s (frrLevel cfg c s) := by
  by_cases hruns : cfg.policy = .GRT ∨ cfg.policy = .Q3
  · cases hp : bestIndex cfg s with
    | some p =>
      exact iff_of_true (grows_of_switch (grtLevel_switches hruns hp))
        (.inl ⟨hruns, p, grtCandidate_of_bestIndex hp⟩)
    | none =>
      simp only [grtLevel, if_pos hruns, hp]
      exact (or_iff_right fun ⟨_, p, hc⟩ => bestIndex_ne_none hc hp).symm
  · rw [grtLevel, if_neg hruns]
    exact (or_iff_right fun h => hruns h.1).symm

/-! ## Whole passes -/

/-- A process of the given priority is `RUNNABLE` or `RUNNING`, on any CPU. -/
def Active (s : State) (piority : ℤ) : Prop :=
  ∃ q, ((s.procs q).state = .runnable ∨ (s.procs q).state = .running) ∧
    (s.procs q).piority = piority

/-- `p` is `RUNNABLE`, and a level that runs lets it through: under RR its priority is the
lowest, and under Q3 no process of a higher priority is `RUNNABLE` or `RUNNING`. -/
def Qualifies (cfg : Config) (s : State) (p : Slot) : Prop :=
  (s.procs p).state = .runnable ∧
  match cfg.policy with
  | .RR => (s.procs p).piority = lowPiority
  | .FRR => True
  | .GRT => True
  | .Q3 =>
    (s.procs p).piority = highPiority ∨
    (s.procs p).piority = mediumPiority ∧ ¬ Active s highPiority ∨
    (s.procs p).piority = lowPiority ∧ ¬ Active s highPiority ∧ ¬ Active s mediumPiority

theorem any_finRange_iff_active {piority : ℤ} :
    ((List.finRange NPROC).any fun i =>
      ((s.procs i).state = .runnable || (s.procs i).state = .running) &&
        (s.procs i).piority = piority) = false ↔ ¬ Active s piority := by
  simp [Active]

/-- A pass switches to a process exactly when one qualifies. -/
theorem grows_pass_iff : Grows s (pass cfg c s) ↔ ∃ p, Qualifies cfg s p := by
  have hgrt : (checkForHigherPiority { s with grtExists := false, frrExists := false }).grtExists
      = false ↔ ¬ Active s highPiority := any_finRange_iff_active
  have hfrr : (checkForHigherPiority { s with grtExists := false, frrExists := false }).frrExists
      = false ↔ ¬ Active s mediumPiority := any_finRange_iff_active
  have hprocs : (checkForHigherPiority { s with grtExists := false, frrExists := false }).procs =
    s.procs := rfl
  have hsw : (checkForHigherPiority { s with grtExists := false, frrExists := false }).switches =
    s.switches := rfl
  unfold pass
  generalize checkForHigherPiority { s with grtExists := false, frrExists := false } = s₁ at *
  rw [Grows, ← hsw]
  show Grows s₁ (grtLevel cfg c s₁) ↔ _
  rw [grows_grtLevel, grows_frrLevel, grows_rrLevel, hgrt, hfrr]
  cases hpol : cfg.policy <;>
    simp only [Qualifies, GrtCandidate, FrrCandidate, RrCandidate, hpol, hprocs]
  case RR => simp
  case FRR => simp
  case GRT => simp
  case Q3 =>
    -- The levels are tried in turn; a later one runs only if the flags are clear.
    constructor
    · simp only [reduceCtorEq, false_or, true_and, or_true, forall_const]
      rintro (⟨p, hs, hp⟩ | ⟨hh, p, hs, hp⟩ | ⟨⟨hh, hm⟩, p, hs, hp⟩)
      · exact ⟨p, hs, .inl hp⟩
      · exact ⟨p, hs, .inr (.inl ⟨hp, hh⟩)⟩
      · exact ⟨p, hs, .inr (.inr ⟨hp, hh, hm⟩)⟩
    · simp only [reduceCtorEq, false_or, true_and, or_true, forall_const]
      rintro ⟨p, hs, hp | ⟨hp, hh⟩ | ⟨hp, hh, hm⟩⟩
      · exact .inl ⟨p, hs, hp⟩
      · exact .inr (.inl ⟨hh, p, hs, hp⟩)
      · exact .inr (.inr ⟨⟨hh, hm⟩, p, hs, hp⟩)

/-- **Work conservation.**  On every CPU and from every table, a pass that acquires the
lock while some process is `RUNNABLE` switches to a process exactly when some process
qualifies. -/
theorem work_conservation (cfg : Config) (c : Cid) (s : State) :
    ((∃ p, (s.procs p).state = .runnable) → Grows s (pass cfg c s)) ↔
      ((∃ p, (s.procs p).state = .runnable) → ∃ p, Qualifies cfg s p) :=
  imp_congr_right fun _ => grows_pass_iff

/-- Under RR, init calls `nice` and uses up its quantum. -/
def niceUnderRR : List Action := [.schedule 0, .nice 0] ++ List.replicate 6 (.yield 0)

/-- Under Q3, init runs on CPU 0 and its child on CPU 1 lowers its priority and uses up
its quantum. -/
def mediumBesideHigh : List Action :=
  [.schedule 0, .fork 0, .forkDone 0, .schedule 1, .nice 1] ++ List.replicate 6 (.yield 1)

/-- Under RR, init has left the lowest priority and is never switched to again.  Under Q3,
CPU 1 has nothing to do as long as init, of the highest priority, runs on CPU 0. -/
theorem pass_idles :
    (∃ s, exec (step ⟨.RR, id⟩) (boot ⟨.RR, id⟩) niceUnderRR = some s ∧
      (s.cpus 0).pc = .top ∧ (s.procs 0).state = .runnable ∧ ¬ Grows s (pass ⟨.RR, id⟩ 0 s)) ∧
    ∃ s, exec (step q3) (boot q3) mediumBesideHigh = some s ∧
      (s.cpus 1).pc = .top ∧ (s.procs 1).state = .runnable ∧ ¬ Grows s (pass q3 1 s) := by
  constructor
  · have h : (exec (step ⟨.RR, id⟩) (boot ⟨.RR, id⟩) niceUnderRR).any (fun s =>
        (s.cpus 0).pc = .top ∧ (s.procs 0).state = .runnable ∧
          ¬ Grows s (pass ⟨.RR, id⟩ 0 s)) = true := by
      decide +kernel
    obtain ⟨s, hs, h⟩ := (Option.any_eq_true _ _).mp h
    exact ⟨s, hs, of_decide_eq_true h⟩
  · have h : (exec (step q3) (boot q3) mediumBesideHigh).any (fun s =>
        (s.cpus 1).pc = .top ∧ (s.procs 1).state = .runnable ∧
          ¬ Grows s (pass q3 1 s)) = true := by
      decide +kernel
    obtain ⟨s, hs, h⟩ := (Option.any_eq_true _ _).mp h
    exact ⟨s, hs, of_decide_eq_true h⟩

end Xv6.Ptable
