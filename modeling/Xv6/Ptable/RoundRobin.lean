import Xv6.Lib.Turns
import Xv6.Ptable.ChildRecords
import Xv6.Ptable.Conserve
import Xv6.Ptable.OnCpu

/-!
# Round robin within a level

The FRR and the RR level each scan the table from slot 0.  A scan that runs to its end and
starts again gives the processes of its level turns in the order of their slots.  A scan
is abandoned when the process it switched to comes back and one of a higher priority
waits; the next pass starts again at slot 0, and a process in a low slot can get its next
turn before one in a high slot gets any.

## Main definitions

* `level v` — how the history of switches is read for the processes of priority `v`.
* `Undisturbed s a` — no scan is abandoned in the step.
* `InTurns s` — where the scans stand, and whether the flags fit.

## Main results

* `round_robin` — on one CPU, in every run without abandoned scans, both levels give turns
  in order.
* `round_robin_overtakes` — a run in which a scan is abandoned and a process is passed over.
-/

namespace Xv6.Ptable

open Machine Turns

/-- The history of switches, for the processes of priority `v`. -/
def level (v : ℤ) : View Switch Slot where
  slot sw := sw.slot
  counts sw := (sw.table sw.slot).piority = v
  waits sw q := (sw.table q).state = .runnable ∧ (sw.table q).piority = v

variable {cfg : Config} {s s' : State} {v : ℤ} {k : ℕ} {pc : SchedPc} {p : Slot}

/-! ## Scans and the table -/

/-- The scan for priority `v` has passed `k` slots, and whoever is owed a turn waits for it. -/
structure RingAt (v : ℤ) (k : ℕ) (s : State) : Prop where
  ring : (level v).Ring s.switches k
  waiting : ∀ p q, (level v).Pending s.switches p q →
    (s.procs q).state = .runnable ∧ (s.procs q).piority = v

/-- A process that is `RUNNABLE` in `s` still is in `s'`, with the same priority. -/
def KeepsWaiting (s s' : State) (q : Slot) : Prop :=
  (s.procs q).state = .runnable →
    (s'.procs q).state = .runnable ∧ (s'.procs q).piority = (s.procs q).piority

theorem RingAt.frame (h : RingAt v k s) (hsw : s'.switches = s.switches)
    (hkeep : ∀ q, KeepsWaiting s s' q) : RingAt v k s' := by
  refine ⟨hsw ▸ h.ring, fun p q hpq => ?_⟩
  rw [hsw] at hpq
  obtain ⟨hr, hv⟩ := h.waiting p q hpq
  simp [hkeep q hr, hv]

theorem RingAt.skip (h : RingAt v k s)
    (hk : ∀ q : Slot, q = k → (s.procs q).state = .runnable → (s.procs q).piority ≠ v) :
    RingAt v (k + 1) s := by
  refine ⟨h.ring.skip fun p q hpq hq => ?_, h.waiting⟩
  obtain ⟨hr, hv⟩ := h.waiting p q hpq
  exact hk q hq hr hv

theorem RingAt.restart (h : RingAt v k s) (hk : NPROC ≤ k) : RingAt v 0 s :=
  ⟨h.ring.restart hk, h.waiting⟩

/-- What a switch to `p` leaves of those who wait. -/
theorem RingAt.waiting_switch (h : RingAt v k s)
    (hsw : s'.switches = s.switches ++ [⟨p, s.procs⟩]) (hkeep : ∀ q, q ≠ p → KeepsWaiting s s' q) :
    ∀ r q, (level v).Pending s'.switches r q →
      (s'.procs q).state = .runnable ∧ (s'.procs q).piority = v := by
  intro r q hrq
  rw [hsw] at hrq
  rcases hrq.of_append with ⟨hr, hq, -, hw⟩ | ⟨hrq, -, hq⟩
  · have hqp : q ≠ p := fun he => hq (he.trans hr)
    obtain ⟨hrun, hv⟩ := hw
    exact ⟨(hkeep q hqp hrun).1, (hkeep q hqp hrun).2.trans hv⟩
  · obtain ⟨hr, hv⟩ := h.waiting r q hrq
    have hqp : q ≠ p := fun he => hq he.symm
    simp [hkeep q hqp hr, hv]

/-- The scan for `v` switches to the process it has reached. -/
theorem RingAt.serve (h : RingAt v p s) (hsw : s'.switches = s.switches ++ [⟨p, s.procs⟩])
    (hkeep : ∀ q, q ≠ p → KeepsWaiting s s' q) : RingAt v (p + 1) s' := by
  refine ⟨?_, h.waiting_switch hsw hkeep⟩
  rw [hsw]
  exact View.Ring.serve (t := (⟨p, s.procs⟩ : Switch)) h.ring

/-- The scheduler switches to a process of another priority. -/
theorem RingAt.other (h : RingAt v k s) (hsw : s'.switches = s.switches ++ [⟨p, s.procs⟩])
    (hkeep : ∀ q, q ≠ p → KeepsWaiting s s' q) (hp : (s.procs p).piority ≠ v) :
    RingAt v k s' := by
  refine ⟨?_, h.waiting_switch hsw hkeep⟩
  rw [hsw]
  exact h.ring.other hp

/-! ## One switch -/

/-- A switch leaves the other processes as they are, but for a zombie that is reaped. -/
theorem dispatch_of_ne (s : State) (c : Cid) (pc : SchedPc) {q : Slot} (hq : q ≠ p) :
    (dispatch s c pc p).state.procs q = s.procs q ∨
      (s.procs q).state = .zombie ∧ ((dispatch s c pc p).state.procs q).state = .unused := by
  have hs : (switchTo s c pc p).procs q = s.procs q := setProc_of_ne s _ hq
  unfold dispatch
  dsimp only
  split
  · rw [← hs]
    exact wait_of_ne hq
  · exact .inl hs

theorem dispatch_piority {c : Cid} (q : Slot) :
    ((dispatch s c pc p).state.procs q).piority = (s.procs q).piority := by
  have hs : ((switchTo s c pc p).procs q).piority = (s.procs q).piority := by
    refine setProc_proj (fun r : Proc => r.piority) s p _ ?_ q
    rfl
  unfold dispatch
  dsimp only
  split
  · rw [wait_proj (fun r => r.piority) (fun _ => rfl) (fun _ _ => rfl) (fun _ _ => rfl)]
    exact hs
  · exact hs

@[simp] theorem dispatch_pc (s : State) (c : Cid) (pc : SchedPc) (p : Slot) :
    ((dispatch s c pc p).state.cpus c).pc = pc := by
  simp [(dispatch_sameSched s c pc p).cpus, switchTo]

theorem dispatch_keepsWaiting {c : Cid} {q : Slot} (hq : q ≠ p) :
    KeepsWaiting s (dispatch s c pc p).state q := by
  intro hr
  rcases dispatch_of_ne s c pc hq with heq | ⟨hz, -⟩
  · rw [heq]
    exact ⟨hr, rfl⟩
  · rw [hr] at hz
    cases hz

/-- A switch to a process of another priority makes none of priority `v` active. -/
theorem not_active_dispatch {c : Cid} (h : ¬ Active s v) (hp : (s.procs p).piority ≠ v) :
    ¬ Active (dispatch s c pc p).state v := by
  rintro ⟨q, hq, hv⟩
  rw [dispatch_piority] at hv
  have hqp : q ≠ p := by
    rintro rfl
    exact hp hv
  rcases dispatch_of_ne s c pc hqp with heq | ⟨-, hu⟩
  · rw [heq] at hq
    exact h ⟨q, hq, hv⟩
  · simp [hu] at hq

/-! ## A pass -/

/-- How far the scan for priority `v` has got when the pass is suspended at `pc`. -/
def scanned (v : ℤ) : SchedPc → ℕ
  | .frr r => if v = mediumPiority then r + 1 else 0
  | .rr r => if v = lowPiority then r + 1 else 0
  | _ => 0

/-- The flags of a suspended pass. -/
def FlagsFit (s : State) : SchedPc → Prop
  | .top => True
  | .grt => s.grtExists = true
  | .frr _ => s.grtExists = false ∧ s.frrExists = true
  | .rr _ => s.grtExists = false ∧ s.frrExists = false

/-- Where the two scans of CPU 0 stand. -/
structure InTurns (s : State) : Prop where
  flags : FlagsFit s (s.cpus 0).pc
  medium : RingAt mediumPiority (scanned mediumPiority (s.cpus 0).pc) s
  low : RingAt lowPiority (scanned lowPiority (s.cpus 0).pc) s

/-- The GRT level has found a process, so the lower levels are skipped. -/
structure GrtMode (s : State) : Prop where
  grt : s.grtExists = true
  medium : RingAt mediumPiority 0 s
  low : RingAt lowPiority 0 s

/-- The FRR level has passed `k` slots, and nothing calls for its scan to be abandoned. -/
structure FrrMode (k : ℕ) (s : State) : Prop where
  grt : s.grtExists = false
  high : ¬ Active s highPiority
  frr : s.frrExists = false → ¬ Active s mediumPiority
  medium : RingAt mediumPiority k s
  low : RingAt lowPiority 0 s

/-- The RR level has passed `k` slots, and nothing calls for its scan to be abandoned. -/
structure RrMode (k : ℕ) (s : State) : Prop where
  grt : s.grtExists = false
  frr : s.frrExists = false
  high : ¬ Active s highPiority
  mediumIdle : ¬ Active s mediumPiority
  medium : RingAt mediumPiority 0 s
  low : RingAt lowPiority k s

/-- A scan that goes through the slots in order has reached slot `k` after `k` rounds. -/
theorem drop_finRange_eq_cons {n : ℕ} {i : Fin n} {l : List (Fin n)}
    (h : (List.finRange n).drop k = i :: l) : i = k ∧ l = (List.finRange n).drop (k + 1) := by
  have hk : k < (List.finRange n).length := by
    by_contra hle
    rw [List.drop_eq_nil_of_le (by omega)] at h
    simp at h
  rw [List.drop_eq_getElem_cons hk] at h
  simp at h
  simp [← h.1, h.2]

theorem le_of_drop_finRange_eq_nil {n : ℕ} (h : (List.finRange n).drop k = []) : n ≤ k := by
  simpa using h

theorem inTurns_endPass (hm : RingAt mediumPiority 0 s) (hl : RingAt lowPiority 0 s) :
    InTurns (endPass s 0) := by
  have hkeep : ∀ q, KeepsWaiting s (endPass s 0) q := fun q hq => ⟨hq, rfl⟩
  constructor <;> rw [endPass_cpus_self]
  · trivial
  · exact hm.frame rfl hkeep
  · exact hl.frame rfl hkeep

/-- With nothing of a higher priority active the flags stay clear. -/
theorem checkForHigherPiority_of_idle (hh : ¬ Active s highPiority)
    (hm : ¬ Active s mediumPiority) : checkForHigherPiority s = s := by
  rw [← any_finRange_iff_active] at hh hm
  simp only [checkForHigherPiority, hh, hm, Bool.or_false]

/-- The RR level switches to the process it has reached. -/
theorem RrMode.dispatch (h : RrMode p s) (hp : RrCandidate s p) :
    (dispatch s 0 (.rr p) p).Ends InTurns (RrMode (p + 1)) := by
  obtain ⟨-, hlow⟩ := hp
  have hsw := dispatch_switches s 0 (.rr p) p
  have hsame := dispatch_sameSched s 0 (.rr p) p
  have hne : (s.procs p).piority ≠ mediumPiority := by rw [hlow]; decide
  have hne' : (s.procs p).piority ≠ highPiority := by rw [hlow]; decide
  have hgrt := hsame.grtExists.trans h.grt
  have hfrr := hsame.frrExists.trans h.frr
  have hm := h.medium.other hsw (fun q hq => dispatch_keepsWaiting hq) hne
  have hl := h.low.serve hsw fun q hq => dispatch_keepsWaiting hq
  refine Outcome.ends_of_state ?_ ⟨hgrt, hfrr, not_active_dispatch h.high hne',
    not_active_dispatch h.mediumIdle hne, hm, hl⟩
  constructor <;> rw [dispatch_pc]
  · exact ⟨hgrt, hfrr⟩
  · exact hm
  · exact hl

/-- The process comes back, and the scan goes on. -/
theorem RrMode.rrBack (hcfg : cfg.policy = .Q3) {loop : State → State}
    (hloop : ∀ t, RrMode k t → InTurns (loop t)) (h : RrMode k s) :
    InTurns (rrBack cfg 0 loop s) := by
  rw [Ptable.rrBack, if_pos hcfg, checkForHigherPiority_of_idle h.high h.mediumIdle]
  simp [h.grt, h.frr, hloop s h]

/-- The RR scan, from slot `k` on. -/
theorem RrMode.rrLoop (hcfg : cfg.policy = .Q3) {ps : List Slot} (h : RrMode k s)
    (hps : ps = (List.finRange NPROC).drop k) : InTurns (rrLoop cfg 0 ps s) := by
  induction ps generalizing k s with
  | nil => exact inTurns_endPass h.medium (h.low.restart (le_of_drop_finRange_eq_nil hps.symm))
  | cons p ps ih =>
    obtain ⟨rfl, hps⟩ := drop_finRange_eq_cons hps.symm
    rw [Ptable.rrLoop]
    split
    · rename_i hp
      have hd := h.dispatch hp
      split
      · rename_i t heq
        rw [heq] at hd
        exact hd
      · rename_i t heq
        rw [heq] at hd
        exact RrMode.rrBack hcfg (fun u hu => ih hu hps) hd
    · rename_i hp
      refine ih (k := p + 1) ⟨h.grt, h.frr, h.high, h.mediumIdle, h.medium, ?_⟩ hps
      refine h.low.skip fun q hq hr hv => hp ?_
      obtain rfl := Fin.ext hq
      exact ⟨hr, hv⟩

/-- The FRR level is through: the RR level runs if nothing of medium priority is active. -/
theorem FrrMode.rrLevel (hcfg : cfg.policy = .Q3) (h : FrrMode k s) (hk : NPROC ≤ k) :
    InTurns (rrLevel cfg 0 s) := by
  have hm := h.medium.restart hk
  unfold Ptable.rrLevel
  split
  · rename_i hruns
    have hfrr : s.frrExists = false := by simpa [hcfg, h.grt] using hruns
    have hmode : RrMode 0 s := ⟨h.grt, hfrr, h.high, h.frr hfrr, hm, h.low⟩
    exact hmode.rrLoop hcfg rfl
  · exact inTurns_endPass hm h.low

/-- Recomputing the flags finds nothing of the highest priority. -/
theorem FrrMode.checkForHigherPiority (h : FrrMode k s) : FrrMode k (checkForHigherPiority s) := by
  have hh := any_finRange_iff_active.mpr h.high
  have hkeep : ∀ q, KeepsWaiting s (Ptable.checkForHigherPiority s) q := fun q hq => ⟨hq, rfl⟩
  refine ⟨?_, h.high, fun hf => ?_, h.medium.frame rfl hkeep, h.low.frame rfl hkeep⟩
  · simp only [Ptable.checkForHigherPiority, h.grt, hh, Bool.or_false]
  · simp only [Ptable.checkForHigherPiority, Bool.or_eq_false_iff] at hf
    exact h.frr hf.1

/-- The FRR level switches to the process it has reached. -/
theorem FrrMode.dispatch (hcfg : cfg.policy = .Q3) (h : FrrMode p s) (hp : FrrCandidate cfg s p) :
    (dispatch { s with frrExists := true } 0 (.frr p) p).Ends InTurns (FrrMode (p + 1)) := by
  have hmedium := hp.2 hcfg
  have hkeep : ∀ q, q ≠ p → KeepsWaiting s
      (Ptable.dispatch { s with frrExists := true } 0 (.frr p) p).state q :=
    fun q hq => dispatch_keepsWaiting (s := { s with frrExists := true }) hq
  have hsw := dispatch_switches { s with frrExists := true } 0 (.frr p) p
  have hsame := dispatch_sameSched { s with frrExists := true } 0 (.frr p) p
  have hhigh : ¬ Active (Ptable.dispatch { s with frrExists := true } 0 (.frr p) p).state
      highPiority := not_active_dispatch (s := { s with frrExists := true }) h.high
        (by rw [hmedium]; decide)
  have hm := h.medium.serve hsw hkeep
  have hl := h.low.other hsw hkeep (by rw [hmedium]; decide)
  have hgrt := hsame.grtExists.trans h.grt
  have hfrr : _ = true := hsame.frrExists
  refine Outcome.ends_of_state ?_ ⟨hgrt, hhigh, fun hf => ?_, hm, hl⟩
  · constructor <;> rw [dispatch_pc]
    · exact ⟨hgrt, hfrr⟩
    · exact hm
    · exact hl
  · rw [hfrr] at hf
    cases hf

theorem FrrMode.frrBack (hcfg : cfg.policy = .Q3) {loop : State → State}
    (hloop : ∀ t, FrrMode k t → InTurns (loop t)) (h : FrrMode k s) :
    InTurns (frrBack cfg 0 loop s) := by
  have h' := h.checkForHigherPiority
  rw [Ptable.frrBack, if_pos hcfg]
  simp [h'.grt, hloop _ h']

/-- The FRR scan, from slot `k` on. -/
theorem FrrMode.frrLoop (hcfg : cfg.policy = .Q3) {ps : List Slot} (h : FrrMode k s)
    (hps : ps = (List.finRange NPROC).drop k) : InTurns (frrLoop cfg 0 ps s) := by
  induction ps generalizing k s with
  | nil => exact h.rrLevel hcfg (le_of_drop_finRange_eq_nil hps.symm)
  | cons p ps ih =>
    obtain ⟨rfl, hps⟩ := drop_finRange_eq_cons hps.symm
    rw [Ptable.frrLoop]
    split
    · rename_i hp
      have hd := h.dispatch hcfg hp
      dsimp only
      split
      · rename_i t heq
        rw [heq] at hd
        exact hd
      · rename_i t heq
        rw [heq] at hd
        exact FrrMode.frrBack hcfg (fun u hu => ih hu hps) hd
    · rename_i hp
      refine ih (k := p + 1) ⟨h.grt, h.high, h.frr, ?_, h.low⟩ hps
      refine h.medium.skip fun q hq hr hv => hp ?_
      obtain rfl := Fin.ext hq
      exact ⟨hr, fun _ => hv⟩

/-- With `GRTExists` set the pass ends. -/
theorem GrtMode.frrLevel (hcfg : cfg.policy = .Q3) (h : GrtMode s) :
    InTurns (frrLevel cfg 0 s) := by
  have hskip : Ptable.frrLevel cfg 0 s = endPass s 0 := by
    simp [Ptable.frrLevel, rrLevel, hcfg, h.grt]
  rw [hskip]
  exact inTurns_endPass h.medium h.low

/-- The GRT level switches to a process of the highest priority. -/
theorem GrtMode.dispatch (h : GrtMode s) (hp : (s.procs p).piority = highPiority) :
    (dispatch s 0 .grt p).Ends InTurns GrtMode := by
  have hsw := dispatch_switches s 0 .grt p
  have hgrt := (dispatch_sameSched s 0 .grt p).grtExists.trans h.grt
  have hm := h.medium.other hsw (fun q hq => dispatch_keepsWaiting hq) (by rw [hp]; decide)
  have hl := h.low.other hsw (fun q hq => dispatch_keepsWaiting hq) (by rw [hp]; decide)
  refine Outcome.ends_of_state ?_ ⟨hgrt, hm, hl⟩
  constructor <;> rw [dispatch_pc]
  · exact hgrt
  · exact hm
  · exact hl

/-- The levels of a pass whose flags are computed and whose scans have not begun. -/
theorem inTurns_grtLevel (hcfg : cfg.policy = .Q3)
    (hgrt : s.grtExists = false ↔ ¬ Active s highPiority)
    (hfrr : s.frrExists = false ↔ ¬ Active s mediumPiority) (hm : RingAt mediumPiority 0 s)
    (hl : RingAt lowPiority 0 s) : InTurns (grtLevel cfg 0 s) := by
  rw [grtLevel, if_pos (.inr hcfg)]
  split
  · rename_i p hp
    obtain ⟨hrun, hhigh⟩ := grtCandidate_of_bestIndex hp
    have hset : s.grtExists = true := by
      rw [← Bool.not_eq_false, hgrt, not_not]
      exact ⟨p, .inl hrun, hhigh hcfg⟩
    have hd := GrtMode.dispatch ⟨hset, hm, hl⟩ (hhigh hcfg)
    split
    · rename_i t heq
      rw [heq] at hd
      exact hd
    · rename_i t heq
      rw [heq] at hd
      exact GrtMode.frrLevel hcfg hd
  · by_cases hg : s.grtExists = true
    · exact GrtMode.frrLevel hcfg ⟨hg, hm, hl⟩
    · rw [Bool.not_eq_true] at hg
      have hmode : FrrMode 0 s := ⟨hg, hgrt.mp hg, hfrr.mp, hm, hl⟩
      rw [frrLevel, if_pos (.inr ⟨hcfg, hg⟩)]
      exact hmode.frrLoop hcfg rfl

/-- **A pass** from its top. -/
theorem InTurns.pass (hcfg : cfg.policy = .Q3) (h : InTurns s) (htop : (s.cpus 0).pc = .top) :
    InTurns (pass cfg 0 s) := by
  obtain ⟨-, hm, hl⟩ := h
  rw [htop] at hm hl
  apply inTurns_grtLevel hcfg
  · exact any_finRange_iff_active
  · exact any_finRange_iff_active
  · exact hm.frame rfl fun q hq => ⟨hq, rfl⟩
  · exact hl.frame rfl fun q hq => ⟨hq, rfl⟩

/-! ## Sections -/

/-- The priority of the scan that a suspended pass is in. -/
def SchedPc.scans : SchedPc → Option ℤ
  | .frr _ => some mediumPiority
  | .rr _ => some lowPiority
  | _ => none

/-- The process on the CPU gives it up: it exits, sleeps, waits for its children, none of which
is a zombie, or has used up its quantum. -/
def givesUp (s : State) : Action → Bool
  | .exit _ => true
  | .sleep _ _ => true
  | .wait c => (s.caller c).any fun p =>
    match waitScan s.procs p with
    | .sleeps => true
    | _ => false
  | .yield c => (s.cpus c).proc.any fun p =>
    (s.procs p).piority ≠ highPiority && QUANTA ≤ (s.procs p).processCounter
  | _ => false

/-- `q` is `RUNNABLE` once the process on the CPU has given it up by `a`: it is already, or it is
the process itself and yields, or it is woken by the exit. -/
def Comes (s : State) (a : Action) (q : Slot) : Prop :=
  (s.procs q).state = .runnable ∨ (s.procs q).state = .running ∧ a = .yield 0 ∨
    ∃ pr ∈ exiting s a, (s.procs q).SleepsOn (.proc pr.2) ∨
      (s.procs q).SleepsOn (.proc s.initproc) ∧
        ∃ j, (s.procs j).parent = some pr.1 ∧ (s.procs j).state = .zombie

instance (p : Proc) (chan : Chan) : Decidable (p.SleepsOn chan) :=
  inferInstanceAs (Decidable (_ ∧ _))

instance (s : State) (a : Action) (q : Slot) : Decidable (Comes s a q) :=
  inferInstanceAs (Decidable (_ ∨ _ ∧ _ ∨ ∃ pr ∈ exiting s a, _))

/-- No scan is abandoned: when a process that a scan switched to gives up the CPU, none of a
higher priority than the scan's comes. -/
def Undisturbed (s : State) (a : Action) : Prop :=
  givesUp s a = true → ∀ v ∈ (s.cpus 0).pc.scans, ∀ q, v < (s.procs q).piority → ¬ Comes s a q

instance (s : State) (a : Action) : Decidable (Undisturbed s a) :=
  inferInstanceAs (Decidable (_ → ∀ v ∈ (s.cpus 0).pc.scans, _))

section Entry

variable {a : Action} {c : Cid} {o : Outcome}

/-- A process that waits goes on waiting, whatever the process on the CPU does. -/
theorem entry_keepsWaiting (hcfg : cfg.policy = .Q3) (hone : OneCpu s) (hrec : All RecordOk s.procs)
    (hne : ∀ c, a ≠ .schedule c) (hent : entry cfg s a = some (c, o)) (q : Slot) :
    KeepsWaiting s o.state q := by
  intro hr
  -- The process on the CPU, a free slot and one that `fork` fills are other slots.
  have hother : ∀ i, (s.procs i).state ≠ .runnable → q ≠ i := by
    rintro i hi rfl
    exact hi hr
  have hcur : ∀ c i, (s.cpus c).proc = some i → q ≠ i := fun c i hi =>
    hother i (by simp [hone.state_eq hi])
  have hroused : ∀ u : State, Roused (s.procs q) (u.procs q) →
      (u.procs q).piority = (s.procs q).piority →
        (u.procs q).state = .runnable ∧ (u.procs q).piority = (s.procs q).piority :=
    fun u hu hv => ⟨(hu.state_eq (by simp [hr])).trans hr, hv⟩
  cases entry_cases hent with
  | schedule c _ => exact absurd rfl (hne c)
  | fork c cur hc =>
    have hq := hcur c cur (caller_eq_some.mp hc).1
    show ((fork cfg s cur).procs q).state = _ ∧ ((fork cfg s cur).procs q).piority = _
    unfold fork
    split
    · exact ⟨hr, rfl⟩
    · rename_i r hfree
      have hqr : q ≠ r := hother r (by
        have : (s.procs r).state = .unused := by simpa using List.find?_some hfree
        simp [this])
      rw [allocproc_q3 hcfg]
      dsimp only
      rw [setProc_of_ne _ _ hq]
      dsimp only
      rw [setProc_of_ne _ _ hqr]
      exact ⟨hr, rfl⟩
  | forkFail c cur r hf =>
    obtain ⟨hc, hnp⟩ := forking_eq_some.mp hf
    have hqr : q ≠ r := hother r (by simp [hone.embryo hnp])
    dsimp only [Outcome.state, forkFail]
    rw [setProc_of_ne _ _ (hcur c cur hc), setProc_of_ne _ _ hqr]
    exact ⟨hr, rfl⟩
  | forkDone c cur r hf =>
    obtain ⟨hc, hnp⟩ := forking_eq_some.mp hf
    have hqr : q ≠ r := hother r (by simp [hone.embryo hnp])
    dsimp only [Outcome.state, forkDone]
    rw [setProc_of_ne _ _ (hcur c cur hc), setProc_of_ne _ _ hqr]
    exact ⟨hr, rfl⟩
  | exit c cur par hc _ _ =>
    have hq := hcur c cur (caller_eq_some.mp hc).1
    exact hroused _ (exit_roused s par hq) (exit_proj (fun r => r.piority) (fun _ => rfl)
      (fun _ _ => rfl) (fun _ _ => rfl) ((hrec par).recordChild_piority _ _) q)
  | wait c cur hc =>
    have hq := hcur c cur (caller_eq_some.mp hc).1
    rcases wait_of_ne (s := s) hq with heq | ⟨hz, -⟩
    · rw [heq]
      exact ⟨hr, rfl⟩
    · rw [hr] at hz
      cases hz
  | sleep c addr cur hc =>
    have hq := hcur c cur (caller_eq_some.mp hc).1
    dsimp only [Outcome.state, sleep]
    rw [setProc_of_ne _ _ hq]
    exact ⟨hr, rfl⟩
  | yield c cur hc =>
    have hq := hcur c cur hc
    unfold yield
    split
    · exact ⟨hr, rfl⟩
    split
    · exact ⟨hr, rfl⟩
    split <;> dsimp only [Outcome.state] <;> rw [setProc_of_ne _ _ hq] <;> exact ⟨hr, rfl⟩
  | nice c cur hc =>
    have hq := hcur c cur (caller_eq_some.mp hc).1
    show ((nice s cur).procs q).state = _ ∧ ((nice s cur).procs q).piority = _
    unfold nice
    split
    · rw [setProc_of_ne _ _ hq]
      exact ⟨hr, rfl⟩
    · exact ⟨hr, rfl⟩
  | kill c pid cur _ =>
    refine hroused { s with procs := _ } (kill_woken s.procs pid q).toRoused ?_
    apply kill_proj (fun r => r.piority) fun _ _ => rfl
  | wakeup addr =>
    refine hroused _ (wakeup1_woken s.procs _ q).toRoused ?_
    apply wakeup1_proj (fun r => r.piority) fun _ => rfl
  | tick =>
    refine hroused _ (tick_woken s q).toRoused ?_
    exact tick_proj (fun r => r.piority) (fun _ => rfl) (fun _ _ => rfl) s q

/-- If the step is undisturbed, the process on the CPU leaves none of a higher priority than the
scan's. -/
theorem entry_not_active (hcfg : cfg.policy = .Q3) (hone : OneCpu s) (honly : OnlyCpu0 s)
    (hrec : All RecordOk s.procs) (ha : a.cpu = 0) (hund : Undisturbed s a) {w : ℤ}
    (hv : (s.cpus 0).pc.scans = some v) (hvw : v < w) {t : State}
    (hent : entry cfg s a = some (c, .sched t)) : ¬ Active t w := by
  rintro ⟨q, hq, hw⟩
  -- `q` had that priority before, so it cannot come.
  have hcomes : givesUp s a = true → (t.procs q).piority = (s.procs q).piority → ¬ Comes s a q :=
    fun hg hp => hund hg v hv q (by omega)
  have hrunning : ∀ cur, (s.cpus 0).proc = some cur → q ≠ cur → (s.procs q).state ≠ .running := by
    intro cur hcur hne hrun
    obtain ⟨c', hc'⟩ := (hone.running q).mp hrun
    rw [honly.eq_zero hc', hcur] at hc'
    exact hne (Option.some.inj hc').symm
  have hrest : ∀ cur, (s.cpus 0).proc = some cur → q ≠ cur → t.procs q = s.procs q →
      Comes s a q := by
    intro cur hcur hne heq
    rw [heq] at hq
    exact hq.imp id fun hrun => absurd hrun (hrunning cur hcur hne)
  generalize ho : Outcome.sched t = o at hent
  cases entry_cases hent with
  | exit c cur par hc hinit hpar =>
    obtain rfl : c = 0 := ha
    cases ho
    obtain ⟨hon, -⟩ := caller_eq_some.mp hc
    have hex : exiting s (.exit 0) = some (cur, par) := by simp [exiting, hc, hinit, hpar]
    refine hcomes rfl (exit_proj (fun r => r.piority) (fun _ => rfl) (fun _ _ => rfl)
      (fun _ _ => rfl) ((hrec par).recordChild_piority _ _) q) ?_
    have hne : q ≠ cur := by
      rintro rfl
      rw [exit_self] at hq
      simp at hq
    rcases hq with hq | hq
    · rcases exit_runnable hne hq with hr | hw
      · exact .inl hr
      · exact .inr (.inr ⟨(cur, par), hex, hw⟩)
    · rw [(exit_roused s par hne).state_iff (by simp) (by simp)] at hq
      exact absurd hq (hrunning cur hon hne)
  | wait c cur hc =>
    obtain rfl : c = 0 := ha
    obtain ⟨hon, -⟩ := caller_eq_some.mp hc
    unfold wait at ho
    split at ho
    · cases ho
    · cases ho
    · rename_i hscan
      cases ho
      by_cases hne : q = cur
      · simp [sleep, State.setProc, hne] at hq
      · refine hcomes (by simp [givesUp, hc, hscan]) ?_ (hrest cur hon hne ?_) <;>
          rw [setProc_of_ne _ _ hne, sleep, setProc_of_ne _ _ hne]
  | sleep c addr cur hc =>
    obtain rfl : c = 0 := ha
    obtain ⟨hon, -⟩ := caller_eq_some.mp hc
    cases ho
    by_cases hne : q = cur
    · simp [sleep, State.setProc, hne] at hq
    · have heq : (sleep s cur (.addr addr)).procs q = s.procs q := setProc_of_ne _ _ hne
      exact hcomes rfl (by rw [heq]) (hrest cur hon hne heq)
  | yield c cur hon =>
    obtain rfl : c = 0 := ha
    unfold yield at ho
    split at ho
    · cases ho
    split at ho
    · cases ho
    split at ho
    · cases ho
    · rename_i hhigh hcount
      cases ho
      have hg : givesUp s (.yield 0) = true := by
        simp only [hcfg, and_true] at hhigh
        simp [givesUp, hon, hhigh, le_of_not_gt hcount]
      by_cases hne : q = cur
      · subst hne
        refine hcomes hg ?_ (.inr (.inl ⟨hone.state_eq hon, rfl⟩))
        rw [setProc_self]
      · have heq := setProc_of_ne s { s.procs cur with processCounter := 0, state := .runnable }
          hne
        exact hcomes hg (by rw [heq]) (hrest cur hon hne heq)
  | _ => cases ho

end Entry

/-! ## Steps and runs -/

theorem InTurns.frame (h : InTurns s) (hsame : SameSched s s')
    (hkeep : ∀ q, KeepsWaiting s s' q) : InTurns s' := by
  obtain ⟨hf, hm, hl⟩ := h
  constructor <;> rw [hsame.cpus]
  · cases hpc : (s.cpus 0).pc <;> rw [hpc] at hf <;>
      simp_all [FlagsFit, hsame.grtExists, hsame.frrExists]
  · exact hm.frame hsame.switches hkeep
  · exact hl.frame hsame.switches hkeep

/-- What holds in every state of a run on one CPU without abandoned scans. -/
structure RoundInv (s : State) : Prop where
  one : OneCpu s
  only : OnlyCpu0 s
  records : All RecordOk s.procs
  turns : InTurns s

/-- **One step.** -/
theorem RoundInv.step (hcfg : cfg.policy = .Q3) {a : Action} (h : RoundInv s) (ha : a.cpu = 0)
    (hund : Undisturbed s a) (hs : step cfg s a = some s') : RoundInv s' := by
  refine ⟨h.one.step hs, h.only.step ha hs, recordOk_step h.records hs, ?_⟩
  obtain ⟨⟨c, o⟩, hent, rfl⟩ := Option.map_eq_some_iff.mp hs
  obtain rfl : c = 0 := (entry_cpu hent).trans ha
  by_cases hsched : ∃ c, a = .schedule c
  · obtain ⟨c, rfl⟩ := hsched
    cases entry_cases hent with
    | schedule _ htop => exact h.turns.pass hcfg htop
  have hne : ∀ c, a ≠ .schedule c := fun c hc => hsched ⟨c, hc⟩
  have hsame := entry_sameSched hne hent
  have hturns := h.turns.frame hsame (entry_keepsWaiting hcfg h.one h.records hne hent)
  cases o with
  | released t => exact hturns
  | sched t =>
    have hidle : ∀ v w, (s.cpus 0).pc.scans = some v → v < w → ¬ Active t w := fun v w hv hvw =>
      entry_not_active hcfg h.one h.only h.records ha hund hv hvw hent
    have hcpus : t.cpus = s.cpus := hsame.cpus
    replace hturns : InTurns t := hturns
    show InTurns (resume cfg 0 t)
    unfold resume
    split
    · exact hturns
    · rename_i hpc
      obtain ⟨hflags, hm, hl⟩ := hturns
      rw [hpc] at hflags hm hl
      exact GrtMode.frrLevel hcfg ⟨hflags, hm, hl⟩
    · rename_i r hpc
      obtain ⟨⟨hgrt, hfrr⟩, hm, hl⟩ : FlagsFit t (.frr r) ∧ RingAt mediumPiority (r + 1) t ∧
          RingAt lowPiority 0 t := by
        obtain ⟨hflags, hm, hl⟩ := hturns
        rw [hpc] at hflags hm hl
        exact ⟨hflags, hm, hl⟩
      have hmode : FrrMode (r + 1) t := by
        refine ⟨hgrt, hidle mediumPiority highPiority ?_ (by decide), fun hf => ?_, hm, hl⟩
        · rw [← hcpus, hpc]
          rfl
        · simp [hfrr] at hf
      exact hmode.frrBack hcfg fun u hu => hu.frrLoop hcfg rfl
    · rename_i r hpc
      obtain ⟨⟨hgrt, hfrr⟩, hm, hl⟩ : FlagsFit t (.rr r) ∧ RingAt mediumPiority 0 t ∧
          RingAt lowPiority (r + 1) t := by
        obtain ⟨hflags, hm, hl⟩ := hturns
        rw [hpc] at hflags hm hl
        exact ⟨hflags, hm, hl⟩
      have hscans : (s.cpus 0).pc.scans = some lowPiority := by
        rw [← hcpus, hpc]
        rfl
      have hmode : RrMode (r + 1) t :=
        ⟨hgrt, hfrr, hidle lowPiority highPiority hscans (by decide),
          hidle lowPiority mediumPiority hscans (by decide), hm, hl⟩
      exact hmode.rrBack hcfg fun u hu => hu.rrLoop hcfg rfl

theorem roundInv_boot (cfg : Config) : RoundInv (boot cfg) := by
  have hboot : (boot cfg).switches = [] ∧ (boot cfg).cpus = emptyTable.cpus := by
    unfold boot allocproc
    dsimp only
    split <;> exact ⟨rfl, rfl⟩
  have hring : ∀ v, RingAt v 0 (boot cfg) := by
    intro v
    constructor
    · rw [hboot.1]
      apply View.ring_nil
    · rintro p q ⟨pre, t, mid, heq, -⟩
      simp [hboot.1] at heq
  refine ⟨oneCpu_boot cfg, ?_, recordOk_boot cfg, ?_⟩
  · intro c _
    rw [hboot.2]
    rfl
  · constructor <;> rw [hboot.2]
    · trivial
    · exact hring _
    · exact hring _

/-- **Round robin within a level.**  On one CPU with `policyChooser == Q3`, in every run in
which no scan is abandoned for a process of a higher priority, between two consecutive
switches to a process of medium priority every other one that was `RUNNABLE` at the first
is switched to, and likewise for the lowest priority. -/
theorem round_robin (cfg : Config) (hcfg : cfg.policy = .Q3) (xs : List Action)
    (hcpu : ∀ a ∈ xs, a.cpu = 0) (hund : Along (step cfg) Undisturbed (boot cfg) xs) :
    Throughout (step cfg) (fun s => (level mediumPiority).Fair s.switches ∧
      (level lowPiority).Fair s.switches) (boot cfg) xs :=
  (throughout_invariant (fun _ _ _ h hP hst => h.step hcfg hP.1 hP.2 hst) (roundInv_boot cfg)
    ((along_of_forall hcpu).and hund)).mono
      fun _ h => ⟨h.turns.medium.ring.fair, h.turns.low.ring.fair⟩

/-- The timer interrupts that use up a quantum. -/
def quantum : List Action := List.replicate 6 (.yield 0)

/-- Init and its child lower their priority and take turns. -/
def twoMedium : List Action :=
  List.flatten [[.schedule 0, .fork 0, .forkDone 0, .nice 0], quantum, [.schedule 0, .nice 0],
    quantum, [.schedule 0], quantum, quantum, [.schedule 0]]

theorem round_robin_two :
    (∃ s, exec (step q3) (boot q3) twoMedium = some s ∧
      s.switches.map Switch.slot = [0, 1, 0, 1, 0]) ∧
    Throughout (step q3) (fun s => (level mediumPiority).Fair s.switches ∧
      (level lowPiority).Fair s.switches) (boot q3) twoMedium := by
  refine ⟨?_, round_robin q3 rfl twoMedium (by decide +kernel) (by decide +kernel)⟩
  have h : (exec (step q3) (boot q3) twoMedium).any (fun s =>
      s.switches.map Switch.slot = [0, 1, 0, 1, 0]) = true := by
    decide +kernel
  obtain ⟨s, hs, h⟩ := (Option.any_eq_true _ _).mp h
  exact ⟨s, hs, of_decide_eq_true h⟩

/-- Init forks two children and sleeps; they lower their priority.  While the first has its
turn of the FRR scan, the timer wakes init; init runs and sleeps again. -/
def abandonedScan : List Action :=
  List.flatten [[.schedule 0, .fork 0, .forkDone 0, .fork 0, .forkDone 0, .sleep 0 0],
    [.schedule 0, .nice 0], quantum, [.schedule 0, .nice 0], quantum, [.schedule 0, .tick], quantum,
    [.schedule 0, .sleep 0 0, .schedule 0]]

/-- The first child gets its second turn in the FRR scan while the second one, which has been
`RUNNABLE` at medium priority all the time, has had none. -/
theorem round_robin_overtakes :
    ∃ s, exec (step q3) (boot q3) abandonedScan = some s ∧ (∀ a ∈ abandonedScan, a.cpu = 0) ∧
      (s.switches.drop 3).map Switch.slot = [1, 0, 1] ∧
      (∀ sw ∈ s.switches.drop 3, (sw.table 2).state = .runnable ∧
        (sw.table 2).piority = mediumPiority) ∧
      ¬ (level mediumPiority).Fair s.switches := by
  have h : (exec (step q3) (boot q3) abandonedScan).any (fun s =>
      (s.switches.drop 3).map Switch.slot = [1, 0, 1] ∧
      ∀ sw ∈ s.switches.drop 3, (sw.table 1).piority = mediumPiority ∧
        (sw.table 2).state = .runnable ∧ (sw.table 2).piority = mediumPiority) = true := by
    decide +kernel
  obtain ⟨s, hs, h⟩ := (Option.any_eq_true _ _).mp h
  obtain ⟨hslots, htable⟩ := of_decide_eq_true h
  refine ⟨s, hs, by decide +kernel, hslots, fun sw hsw => (htable sw hsw).2, fun hfair => ?_⟩
  obtain ⟨sw₁, l, hdrop, h₁, hl⟩ := List.map_eq_cons_iff.mp hslots
  obtain ⟨sw₂, l, rfl, h₂, hl⟩ := List.map_eq_cons_iff.mp hl
  obtain ⟨sw₃, l, rfl, h₃, hl⟩ := List.map_eq_cons_iff.mp hl
  obtain rfl := List.map_eq_nil_iff.mp hl
  rw [hdrop] at htable
  have hsplit : s.switches = s.switches.take 3 ++ sw₁ :: ([sw₂] ++ sw₃ :: []) := by
    rw [List.singleton_append, ← hdrop, List.take_append_drop]
  have hone : (sw₁.table sw₁.slot).piority = mediumPiority := by
    rw [h₁]
    exact (htable sw₁ (by simp)).1
  have hthree : (sw₃.table sw₃.slot).piority = mediumPiority := by
    rw [h₃]
    exact (htable sw₃ (by simp)).1
  have htwo : 2 ≠ sw₁.slot := by
    rw [h₁]
    decide
  have hmid : ∀ x ∈ [sw₂], x.slot ≠ sw₁.slot ∧ x.slot ≠ 2 := by
    rw [List.forall_mem_singleton, h₁, h₂]
    decide
  obtain ⟨x, hx, hslot⟩ := hfair _ sw₁ [sw₂] sw₃ [] hsplit (h₃.trans h₁.symm)
    (fun x hx => (hmid x hx).1) hone hthree 2 htwo (htable sw₁ (by simp)).2
  exact (hmid x hx).2 hslot

end Xv6.Ptable
