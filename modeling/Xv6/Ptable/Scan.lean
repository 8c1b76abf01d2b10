import Xv6.Ptable.Sched

/-!
# What the scans of a pass find

Each level of a pass looks at the slots in order and switches to the first candidate,
or, at the GRT level, to the best one.  A scan that meets no candidate changes nothing.

## Main results

* `grtCandidate_of_bestIndex`, `bestIndex_ne_none` — the GRT level finds a candidate
  when there is one.
* `rrLoop_of_none`, `frrLoop_of_none` — scans without candidates.
-/

namespace Xv6.Ptable

/-- `find?` over the slots in order. -/
theorem find?_finRange {n : ℕ} {f : Fin n → Bool} {i : Fin n} (hi : f i = true)
    (hlt : ∀ j, j < i → f j = false) : (List.finRange n).find? f = some i := by
  rw [List.find?_eq_some_iff_getElem]
  refine ⟨hi, i, by simp, by simp, fun j hj => ?_⟩
  have := hlt ⟨j, by omega⟩ hj
  simp [this]

variable {cfg : Config} {c : Cid} {s : State}

/-! ## The GRT level -/

/-- The best process is one of those looked at. -/
theorem grtCandidate_of_bestIndex {p : Slot} (h : bestIndex cfg s = some p) :
    GrtCandidate cfg s p := by
  have key : ∀ (l : List Slot) (best : Option Slot × ℚ),
      (∀ q, best.1 = some q → GrtCandidate cfg s q) →
        ∀ q, (l.foldl (bestStep cfg s) best).1 = some q → GrtCandidate cfg s q := by
    intro l
    induction l with
    | nil => exact fun _ hb => hb
    | cons i l ih =>
      intro best hb
      refine ih _ fun q hq => ?_
      unfold bestStep at hq
      split at hq
      · rename_i hi
        split at hq
        · cases hq
          exact hi
        · exact hb q hq
      · exact hb q hq
  exact key _ _ (by simp) p h

/-- The first candidate is always taken, because `bestProcValue` is still -1. -/
theorem bestIndex_ne_none {p : Slot} (h : GrtCandidate cfg s p) : bestIndex cfg s ≠ none := by
  have keep : ∀ (l : List Slot) (best : Option Slot × ℚ), best.1 ≠ none →
      (l.foldl (bestStep cfg s) best).1 ≠ none := by
    intro l
    induction l with
    | nil => exact fun _ hb => hb
    | cons i l ih =>
      intro best hb
      refine ih _ ?_
      unfold bestStep
      split
      · split
        · simp
        · exact hb
      · exact hb
  have key : ∀ (l : List Slot), p ∈ l → (l.foldl (bestStep cfg s) (none, -1)).1 ≠ none := by
    intro l
    induction l with
    | nil => exact fun hp => absurd hp List.not_mem_nil
    | cons i l ih =>
      intro hp
      by_cases hi : GrtCandidate cfg s i
      · refine keep l _ ?_
        simp [bestStep, hi]
      · have hstep : bestStep cfg s (none, -1) i = (none, -1) := by
          simp [bestStep, hi]
        rw [List.foldl_cons, hstep]
        refine ih ((List.mem_cons.mp hp).resolve_left ?_)
        rintro rfl
        exact hi h
  exact key _ (List.mem_finRange p)

/-! ## Scans without candidates -/

theorem rrLoop_of_none {ps : List Slot} (h : ∀ p ∈ ps, ¬ RrCandidate s p) :
    rrLoop cfg c ps s = endPass s c := by
  induction ps with
  | nil => rfl
  | cons p ps ih =>
    rw [rrLoop, if_neg (h p List.mem_cons_self)]
    exact ih fun q hq => h q (List.mem_cons_of_mem _ hq)

theorem frrLoop_of_none {ps : List Slot} (h : ∀ p ∈ ps, ¬ FrrCandidate cfg s p) :
    frrLoop cfg c ps s = rrLevel cfg c s := by
  induction ps with
  | nil => rfl
  | cons p ps ih =>
    rw [frrLoop, if_neg (h p List.mem_cons_self)]
    exact ih fun q hq => h q (List.mem_cons_of_mem _ hq)

/-- With nothing `RUNNABLE` the two scans end the pass. -/
theorem frrLevel_of_idle (h : ∀ p, (s.procs p).state ≠ .runnable) :
    frrLevel cfg c s = endPass s c := by
  have hrr : rrLevel cfg c s = endPass s c := by
    unfold rrLevel
    split
    · exact rrLoop_of_none fun p _ hp => h p hp.1
    · rfl
  unfold frrLevel
  split
  · rw [frrLoop_of_none fun p _ hp => h p hp.1, hrr]
  · exact hrr

end Xv6.Ptable
