import Xv6.Ptable.Effects
import Xv6.Lib.LastSmaller

/-!
# What `sortProcessFIFO` sorts

The inner loop of `sortProcessFIFO` compares with the process of round `i`, not with the oldest
one found so far: a round exchanges that process with the last one behind it that is older.  The
table is always reordered among its `RUNNABLE` slots, and it comes out in the order of creation
exactly if the creation times are such that every round finds the oldest process this way.

## Main definitions

* `creationTimes procs l` — of the `RUNNABLE` processes in the slots `l`.
* `Rearranges procs out`, `Ordered out` — what a sort of the table is.

## Main results

* `rounds_sortProcessFIFO` — the rounds of the sort, on the creation times.
* `sortProcessFIFO_sorts_iff` — what is sorted.
-/

namespace Xv6.Ptable

open LastSmaller

variable {procs : Slot → Proc} {i j k : Slot} {l : List Slot}

/-- The creation times of the `RUNNABLE` processes in the slots `l`. -/
def creationTimes (procs : Slot → Proc) (l : List Slot) : List ℕ :=
  (l.filter fun i => (procs i).state = .runnable).map fun i => (procs i).ctime

/-- Only `RUNNABLE` processes have moved, and among their slots. -/
structure Rearranges (procs out : Slot → Proc) : Prop where
  unmoved : ∀ i, (procs i).state ≠ .runnable → out i = procs i
  permuted : ∃ σ : Equiv.Perm {i // (procs i).state = .runnable}, ∀ i, out i.1 = procs (σ i).1

/-- The `RUNNABLE` processes stand in the order of their creation. -/
def Ordered (out : Slot → Proc) : Prop :=
  ∀ i j, i < j → (out i).state = .runnable → (out j).state = .runnable →
    (out i).ctime ≤ (out j).ctime

/-! ## Creation times -/

section CreationTimes

@[simp] theorem creationTimes_nil : creationTimes procs [] = [] := rfl

theorem creationTimes_cons_of_runnable (h : (procs i).state = .runnable) :
    creationTimes procs (i :: l) = (procs i).ctime :: creationTimes procs l := by
  simp [creationTimes, h]

theorem creationTimes_cons_of_ne (h : (procs i).state ≠ .runnable) :
    creationTimes procs (i :: l) = creationTimes procs l := by
  simp [creationTimes, h]

@[simp] theorem creationTimes_append (l l' : List Slot) :
    creationTimes procs (l ++ l') = creationTimes procs l ++ creationTimes procs l' := by
  simp [creationTimes]

theorem mem_creationTimes {t : ℕ} : t ∈ creationTimes procs l ↔
    ∃ i ∈ l, (procs i).state = .runnable ∧ (procs i).ctime = t := by
  simp [creationTimes, and_assoc]

theorem creationTimes_congr {procs' : Slot → Proc} (h : ∀ i ∈ l, procs' i = procs i) :
    creationTimes procs' l = creationTimes procs l := by
  induction l with
  | nil => rfl
  | cons i l ih =>
    have hi : procs' i = procs i := h i (by simp)
    have hl := ih fun j hj => h j (by simp [hj])
    by_cases hr : (procs i).state = .runnable
    · rw [creationTimes_cons_of_runnable hr, creationTimes_cons_of_runnable (hi ▸ hr), hi, hl]
    · rw [creationTimes_cons_of_ne hr, creationTimes_cons_of_ne (hi ▸ hr), hl]

theorem pairwise_creationTimes : (creationTimes procs l).Pairwise (· ≤ ·) ↔
    l.Pairwise fun i j => (procs i).state = .runnable → (procs j).state = .runnable →
      (procs i).ctime ≤ (procs j).ctime := by
  induction l with
  | nil => simp
  | cons i l ih =>
    by_cases hr : (procs i).state = .runnable
    · rw [creationTimes_cons_of_runnable hr, List.pairwise_cons, List.pairwise_cons, ih]
      simp only [mem_creationTimes, hr, forall_true_left]
      exact and_congr_left' ⟨fun h j hj hjr => h _ ⟨j, hj, hjr, rfl⟩,
        fun h t ⟨j, hj, hjr, ht⟩ => ht ▸ h j hj hjr⟩
    · rw [creationTimes_cons_of_ne hr, List.pairwise_cons, ih]
      simp [hr]

theorem ordered_iff : Ordered procs ↔
    (creationTimes procs (List.finRange NPROC)).Pairwise (· ≤ ·) := by
  rw [pairwise_creationTimes]
  constructor
  · exact fun h => (List.pairwise_lt_finRange NPROC).imp fun hij => h _ _ hij
  · intro h i j hij
    have hget := List.pairwise_iff_getElem.mp h i j (by simp) (by simp) hij
    simpa using hget

end CreationTimes

/-! ## The rounds -/

/-- A loop over increasing slots that keeps the last one it accepts. -/
theorem foldl_last_le {P : Slot → Prop} [DecidablePred P] (hl : l.Pairwise (· < ·))
    (hi : ∀ j ∈ l, P j → i < j) :
    i ≤ l.foldl (fun m j => if P j then j else m) i ∧
      ∀ j ∈ l, P j → j ≤ l.foldl (fun m j => if P j then j else m) i := by
  induction l generalizing i with
  | nil => simp
  | cons k l ih =>
    obtain ⟨hk, hl⟩ := List.pairwise_cons.mp hl
    rw [List.foldl_cons]
    by_cases hP : P k
    · rw [if_pos hP]
      obtain ⟨hle, hall⟩ := ih hl fun j hj _ => hk j hj
      refine ⟨(hi k (by simp) hP).le.trans hle, fun j hj hPj => ?_⟩
      rcases List.mem_cons.mp hj with rfl | hj
      · exact hle
      · exact hall j hj hPj
    · rw [if_neg hP]
      obtain ⟨hle, hall⟩ := ih hl fun j hj => hi j (by simp [hj])
      refine ⟨hle, fun j hj hPj => ?_⟩
      rcases List.mem_cons.mp hj with rfl | hj
      · exact absurd hPj hP
      · exact hall j hj hPj

/-- Behind the slot that a round picks no process is older than the one of the round. -/
theorem le_of_sortPick_lt (hi : (procs i).state = .runnable) (hj : sortPick procs i < j)
    (hr : (procs j).state = .runnable) : (procs i).ctime ≤ (procs j).ctime := by
  by_contra hlt
  have hij : i < j := (le_sortPick procs i).trans_lt hj
  have hlast := (foldl_last_le (i := i) (List.pairwise_lt_finRange NPROC)
    (P := fun j => i < j ∧ (procs j).state = .runnable ∧ (procs j).ctime < (procs i).ctime)
    fun j _ h => h.1).2 j (by simp) ⟨hij, hr, by omega⟩
  rw [sortPick, if_pos hi] at hj
  exact absurd hj hlast.not_gt

/-- The rounds of later slots leave a slot alone. -/
theorem foldl_sortRound_apply (h : ∀ j ∈ l, i < j) : l.foldl sortRound procs i = procs i := by
  rw [sortRound_eq_round, Exchange.foldl_round, Function.comp_apply,
    Exchange.order_of_not_mem (Exchange.not_mem_exchanged_of_lt le_sortPick h)]

/-- An exchange, on the creation times of the slots behind the round. -/
theorem creationTimes_sortRound {u v : List Slot} (hi : (procs i).state = .runnable)
    (hk : sortPick procs i = k) (hu : ∀ j ∈ u, j ≠ i ∧ j ≠ k) (hv : ∀ j ∈ v, j ≠ i ∧ j ≠ k) :
    creationTimes (sortRound procs i) (u ++ k :: v) =
      creationTimes procs u ++ (procs i).ctime :: creationTimes procs v := by
  have hsame : ∀ j, j ≠ i ∧ j ≠ k → sortRound procs i j = procs j := by
    intro j hj
    rw [sortRound_eq_round]
    exact Exchange.round_apply_of_ne hj.1 (hk ▸ hj.2)
  have hmoved : sortRound procs i k = procs i := by
    rw [sortRound_eq_round]
    simp [Exchange.round, hk]
  have hr : (sortRound procs i k).state = .runnable := by
    rw [hmoved, hi]
  rw [creationTimes_append, creationTimes_cons_of_runnable hr, hmoved,
    creationTimes_congr fun j hj => hsame j (hu j hj),
    creationTimes_congr fun j hj => hsame j (hv j hj)]

/-- **The rounds of the sort** are those of `LastSmaller` on the creation times.  The induction
is over the slots that are left, which are all those behind the last round. -/
theorem rounds_foldl_sortRound (hl : l.Pairwise (· < ·)) (hup : ∀ i ∈ l, ∀ j, i < j → j ∈ l) :
    Rounds (creationTimes procs l) (creationTimes (l.foldl sortRound procs) l) := by
  induction l generalizing procs with
  | nil => exact .nil
  | cons i l ih =>
    obtain ⟨hi, hl⟩ := List.pairwise_cons.mp hl
    have hup' : ∀ k ∈ l, ∀ j, k < j → j ∈ l := by
      intro k hk j hkj
      have hne : j ≠ i := ((hi k hk).trans hkj).ne'
      simpa [hne] using hup k (by simp [hk]) j hkj
    have hfirst : l.foldl sortRound (sortRound procs i) i = sortRound procs i i :=
      foldl_sortRound_apply hi
    have hrest : Rounds (creationTimes (sortRound procs i) l)
        (creationTimes (l.foldl sortRound (sortRound procs i)) l) := ih hl hup'
    rw [List.foldl_cons]
    rcases sortPick_cases procs i with hpick | ⟨hik, hri, hrk, hlt⟩
    · -- The round changes nothing.
      have hsame : sortRound procs i = procs := by
        rw [sortRound_eq_round]
        exact Exchange.round_of_eq hpick
      rw [hsame] at hfirst hrest ⊢
      by_cases hri : (procs i).state = .runnable
      · rw [creationTimes_cons_of_runnable hri,
          creationTimes_cons_of_runnable (by rw [hfirst, hri]), hfirst]
        refine .keep (fun t ht => ?_) hrest
        obtain ⟨j, hj, hrj, rfl⟩ := mem_creationTimes.mp ht
        exact le_of_sortPick_lt hri (by rw [hpick]; exact hi j hj) hrj
      · rw [creationTimes_cons_of_ne hri, creationTimes_cons_of_ne (by rwa [hfirst])]
        exact hrest
    · generalize hk : sortPick procs i = k at *
      have hfirst' : sortRound procs i i = procs k := by
        rw [sortRound_eq_round]
        simp [Exchange.round, hk]
      obtain ⟨u, v, rfl⟩ := List.append_of_mem
        ((List.mem_cons.mp (hup i (by simp) k hik)).resolve_left hik.ne')
      obtain ⟨-, hkv, huv⟩ := List.pairwise_append.mp hl
      have hv := (List.pairwise_cons.mp hkv).1
      rw [creationTimes_sortRound hri hk
        (fun j hj => ⟨(hi j (by simp [hj])).ne', (huv j hj k (by simp)).ne⟩)
        fun j hj => ⟨(hi j (by simp [hj])).ne', (hv j hj).ne'⟩] at hrest
      rw [creationTimes_cons_of_runnable hri, creationTimes_append,
        creationTimes_cons_of_runnable hrk,
        creationTimes_cons_of_runnable (by rw [hfirst, hfirst', hrk]), hfirst, hfirst']
      refine .exchange hlt (fun t ht => ?_) hrest
      obtain ⟨j, hj, hrj, rfl⟩ := mem_creationTimes.mp ht
      exact le_of_sortPick_lt hri (hk ▸ hv j hj) hrj

theorem rounds_sortProcessFIFO (procs : Slot → Proc) :
    Rounds (creationTimes procs (List.finRange NPROC))
      (creationTimes (sortProcessFIFO procs) (List.finRange NPROC)) := by
  unfold sortProcessFIFO
  exact rounds_foldl_sortRound (List.pairwise_lt_finRange NPROC) fun _ _ j _ => List.mem_finRange j

/-! ## The result -/

theorem rearranges_sortProcessFIFO (procs : Slot → Proc) :
    Rearranges procs (sortProcessFIFO procs) where
  unmoved i hi := sortProcessFIFO_apply hi
  permuted := by
    obtain ⟨σ, hσ, heq⟩ := sortProcessFIFO_eq procs
    have hiff : ∀ i, (procs (σ i)).state = .runnable ↔ (procs i).state = .runnable := by
      intro i
      constructor
      · intro h
        by_contra hne
        rw [hσ i hne] at h
        exact hne h
      · exact hσ.runnable
    exact ⟨σ.subtypeEquiv fun i => (hiff i).symm, fun i => by rw [heq]; rfl⟩

/-- **What `sortProcessFIFO` sorts**: the processes that are not `RUNNABLE` stay, the others are
permuted among their slots, and they come out in the order of creation exactly if, in every round,
the last process behind that is older is the oldest one. -/
theorem sortProcessFIFO_sorts_iff (procs : Slot → Proc) :
    Rearranges procs (sortProcessFIFO procs) ∧
      (Ordered (sortProcessFIFO procs) ↔
        Selects (creationTimes procs (List.finRange NPROC))) := by
  refine ⟨rearranges_sortProcessFIFO procs, ?_⟩
  rw [ordered_iff]
  exact (rounds_sortProcessFIFO procs).sorted_iff

/-- A table of three `RUNNABLE` processes, created at the ticks 3, 1 and 2. -/
def oldestInTheMiddle (i : Slot) : Proc :=
  if i.val = 0 then { zeroProc with state := .runnable, pid := 1, ctime := 3 }
  else if i.val = 1 then { zeroProc with state := .runnable, pid := 2, ctime := 1 }
  else if i.val = 2 then { zeroProc with state := .runnable, pid := 3, ctime := 2 }
  else zeroProc

theorem creationTimes_oldestInTheMiddle :
    creationTimes oldestInTheMiddle (List.finRange NPROC) = [3, 1, 2] := by
  decide +kernel

/-- The first round takes the process of tick 2, behind the oldest one. -/
theorem sortProcessFIFO_unsorted :
    creationTimes (sortProcessFIFO oldestInTheMiddle) (List.finRange NPROC) = [2, 1, 3] ∧
      ¬ Ordered (sortProcessFIFO oldestInTheMiddle) := by
  have hrounds := rounds_sortProcessFIFO oldestInTheMiddle
  rw [creationTimes_oldestInTheMiddle] at hrounds
  have hout : Rounds [3, 1, 2] [2, 1, 3] :=
    .exchange (u := [1]) (v := []) (by decide) (by simp)
      (.keep (by simp) (.keep (by simp) .nil))
  have heq := hrounds.unique hout
  refine ⟨heq, ?_⟩
  rw [ordered_iff, heq]
  simp

end Xv6.Ptable
