import Mathlib.Order.Lattice
import Mathlib.Data.List.Basic
import Mathlib.Data.List.Perm.Basic

/-!
# Exchanges with the last smaller element

A sort in rounds, on lists: every element in turn is exchanged with the last one behind it that is
smaller, if there is one.  That sorts exactly the lists in which, in each round, the element taken
is the least.

## Main definitions

* `Rounds l out` — the rounds on `l` give `out`.
* `Selects` — the lists that are sorted, by induction.

## Main results

* `Rounds.perm`, `Rounds.unique` — the rounds permute a list, in one way.
* `Rounds.sorted_iff` — what they sort.
-/

namespace Xv6.LastSmaller

variable {α : Type} [LinearOrder α]

/-- One round after the other. -/
inductive Rounds : List α → List α → Prop
  | nil : Rounds [] []
  | keep {x : α} {rest out : List α} (hrest : ∀ z ∈ rest, x ≤ z) (h : Rounds rest out) :
      Rounds (x :: rest) (x :: out)
  | exchange {x y : α} {u v out : List α} (hy : y < x) (hv : ∀ z ∈ v, x ≤ z)
      (h : Rounds (u ++ x :: v) out) : Rounds (x :: (u ++ y :: v)) (y :: out)

/-- The first element is the least, or the last one that is smaller is the least and leaves its
place to it; and so on for the rest. -/
inductive Selects : List α → Prop
  | nil : Selects []
  | keep {x : α} {rest : List α} (hrest : ∀ z ∈ rest, x ≤ z) (h : Selects rest) :
      Selects (x :: rest)
  | exchange {x y : α} {u v : List α} (hy : y < x) (hu : ∀ z ∈ u, y ≤ z) (hv : ∀ z ∈ v, x ≤ z)
      (h : Selects (u ++ x :: v)) : Selects (x :: (u ++ y :: v))

variable {x y y' : α} {l out rest u u' v v' : List α}

theorem Rounds.perm (h : Rounds l out) : out.Perm l := by
  induction h with
  | nil => exact .nil
  | keep _ _ ih => exact ih.cons _
  | @exchange x y u v out _ _ _ ih =>
    have h₁ : (y :: (u ++ x :: v)).Perm (y :: x :: (u ++ v)) :=
      List.perm_middle.cons y
    have h₂ : (x :: (u ++ y :: v)).Perm (x :: y :: (u ++ v)) :=
      List.perm_middle.cons x
    exact (ih.cons y).trans (h₁.trans ((List.Perm.swap x y _).trans h₂.symm))

/-- The last smaller element is one. -/
theorem last_unique (heq : u ++ y :: v = u' ++ y' :: v') (hy : y < x) (hv : ∀ z ∈ v, x ≤ z)
    (hy' : y' < x) (hv' : ∀ z ∈ v', x ≤ z) : u = u' ∧ y = y' ∧ v = v' := by
  induction u generalizing u' with
  | nil =>
    cases u' with
    | nil =>
      obtain ⟨rfl, rfl⟩ := List.cons_eq_cons.mp heq
      exact ⟨rfl, rfl, rfl⟩
    | cons c u' =>
      obtain ⟨-, rfl⟩ := List.cons_eq_cons.mp heq
      exact absurd hy' (not_lt.mpr (hv y' (by simp)))
  | cons c u ih =>
    cases u' with
    | nil =>
      obtain ⟨-, rfl⟩ := List.cons_eq_cons.mp heq
      exact absurd hy (not_lt.mpr (hv' y (by simp)))
    | cons c' u' =>
      obtain ⟨rfl, htail⟩ := List.cons_eq_cons.mp heq
      obtain ⟨rfl, hrest⟩ := ih htail
      exact ⟨rfl, hrest⟩

theorem Rounds.unique {out' : List α} (h : Rounds l out) (h' : Rounds l out') : out = out' := by
  induction h generalizing out' with
  | nil =>
    cases h'
    rfl
  | @keep x rest out hrest _ ih =>
    cases h' with
    | keep _ h' => rw [ih h']
    | exchange hy => exact absurd hy (not_lt.mpr (hrest _ (by simp)))
  | @exchange x y u v out hy hv _ ih =>
    generalize hl : u ++ y :: v = rest at h'
    cases h' with
    | keep hrest _ => exact absurd hy (not_lt.mpr (hrest y (by rw [← hl]; simp)))
    | exchange hy' hv' h' =>
      obtain ⟨rfl, rfl, rfl⟩ := last_unique hl hy hv hy' hv'
      rw [ih h']

/-- **What the rounds sort.** -/
theorem Rounds.sorted_iff (h : Rounds l out) : out.Pairwise (· ≤ ·) ↔ Selects l := by
  induction h with
  | nil => exact iff_of_true List.Pairwise.nil .nil
  | @keep x rest out hrest hr ih =>
    have hall : ∀ z ∈ out, x ≤ z := fun z hz => hrest z (hr.perm.mem_iff.mp hz)
    rw [List.pairwise_cons, ih]
    constructor
    · exact fun hs => .keep hrest hs.2
    · intro hs
      refine ⟨hall, ?_⟩
      cases hs with
      | keep _ h => exact h
      | exchange hy => exact absurd hy (not_lt.mpr (hrest _ (by simp)))
  | @exchange x y u v out hy hv hr ih =>
    have hall : (∀ z ∈ out, y ≤ z) ↔ ∀ z ∈ u, y ≤ z := by
      constructor
      · exact fun h z hz => h z (hr.perm.mem_iff.mpr (by simp [hz]))
      · intro h z hz
        rcases List.mem_append.mp (hr.perm.mem_iff.mp hz) with hz | hz
        · exact h z hz
        · rcases List.mem_cons.mp hz with rfl | hz
          · exact le_of_lt hy
          · exact le_trans (le_of_lt hy) (hv z hz)
    rw [List.pairwise_cons, ih, hall]
    constructor
    · exact fun hs => .exchange hy hs.1 hv hs.2
    · intro hs
      generalize hl : u ++ y :: v = rest at hs
      cases hs with
      | keep hrest _ => exact absurd hy (not_lt.mpr (hrest y (by rw [← hl]; simp)))
      | exchange hy' hu' hv' h' =>
        obtain ⟨rfl, rfl, rfl⟩ := last_unique hl hy hv hy' hv'
        exact ⟨hu', h'⟩

end Xv6.LastSmaller
