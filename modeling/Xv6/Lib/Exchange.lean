import Mathlib.Logic.Equiv.Basic
import Mathlib.Order.Defs.PartialOrder

/-!
# Sorting by exchanges

A sort in rounds: round `i` exchanges the entry at `i` with the one at an index that the
round picks from the table as it then is.  The result is the first table read through a
permutation (`order`).  When the rounds go upwards and pick no index below their own, an
entry stays at its index exactly if no round exchanges it: an entry that leaves its index
never comes back.

## Main definitions

* `round pick f i` — one round.
* `order pick l f` — where the entries come from after the rounds `l`.
* `exchanged pick l f` — the indices that take part in an exchange.

## Main results

* `foldl_round` — the rounds reorder the table.
* `order_eq_self_iff` — what stays.
* `forall_exchanged` — a property that every exchanged entry has.
-/

namespace Xv6.Exchange

variable {ι α : Type*} [DecidableEq ι] (pick : (ι → α) → ι → ι)

/-- The exchange of round `i`. -/
def round (f : ι → α) (i : ι) : ι → α := f ∘ Equiv.swap i (pick f i)

/-- After the rounds `l` of a table `f`, index `j` holds what was at `order pick l f j`. -/
def order : List ι → (ι → α) → Equiv.Perm ι
  | [], _ => Equiv.refl ι
  | i :: l, f => (order l (round pick f i)).trans (Equiv.swap i (pick f i))

/-- The indices that take part in an exchange of the rounds `l`. -/
def exchanged : List ι → (ι → α) → List ι
  | [], _ => []
  | i :: l, f =>
    if pick f i = i then exchanged l (round pick f i)
    else i :: pick f i :: exchanged l (round pick f i)

variable {pick} {l : List ι} {f : ι → α} {i j : ι}

theorem round_of_eq (h : pick f i = i) : round pick f i = f := by
  simp [round, h]

theorem round_apply_of_ne (hi : j ≠ i) (hp : j ≠ pick f i) : round pick f i j = f j := by
  simp [round, Equiv.swap_apply_of_ne_of_ne hi hp]

theorem mem_exchanged_cons : j ∈ exchanged pick (i :: l) f ↔
    pick f i ≠ i ∧ (j = i ∨ j = pick f i) ∨ j ∈ exchanged pick l (round pick f i) := by
  by_cases h : pick f i = i <;> simp [exchanged, h, or_assoc]

theorem foldl_round (l : List ι) (f : ι → α) :
    l.foldl (round pick) f = f ∘ order pick l f := by
  induction l generalizing f with
  | nil => rfl
  | cons i l ih =>
    rw [List.foldl_cons, ih]
    rfl

/-- What holds of both entries of every exchange holds of every exchanged entry. -/
theorem forall_exchanged {P : α → Prop}
    (hP : ∀ f i, pick f i ≠ i → P (f i) ∧ P (f (pick f i))) (hj : j ∈ exchanged pick l f) :
    P (f j) := by
  induction l generalizing f with
  | nil => simp [exchanged] at hj
  | cons i l ih =>
    rw [mem_exchanged_cons] at hj
    by_cases hk : pick f i ≠ i ∧ (j = i ∨ j = pick f i)
    · obtain ⟨hne, rfl | rfl⟩ := hk
      · exact (hP f j hne).1
      · exact (hP f i hne).2
    · have h := ih (hj.resolve_left hk)
      by_cases hne : pick f i = i
      · rwa [round_of_eq hne] at h
      · rw [round_apply_of_ne] at h
        · exact h
        · exact fun hi => hk ⟨hne, .inl hi⟩
        · exact fun hi => hk ⟨hne, .inr hi⟩

/-- An entry that no round exchanges stays. -/
theorem order_of_not_mem (hj : j ∉ exchanged pick l f) : order pick l f j = j := by
  induction l generalizing f with
  | nil => rfl
  | cons i l ih =>
    rw [mem_exchanged_cons, not_or] at hj
    rw [order, Equiv.trans_apply, ih hj.2]
    by_cases hne : pick f i = i
    · simp [hne]
    · apply Equiv.swap_apply_of_ne_of_ne
      · exact fun hi => hj.1 ⟨hne, .inl hi⟩
      · exact fun hi => hj.1 ⟨hne, .inr hi⟩

section Upwards

variable [Preorder ι] (hpick : ∀ f i, i ≤ pick f i)
include hpick

/-- Rounds above an index leave it alone. -/
theorem not_mem_exchanged_of_lt (h : ∀ i ∈ l, j < i) : j ∉ exchanged pick l f := by
  induction l generalizing f with
  | nil => simp [exchanged]
  | cons i l ih =>
    have hi : j < i := h i List.mem_cons_self
    rw [mem_exchanged_cons, not_or]
    refine ⟨?_, ih fun k hk => h k (List.mem_cons_of_mem i hk)⟩
    rintro ⟨-, rfl | rfl⟩
    · exact lt_irrefl _ hi
    · exact lt_irrefl _ (lt_of_lt_of_le hi (hpick f i))

/-- **What stays**: an entry that takes part in an exchange ends at another index. -/
theorem order_eq_self_iff (hl : l.Pairwise (· < ·)) :
    order pick l f j = j ↔ j ∉ exchanged pick l f := by
  refine ⟨fun h hj => ?_, order_of_not_mem⟩
  induction l generalizing f with
  | nil => simp [exchanged] at hj
  | cons i l ih =>
    obtain ⟨hi, hl⟩ := List.pairwise_cons.mp hl
    -- The later rounds leave `i` alone.
    have hfix : order pick l (round pick f i) i = i :=
      order_of_not_mem (not_mem_exchanged_of_lt hpick hi)
    rw [order, Equiv.trans_apply] at h
    rw [mem_exchanged_cons] at hj
    by_cases hk : pick f i ≠ i ∧ (j = i ∨ j = pick f i)
    · obtain ⟨hne, rfl | rfl⟩ := hk
      · rw [hfix, Equiv.swap_apply_left] at h
        exact hne h
      · -- What ends at the index picked did not come from `i`.
        rw [Equiv.swap_apply_eq_iff, Equiv.swap_apply_right] at h
        exact hne ((order pick l (round pick f i)).injective (h.trans hfix.symm))
    · have hmem := hj.resolve_left hk
      refine ih hl ?_ hmem
      by_cases hne : pick f i = i
      · simpa [hne] using h
      · rw [Equiv.swap_apply_eq_iff, Equiv.swap_apply_of_ne_of_ne] at h
        · exact h
        · exact fun hi => hk ⟨hne, .inl hi⟩
        · exact fun hi => hk ⟨hne, .inr hi⟩

end Upwards

end Xv6.Exchange
