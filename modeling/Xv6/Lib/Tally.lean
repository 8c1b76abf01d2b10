import Mathlib.Algebra.BigOperators.Group.Finset.Basic

/-!
# Tallies over updated families

What one update of a family does to a sum over it.

## Main results

* `sum_update_at`, `sum_update` — the old value goes, the new one comes.
-/

namespace Xv6.Tally

open Function

variable {ι β : Type} [DecidableEq ι]

/-- In a sum over a family, an update exchanges the weight of the old value for the weight
of the new one.  The weight may depend on the index. -/
theorem sum_update_at {S : Finset ι} {a : ι} (ha : a ∈ S) (v : ι → β) (x : β) (g : ι → β → ℕ) :
    ∑ j ∈ S, g j (update v a x j) + g a (v a) = ∑ j ∈ S, g j (v j) + g a x := by
  have hrest : ∑ j ∈ S.erase a, g j (update v a x j) = ∑ j ∈ S.erase a, g j (v j) :=
    Finset.sum_congr rfl fun j hj => by rw [update_of_ne (Finset.ne_of_mem_erase hj)]
  rw [← Finset.add_sum_erase S _ ha, ← Finset.add_sum_erase S (fun j => g j (v j)) ha,
    update_self, hrest]
  omega

/-- The same for a weight of the value alone. -/
theorem sum_update {S : Finset ι} {a : ι} (ha : a ∈ S) (v : ι → β) (x : β) (g : β → ℕ) :
    ∑ j ∈ S, g (update v a x j) + g (v a) = ∑ j ∈ S, g (v j) + g x :=
  sum_update_at ha v x fun _ => g

end Xv6.Tally
