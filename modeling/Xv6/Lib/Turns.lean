import Mathlib.Data.List.Basic

/-!
# Taking turns

A history records who got a turn, and who was waiting for one then.  It is fair if nobody
gets two turns while somebody who waited at the first one gets none.  A scan that goes
over the slots in order, again and again, and gives a turn to those it finds waiting,
produces a fair history: `Ring` says where the scan stands and that whoever is owed a turn
lies ahead of it.

## Main definitions

* `View.Fair V ts` — the history is fair.
* `View.Pending V ts p q` — `q` is owed a turn before the next one of `p`.
* `View.Ring V ts k` — the history of a scan that has passed `k` slots.
-/

namespace Xv6.Turns

/-- How a history is read: whose turn an entry is, whether it counts, who was waiting. -/
structure View (τ ι : Type*) where
  slot : τ → ι
  counts : τ → Prop
  waits : τ → ι → Prop

section History

variable {τ ι : Type*} {V : View τ ι} {ts : List τ} {t : τ} {p q : ι}

/-- Between two consecutive turns of one slot that both count, everyone who waited at the
first gets a turn. -/
def View.Fair (V : View τ ι) (ts : List τ) : Prop :=
  ∀ pre t mid t' post, ts = pre ++ t :: (mid ++ t' :: post) → V.slot t' = V.slot t →
    (∀ x ∈ mid, V.slot x ≠ V.slot t) → V.counts t → V.counts t' →
      ∀ q, q ≠ V.slot t → V.waits t q → ∃ x ∈ mid, V.slot x = q

/-- The last turn of `p` counted, `q` waited then, and neither got one since. -/
def View.Pending (V : View τ ι) (ts : List τ) (p q : ι) : Prop :=
  ∃ pre t mid, ts = pre ++ t :: mid ∧ V.slot t = p ∧ V.counts t ∧ q ≠ p ∧ V.waits t q ∧
    ∀ x ∈ mid, V.slot x ≠ p ∧ V.slot x ≠ q

/-- An entry of a history with one more turn is that turn or an earlier one. -/
theorem entry_of_append {pre post : List τ} {u : τ} (h : ts ++ [t] = pre ++ u :: post) :
    ts = pre ∧ t = u ∧ post = [] ∨ ∃ post', post = post' ++ [t] ∧ ts = pre ++ u :: post' := by
  rcases List.eq_nil_or_concat post with rfl | ⟨post', x, rfl⟩
  · simpa using h
  · have h' : ts ++ [t] = (pre ++ u :: post') ++ [x] := by simp [h]
    rw [List.append_singleton_inj] at h'
    exact .inr ⟨post', by simp [h'.2], h'.1⟩

/-- What one more turn leaves of the debts. -/
theorem View.Pending.of_append (h : V.Pending (ts ++ [t]) p q) :
    V.slot t = p ∧ q ≠ p ∧ V.counts t ∧ V.waits t q ∨
      V.Pending ts p q ∧ V.slot t ≠ p ∧ V.slot t ≠ q := by
  obtain ⟨pre, u, mid, heq, hp, hc, hq, hw, hmid⟩ := h
  rcases entry_of_append heq with ⟨rfl, rfl, rfl⟩ | ⟨mid', rfl, rfl⟩
  · exact .inl ⟨hp, hq, hc, hw⟩
  · refine .inr ⟨⟨pre, u, mid', rfl, hp, hc, hq, hw, fun y hy => hmid y (by simp [hy])⟩, ?_⟩
    apply hmid
    simp

/-- A turn that counts must not come while its slot owes one. -/
theorem View.Fair.append (h : V.Fair ts)
    (ht : V.counts t → ∀ q, ¬ V.Pending ts (V.slot t) q) : V.Fair (ts ++ [t]) := by
  intro pre u mid t' post heq hslot hmid hu ht' q hq hw
  rw [← List.cons_append, ← List.append_assoc] at heq
  rcases entry_of_append heq with ⟨rfl, rfl, rfl⟩ | ⟨post', rfl, rfl⟩
  · -- The second turn is the new one: if `q` got none in between, it is owed one.
    by_contra hnone
    refine ht ht' q ⟨pre, u, mid, rfl, hslot.symm, hu, hslot ▸ hq, hw, fun x hx => ⟨?_, ?_⟩⟩
    · rw [hslot]
      exact hmid x hx
    · exact fun hxq => hnone ⟨x, hx, hxq⟩
  · exact h pre u mid t' post' (by simp) hslot hmid hu ht' q hq hw

end History

/-! ## Scans -/

/-- After `p`'s turn, and with `k` slots of the scan behind, `q` lies ahead: later in the scan,
or, if that one has passed `p`, before `p` in the next. -/
def InTurn (p q k : ℕ) : Prop := p < k ∧ k ≤ q ∨ q < p ∧ (p < k ∨ k ≤ q)

section Ring

variable {τ : Type*} {n : ℕ} {V : View τ (Fin n)} {ts : List τ} {t : τ} {k : ℕ}

/-- The history of a scan that has passed `k` slots. -/
structure View.Ring (V : View τ (Fin n)) (ts : List τ) (k : ℕ) : Prop where
  fair : V.Fair ts
  inTurn : ∀ p q, V.Pending ts p q → InTurn p q k

theorem View.ring_nil (k : ℕ) : V.Ring [] k := by
  constructor
  · intro pre t mid t' post heq
    simp at heq
  · rintro p q ⟨pre, t, mid, heq, -⟩
    simp at heq

/-- The scan passes a slot that is owed nothing. -/
theorem View.Ring.skip (h : V.Ring ts k) (hk : ∀ p q, V.Pending ts p q → (q : ℕ) ≠ k) :
    V.Ring ts (k + 1) := by
  refine ⟨h.fair, fun p q hpq => ?_⟩
  have := h.inTurn p q hpq
  have := hk p q hpq
  simp only [InTurn] at *
  omega

/-- The scan starts again at the first slot. -/
theorem View.Ring.restart (h : V.Ring ts k) (hk : n ≤ k) : V.Ring ts 0 := by
  refine ⟨h.fair, fun p q hpq => ?_⟩
  have := h.inTurn p q hpq
  have := q.isLt
  simp only [InTurn] at *
  omega

/-- The scan gives a turn to the slot it has reached. -/
theorem View.Ring.serve (h : V.Ring ts (V.slot t)) : V.Ring (ts ++ [t]) (V.slot t + 1) := by
  constructor
  · refine h.fair.append fun _ q hpq => ?_
    have := h.inTurn _ q hpq
    simp only [InTurn] at this
    omega
  · intro p q hpq
    rcases hpq.of_append with ⟨rfl, hq, -⟩ | ⟨hpq, hp, hq⟩
    · have := Fin.val_ne_of_ne hq
      simp only [InTurn]
      omega
    · have := h.inTurn p q hpq
      have := Fin.val_ne_of_ne hp
      have := Fin.val_ne_of_ne hq
      simp only [InTurn] at *
      omega

/-- A turn that does not count leaves the scan where it is. -/
theorem View.Ring.other (h : V.Ring ts k) (ht : ¬ V.counts t) : V.Ring (ts ++ [t]) k := by
  refine ⟨h.fair.append fun hc => absurd hc ht, fun p q hpq => ?_⟩
  rcases hpq.of_append with ⟨-, -, hc, -⟩ | ⟨hpq, -⟩
  · exact absurd hc ht
  · exact h.inTurn p q hpq

end Ring

end Xv6.Turns
