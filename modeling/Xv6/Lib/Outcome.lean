import Mathlib.Data.Nat.Notation

/-!
# Outcomes

What is said of a computation that gives a value or fails: a postcondition for the value
and a condition on the failure.  The rules are those of sequence, consequence and loops.

## Main definitions

* `Outcome.Sat R Q x` — `x` is a value that meets `Q`, or a failure that `R` allows.

## Main results

* `Outcome.sat_bind`, `Outcome.Sat.mono` — sequence and consequence.
* `Outcome.sat_foldlM` — what the body of a loop keeps, the loop keeps.
-/

namespace Xv6.Outcome

variable {ε α β : Type}

/-- A value that meets `Q`, or a failure that `R` allows. -/
def Sat (R : ε → Prop) (Q : α → Prop) : Except ε α → Prop
  | .ok a => Q a
  | .error e => R e

variable {R R' : ε → Prop} {Q Q' : α → Prop} {x : Except ε α} {f : α → Except ε β}

@[simp] theorem sat_ok (a : α) : Sat R Q (.ok a : Except ε α) ↔ Q a := Iff.rfl

@[simp] theorem sat_pure (a : α) : Sat R Q (pure a : Except ε α) ↔ Q a := Iff.rfl

@[simp] theorem sat_error (e : ε) : Sat R Q (.error e) ↔ R e := Iff.rfl

/-- **Sequence.** -/
@[simp] theorem sat_bind {Q : β → Prop} : Sat R Q (x >>= f) ↔ Sat R (fun a => Sat R Q (f a)) x := by
  cases x with
  | ok a => rfl
  | error e => rfl

/-- **Consequence.** -/
theorem Sat.mono (hx : Sat R Q x) (hR : ∀ e, R e → R' e) (hQ : ∀ a, Q a → Q' a) :
    Sat R' Q' x := by
  cases x with
  | ok a => exact hQ a hx
  | error e => exact hR e hx

/-- Consequence for the value alone. -/
theorem Sat.imp (hx : Sat R Q x) (hQ : ∀ a, Q a → Q' a) : Sat R Q' x :=
  hx.mono (fun _ h => h) hQ

theorem Sat.of_ok {a : α} (hx : Sat R Q x) (h : x = .ok a) : Q a := by
  subst h
  exact hx

theorem Sat.of_error {e : ε} (hx : Sat R Q x) (h : x = .error e) : R e := by
  subst h
  exact hx

/-- **Loops.**  What the body keeps for every element, a loop over a list keeps. -/
theorem sat_foldlM {ι : Type} {I : α → Prop} {body : α → ι → Except ε α} {l : List ι}
    (hbody : ∀ i ∈ l, ∀ a, I a → Sat R I (body a i)) {a : α} (ha : I a) :
    Sat R I (l.foldlM body a) := by
  induction l generalizing a with
  | nil => exact ha
  | cons i l ih =>
    rw [List.foldlM_cons, sat_bind]
    refine (hbody i List.mem_cons_self a ha).imp fun b hb => ?_
    exact ih (fun j hj => hbody j (List.mem_cons_of_mem _ hj)) hb

end Xv6.Outcome
