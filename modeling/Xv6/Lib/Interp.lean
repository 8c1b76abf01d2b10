import Xv6.Lib.Prog

/-!
# Programs translated into programs

A program over some operations becomes one over others when every operation is replaced by a
program.  If each of these does to the state what the operation does, so does the whole.

## Main definitions

* `Prog.interp` — every operation is replaced by a program.
* `Prog.Only` — a program uses only some of the operations.

## Main results

* `Prog.run_interp`, `Prog.wp_interp` — the run of a translated program, at another level of
  detail.
* `Prog.run_invariant_of_only` — what the operations it uses keep, a program keeps.
-/

namespace Xv6.Prog

variable {Op Op' : Type} {Ret : Op → Type} {Ret' : Op' → Type} {α β σ σ' ε : Type}

/-- The laws of sequence. -/
instance : LawfulMonad (Prog Op Ret) := by
  have hassoc : ∀ {α β γ : Type} (m : Prog Op Ret α) (f : α → Prog Op Ret β)
      (g : β → Prog Op Ret γ), m >>= f >>= g = m >>= fun a => f a >>= g := by
    intro α β γ m f g
    induction m with
    | pure a => rfl
    | call o next ih => exact congrArg (Prog.call o) (funext ih)
  have hpure : ∀ {α : Type} (m : Prog Op Ret α), m >>= Pure.pure = m := by
    intro α m
    induction m with
    | pure a => rfl
    | call o next ih => exact congrArg (Prog.call o) (funext ih)
  exact LawfulMonad.mk' _ (fun m => hpure m) (fun _ _ => rfl) fun m f g => hassoc m f g

/-! ## Translation -/

/-- Every operation is replaced by a program. -/
def interp (f : (o : Op) → Prog Op' Ret' (Ret o)) : Prog Op Ret α → Prog Op' Ret' α
  | .pure a => .pure a
  | .call o next => f o >>= fun r => (next r).interp f

variable {f : (o : Op) → Prog Op' Ret' (Ret o)}

@[simp] theorem interp_bind (m : Prog Op Ret α) (g : α → Prog Op Ret β) :
    interp f (m >>= g) = interp f m >>= fun a => interp f (g a) := by
  induction m with
  | pure a => rfl
  | call o next ih =>
    change (f o >>= fun r => interp f (next r >>= g)) =
      (f o >>= fun r => interp f (next r)) >>= fun a => interp f (g a)
    rw [bind_assoc]
    exact congrArg (f o >>= ·) (funext ih)

variable {h : Handler Op Ret σ ε} {h' : Handler Op' Ret' σ' ε} {π : σ → σ'} {s t : σ}

/-- **The run of a translated program** on what `π` shows of the state. -/
theorem run_interp (hop : ∀ o s, run h' (f o) (π s) = (h o s).map fun r => (r.1, π r.2))
    (m : Prog Op Ret α) (s : σ) :
    run h' (interp f m) (π s) = (run h m s).map fun r => (r.1, π r.2) := by
  induction m generalizing s with
  | pure a => rfl
  | call o next ih =>
    rw [interp, run_bind, hop, run]
    cases h o s with
    | error e => rfl
    | ok r => exact ih r.1 r.2

/-- A translated program and what it is said to do, seen through `π`. -/
theorem wp_interp (hop : ∀ o s, run h' (f o) (π s) = (h o s).map fun r => (r.1, π r.2))
    {R : ε → Prop} {Q : α → σ' → Prop} (m : Prog Op Ret α) :
    wp h R m (fun a t => Q a (π t)) s ↔ wp h' R (interp f m) Q (π s) := by
  rw [wp, wp, run_interp hop]
  cases run h m s with
  | ok r => rfl
  | error e => rfl

/-- **Conjunction**, of what is said of the failure too. -/
theorem wp.both {R R' : ε → Prop} {Q Q' : α → σ → Prop} {m : Prog Op Ret α} (hm : wp h R m Q s)
    (hm' : wp h R' m Q' s) : wp h (fun e => R e ∧ R' e) m (fun a t => Q a t ∧ Q' a t) s := by
  simp only [wp] at hm hm' ⊢
  cases hr : run h m s with
  | ok r =>
    rw [hr] at hm hm'
    exact ⟨hm, hm'⟩
  | error e =>
    rw [hr] at hm hm'
    exact ⟨hm, hm'⟩

/-- Conjunction of any number of postconditions. -/
theorem wp.all {ι : Type} {Q : ι → α → σ → Prop} {m : Prog Op Ret α}
    (hm : ∀ i, wp h (fun _ => True) m (Q i) s) :
    wp h (fun _ => True) m (fun a t => ∀ i, Q i a t) s := by
  cases hr : run h m s with
  | ok r => exact wp_of_run hr fun i => (hm i).of_ok hr
  | error e =>
    rw [wp, hr]
    trivial

/-! ## Some of the operations -/

/-- A program that uses only operations that `P` allows. -/
inductive Only (P : Op → Prop) : Prog Op Ret α → Prop
  | pure (a : α) : Only P (.pure a)
  | call (o : Op) (next : Ret o → Prog Op Ret α) (ho : P o) (hnext : ∀ r, Only P (next r)) :
      Only P (.call o next)

variable {P : Op → Prop}

theorem only_pure (a : α) : Only P (Pure.pure a : Prog Op Ret α) := .pure a

theorem only_op {o : Op} (ho : P o) : Only P (op o : Prog Op Ret (Ret o)) :=
  .call o _ ho fun r => .pure r

theorem Only.bind {m : Prog Op Ret α} {g : α → Prog Op Ret β} (hm : Only P m)
    (hg : ∀ a, Only P (g a)) : Only P (m >>= g) := by
  induction hm with
  | pure a => exact hg a
  | call o next ho _ ih => exact .call o _ ho ih

theorem only_forM {ι : Type} {body : ι → Prog Op Ret PUnit} {l : List ι}
    (hbody : ∀ x ∈ l, Only P (body x)) : Only P (l.forM body) := by
  induction l with
  | nil => exact only_pure _
  | cons x l ih =>
    change Only P (body x >>= fun _ => l.forM body)
    exact (hbody x List.mem_cons_self).bind fun _ => ih fun y hy =>
      hbody y (List.mem_cons_of_mem _ hy)

/-- **Invariants of some operations.** -/
theorem run_invariant_of_only {I : σ → Prop} {a : α} {m : Prog Op Ret α} (hm : Only P m)
    (keep : ∀ o, P o → ∀ s r t, I s → h o s = .ok (r, t) → I t) (h0 : I s)
    (hrun : run h m s = .ok (a, t)) : I t := by
  induction hm generalizing s with
  | pure b =>
    cases hrun
    exact h0
  | call o next ho _ ih =>
    simp only [run] at hrun
    split at hrun
    · rename_i r u hr
      exact ih r (keep o ho s r u h0 hr) hrun
    · cases hrun

/-- What is known of the run, with what the operations keep. -/
theorem wp.and_only {I : σ → Prop} {R : ε → Prop} {Q : α → σ → Prop} {m : Prog Op Ret α}
    (hwp : wp h R m Q s) (hm : Only P m)
    (keep : ∀ o, P o → ∀ s r t, I s → h o s = .ok (r, t) → I t) (h0 : I s) :
    wp h R m (fun a t => Q a t ∧ I t) s := by
  simp only [wp] at hwp ⊢
  cases hr : run h m s with
  | ok r =>
    rw [hr] at hwp
    exact ⟨hwp, run_invariant_of_only hm keep h0 hr⟩
  | error e =>
    rw [hr] at hwp
    exact hwp

end Xv6.Prog
