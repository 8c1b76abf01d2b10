import Mathlib.Data.Option.Basic
import Mathlib.Data.List.Basic

/-!
# Runs of a partial step function

A machine is a step function `σ → ι → Option σ`: an action either has one
successor state or is not enabled.  A run is a list of actions.  `Along` states a
condition on every step of a run, in terms of the state before the step and the
action, and `exec_invariant` is the induction every safety proof over runs uses.

## Main definitions

* `exec step s as` — the state after the actions `as`, if all are enabled in turn.
* `Along step P s as` — every step of the run meets `P` in the state it starts from.
* `Throughout step G s as` — every state the run reaches meets `G`.
-/

namespace Xv6.Machine

variable {σ ι : Type*}

/-- The state reached from `s` by the actions, or `none` when one is not enabled. -/
def exec (step : σ → ι → Option σ) : σ → List ι → Option σ
  | s, [] => some s
  | s, a :: as => (step s a).bind fun s' => exec step s' as

/-- Every step of the run meets `P`, a condition on the state before it and on
the action. -/
def Along (step : σ → ι → Option σ) (P : σ → ι → Prop) : σ → List ι → Prop
  | _, [] => True
  | s, a :: as => P s a ∧
      match step s a with
      | some s' => Along step P s' as
      | none => True

/-- Every state the run reaches, the first included, meets `G`. -/
def Throughout (step : σ → ι → Option σ) (G : σ → Prop) (s : σ) (as : List ι) : Prop :=
  ∀ bs t, bs <+: as → exec step s bs = some t → G t

/-- A condition that can be decided step by step can be decided along a run. -/
instance Along.decidable (step : σ → ι → Option σ) (P : σ → ι → Prop)
    [∀ s a, Decidable (P s a)] : ∀ s as, Decidable (Along step P s as)
  | _, [] => .isTrue trivial
  | s, a :: as =>
    let rest : Decidable (match step s a with
        | some s' => Along step P s' as
        | none => True) :=
      match step s a with
      | some s' => Along.decidable step P s' as
      | none => .isTrue trivial
    @instDecidableAnd _ _ _ rest

variable {step : σ → ι → Option σ} {P Q : σ → ι → Prop} {s s' : σ} {a : ι} {as bs : List ι}

/-- What a guarded step does. -/
theorem of_guard {c : Prop} [Decidable c] {o : Option σ} (h : (if c then o else none) = some s) :
    o = some s :=
  (Option.ite_none_right_eq_some.mp h).2

@[simp] theorem exec_nil : exec step s [] = some s := rfl

theorem exec_cons : exec step s (a :: as) = (step s a).bind fun t => exec step t as := rfl

theorem exec_cons_eq_some :
    exec step s (a :: as) = some s' ↔ ∃ t, step s a = some t ∧ exec step t as = some s' := by
  rw [exec_cons, Option.bind_eq_some_iff]

theorem exec_append :
    exec step s (as ++ bs) = (exec step s as).bind fun t => exec step t bs := by
  induction as generalizing s with
  | nil => rfl
  | cons a as ih =>
    cases h : step s a with
    | none => simp [exec, h]
    | some t => simp [exec, h, ih]

theorem exec_append_eq_some :
    exec step s (as ++ bs) = some s' ↔
      ∃ t, exec step s as = some t ∧ exec step t bs = some s' := by
  rw [exec_append, Option.bind_eq_some_iff]

theorem along_cons :
    Along step P s (a :: as) ↔ P s a ∧ ∀ t, step s a = some t → Along step P t as := by
  cases h : step s a <;> simp [Along, h]

theorem along_append :
    Along step P s (as ++ bs) ↔
      Along step P s as ∧ ∀ t, exec step s as = some t → Along step P t bs := by
  induction as generalizing s with
  | nil => simp [Along]
  | cons a as ih =>
    simp only [List.cons_append, along_cons, ih, exec_cons_eq_some]
    constructor
    · rintro ⟨hP, h⟩
      refine ⟨⟨hP, fun t ht => (h t ht).1⟩, ?_⟩
      rintro u ⟨t, ht, htu⟩
      exact (h t ht).2 u htu
    · rintro ⟨⟨hP, h⟩, h'⟩
      exact ⟨hP, fun t ht => ⟨h t ht, fun u htu => h' u ⟨t, ht, htu⟩⟩⟩

/-- **The invariant rule.**  What holds at the start and is kept by every step
that meets the condition holds at the end of every run whose steps all meet it. -/
theorem exec_invariant {I : σ → Prop}
    (keep : ∀ s a s', I s → P s a → step s a = some s' → I s')
    (h0 : I s) (hP : Along step P s as) (hrun : exec step s as = some s') : I s' := by
  induction as generalizing s with
  | nil =>
    rw [exec_nil, Option.some.injEq] at hrun
    exact hrun ▸ h0
  | cons a as ih =>
    obtain ⟨t, hst, hrest⟩ := exec_cons_eq_some.mp hrun
    obtain ⟨hPa, hPas⟩ := along_cons.mp hP
    exact ih (keep s a t h0 hPa hst) (hPas t hst) hrest

theorem throughout_cons {G : σ → Prop} :
    Throughout step G s (a :: as) ↔ G s ∧ ∀ t, step s a = some t → Throughout step G t as := by
  constructor
  · intro h
    refine ⟨h [] s List.nil_prefix rfl, fun t hst bs u hbs hu => ?_⟩
    exact h (a :: bs) u (List.cons_prefix_cons.mpr ⟨rfl, hbs⟩) (exec_cons_eq_some.mpr ⟨t, hst, hu⟩)
  · rintro ⟨hs, h⟩ bs u hbs hu
    cases bs with
    | nil =>
      cases hu
      exact hs
    | cons b bs =>
      obtain ⟨rfl, htail⟩ := List.cons_prefix_cons.mp hbs
      obtain ⟨t, hst, hrest⟩ := exec_cons_eq_some.mp hu
      exact h t hst bs u htail hrest

/-- A condition that an invariant implies holds along every run that keeps it. -/
theorem Along.of_invariant {I : σ → Prop} (hP : Along step P s as)
    (keep : ∀ s a s', I s → P s a → step s a = some s' → I s')
    (hPQ : ∀ s a, I s → P s a → Q s a) (h0 : I s) : Along step Q s as := by
  induction as generalizing s with
  | nil => trivial
  | cons a as ih =>
    obtain ⟨hPa, hPas⟩ := along_cons.mp hP
    exact along_cons.mpr ⟨hPQ s a h0 hPa, fun t ht => ih (hPas t ht) (keep s a t h0 hPa ht)⟩

/-- Two conditions that agree where an invariant kept by the first holds agree along runs. -/
theorem along_congr {I : σ → Prop} (keep : ∀ s a s', I s → P s a → step s a = some s' → I s')
    (hPQ : ∀ s a, I s → (P s a ↔ Q s a)) (h0 : I s) :
    Along step P s as ↔ Along step Q s as := by
  induction as generalizing s with
  | nil => exact Iff.rfl
  | cons a as ih =>
    rw [along_cons, along_cons, hPQ s a h0]
    refine and_congr_right fun hQ => forall₂_congr fun t ht => ?_
    exact ih (keep s a t h0 ((hPQ s a h0).mpr hQ) ht)

/-- An invariant holds throughout a run whose steps keep it. -/
theorem throughout_invariant {I : σ → Prop}
    (keep : ∀ s a s', I s → P s a → step s a = some s' → I s')
    (h0 : I s) (hP : Along step P s as) : Throughout step I s as := by
  intro bs t hbs ht
  obtain ⟨cs, rfl⟩ := hbs
  exact exec_invariant keep h0 (along_append.mp hP).1 ht

theorem Throughout.mono {G H : σ → Prop} (h : ∀ s, G s → H s) (hG : Throughout step G s as) :
    Throughout step H s as :=
  fun bs t hbs ht => h t (hG bs t hbs ht)

/-- **Which runs are good.**  If a step from a good state leads to a good one exactly
when it meets `C`, a run is good throughout exactly when all its steps meet `C`. -/
theorem throughout_iff_along {I G : σ → Prop} {C : σ → ι → Prop}
    (keep : ∀ s a s', I s → P s a → step s a = some s' → I s')
    (good : ∀ s a s', I s → P s a → G s → step s a = some s' → (G s' ↔ C s a))
    (hI : I s) (hG : G s) (hP : Along step P s as) (hrun : exec step s as = some s') :
    Throughout step G s as ↔ Along step C s as := by
  induction as generalizing s with
  | nil =>
    refine iff_of_true (fun bs t hbs ht => ?_) trivial
    obtain rfl := List.prefix_nil.mp hbs
    exact Option.some.inj ht ▸ hG
  | cons a as ih =>
    obtain ⟨t, hst, hrest⟩ := exec_cons_eq_some.mp hrun
    obtain ⟨hPa, hPas⟩ := along_cons.mp hP
    have hgood := good s a t hI hPa hG hst
    have ih' := fun hGt => ih (keep s a t hI hPa hst) hGt (hPas t hst) hrest
    simp only [throughout_cons, along_cons, hst, Option.some.injEq, forall_eq', hG, true_and]
    constructor
    · intro h
      have hGt := h [] t List.nil_prefix rfl
      exact ⟨hgood.mp hGt, (ih' hGt).mp h⟩
    · rintro ⟨hC, h⟩
      exact (ih' (hgood.mpr hC)).mpr h

theorem along_true : Along step (fun _ _ => True) s as := by
  induction as generalizing s with
  | nil => trivial
  | cons a as ih => exact along_cons.mpr ⟨trivial, fun t _ => ih⟩

theorem along_of_forall {p : ι → Prop} (h : ∀ a ∈ as, p a) : Along step (fun _ a => p a) s as := by
  induction as generalizing s with
  | nil => trivial
  | cons a as ih =>
    simp only [List.forall_mem_cons] at h
    exact along_cons.mpr ⟨h.1, fun t _ => ih h.2⟩

theorem Along.and (hP : Along step P s as) (hQ : Along step Q s as) :
    Along step (fun t a => P t a ∧ Q t a) s as := by
  induction as generalizing s with
  | nil => trivial
  | cons a as ih =>
    obtain ⟨hPa, hPas⟩ := along_cons.mp hP
    obtain ⟨hQa, hQas⟩ := along_cons.mp hQ
    exact along_cons.mpr ⟨⟨hPa, hQa⟩, fun t ht => ih (hPas t ht) (hQas t ht)⟩

/-- A measure that only the counted actions increase, each by one at most, stays below the
bound whenever the run has another counted action to come. -/
theorem along_of_countP {m : σ → ℕ} {p : ι → Bool} {n : ℕ}
    (hm : ∀ s a s', step s a = some s' → m s' ≤ m s + if p a then 1 else 0)
    (h : m s + as.countP p ≤ n) : Along step (fun s a => p a = true → m s < n) s as := by
  induction as generalizing s with
  | nil => trivial
  | cons a as ih =>
    refine along_cons.mpr ⟨fun ha => ?_, fun t ht => ih ?_⟩
    · rw [List.countP_cons_of_pos ha] at h
      omega
    · have := hm s a t ht
      rw [List.countP_cons] at h
      omega

end Xv6.Machine
