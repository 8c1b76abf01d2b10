import Mathlib.Data.List.Basic

/-!
# Lines

A list is cut at the separators in it: what stands before each of them is a line, and what is left
after the last one is no line yet.

## Main definitions

* `lines` — the lines.
* `rest` — what is left after them.

## Main results

* `line_induction` — a list is a line and a list, or has no separator.
* `lines_append`, `rest_append` — lines when more arrives.
* `lines_rest` — nothing is lost.
-/

namespace Xv6.Lines

variable {α : Type} [DecidableEq α] {sep : α} {a b l t : List α}

/-- The lines, without the separators that end them. -/
def lines (sep : α) : List α → List (List α)
  | [] => []
  | c :: cs =>
    if c = sep then [] :: lines sep cs
    else
      match lines sep cs with
      | [] => []
      | l :: ls => (c :: l) :: ls

/-- What stands after the last separator. -/
def rest (sep : α) : List α → List α
  | [] => []
  | c :: cs => if sep ∈ cs then rest sep cs else if c = sep then cs else c :: cs

theorem lines_eq_nil (h : sep ∉ t) : lines sep t = [] := by
  induction t with
  | nil => rfl
  | cons c cs ih =>
    rw [List.mem_cons, not_or] at h
    rw [lines, if_neg (Ne.symm h.1), ih h.2]

theorem rest_eq_self (h : sep ∉ t) : rest sep t = t := by
  cases t with
  | nil => rfl
  | cons c cs =>
    rw [List.mem_cons, not_or] at h
    rw [rest, if_neg h.2, if_neg (Ne.symm h.1)]

@[simp] theorem lines_line (h : sep ∉ l) : lines sep (l ++ sep :: t) = l :: lines sep t := by
  induction l with
  | nil => exact if_pos rfl
  | cons c l ih =>
    rw [List.mem_cons, not_or] at h
    rw [List.cons_append, lines, if_neg (Ne.symm h.1), ih h.2]

@[simp] theorem rest_line (l t : List α) : rest sep (l ++ sep :: t) = rest sep t := by
  induction l with
  | nil =>
    by_cases h : sep ∈ t
    · exact if_pos h
    · rw [List.nil_append, rest, if_neg h, if_pos rfl, rest_eq_self h]
  | cons c l ih => rw [List.cons_append, rest, if_pos (by simp), ih]

/-- A list has no separator, or it is a line and a list. -/
theorem line_induction (sep : α) {P : List α → Prop} (none : ∀ t, sep ∉ t → P t)
    (line : ∀ l t, sep ∉ l → P t → P (l ++ sep :: t)) (t : List α) : P t := by
  induction h : t.length using Nat.strongRecOn generalizing t with
  | ind n ih =>
    by_cases hmem : sep ∈ t
    · obtain ⟨l, t', rfl, hl⟩ := List.eq_append_cons_of_mem hmem
      refine line l t' hl (ih t'.length ?_ t' rfl)
      rw [← h, List.length_append, List.length_cons]
      omega
    · exact none t hmem

theorem not_mem_rest (t : List α) : sep ∉ rest sep t := by
  induction t using line_induction sep with
  | none t h => rwa [rest_eq_self h]
  | line l t _ ih => rwa [rest_line]

theorem lines_append (a b : List α) :
    lines sep (a ++ b) = lines sep a ++ lines sep (rest sep a ++ b) := by
  induction a using line_induction sep with
  | none a h => rw [lines_eq_nil h, rest_eq_self h, List.nil_append]
  | line l a h ih =>
    rw [List.append_assoc, List.cons_append, lines_line h, lines_line h, rest_line, ih,
      List.cons_append]

/-- The lines with their separators, and the rest, are the list. -/
theorem lines_rest (sep : α) (t : List α) :
    (lines sep t).flatMap (fun l => l ++ [sep]) ++ rest sep t = t := by
  induction t using line_induction sep with
  | none t h => rw [lines_eq_nil h, rest_eq_self h, List.flatMap_nil, List.nil_append]
  | line l t h ih =>
    rw [lines_line h, rest_line, List.flatMap_cons, List.append_assoc, List.append_assoc, ih]
    rfl

end Xv6.Lines
