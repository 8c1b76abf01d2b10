import Mathlib.Data.List.Basic
import Mathlib.Logic.Function.Basic

/-!
# Circular lists

A circular list as one pointer map.  `Trail next a l b` says that following `next` from `a` the
nodes are `l` and then comes `b`; a circular list is a path that ends where it starts, and it
can be read from any of its nodes.

## Main definitions

* `Trail`, `Loop` — the nodes of a list.
* `walk` — the loop that follows `next` up to a node.

## Main results

* `Loop.rotate` — a circular list is read from another node.
* `loop_splice`, `loop_skip` — nodes are put in and taken out.
* `walk_trail` — a walk finds the first node where it stops.
-/

namespace Xv6.LinkedCycle

variable {α : Type*}

/-- Following `next` from `a` there are exactly the nodes `l`, and then `b`. -/
def Trail (next : α → α) : α → List α → α → Prop
  | a, [], b => a = b
  | a, x :: l, b => a = x ∧ Trail next (next x) l b

/-- The nodes of a circular list. -/
def Loop (next : α → α) (l : List α) : Prop := ∃ a, Trail next a l a

/-- The loop `for (p = a; !stop(p); p = next(p))`; `none` when the steps do not suffice. -/
def walk (next : α → α) (stop : α → Bool) : ℕ → α → Option α
  | 0, _ => none
  | n + 1, a => if stop a then some a else walk next stop n (next a)

variable {next : α → α} {a b x y z : α} {l m n : List α} {stop : α → Bool}

theorem trail_append : Trail next a (l ++ m) b ↔ ∃ c, Trail next a l c ∧ Trail next c m b := by
  induction l generalizing a with
  | nil => simp [Trail]
  | cons x l ih => simp [Trail, ih, and_assoc]

theorem loop_cons : Loop next (x :: l) ↔ Trail next (next x) l x := by
  simp [Loop, Trail]

theorem Loop.rotate (h : Loop next (l ++ m)) : Loop next (m ++ l) := by
  obtain ⟨a, ha⟩ := h
  obtain ⟨c, hl, hm⟩ := trail_append.mp ha
  exact ⟨c, trail_append.mpr ⟨a, hm, hl⟩⟩

/-- The stretch of a circular list from one node to another. -/
theorem Loop.path (h : Loop next (l ++ a :: m ++ b :: n)) : Trail next a (a :: m) b := by
  obtain ⟨c, hc⟩ := h
  obtain ⟨d, hd, hb⟩ := trail_append.mp hc
  obtain ⟨e, -, ha⟩ := trail_append.mp hd
  obtain rfl : e = a := ha.1
  obtain rfl : d = b := hb.1
  exact ha

theorem Loop.next_eq (h : Loop next (l ++ a :: b :: m)) : next a = b := by
  have hpath : Trail next a [a] b := Loop.path (l := l) (m := []) (n := m) (by simpa using h)
  exact hpath.2

theorem walk_trail (h : Trail next a l b) (hl : ∀ x ∈ l, stop x = false) (hb : stop b = true)
    {k : ℕ} (hk : l.length < k) : walk next stop k a = some b := by
  induction l generalizing a k with
  | nil =>
    obtain rfl : a = b := h
    obtain ⟨k, rfl⟩ := Nat.exists_eq_succ_of_ne_zero (Nat.ne_of_gt hk)
    simp [walk, hb]
  | cons x l ih =>
    obtain ⟨rfl, hrest⟩ := h
    obtain ⟨k, rfl⟩ := Nat.exists_eq_succ_of_ne_zero (Nat.ne_of_gt (Nat.zero_lt_of_lt hk))
    rw [walk, if_neg (by simp [hl a List.mem_cons_self])]
    exact ih hrest (fun y hy => hl y (List.mem_cons_of_mem a hy)) (Nat.lt_of_succ_lt_succ hk)

/-- Only the nodes of a list are read. -/
theorem Trail.congr {next' : α → α} (h : Trail next a l b) (hl : ∀ x ∈ l, next' x = next x) :
    Trail next' a l b := by
  induction l generalizing a with
  | nil => exact h
  | cons z l ih =>
    refine ⟨h.1, ?_⟩
    rw [hl z List.mem_cons_self]
    exact ih h.2 fun x hx => hl x (List.mem_cons_of_mem z hx)

section Stores

variable [DecidableEq α]

theorem Trail.update (h : Trail next a l b) (hx : x ∉ l) (y : α) :
    Trail (Function.update next x y) a l b := by
  refine h.congr fun z hz => Function.update_of_ne ?_ _ _
  rintro rfl
  exact hx hz

/-- Node `x` points to the start of a list that ends before it. -/
theorem Trail.close (h : Trail next z l x) (hx : x ∉ l) :
    Loop (Function.update next x z) (x :: l) := by
  rw [loop_cons, Function.update_self]
  exact h.update hx z

/-- Node `y` is put between `x` and the rest of the list, from `z` on. -/
theorem loop_splice (h : Trail next z l x) (hx : x ∉ l) (hy : y ∉ l) (hxy : y ≠ x) :
    Loop (Function.update (Function.update next y z) x y) (x :: y :: l) := by
  have hpath : Trail (Function.update next y z) y (y :: l) x := by
    refine ⟨rfl, ?_⟩
    rw [Function.update_self]
    exact h.update hy z
  refine hpath.close fun hmem => ?_
  rcases List.mem_cons.mp hmem with heq | hmem
  · exact hxy heq.symm
  · exact hx hmem

/-- Node `x` points to the rest of the list, from `z` on. -/
theorem loop_skip (h : Trail next z l x) (hx : x ∉ l) (hy : y ∉ l) :
    Loop (Function.update (Function.update next y z) x z) (x :: l) :=
  (h.update hy z).close hx

end Stores

end Xv6.LinkedCycle
