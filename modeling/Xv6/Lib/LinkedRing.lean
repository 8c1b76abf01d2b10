import Mathlib.Data.List.Nodup
import Mathlib.Logic.Function.Basic

/-!
# Doubly linked rings

A ring of nodes through a sentinel, as two pointer maps.  `Ring L l` says that the nodes
after the sentinel are `l`, in this order along `next` and in the reverse order along
`prev`.  A node is taken out, or put in behind the sentinel, by the usual stores; a scan
follows one of the maps until it finds what it looks for or is back at the sentinel.

## Main definitions

* `Links α` — the pointers; `none` is the sentinel.
* `Links.Spans L x l y` — from `x` to `y` there are exactly the nodes `l`, both ways.
* `Links.unlink`, `Links.pushFront` — the stores.
* `Links.scan` — the loop over the nodes.

## Main results

* `Ring.moveFront` — a node is taken out and put in front.
* `Ring.scan_next`, `Ring.scan_prev` — a scan comes back, with the first match.
-/

namespace Xv6.LinkedRing

open Function

variable {α : Type*}

/-- The pointers of the nodes; `none` is the sentinel. -/
structure Links (α : Type*) where
  next : Option α → Option α
  prev : Option α → Option α

namespace Links

/-- A sentinel alone. -/
def empty : Links α := ⟨fun _ => none, fun _ => none⟩

/-- The pointers, read in the other direction. -/
def flip (L : Links α) : Links α := ⟨L.prev, L.next⟩

/-- Between `x` and `y` there are exactly the nodes `l`, both ways. -/
def Spans (L : Links α) : Option α → List α → Option α → Prop
  | x, [], y => L.next x = y ∧ L.prev y = x
  | x, a :: l, y => L.next x = some a ∧ L.prev (some a) = x ∧ Spans L (some a) l y

section Stores

variable [DecidableEq α]

/-- Node `a` is taken out. -/
def unlink (L : Links α) (a : α) : Links α :=
  let L : Links α :=
    { L with prev := update L.prev (L.next (some a)) (L.prev (some a)) }
  { L with next := update L.next (L.prev (some a)) (L.next (some a)) }

/-- Node `a` is put in behind the sentinel. -/
def pushFront (L : Links α) (a : α) : Links α :=
  let L : Links α := { L with next := update L.next (some a) (L.next none) }
  let L : Links α := { L with prev := update L.prev (some a) none }
  let L : Links α := { L with prev := update L.prev (L.next none) (some a) }
  { L with next := update L.next none (some a) }

end Stores

/-- The loop `for (x = start; x != sentinel; x = link(x))`, up to the first node with `p`:
`some none` when there is none, and `none` when the steps do not suffice. -/
def scan (link : Option α → Option α) (p : α → Bool) : ℕ → Option α → Option (Option α)
  | _, none => some none
  | 0, some _ => none
  | n + 1, some a => if p a then some (some a) else scan link p n (link (some a))

/-- The nodes of the ring, from the sentinel on. -/
structure Ring (L : Links α) (l : List α) : Prop where
  nodup : l.Nodup
  spans : L.Spans none l none

variable {L L' : Links α} {a : α} {l m : List α} {x y : Option α} {p : α → Bool} {n : ℕ}

/-! ## Spans -/

theorem ring_empty : (empty : Links α).Ring [] := ⟨List.nodup_nil, rfl, rfl⟩

theorem spans_append :
    L.Spans x (l ++ a :: m) y ↔ L.Spans x l (some a) ∧ L.Spans (some a) m y := by
  induction l generalizing x with
  | nil => simp only [List.nil_append, Spans, and_assoc]
  | cons b l ih => simp only [List.cons_append, Spans, ih, and_assoc]

/-- The same nodes, from the other end. -/
theorem Spans.reverse (h : L.Spans x l y) : L.flip.Spans y l.reverse x := by
  induction l generalizing x with
  | nil => exact ⟨h.2, h.1⟩
  | cons a l ih =>
    rw [List.reverse_cons, spans_append]
    exact ⟨ih h.2.2, h.2.1, h.1⟩

/-- Other pointers do not matter. -/
theorem Spans.congr (h : L.Spans x l y) (hx : L'.next x = L.next x) (hy : L'.prev y = L.prev y)
    (hnext : ∀ a ∈ l, L'.next (some a) = L.next (some a))
    (hprev : ∀ a ∈ l, L'.prev (some a) = L.prev (some a)) : L'.Spans x l y := by
  induction l generalizing x with
  | nil => exact ⟨hx.trans h.1, hy.trans h.2⟩
  | cons a l ih =>
    refine ⟨hx.trans h.1, (hprev a List.mem_cons_self).trans h.2.1, ?_⟩
    exact ih h.2.2 (hnext a List.mem_cons_self) (fun b hb => hnext b (List.mem_cons_of_mem _ hb))
      fun b hb => hprev b (List.mem_cons_of_mem _ hb)

/-- The first node, or the other end. -/
theorem Spans.next_eq (h : L.Spans x l y) : L.next x = y ∨ ∃ b ∈ l, L.next x = some b := by
  cases l with
  | nil => exact .inl h.1
  | cons a l => exact .inr ⟨a, List.mem_cons_self, h.1⟩

/-- A scan along `next` finds the first match. -/
theorem Spans.scan_next (h : L.Spans x l none) (hn : l.length ≤ n) :
    scan L.next p n (L.next x) = some (l.find? p) := by
  induction l generalizing x n with
  | nil =>
    rw [h.1]
    cases n <;> rfl
  | cons a l ih =>
    obtain ⟨n, rfl⟩ : ∃ k, n = k + 1 := ⟨n - 1, by rw [List.length_cons] at hn; omega⟩
    rw [h.1, scan, List.find?_cons]
    cases p a with
    | true => rfl
    | false => exact ih h.2.2 (by simpa using hn)

theorem Ring.scan_next (h : L.Ring l) (hn : l.length ≤ n) :
    scan L.next p n (L.next none) = some (l.find? p) :=
  h.spans.scan_next hn

theorem Ring.scan_prev (h : L.Ring l) (hn : l.length ≤ n) :
    scan L.prev p n (L.prev none) = some (l.reverse.find? p) :=
  h.spans.reverse.scan_next (by simpa using hn)

/-- What a scan finds matches. -/
theorem scan_found {link : Option α → Option α} (h : scan link p n x = some (some a)) :
    p a = true := by
  induction n generalizing x with
  | zero => cases x <;> cases h
  | succ n ih =>
    cases x with
    | none => cases h
    | some b =>
      rw [scan] at h
      split at h
      · rename_i hb
        obtain rfl := Option.some.inj (Option.some.inj h)
        exact hb
      · exact ih h

/-! ## Stores -/

variable [DecidableEq α]

theorem unlink_eq (h : L.next (some a) ≠ some a) : L.unlink a =
    ⟨update L.next (L.prev (some a)) (L.next (some a)),
      update L.prev (L.next (some a)) (L.prev (some a))⟩ := by
  simp only [unlink, update_of_ne h.symm]

/-- A node is taken out of a stretch; `x` and `y` may be the same. -/
theorem Spans.unlink (hl : L.Spans x l (some a)) (hm : L.Spans (some a) m y)
    (hnd : (l ++ a :: m).Nodup) (hx : ∀ b ∈ l ++ a :: m, x ≠ some b)
    (hy : ∀ b ∈ l ++ a :: m, y ≠ some b) : (L.unlink a).Spans x (l ++ m) y := by
  have ham : a ∉ m := (List.nodup_cons.mp (List.nodup_append.mp hnd).2.1).1
  have hself : L.next (some a) ≠ some a := by
    rcases hm.next_eq with h | ⟨b, hb, h⟩
    · rw [h]
      exact hy a (by simp)
    · rw [h]
      rintro ⟨⟩
      exact ham hb
  rw [unlink_eq hself]
  induction l generalizing x with
  | nil =>
    obtain ⟨-, hprev⟩ := hl
    rw [hprev]
    cases m with
    | nil =>
      obtain ⟨hnext, -⟩ := hm
      rw [hnext]
      exact ⟨update_self .., update_self ..⟩
    | cons c m =>
      obtain ⟨hnext, -, hrest⟩ := hm
      rw [hnext]
      refine ⟨update_self .., update_self .., hrest.congr ?_ ?_ ?_ ?_⟩
      · exact update_of_ne (hx c (by simp)).symm ..
      · exact update_of_ne (hy c (by simp)) ..
      · intro b hb
        exact update_of_ne (hx b (by simp [hb])).symm ..
      · intro b hb
        refine update_of_ne ?_ ..
        rintro ⟨⟩
        exact (List.nodup_cons.mp (List.nodup_cons.mp hnd).2).1 hb
  | cons d l ih =>
    obtain ⟨hnext, hprev, hrest⟩ := hl
    have hnd' := List.nodup_cons.mp hnd
    -- The two stores are at a node after `x` and at a node after `a`.
    have hpred : ∃ b ∈ d :: l, L.prev (some a) = some b := by
      rcases hrest.reverse.next_eq with h | ⟨b, hb, h⟩
      · exact ⟨d, List.mem_cons_self, h⟩
      · exact ⟨b, List.mem_cons_of_mem _ (List.mem_reverse.mp hb), h⟩
    obtain ⟨b, hb, hpred⟩ := hpred
    refine ⟨?_, ?_, ih hrest hnd'.2 ?_ fun b hb => hy b (List.mem_cons_of_mem _ hb)⟩
    · refine (update_of_ne ?_ ..).trans hnext
      rw [hpred]
      exact hx b (List.mem_append_left _ hb)
    · refine (update_of_ne ?_ ..).trans hprev
      rcases hm.next_eq with h | ⟨c, hc, h⟩
      · rw [h]
        exact (hy d List.mem_cons_self).symm
      · rw [h]
        rintro ⟨⟩
        exact hnd'.1 (by simp [hc])
    · rintro b hb ⟨⟩
      exact hnd'.1 hb

theorem pushFront_eq (L : Links α) (a : α) : L.pushFront a =
    ⟨update (update L.next (some a) (L.next none)) none (some a),
      update (update L.prev (some a) none) (L.next none) (some a)⟩ := by
  simp only [pushFront, update_of_ne (Option.some_ne_none a).symm]

theorem Ring.pushFront (h : L.Ring l) (ha : a ∉ l) : (L.pushFront a).Ring (a :: l) := by
  obtain ⟨hnd, hspans⟩ := h
  have hne : ∀ b ∈ l, some b ≠ some a := by
    rintro b hb ⟨⟩
    exact ha hb
  have hfirst : L.next none ≠ some a := by
    rcases hspans.next_eq with h | ⟨b, hb, h⟩
    · rw [h]
      exact (Option.some_ne_none a).symm
    · rw [h]
      exact hne b hb
  rw [pushFront_eq]
  refine ⟨List.nodup_cons.mpr ⟨ha, hnd⟩, ?_, ?_, ?_⟩
  · simp
  · simp [hfirst.symm]
  · cases l with
    | nil => simp [Spans, hspans.1]
    | cons c l =>
      obtain ⟨hnext, -, hrest⟩ := hspans
      rw [hnext]
      refine ⟨by simp, by simp, hrest.congr ?_ ?_ ?_ ?_⟩
      · simp [hne c List.mem_cons_self]
      · simp
      · intro b hb
        simp [hne b (List.mem_cons_of_mem _ hb)]
      · intro b hb
        have hbc : some b ≠ some c := by
          rintro ⟨⟩
          exact (List.nodup_cons.mp hnd).1 hb
        simp [hne b (List.mem_cons_of_mem _ hb), hbc]

/-- **A node is moved to the front**, and the nodes are the same. -/
theorem Ring.moveFront (h : L.Ring l) (ha : a ∈ l) :
    ∃ l', ((L.unlink a).pushFront a).Ring l' ∧ ∀ b, b ∈ l' ↔ b ∈ l := by
  obtain ⟨l₁, l₂, rfl⟩ := List.append_of_mem ha
  obtain ⟨hnd, hspans⟩ := h
  obtain ⟨h₁, h₂⟩ := spans_append.mp hspans
  have hnone : ∀ b ∈ l₁ ++ a :: l₂, (none : Option α) ≠ some b := fun b _ => by simp
  have hnd' := List.nodup_middle.mp hnd
  have hring : (L.unlink a).Ring (l₁ ++ l₂) :=
    ⟨(List.nodup_cons.mp hnd').2, h₁.unlink h₂ hnd hnone hnone⟩
  refine ⟨_, hring.pushFront (List.nodup_cons.mp hnd').1, fun b => ?_⟩
  simp only [List.mem_cons, List.mem_append]
  tauto

end Links

end Xv6.LinkedRing
