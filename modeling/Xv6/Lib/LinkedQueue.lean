import Mathlib.Data.List.Nodup
import Mathlib.Logic.Function.Basic

/-!
# Linked queues

A queue as a pointer to its first node and a pointer in each node to the next one.  `append`
walks from the front to the last node, as a loop over `**pp` does; the walk is given a number
of steps, and `Holds.append` says that as many as there are nodes suffice.

## Main definitions

* `Queue α` — the pointers.
* `Queue.Holds q l` — the nodes of the queue are `l`, in this order.
* `Queue.append`, `Queue.pop` — the stores.
-/

namespace Xv6.LinkedQueue

variable {α : Type*}

/-- The pointers of a queue. -/
structure Queue (α : Type*) where
  head : Option α
  next : α → Option α

/-- Following `next` from `x` there are exactly the nodes `l`. -/
def Chain (next : α → Option α) : Option α → List α → Prop
  | x, [] => x = none
  | x, a :: l => x = some a ∧ Chain next (next a) l

/-- The last node, from `a` on; `none` when the steps do not suffice. -/
def last (next : α → Option α) : ℕ → α → Option α
  | 0, _ => none
  | n + 1, a =>
    match next a with
    | none => some a
    | some b => last next n b

namespace Queue

/-- The queue behind its first node. -/
def pop (q : Queue α) (a : α) : Queue α := ⟨q.next a, q.next⟩

/-- Node `b` is put at the end. -/
def append [DecidableEq α] (q : Queue α) (n : ℕ) (b : α) : Option (Queue α) :=
  let next := Function.update q.next b none
  match q.head with
  | none => some ⟨some b, next⟩
  | some a => (last next n a).map fun c => ⟨some a, Function.update next c (some b)⟩

/-- The nodes of the queue. -/
structure Holds (q : Queue α) (l : List α) : Prop where
  nodup : l.Nodup
  chain : Chain q.next q.head l

end Queue

variable {next : α → Option α} {x : Option α} {a b c : α} {l : List α} {q : Queue α} {n : ℕ}

theorem Chain.head_eq (h : Chain next x l) : x = l.head? := by
  cases l with
  | nil => exact h
  | cons a l => exact h.1

theorem last_eq (h : Chain next (some a) (a :: l)) (hn : l.length < n) :
    last next n a = (a :: l).getLast? := by
  induction n generalizing a l with
  | zero => exact absurd hn (Nat.not_lt_zero _)
  | succ n ih =>
    have hnext := h.2.head_eq
    cases l with
    | nil => simp [last, hnext]
    | cons b l =>
      simp only [last, hnext, List.head?_cons]
      have htail := h.2
      rw [hnext] at htail
      rw [ih htail (by simpa using hn), List.getLast?_cons_cons]

section Update

variable [DecidableEq α]

theorem Chain.update (h : Chain next x l) (hb : b ∉ l) (y : Option α) :
    Chain (Function.update next b y) x l := by
  induction l generalizing x with
  | nil => exact h
  | cons a l ih =>
    have hab : a ≠ b := fun hab => hb (hab ▸ List.mem_cons_self)
    refine ⟨h.1, ?_⟩
    rw [Function.update_of_ne hab]
    exact ih h.2 fun hmem => hb (List.mem_cons_of_mem a hmem)

/-- A node with no successor is put behind the last one. -/
theorem Chain.snoc (h : Chain next x (l ++ [c])) (hl : c ∉ l) (hb : next b = none) (hbc : b ≠ c) :
    Chain (Function.update next c (some b)) x (l ++ [c] ++ [b]) := by
  induction l generalizing x with
  | nil =>
    refine ⟨h.1, ?_, ?_⟩
    · simp
    · rw [Function.update_of_ne hbc]
      exact hb
  | cons a l ih =>
    have hac : a ≠ c := fun hac => hl (hac ▸ List.mem_cons_self)
    refine ⟨h.1, ?_⟩
    rw [Function.update_of_ne hac]
    exact ih h.2 fun hmem => hl (List.mem_cons_of_mem a hmem)

/-- **The walk finds the end of the queue** in as many steps as there are nodes. -/
theorem Queue.Holds.append (h : q.Holds l) (hb : b ∉ l) (hn : l.length ≤ n) :
    ∃ q', q.append n b = some q' ∧ q'.Holds (l ++ [b]) := by
  have hchain := h.chain.update hb none
  have hnodup : (l ++ [b]).Nodup := by simpa [List.nodup_append, hb] using
    ⟨h.nodup, fun a ha hab => hb (hab ▸ ha)⟩
  have hhead := h.chain.head_eq
  rcases List.eq_nil_or_concat l with rfl | ⟨l, c, rfl⟩
  · refine ⟨⟨some b, Function.update q.next b none⟩, ?_, hnodup, rfl, ?_⟩
    · simp only [Queue.append, hhead, List.head?_nil]
    · simp [Chain]
  · obtain ⟨a, rest, hl⟩ : ∃ a rest, l.concat c = a :: rest :=
      List.exists_cons_of_ne_nil (by simp)
    have hlast : last (Function.update q.next b none) n a = some c := by
      rw [hl] at hchain hhead hn
      rw [hhead] at hchain
      rw [last_eq hchain hn, ← hl, List.concat_eq_append, List.getLast?_concat]
    refine ⟨⟨q.head, Function.update (Function.update q.next b none) c (some b)⟩, ?_, hnodup, ?_⟩
    · rw [hl, List.head?_cons] at hhead
      simp only [Queue.append, hhead, hlast, Option.map_some]
    · rw [List.concat_eq_append] at hchain hb h ⊢
      refine hchain.snoc ?_ (Function.update_self ..) ?_
      · intro hmem
        exact (List.nodup_append.mp h.nodup).2.2 c hmem c (List.mem_singleton_self c) rfl
      · rintro rfl
        exact hb (by simp)

end Update

theorem Queue.Holds.pop (h : q.Holds (a :: l)) : (q.pop a).Holds l :=
  ⟨(List.nodup_cons.mp h.nodup).2, h.chain.2⟩

theorem Queue.Holds.head_eq (h : q.Holds l) : q.head = l.head? := h.chain.head_eq

end Xv6.LinkedQueue
