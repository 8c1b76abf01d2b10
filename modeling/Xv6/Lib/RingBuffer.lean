import Mathlib.Data.Nat.ModEq
import Mathlib.Logic.Function.Basic

/-!
# Ring buffers with free-running counters

A buffer of `cap` cells with two `w`-bit counters that are never reset: how many items were
put in and how many taken out, both modulo `2 ^ w`.  An item goes to the cell its number
names modulo `cap`.  If `cap` divides `2 ^ w` the cells are the right ones also after a
counter has wrapped around, and as long as `cap` is less than `2 ^ w` the counters tell
a full buffer from an empty one.

## Main definitions

* `RingBuffer α cap w` — the buffer.
* `RingBuffer.Holds r l` — its contents, oldest first.

## Main results

* `Holds.full_iff`, `Holds.empty_iff` — the tests on the counters.
* `Holds.put`, `Holds.unput`, `Holds.front`, `Holds.pop` — the operations.
-/

namespace Xv6

structure RingBuffer (α : Type*) (cap w : ℕ) where
  data : Fin cap → α
  nread : BitVec w
  nwrite : BitVec w

namespace RingBuffer

variable {α : Type*} {cap w : ℕ} [NeZero cap]

/-- The cell for item number `c`. -/
def cell (cap : ℕ) [NeZero cap] (c : BitVec w) : Fin cap := Fin.ofNat cap c.toNat

/-- The buffer is full, by its counters. -/
def Full (r : RingBuffer α cap w) : Prop := r.nwrite = r.nread + BitVec.ofNat w cap

omit [NeZero cap] in
/-- The buffer is empty, by its counters. -/
def Empty (r : RingBuffer α cap w) : Prop := r.nread = r.nwrite

instance (r : RingBuffer α cap w) : Decidable r.Full := inferInstanceAs (Decidable (_ = _))

instance (r : RingBuffer α cap w) : Decidable r.Empty := inferInstanceAs (Decidable (_ = _))

def put (r : RingBuffer α cap w) (a : α) : RingBuffer α cap w :=
  { r with data := Function.update r.data (cell cap r.nwrite) a, nwrite := r.nwrite + 1 }

/-- The oldest item. -/
def front (r : RingBuffer α cap w) : α := r.data (cell cap r.nread)

def pop (r : RingBuffer α cap w) : RingBuffer α cap w := { r with nread := r.nread + 1 }

/-- The buffer holds the items of `l`, oldest first. -/
structure Holds (r : RingBuffer α cap w) (l : List α) : Prop where
  length_le : l.length ≤ cap
  count : r.nwrite = r.nread + BitVec.ofNat w l.length
  get : ∀ k (hk : k < l.length), r.data (cell cap (r.nread + BitVec.ofNat w k)) = l[k]

variable {r : RingBuffer α cap w} {l : List α} {a : α}

theorem cell_val (hdvd : cap ∣ 2 ^ w) (c : BitVec w) (k : ℕ) :
    (cell cap (c + BitVec.ofNat w k)).val = (c.toNat + k) % cap := by
  simp only [cell, Fin.val_ofNat, BitVec.toNat_add, BitVec.toNat_ofNat, Nat.add_mod_mod]
  exact Nat.mod_mod_of_dvd _ hdvd

/-- Different cells for items less than `cap` apart. -/
theorem cell_ne (hdvd : cap ∣ 2 ^ w) (c : BitVec w) {k m : ℕ} (hkm : k < m) (hm : m < cap) :
    cell cap (c + BitVec.ofNat w k) ≠ cell cap (c + BitVec.ofNat w m) := by
  intro heq
  have hval := congrArg Fin.val heq
  rw [cell_val hdvd, cell_val hdvd] at hval
  have hmod : k % cap = m % cap := Nat.ModEq.add_left_cancel' c.toNat hval
  rw [Nat.mod_eq_of_lt (hkm.trans hm), Nat.mod_eq_of_lt hm] at hmod
  omega

/-- One item further on. -/
theorem add_ofNat_succ (c : BitVec w) (k : ℕ) :
    c + BitVec.ofNat w (k + 1) = c + 1 + BitVec.ofNat w k := by
  rw [Nat.add_comm, BitVec.ofNat_add, ← BitVec.add_assoc]
  rfl

theorem holds_nil (h : r.nwrite = r.nread) : r.Holds [] := by
  refine ⟨Nat.zero_le _, by simp [h], fun k hk => ?_⟩
  simp at hk

/-- Where the items are. -/
theorem Holds.get_ofNat (h : r.Holds l) (hdvd : cap ∣ 2 ^ w) {k : ℕ} (hk : k < l.length) :
    r.data (Fin.ofNat cap (r.nread.toNat + k)) = l[k] := by
  rw [← h.get k hk]
  congr 1
  ext
  rw [cell_val hdvd, Fin.val_ofNat]

section

variable (h : r.Holds l) (hlt : cap < 2 ^ w)
include h hlt

/-- The number of items fits in a counter. -/
theorem Holds.toNat_length :
    (BitVec.ofNat w l.length).toNat = l.length := by
  rw [BitVec.toNat_ofNat]
  exact Nat.mod_eq_of_lt (Nat.lt_of_le_of_lt h.length_le hlt)

theorem Holds.full_iff : r.Full ↔ l.length = cap := by
  rw [Full, h.count, BitVec.add_right_inj, ← BitVec.toNat_inj, h.toNat_length hlt,
    BitVec.toNat_ofNat, Nat.mod_eq_of_lt hlt]

/-- How many items there are. -/
theorem Holds.length_eq :
    (r.nwrite - r.nread).toNat = l.length := by
  rw [h.count, BitVec.add_comm, BitVec.add_sub_cancel, h.toNat_length hlt]

theorem Holds.empty_iff : r.Empty ↔ l = [] := by
  rw [Empty, ← List.length_eq_zero_iff, ← h.length_eq hlt]
  constructor
  · intro he
    simp [he]
  · intro hz
    have hsub : r.nwrite - r.nread = 0#w := BitVec.eq_of_toNat_eq (by simpa using hz)
    rw [← BitVec.sub_add_cancel r.nwrite r.nread, hsub, BitVec.zero_add]

end

theorem Holds.put (h : r.Holds l) (hdvd : cap ∣ 2 ^ w) (hroom : l.length < cap) (a : α) :
    (r.put a).Holds (l ++ [a]) := by
  constructor
  · simp only [List.length_append, List.length_singleton]
    omega
  · simp [RingBuffer.put, h.count, BitVec.add_assoc, BitVec.ofNat_add]
  · intro k hk
    simp only [RingBuffer.put, h.count]
    rcases Nat.lt_or_ge k l.length with hkl | hkl
    · rw [Function.update_of_ne (cell_ne hdvd _ hkl hroom), h.get k hkl]
      simp [hkl]
    · obtain rfl : k = l.length := by
        simp only [List.length_append, List.length_singleton] at hk
        omega
      simp

/-- The last item is taken back. -/
theorem Holds.unput (h : r.Holds (l ++ [a])) : Holds { r with nwrite := r.nwrite - 1 } l := by
  have hcount := h.count
  rw [List.length_append, List.length_singleton] at hcount
  constructor
  · have := h.length_le
    simp only [List.length_append, List.length_singleton] at this
    omega
  · dsimp only
    rw [hcount, BitVec.ofNat_add, ← BitVec.add_assoc]
    exact BitVec.add_sub_cancel ..
  · intro k hk
    have := h.get k (by simp only [List.length_append, List.length_singleton]; omega)
    rwa [List.getElem_append_left hk] at this

theorem Holds.front (h : r.Holds (a :: l)) : r.front = a := by
  have := h.get 0 (by simp)
  rwa [BitVec.add_zero] at this

theorem Holds.pop (h : r.Holds (a :: l)) : r.pop.Holds l := by
  constructor
  · have := h.length_le
    simp only [List.length_cons] at this
    omega
  · simp only [RingBuffer.pop, h.count, List.length_cons, add_ofNat_succ]
  · intro k hk
    have := h.get (k + 1) (by simpa using hk)
    simpa only [RingBuffer.pop, add_ofNat_succ, List.getElem_cons_succ] using this

end RingBuffer

end Xv6
