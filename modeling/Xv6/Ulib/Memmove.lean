import Mathlib.Data.Int.Notation
import Mathlib.Data.Nat.Notation
import Mathlib.Logic.Function.Basic
import Mathlib.Tactic.Set

/-!
# The two `memmove`s

`memmove` of `string.c`, which the kernel has, and `memmove` of `ulib.c`, which programs have.  An
address is a number below `SPACE`, and pointers go on behind the last address with the first one.
The first argument is what both return.

The kernel's loop runs down when the destination begins inside the source.  The one of the library
runs up in any case: then it reads bytes that it has written before.

## Main definitions

* `copyUp`, `copyDown` — the loops.
* `Kernel.memmove`, `Ulib.memmove` — the functions.
* `moved` — memory with a range of bytes moved.

## Main results

* `copyDown_eq`, `copyUp_eq_iff` — when a loop moves the bytes.
* `memmove_agree_iff` — when the two functions agree.
-/

namespace Xv6.Memmove

open Function

/-- The number of addresses. -/
def SPACE : ℕ := 4294967296

/-- `p + 1` -/
def next (p : ℕ) : ℕ := if p + 1 = SPACE then 0 else p + 1

/-- `p - 1` -/
def prev (p : ℕ) : ℕ := if p = 0 then SPACE - 1 else p - 1

/-- `while(n-- > 0) *d++ = *s++;` -/
def copyUp (m : ℕ → UInt8) : ℕ → ℕ → ℕ → ℕ → UInt8
  | 0, _, _ => m
  | n + 1, d, s => copyUp (update m d (m s)) n (next d) (next s)

/-- `while(n-- > 0) *--d = *--s;` -/
def copyDown (m : ℕ → UInt8) : ℕ → ℕ → ℕ → ℕ → UInt8
  | 0, _, _ => m
  | n + 1, d, s => copyDown (update m (prev d) (m (prev s))) n (prev d) (prev s)

/-- `memmove` of `string.c`; `n` is a `uint`. -/
def Kernel.memmove (m : ℕ → UInt8) (dst src n : ℕ) : ℕ × (ℕ → UInt8) :=
  if src < dst ∧ dst < (src + n) % SPACE then
    (dst, copyDown m n ((dst + n) % SPACE) ((src + n) % SPACE))
  else (dst, copyUp m n dst src)

/-- `memmove` of `ulib.c`; `n` is an `int`. -/
def Ulib.memmove (m : ℕ → UInt8) (dst src : ℕ) (n : ℤ) : ℕ × (ℕ → UInt8) :=
  (dst, copyUp m n.toNat dst src)

/-- The `n` bytes at `dst` are those that were at `src`, and all others are as they were. -/
def moved (m : ℕ → UInt8) (dst src n : ℕ) : ℕ → UInt8 := fun x =>
  if dst ≤ x ∧ x < dst + n then m (src + (x - dst)) else m x

variable {m : ℕ → UInt8} {n d s : ℕ}

theorem next_eq (h : d + 1 < SPACE) : next d = d + 1 := if_neg (Nat.ne_of_lt h)

theorem prev_eq (h : d < SPACE) : prev ((d + 1) % SPACE) = d := by
  by_cases hend : d + 1 = SPACE
  · rw [prev, hend, Nat.mod_self, if_pos rfl]
    omega
  · rw [prev, Nat.mod_eq_of_lt (by omega), if_neg (by omega), Nat.add_sub_cancel]

theorem moved_at {i : ℕ} (hi : i < n) : moved m d s n (d + i) = m (s + i) := by
  rw [moved, if_pos (by omega), Nat.add_sub_cancel_left]

/-! ## Downwards -/

/-- Below the destination, the loop that runs down reads no byte that it has written. -/
theorem copyDown_eq (hsd : s < d) (hd : d + n ≤ SPACE) :
    copyDown m n ((d + n) % SPACE) ((s + n) % SPACE) = moved m d s n := by
  induction n generalizing m with
  | zero =>
    funext x
    rw [moved, if_neg (by omega)]
    rfl
  | succ n ih =>
    have hprev : prev ((d + n + 1) % SPACE) = d + n := prev_eq (by omega)
    have hprev' : prev ((s + n + 1) % SPACE) = s + n := prev_eq (by omega)
    have hwrap : d + n = (d + n) % SPACE := (Nat.mod_eq_of_lt (by omega)).symm
    have hwrap' : s + n = (s + n) % SPACE := (Nat.mod_eq_of_lt (by omega)).symm
    have hrest := ih (m := update m (d + n) (m (s + n))) (by omega)
    rw [← hwrap, ← hwrap'] at hrest
    rw [copyDown, ← Nat.add_assoc, ← Nat.add_assoc, hprev, hprev', hrest]
    funext x
    by_cases hx : d ≤ x ∧ x < d + n
    · rw [moved, moved, if_pos hx, if_pos (by omega), update_of_ne (by omega)]
    · rw [moved, if_neg hx]
      by_cases hlast : x = d + n
      · rw [hlast, update_self, moved_at (Nat.lt_succ_self n)]
      · rw [update_of_ne hlast, moved, if_neg (by omega)]

/-! ## Upwards -/

/-- What the loop that runs up leaves: nothing is changed outside the destination, and a byte of the
source that lies in the destination has been written when it is read. -/
theorem copyUp_spec (hd : d + n ≤ SPACE) (hs : s + n ≤ SPACE) :
    (∀ x, ¬(d ≤ x ∧ x < d + n) → copyUp m n d s x = m x) ∧
      ∀ i < n, copyUp m n d s (d + i) =
        if s < d ∧ d ≤ s + i then copyUp m n d s (s + i) else m (s + i) := by
  induction n generalizing m d s with
  | zero => exact ⟨fun _ _ => rfl, fun i hi => absurd hi (Nat.not_lt_zero i)⟩
  | succ n ih =>
    rw [copyUp]
    set m' := update m d (m s) with hm'
    have hother : ∀ x, x ≠ d → m' x = m x := fun x hx => update_of_ne hx ..
    have hself : m' d = m s := update_self ..
    -- The pointers of the last round are not used, so it does not matter if they are at the end.
    obtain ⟨hframe, hcopy⟩ : (∀ x, ¬(d + 1 ≤ x ∧ x < d + 1 + n) →
        copyUp m' n (next d) (next s) x = m' x) ∧
        ∀ i < n, copyUp m' n (next d) (next s) (d + 1 + i) =
          if s + 1 < d + 1 ∧ d + 1 ≤ s + 1 + i then copyUp m' n (next d) (next s) (s + 1 + i)
          else m' (s + 1 + i) := by
      cases n with
      | zero => exact ⟨fun _ _ => rfl, fun i hi => absurd hi (Nat.not_lt_zero i)⟩
      | succ n =>
        rw [next_eq (by omega), next_eq (by omega)]
        exact ih (by omega) (by omega)
    have hfirst : copyUp m' n (next d) (next s) d = m s := by
      rw [hframe d (by omega), hself]
    refine ⟨fun x hx => ?_, fun i hi => ?_⟩
    · rw [hframe x (by omega), hother x (by omega)]
    · cases i with
      | zero => rw [Nat.add_zero, Nat.add_zero, hfirst, if_neg (by omega)]
      | succ i =>
        rw [show d + (i + 1) = d + 1 + i by omega, show s + (i + 1) = s + 1 + i by omega,
          hcopy i (by omega)]
        by_cases hnew : s + 1 + i = d
        · -- the byte that the first round has written
          rw [hnew, if_neg (by omega), if_pos (by omega), hfirst, hself]
        · rw [hother _ hnew]
          split <;> split <;> first | rfl | omega

/-- The bytes that the source and a later destination share are those that are moved there. -/
def Periodic (m : ℕ → UInt8) (dst src n : ℕ) : Prop :=
  src < dst → ∀ x, dst ≤ x → x < src + n → m x = m (src + (x - dst))

/-- **When the loop that runs up moves the bytes.** -/
theorem copyUp_eq_iff (hd : d + n ≤ SPACE) (hs : s + n ≤ SPACE) :
    copyUp m n d s = moved m d s n ↔ Periodic m d s n := by
  obtain ⟨hframe, hcopy⟩ := copyUp_spec (m := m) hd hs
  constructor
  · intro h hsd x hdx hx
    rw [h] at hcopy
    have hread := hcopy (x - s) (by omega)
    rw [if_pos ⟨hsd, by omega⟩, moved_at (by omega), show s + (x - s) = x by omega, moved,
      if_pos (by omega)] at hread
    exact hread
  · intro hper
    have hall : ∀ i < n, copyUp m n d s (d + i) = m (s + i) := by
      intro i
      induction i using Nat.strongRecOn with
      | ind i ih =>
        intro hi
        rw [hcopy i hi]
        split
        · rename_i hin
          have hback := ih (s + i - d) (by omega) (by omega)
          rw [show d + (s + i - d) = s + i by omega] at hback
          rw [hback, hper hin.1 (s + i) hin.2 (by omega)]
        · rfl
    funext x
    by_cases hx : d ≤ x ∧ x < d + n
    · have hat := hall (x - d) (by omega)
      rw [show d + (x - d) = x by omega] at hat
      rw [hat, moved, if_pos hx]
    · rw [hframe x hx, moved, if_neg hx]

/-- **The two `memmove`s.**  In ranges inside the address space, the kernel's moves the bytes.  The
one of the library moves them exactly when the destination does not begin behind the start of the
source and inside it, or every byte that both have is the one that is moved there. -/
theorem memmove_agree_iff (m : ℕ → UInt8) {dst src n : ℕ} (hdst : dst + n ≤ SPACE)
    (hsrc : src + n ≤ SPACE) :
    Kernel.memmove m dst src n = (dst, moved m dst src n) ∧
      (Ulib.memmove m dst src n = (dst, moved m dst src n) ↔ Periodic m dst src n) := by
  constructor
  · rw [Kernel.memmove]
    split
    · rename_i hin
      rw [copyDown_eq hin.1 hdst]
    · rename_i hout
      -- a source that reaches the end of the address space has no room for a later destination
      have hper : Periodic m dst src n := by
        intro hlt x hx hx'
        refine absurd ⟨hlt, ?_⟩ hout
        rw [Nat.mod_eq_of_lt (by omega)]
        omega
      rw [(copyUp_eq_iff hdst hsrc).mpr hper]
  · rw [Ulib.memmove, Int.toNat_natCast, Prod.mk.injEq, ← copyUp_eq_iff hdst hsrc]
    exact and_iff_right rfl

/-- The bytes of this memory are their addresses. -/
def counting : ℕ → UInt8 := fun x => UInt8.ofNat x

/-- Three bytes are moved two places down. -/
theorem memmove_agree_down :
    Kernel.memmove counting 4 6 3 = (4, moved counting 4 6 3) ∧
      Ulib.memmove counting 4 6 3 = (4, moved counting 4 6 3) := by
  obtain ⟨hkernel, hulib⟩ := memmove_agree_iff counting (show 4 + 3 ≤ SPACE by decide)
    (show 6 + 3 ≤ SPACE by decide)
  exact ⟨hkernel, hulib.mpr fun hlt => absurd hlt (by decide)⟩

/-- Two bytes are moved one place up: the function of the library moves the first of them twice. -/
theorem ulib_memmove_overwrites :
    (Ulib.memmove counting 1 0 2).2 2 = 0 ∧ moved counting 1 0 2 2 = 1 ∧
      (Kernel.memmove counting 1 0 2).2 2 = 1 := by
  decide +kernel

end Xv6.Memmove
