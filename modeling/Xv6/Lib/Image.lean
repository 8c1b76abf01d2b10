import Mathlib.Data.List.Basic
import Mathlib.Data.Nat.Notation

/-!
# Images made of bytes

A disk image as a map from addresses to bytes: pieces of it are read and written, and numbers
are stored in it with the low byte first.

## Main definitions

* `slice`, `splice` — a piece of an image is read, and written.
* `patch` — some bytes of a buffer are replaced.
* `le`, `unle` — a number in so many bytes, and back.
* `words` — the 32-bit numbers in a buffer.

## Main results

* `slice_splice_same`, `slice_splice_of_disjoint` — reading after writing.
* `splice_patch` — a piece read, changed in part and written back.
* `words_flatMap_le` — the numbers that were stored are read back.
-/

namespace Xv6.Image

def slice (img : ℕ → UInt8) (a n : ℕ) : List UInt8 := (List.range n).map fun i => img (a + i)

def splice (img : ℕ → UInt8) (a : ℕ) (bs : List UInt8) : ℕ → UInt8 := fun x =>
  if a ≤ x ∧ x < a + bs.length then bs.getD (x - a) 0 else img x

/-- The bytes of `buf` from `off` on are replaced by `bs`. -/
def patch (buf : List UInt8) (off : ℕ) (bs : List UInt8) : List UInt8 :=
  buf.take off ++ bs ++ buf.drop (off + bs.length)

/-- The number `v` in `w` bytes, the low byte first. -/
def le : ℕ → ℕ → List UInt8
  | 0, _ => []
  | w + 1, v => UInt8.ofNat (v % 256) :: le w (v / 256)

def unle : List UInt8 → ℕ
  | [] => 0
  | b :: bs => b.toNat + 256 * unle bs

/-- The numbers of four bytes each in a buffer. -/
def words : List UInt8 → List ℕ
  | a :: b :: c :: d :: bs => unle [a, b, c, d] :: words bs
  | _ => []

variable {img img' : ℕ → UInt8} {a b m n off v w x : ℕ} {bs buf : List UInt8} {l : List ℕ}

/-! ## Pieces -/

@[simp] theorem length_slice (img : ℕ → UInt8) (a n : ℕ) : (slice img a n).length = n := by
  simp [slice]

theorem getElem?_slice {i : ℕ} (hi : i < n) : (slice img a n)[i]? = some (img (a + i)) := by
  simp [slice, hi]

theorem slice_congr (h : ∀ x, a ≤ x → x < a + n → img' x = img x) :
    slice img' a n = slice img a n := by
  refine List.map_congr_left fun i hi => h _ (by omega) ?_
  have := List.mem_range.mp hi
  omega

/-- Pieces at two places. -/
theorem slice_ext (h : ∀ i < n, img' (b + i) = img (a + i)) : slice img' b n = slice img a n :=
  List.map_congr_left fun i hi => h i (List.mem_range.mp hi)

theorem slice_append (img : ℕ → UInt8) (a m n : ℕ) :
    slice img a (m + n) = slice img a m ++ slice img (a + m) n := by
  simp [slice, List.range_add, Nat.add_assoc]

theorem take_slice (h : m ≤ n) : (slice img a n).take m = slice img a m := by
  obtain ⟨k, rfl⟩ := Nat.exists_eq_add_of_le h
  rw [slice_append, List.take_left' (length_slice img a m)]

theorem drop_slice (h : m ≤ n) : (slice img a n).drop m = slice img (a + m) (n - m) := by
  obtain ⟨k, rfl⟩ := Nat.exists_eq_add_of_le h
  rw [slice_append, List.drop_left' (length_slice img a m), Nat.add_sub_cancel_left]

/-- A piece in a piece. -/
theorem slice_slice (h : off + m ≤ n) :
    ((slice img a n).drop off).take m = slice img (a + off) m := by
  rw [drop_slice (by omega), take_slice (by omega)]

theorem splice_of_lt (h : x < a) : splice img a bs x = img x :=
  if_neg fun hx => absurd hx.1 (Nat.not_le_of_lt h)

theorem splice_of_le (h : a + bs.length ≤ x) : splice img a bs x = img x :=
  if_neg fun hx => absurd hx.2 (Nat.not_lt_of_le h)

theorem splice_add {i : ℕ} (hi : i < bs.length) : splice img a bs (a + i) = bs.getD i 0 := by
  rw [splice, if_pos (by omega), Nat.add_sub_cancel_left]

/-- A piece at the beginning. -/
theorem splice_zero {i : ℕ} (hi : i < bs.length) : splice img 0 bs i = bs.getD i 0 := by
  rw [splice, if_pos (by omega), Nat.sub_zero]

/-- A byte that is replaced, or was the same before. -/
theorem splice_apply_congr (h : img' x = img x) : splice img' a bs x = splice img a bs x := by
  rw [splice, splice, h]

/-- **Two pieces one behind the other.** -/
theorem splice_append (img : ℕ → UInt8) (a : ℕ) (bs cs : List UInt8) :
    splice img a (bs ++ cs) = splice (splice img a bs) (a + bs.length) cs := by
  funext x
  by_cases hb : x < a + bs.length
  · rw [splice_of_lt hb]
    by_cases ha : a ≤ x
    · obtain ⟨i, rfl⟩ := Nat.exists_eq_add_of_le ha
      rw [splice_add (by rw [List.length_append]; omega), splice_add (by omega),
        List.getD_eq_getElem?_getD, List.getD_eq_getElem?_getD,
        List.getElem?_append_left (by omega)]
    · rw [splice_of_lt (by omega), splice_of_lt (by omega)]
  · by_cases hc : x < a + bs.length + cs.length
    · obtain ⟨i, rfl⟩ := Nat.exists_eq_add_of_le (Nat.le_of_not_lt hb)
      rw [splice_add (by omega), Nat.add_assoc, splice_add (by rw [List.length_append]; omega),
        List.getD_eq_getElem?_getD, List.getD_eq_getElem?_getD,
        List.getElem?_append_right (by omega), Nat.add_sub_cancel_left]
    · rw [splice_of_le (by rw [List.length_append]; omega), splice_of_le (by omega),
        splice_of_le (by omega)]

theorem splice_nil (img : ℕ → UInt8) (a : ℕ) : splice img a [] = img := by
  funext x
  exact if_neg (by simp only [List.length_nil]; omega)

theorem slice_splice_same (img : ℕ → UInt8) (a : ℕ) (bs : List UInt8) :
    slice (splice img a bs) a bs.length = bs := by
  refine List.ext_getElem? fun i => ?_
  by_cases hi : i < bs.length
  · rw [getElem?_slice hi, splice_add hi, List.getD_eq_getElem?_getD, List.getElem?_eq_getElem hi,
      Option.getD_some]
  · rw [List.getElem?_eq_none (by rw [length_slice]; omega), List.getElem?_eq_none (by omega)]

theorem slice_splice_of_disjoint (h : b + n ≤ a ∨ a + bs.length ≤ b) :
    slice (splice img a bs) b n = slice img b n := by
  refine slice_congr fun x h1 h2 => ?_
  rcases h with h | h
  · exact splice_of_lt (by omega)
  · exact splice_of_le (by omega)

/-! ## Patches -/

@[simp] theorem patch_nil (buf : List UInt8) (off : ℕ) : patch buf off [] = buf := by
  simp [patch]

@[simp] theorem nil_patch (off : ℕ) (bs : List UInt8) : patch [] off bs = bs := by
  simp [patch]

/-- Two patches, the second one behind the first. -/
theorem patch_patch (h : off ≤ buf.length) (cs : List UInt8) :
    patch (patch buf off bs) (off + bs.length) cs = patch buf off (bs ++ cs) := by
  have hlen : (buf.take off ++ bs).length = off + bs.length := by
    rw [List.length_append, List.length_take_of_le h]
  simp only [patch]
  rw [List.take_left' hlen, ← hlen, List.drop_length_add_append, List.drop_drop, hlen,
    List.length_append, Nat.add_assoc, List.append_assoc (buf.take off)]

theorem slice_splice_inside (h : off + bs.length ≤ n) :
    slice (splice img (a + off) bs) a n = patch (slice img a n) off bs := by
  obtain ⟨k, rfl⟩ := Nat.exists_eq_add_of_le h
  rw [slice_append, slice_append, patch, take_slice (by omega), drop_slice (by omega),
    slice_splice_same, slice_splice_of_disjoint (.inl (by omega)),
    slice_splice_of_disjoint (.inr (by omega))]
  congr 2
  omega

/-- A piece that is changed in part, or becomes longer. -/
theorem slice_splice_grow (h : off ≤ n) :
    slice (splice img (a + off) bs) a (max n (off + bs.length)) = patch (slice img a n) off bs := by
  by_cases hle : off + bs.length ≤ n
  · rw [Nat.max_eq_left hle, slice_splice_inside hle]
  · have hlt : n < off + bs.length := Nat.lt_of_not_le hle
    rw [Nat.max_eq_right (Nat.le_of_lt hlt), slice_splice_inside (Nat.le_refl _), patch, patch,
      take_slice (by omega), take_slice h, List.drop_of_length_le (Nat.le_of_eq (length_slice ..)),
      List.drop_of_length_le (by rw [length_slice]; omega)]

theorem splice_slice_self (img : ℕ → UInt8) (a n : ℕ) : splice img a (slice img a n) = img := by
  funext x
  simp only [splice, length_slice]
  split
  · rename_i hx
    rw [List.getD_eq_getElem?_getD, getElem?_slice (by omega), Option.getD_some]
    congr 1
    omega
  · rfl

/-- **A piece is read, changed in part, and written back**: only that part changes. -/
theorem splice_patch (h : off + bs.length ≤ n) :
    splice img a (patch (slice img a n) off bs) = splice img (a + off) bs := by
  rw [← slice_splice_inside h]
  funext x
  by_cases hx : a ≤ x ∧ x < a + n
  · have hself := congrFun (splice_slice_self (splice img (a + off) bs) a n) x
    simp only [splice, length_slice, hx, and_self, if_true] at hself ⊢
    exact hself
  · simp only [splice, length_slice, hx, if_false]
    rw [if_neg (by omega)]

/-- A piece that has been read, with one byte changed. -/
theorem splice_set {i : ℕ} {x : UInt8} (hi : i < n) :
    splice img a ((slice img a n).set i x) = Function.update img (a + i) x := by
  funext y
  rw [Function.update_apply, splice, List.length_set, length_slice]
  split
  · rename_i hy
    rw [List.getD_eq_getElem?_getD, List.getElem?_set, length_slice]
    by_cases hyi : i = y - a
    · rw [if_pos hyi, if_pos (by omega), if_pos (by omega)]
      rfl
    · rw [if_neg hyi, if_neg (by omega), getElem?_slice (by omega), Nat.add_sub_cancel' hy.1]
      rfl
  · rw [if_neg (by omega)]

/-! ## Numbers -/

@[simp] theorem length_le (w v : ℕ) : (le w v).length = w := by
  induction w generalizing v with
  | zero => rfl
  | succ w ih => simp [le, ih]

theorem unle_le_two (hv : v < 65536) : unle (le 2 v) = v := by
  simp only [le, unle, UInt8.toNat_ofNat']
  omega

theorem unle_le_four (hv : v < 4294967296) : unle (le 4 v) = v := by
  simp only [le, unle, UInt8.toNat_ofNat']
  omega

theorem unle_lt_two (h : bs.length ≤ 2) : unle bs < 65536 := by
  rcases bs with _ | ⟨a, _ | ⟨b, _ | ⟨c, bs⟩⟩⟩
  · decide
  · have := a.toNat_lt
    simp only [unle]
    omega
  · have := a.toNat_lt
    have := b.toNat_lt
    simp only [unle]
    omega
  · simp only [List.length_cons] at h
    omega

@[simp] theorem length_flatMap_le (l : List ℕ) : (l.flatMap (le 4)).length = 4 * l.length := by
  induction l with
  | nil => rfl
  | cons v l ih =>
    simp only [List.flatMap_cons, List.length_append, length_le, ih, List.length_cons]
    omega

theorem words_le_append (hv : v < 4294967296) (bs : List UInt8) :
    words (le 4 v ++ bs) = v :: words bs := by
  have := unle_le_four hv
  simp only [le] at this ⊢
  simp [words, this]

/-- **The numbers that were stored are read back.** -/
theorem words_flatMap_le (h : ∀ v ∈ l, v < 4294967296) : words (l.flatMap (le 4)) = l := by
  induction l with
  | nil => rfl
  | cons v l ih =>
    rw [List.flatMap_cons, words_le_append (h v List.mem_cons_self),
      ih fun u hu => h u (List.mem_cons_of_mem v hu)]

end Xv6.Image
