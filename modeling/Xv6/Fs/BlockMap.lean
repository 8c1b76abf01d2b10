import Xv6.Fs.Blocks
import Mathlib.Data.Finset.Card
import Mathlib.Data.Nat.Bitwise

/-!
# Which block is whose

A block of the data area is free, or it is used for one thing: a piece of a file, or the block
numbers of a file.  `balloc` takes a block that is free and leaves zeroes in it, and `bmap` makes
it the file's.  What the files hold does not change with that, since a block that a file does not
have yet counts as zeroes.

## Main definitions

* `usedBit`, `freeBlocks` — the bitmap.
* `blockOf` — the block that an inode has for something.
* `Owns` — the blocks that are in use are different, and are the ones that the bitmap marks.
* `contents` — the bytes of a file.

## Main results

* `balloc_spec` — `balloc` takes a free block, if there is one.
* `Owns.add` — a block is put to a use.
* `bmap_spec` — `bmap` of a block that a file has, or of its next.
-/

namespace Xv6.Fs.Blocks

open Function Prog Image
open Mkfs (BSIZE NINDIRECT MAXFILE IPB IBLOCK sb)

variable {img img' : ℕ → UInt8} {d d' : Disk} {R : Fault → Prop} {a b c i j k n o x bn : ℕ}
  {din din' : Mkfs.Dinode} {buf : List UInt8}

/-! ## Operations -/

@[simp] theorem wp_bread {Q : List UInt8 → Disk → Prop} :
    wp handle R (bread b) Q d ↔ Q (slice d.bytes (512 * b) 512) d := by
  rw [wp, bread, run_op]
  rfl

@[simp] theorem wp_logWrite {Q : Unit → Disk → Prop} :
    wp handle R (logWrite b buf) Q d ↔
      Q () { d with bytes := splice d.bytes (512 * b) buf, logged := b :: d.logged } := by
  rw [wp, logWrite, run_op]
  rfl

/-! ## The bitmap -/

/-- The bit of block `b`, of the bitmap in block 58. -/
def usedBit (img : ℕ → UInt8) (b : ℕ) : Bool := (img (29696 + b / 8)).toNat.testBit (b % 8)

/-- The free blocks. -/
def freeSet (img : ℕ → UInt8) : Finset ℕ :=
  (Finset.range 1000).filter fun b => usedBit img b = false

/-- How many free blocks there are. -/
def freeBlocks (img : ℕ → UInt8) : ℕ := (freeSet img).card

theorem bit_slice (hb : b < 4096) : bit (slice img 29696 512) b = usedBit img b := by
  rw [bit, usedBit, List.getD_eq_getElem?_getD, getElem?_slice (by omega)]
  rfl

theorem toNat_one_shiftLeft : ∀ k < 8, ((1 : UInt8) <<< UInt8.ofNat k).toNat = 1 <<< k := by decide

theorem testBit_setBit (y : UInt8) (hk : k < 8) :
    (y ||| 1 <<< UInt8.ofNat k).toNat.testBit j = (y.toNat.testBit j || decide (k = j)) := by
  rw [UInt8.toNat_or, Nat.testBit_or, toNat_one_shiftLeft k hk, Nat.one_shiftLeft,
    Nat.testBit_two_pow]

theorem usedBit_setBit (hb : b < 4096) (c : ℕ) :
    usedBit (splice img 29696 (setBit (slice img 29696 512) b)) c =
      (usedBit img c || decide (b = c)) := by
  have hbyte : (slice img 29696 512).getD (b / 8) 0 = img (29696 + b / 8) := by
    rw [List.getD_eq_getElem?_getD, getElem?_slice (by omega)]
    rfl
  rw [setBit, hbyte, splice_set (by omega), usedBit, usedBit]
  by_cases hbc : b / 8 = c / 8
  · have hsame : decide (b % 8 = c % 8) = decide (b = c) := decide_eq_decide.mpr (by omega)
    rw [← hbc, update_self, testBit_setBit _ (by omega), hsame]
  · rw [update_of_ne (by omega), decide_eq_false (by omega), Bool.or_false]

/-- What `balloc` does when it gives block `b`. -/
structure Fresh (d d' : Disk) (b : ℕ) : Prop where
  lt : b < 1000
  free : usedBit d.bytes b = false
  bits : ∀ c < 1000, usedBit d'.bytes c = (usedBit d.bytes c || decide (b = c))
  zero : ∀ o < 512, d'.bytes (512 * b + o) = 0
  same : ∀ a, a / 512 ≠ 58 → a / 512 ≠ b → d'.bytes a = d.bytes a
  logged : d'.logged = b :: 58 :: d.logged
  sections : d'.sections = d.sections

/-- **`balloc`** gives a free block, if there is one. -/
theorem balloc_spec (hmeta : ∀ b < 59, usedBit d.bytes b = true) :
    wp handle (fun e => e = .outOfBlocks ∧ freeBlocks d.bytes = 0) balloc
      (fun b d' => 59 ≤ b ∧ Fresh d d' b) d := by
  have hrounds : (sb.size + BPB - 1) / BPB = 1 := by decide
  have hrange : min BPB (sb.size - 0) = 1000 := by decide
  have hblock : BBLOCK 0 = 58 := by decide
  rw [balloc, hrounds, ballocFrom, hrange, hblock, wp_bind, wp_bread]
  cases hfind : (List.range 1000).find? fun bi => !bit (slice d.bytes (512 * 58) 512) bi with
  | none =>
    have hall := List.find?_eq_none.mp hfind
    refine ⟨rfl, Finset.card_eq_zero.mpr (Finset.filter_eq_empty_iff.mpr fun b hb hfree => ?_)⟩
    have hlt := Finset.mem_range.mp hb
    have := hall b (List.mem_range.mpr hlt)
    rw [bit_slice (by omega), hfree] at this
    exact this rfl
  | some b =>
    have hlt := List.mem_range.mp (List.mem_of_find?_eq_some hfind)
    have hfree := List.find?_some hfind
    rw [bit_slice (by omega), Bool.not_eq_true'] at hfree
    have hge : 59 ≤ b := by
      by_contra hlt'
      rw [hmeta b (by omega)] at hfree
      cases hfree
    dsimp only
    rw [wp_bind, wp_logWrite, wp_bind, bzero, wp_logWrite, wp_pure, Nat.zero_add]
    refine ⟨hge, hlt, hfree, fun c hc => ?_, fun o ho => ?_, fun a h1 h2 => ?_, rfl, rfl⟩
    · rw [← usedBit_setBit (by omega) c, usedBit]
      dsimp only
      rw [splice_of_lt (by omega), usedBit]
    · dsimp only
      rw [splice_add (by rwa [List.length_replicate]), List.getD_eq_getElem?_getD,
        List.getElem?_replicate]
      split <;> rfl
    · have hlen : (setBit (slice d.bytes (512 * 58) 512) b).length = 512 := by
        rw [setBit, List.length_set, length_slice]
      dsimp only
      rw [splice, List.length_replicate, if_neg (by simp only [BSIZE]; omega), splice, hlen,
        if_neg (by omega)]

theorem Fresh.freeBlocks (h : Fresh d d' b) :
    Blocks.freeBlocks d'.bytes + 1 = Blocks.freeBlocks d.bytes := by
  have hmem : b ∈ freeSet d.bytes :=
    Finset.mem_filter.mpr ⟨Finset.mem_range.mpr h.lt, h.free⟩
  have herase : freeSet d'.bytes = (freeSet d.bytes).erase b := by
    ext c
    simp only [freeSet, Finset.mem_erase, Finset.mem_filter, Finset.mem_range]
    constructor
    · rintro ⟨hc, hfree⟩
      rw [h.bits c hc, Bool.or_eq_false_iff, decide_eq_false_iff_not] at hfree
      exact ⟨fun hcb => hfree.2 hcb.symm, hc, hfree.1⟩
    · rintro ⟨hcb, hc, hfree⟩
      rw [h.bits c hc, hfree, decide_eq_false fun hbc => hcb hbc.symm]
      exact ⟨hc, rfl⟩
  rw [Blocks.freeBlocks, herase]
  exact Finset.card_erase_add_one hmem

theorem freeBlocks_congr (h : ∀ c < 1000, usedBit img' c = usedBit img c) :
    freeBlocks img' = freeBlocks img := by
  refine congrArg Finset.card (Finset.filter_congr fun c hc => ?_)
  rw [h c (Finset.mem_range.mp hc)]

/-! ## Blocks of a file -/

/-- What a block may be used for: the inode, and the index of the piece of the file in it; no
index for the indirect block. -/
abbrev Place := ℕ × Option ℕ

/-- The block that an inode has for something, or 0. -/
def blockOf (img : ℕ → UInt8) (din : Mkfs.Dinode) : Option ℕ → ℕ
  | none => din.addrs.getD 12 0
  | some k =>
    if k < 12 then din.addrs.getD k 0
    else if din.addrs.getD 12 0 = 0 then 0
    else unle (slice img (512 * din.addrs.getD 12 0 + 4 * (k - 12)) 4)

/-- The bytes of a file; where it has no block, they are zeroes. -/
def contents (img : ℕ → UInt8) (din : Mkfs.Dinode) (x : ℕ) : UInt8 :=
  if blockOf img din (some (x / 512)) = 0 then 0
  else img (512 * blockOf img din (some (x / 512)) + x % 512)

/-- A use that there may be. -/
def IsSlot (s : Option ℕ) : Prop := ∀ k, s = some k → k < 140

/-- Block `b` is the same on two disks. -/
def SameBlock (img img' : ℕ → UInt8) (b : ℕ) : Prop :=
  ∀ o < 512, img' (512 * b + o) = img (512 * b + o)

variable {live : ℕ → Prop} {D : ℕ → Mkfs.Dinode} {P : Place → Prop} {u w : Place} {s : Option ℕ}

theorem blockOf_direct (hk : k < 12) : blockOf img din (some k) = din.addrs.getD k 0 := if_pos hk

theorem blockOf_of_indirect_eq_zero (hk : 12 ≤ k) (h : din.addrs.getD 12 0 = 0) :
    blockOf img din (some k) = 0 := by
  rw [blockOf, if_neg (by omega), if_pos h]

theorem blockOf_indirect (hk : 12 ≤ k) (h : din.addrs.getD 12 0 ≠ 0) :
    blockOf img din (some k) = unle (slice img (512 * din.addrs.getD 12 0 + 4 * (k - 12)) 4) := by
  rw [blockOf, if_neg (by omega), if_neg h]

/-- A block number is read from the indirect block. -/
theorem blockOf_congr (hs : IsSlot s)
    (h : din.addrs.getD 12 0 ≠ 0 → SameBlock img img' (din.addrs.getD 12 0)) :
    blockOf img' din s = blockOf img din s := by
  cases s with
  | none => rfl
  | some k =>
    have hk := hs k rfl
    by_cases hlt : k < 12
    · rw [blockOf_direct hlt, blockOf_direct hlt]
    · by_cases h0 : din.addrs.getD 12 0 = 0
      · rw [blockOf_of_indirect_eq_zero (by omega) h0, blockOf_of_indirect_eq_zero (by omega) h0]
      · rw [blockOf_indirect (by omega) h0, blockOf_indirect (by omega) h0]
        refine congrArg unle (slice_congr fun y h1 h2 => ?_)
        have := h h0 (y - 512 * din.addrs.getD 12 0) (by omega)
        rwa [Nat.add_sub_cancel' (by omega)] at this

/-- The uses `P` of blocks by the inodes that are `live` are those that there are, each has a block
of its own in the data area, and the bitmap marks these blocks and those before the data area. -/
structure Owns (img : ℕ → UInt8) (live : ℕ → Prop) (D : ℕ → Mkfs.Dinode) (P : Place → Prop) :
    Prop where
  len : ∀ i, live i → (D i).addrs.length = 13
  alive : ∀ u, P u → live u.1
  slot : ∀ u, P u → IsSlot u.2
  held : ∀ i, live i → ∀ s, IsSlot s → (blockOf img (D i) s ≠ 0 ↔ P (i, s))
  area : ∀ u, P u → 59 ≤ blockOf img (D u.1) u.2 ∧ blockOf img (D u.1) u.2 < 1000
  inj : ∀ u w, P u → P w → blockOf img (D u.1) u.2 = blockOf img (D w.1) w.2 → u = w
  used : ∀ b < 1000, usedBit img b = true ↔ b < 59 ∨ ∃ u, P u ∧ blockOf img (D u.1) u.2 = b

namespace Owns

theorem meta_used (h : Owns img live D P) (hb : b < 59) : usedBit img b = true :=
  (h.used b (by omega)).mpr (.inl hb)

/-- A block in use is not free. -/
theorem ne_of_free (h : Owns img live D P) (hu : P u) (hb : b < 1000)
    (hfree : usedBit img b = false) : blockOf img (D u.1) u.2 ≠ b := by
  intro heq
  rw [(h.used b hb).mpr (.inr ⟨u, hu, heq⟩)] at hfree
  cases hfree

/-- **A block is put to a use.** -/
theorem add (h : Owns img live D P) {D' : ℕ → Mkfs.Dinode} (hi : live w.1) (hs : IsSlot w.2)
    (hw : ¬P w) (hlen : ∀ i, live i → (D' i).addrs.length = 13) (hlo : 59 ≤ b) (hhi : b < 1000)
    (hfree : usedBit img b = false)
    (hbits : ∀ c < 1000, usedBit img' c = (usedBit img c || decide (b = c)))
    (hnew : blockOf img' (D' w.1) w.2 = b)
    (hold : ∀ i s, live i → IsSlot s → (i, s) ≠ w → blockOf img' (D' i) s = blockOf img (D i) s) :
    Owns img' live D' (fun u => P u ∨ u = w) := by
  have hmem : ∀ u, P u ∨ u = w → live u.1 ∧ IsSlot u.2 := by
    rintro u (hu | rfl)
    · exact ⟨h.alive u hu, h.slot u hu⟩
    · exact ⟨hi, hs⟩
  -- a use other than the new one has the block it had
  have hsame : ∀ u, P u → u ≠ w → blockOf img' (D' u.1) u.2 = blockOf img (D u.1) u.2 :=
    fun u hu hne => hold u.1 u.2 (h.alive u hu) (h.slot u hu) hne
  refine ⟨hlen, fun u hu => (hmem u hu).1, fun u hu => (hmem u hu).2, ?_, ?_, ?_, ?_⟩
  · intro i hli s hsl
    by_cases hw : (i, s) = w
    · subst hw
      rw [hnew]
      exact ⟨fun _ => .inr rfl, fun _ => by omega⟩
    · rw [hold i s hli hsl hw, h.held i hli s hsl]
      exact ⟨.inl, fun hu => hu.resolve_right hw⟩
  · intro u hu
    by_cases hw : u = w
    · subst hw
      rw [hnew]
      exact ⟨hlo, hhi⟩
    · have hP := hu.resolve_right hw
      rw [hsame u hP hw]
      exact h.area u hP
  · intro u v hu hv heq
    by_cases huw : u = w
    · by_cases hvw : v = w
      · rw [huw, hvw]
      · have hP := hv.resolve_right hvw
        rw [huw, hnew, hsame v hP hvw] at heq
        exact absurd heq.symm (h.ne_of_free hP hhi hfree)
    · have hP := hu.resolve_right huw
      by_cases hvw : v = w
      · rw [hvw, hnew, hsame u hP huw] at heq
        exact absurd heq (h.ne_of_free hP hhi hfree)
      · have hP' := hv.resolve_right hvw
        rw [hsame u hP huw, hsame v hP' hvw] at heq
        exact h.inj u v hP hP' heq
  · intro c hc
    rw [hbits c hc, Bool.or_eq_true, h.used c hc, decide_eq_true_eq]
    constructor
    · rintro ((hlt | ⟨u, hu, heq⟩) | rfl)
      · exact .inl hlt
      · have hne : u ≠ w := fun huw => hw (huw ▸ hu)
        exact .inr ⟨u, .inl hu, (hsame u hu hne).trans heq⟩
      · exact .inr ⟨w, .inr rfl, hnew⟩
    · rintro (hlt | ⟨u, hu, heq⟩)
      · exact .inl (.inl hlt)
      · by_cases hw : u = w
        · rw [hw, hnew] at heq
          exact .inr heq
        · have hP := hu.resolve_right hw
          rw [hsame u hP hw] at heq
          exact .inl (.inr ⟨u, hP, heq⟩)

end Owns

/-! ## What an allocation leaves -/

/-- The blocks in use, the contents of all files and what is before the bitmap are as they were. -/
structure Keeps (live : ℕ → Prop) (P : Place → Prop) (D D' : ℕ → Mkfs.Dinode)
    (img img' : ℕ → UInt8) : Prop where
  block : ∀ u, P u → blockOf img' (D' u.1) u.2 = blockOf img (D u.1) u.2
  contents : ∀ i, live i → ∀ x < 71680, contents img' (D' i) x = contents img (D i) x
  below : ∀ a < 29696, img' a = img a

theorem Keeps.refl (live : ℕ → Prop) (P : Place → Prop) (D : ℕ → Mkfs.Dinode) (img : ℕ → UInt8) :
    Keeps live P D D img img :=
  ⟨fun _ _ => rfl, fun _ _ _ _ => rfl, fun _ _ => rfl⟩

theorem Keeps.trans {P' : Place → Prop} {D' D'' : ℕ → Mkfs.Dinode} {img'' : ℕ → UInt8}
    (h : Keeps live P D D' img img') (h' : Keeps live P' D' D'' img' img'')
    (hP : ∀ u, P u → P' u) : Keeps live P D D'' img img'' where
  block u hu := (h'.block u (hP u hu)).trans (h.block u hu)
  contents i hi x hx := (h'.contents i hi x hx).trans (h.contents i hi x hx)
  below a ha := (h'.below a ha).trans (h.below a ha)

/-- A block that is put to a use has only zeroes, and the others are as they were. -/
theorem Owns.keeps (h : Owns img live D P) {D' : ℕ → Mkfs.Dinode} (hw : ¬P w)
    (hnew : blockOf img' (D' w.1) w.2 = b) (hzero : ∀ o < 512, img' (512 * b + o) = 0)
    (hold : ∀ i s, live i → IsSlot s → (i, s) ≠ w → blockOf img' (D' i) s = blockOf img (D i) s)
    (hdata : ∀ i k, P (i, some k) → SameBlock img img' (blockOf img (D i) (some k)))
    (hbelow : ∀ a < 29696, img' a = img a) : Keeps live P D D' img img' where
  block u hu := hold u.1 u.2 (h.alive u hu) (h.slot u hu) fun huw => hw (huw ▸ hu)
  below := hbelow
  contents i hi x hx := by
    have hslot : IsSlot (some (x / 512)) := by
      rintro k ⟨⟩
      omega
    have hheld := h.held i hi _ hslot
    by_cases hiw : (i, some (x / 512)) = w
    · subst hiw
      rw [contents, contents, hnew]
      have hnone : blockOf img (D i) (some (x / 512)) = 0 := by
        by_contra hne
        exact hw (hheld.mp hne)
      rw [if_pos hnone]
      split
      · rfl
      · exact hzero _ (Nat.mod_lt x (by decide))
    · rw [contents, contents, hold i _ hi hslot hiw]
      split
      · rfl
      · rename_i hne
        exact hdata i _ (hheld.mp hne) _ (Nat.mod_lt x (by decide))

/-- The use of a block that is at index `m` of `addrs`. -/
def slotOf (m : ℕ) : Option ℕ := if m < 12 then some m else none

theorem isSlot_slotOf (m : ℕ) : IsSlot (slotOf m) := by
  intro k hk
  rw [slotOf] at hk
  split at hk
  · cases hk
    omega
  · cases hk

theorem blockOf_slotOf (hk : k ≤ 12) : blockOf img din (slotOf k) = din.addrs.getD k 0 := by
  rw [slotOf]
  split
  · rename_i hlt
    exact blockOf_direct hlt
  · rw [show k = 12 by omega]
    rfl

theorem getD_set_self {l : List ℕ} (hk : k < l.length) : (l.set k b).getD k 0 = b := by
  simp [List.getD_eq_getElem?_getD, hk]

theorem getD_set_of_ne {l : List ℕ} (hk : k ≠ j) : (l.set k b).getD j 0 = l.getD j 0 := by
  simp [List.getD_eq_getElem?_getD, hk]

/-- A block of zeroes has no block numbers. -/
theorem unle_slice_zero (hzero : ∀ o < 512, img (512 * b + o) = 0) (hj : j < 128) :
    unle (slice img (512 * b + 4 * j) 4) = 0 := by
  have hslice : slice img (512 * b + 4 * j) 4 = slice (fun _ => 0) (512 * b + 4 * j) 4 := by
    refine slice_congr fun y h1 h2 => ?_
    have := hzero (y - 512 * b) (by omega)
    rwa [Nat.add_sub_cancel' (by omega)] at this
  rw [hslice]
  rfl

/-- The other blocks of an inode, when one of `addrs` is set that was not. -/
theorem blockOf_set (hk : k ≤ 12) (hs : IsSlot s) (hne : s ≠ slotOf k)
    (h0 : din.addrs.getD k 0 = 0) (hlen : din.addrs.length = 13)
    (hzero : k = 12 → ∀ o < 512, img' (512 * b + o) = 0)
    (hsame : din.addrs.getD 12 0 ≠ 0 → SameBlock img img' (din.addrs.getD 12 0)) :
    blockOf img' { din with addrs := din.addrs.set k b } s = blockOf img din s := by
  cases s with
  | none =>
    have : k ≠ 12 := by
      rintro rfl
      exact hne rfl
    exact getD_set_of_ne this
  | some m =>
    have hm := hs m rfl
    by_cases hlt : m < 12
    · have : k ≠ m := by
        rintro rfl
        rw [slotOf, if_pos hlt] at hne
        exact hne rfl
      rw [blockOf_direct hlt, blockOf_direct hlt]
      exact getD_set_of_ne this
    · by_cases hk12 : k = 12
      · subst hk12
        rw [blockOf_of_indirect_eq_zero (by omega) h0, blockOf, if_neg hlt,
          getD_set_self (by omega)]
        split
        · rfl
        · exact unle_slice_zero (hzero rfl) (by omega)
      · rw [← blockOf_congr hs hsame, blockOf, blockOf, if_neg hlt, if_neg hlt,
          getD_set_of_ne hk12]

/-- Blocks in use are left by `balloc`. -/
theorem Owns.sameBlock (h : Owns d.bytes live D P) (hf : Fresh d d' b) (hu : P u) :
    SameBlock d.bytes d'.bytes (blockOf d.bytes (D u.1) u.2) := by
  intro o ho
  have harea := h.area u hu
  have hne := h.ne_of_free hu hf.lt hf.free
  exact hf.same _ (by omega) (by omega)

/-- The indirect block of a file is in use. -/
theorem Owns.indirect (h : Owns img live D P) (hi : live i) (hne : (D i).addrs.getD 12 0 ≠ 0) :
    P (i, none) :=
  (h.held i hi none fun _ hk => by cases hk).mp hne

/-- **A new block becomes one of `addrs`.** -/
theorem Owns.take (h : Owns d.bytes live D P) (hi : live i) (hf : Fresh d d' b) (hlo : 59 ≤ b)
    (hk : k ≤ 12) (hzero : (D i).addrs.getD k 0 = 0) :
    let D' := update D i { D i with addrs := (D i).addrs.set k b }
    Owns d'.bytes live D' (fun u => P u ∨ u = (i, slotOf k)) ∧
      Keeps live P D D' d.bytes d'.bytes := by
  intro D'
  have hlen := h.len i hi
  have hDi : D' i = { D i with addrs := (D i).addrs.set k b } := update_self ..
  have hDj : ∀ j, j ≠ i → D' j = D j := fun j hj => update_of_ne hj ..
  have hw : ¬P (i, slotOf k) := by
    rw [← h.held i hi _ (isSlot_slotOf k), blockOf_slotOf hk, hzero]
    exact fun hne => hne rfl
  have hnew : blockOf d'.bytes (D' i) (slotOf k) = b := by
    rw [blockOf_slotOf hk, hDi]
    exact getD_set_self (by omega)
  have hold : ∀ j s, live j → IsSlot s → (j, s) ≠ (i, slotOf k) →
      blockOf d'.bytes (D' j) s = blockOf d.bytes (D j) s := by
    intro j s hj hs hne
    by_cases hji : j = i
    · subst hji
      rw [hDi]
      exact blockOf_set hk hs (fun hs' => hne (by rw [hs'])) hzero hlen (fun _ => hf.zero)
        fun hx => h.sameBlock hf (h.indirect hj hx)
    · rw [hDj j hji]
      exact blockOf_congr hs fun hx => h.sameBlock hf (h.indirect hj hx)
  have hlens : ∀ j, live j → (D' j).addrs.length = 13 := by
    intro j hj
    by_cases hji : j = i
    · rw [hji, hDi, List.length_set, hlen]
    · rw [hDj j hji]
      exact h.len j hj
  refine ⟨h.add hi (isSlot_slotOf k) hw hlens hlo hf.lt hf.free hf.bits hnew hold,
    h.keeps hw hnew hf.zero hold (fun j k hP => h.sameBlock hf hP) fun a ha => ?_⟩
  exact hf.same a (by omega) (by omega)

/-- A store in one block leaves the others. -/
theorem sameBlock_splice {bs : List UInt8} (hne : b ≠ x) (h : o + bs.length ≤ 512) :
    SameBlock img (splice img (512 * x + o) bs) b := by
  intro y hy
  rcases Nat.lt_or_gt_of_ne hne with hlt | hgt
  · exact splice_of_lt (by omega)
  · exact splice_of_le (by omega)

theorem SameBlock.trans {img'' : ℕ → UInt8} (h : SameBlock img img' b)
    (h' : SameBlock img' img'' b) : SameBlock img img'' b :=
  fun o ho => (h' o ho).trans (h o ho)

theorem usedBit_splice {bs : List UInt8} (hx : 59 ≤ x) (hb : b < 1000) :
    usedBit (splice img (512 * x + o) bs) b = usedBit img b := by
  rw [usedBit, splice_of_lt (by omega), usedBit]

/-- **A new block becomes one of the indirect block's.** -/
theorem Owns.entry (h : Owns d.bytes live D P) (hi : live i) (hf : Fresh d d' b) (hlo : 59 ≤ b)
    (hx : (D i).addrs.getD 12 0 ≠ 0) (hk : 12 ≤ k) (hk' : k < 140)
    (hzero : blockOf d.bytes (D i) (some k) = 0)
    (himg : img' = splice d'.bytes (512 * (D i).addrs.getD 12 0 + 4 * (k - 12)) (le 4 b)) :
    Owns img' live D (fun u => P u ∨ u = (i, some k)) ∧ Keeps live P D D d.bytes img' ∧
      blockOf img' (D i) (some k) = b := by
  subst himg
  have hP := h.indirect hi hx
  have harea : 59 ≤ (D i).addrs.getD 12 0 ∧ (D i).addrs.getD 12 0 < 1000 := h.area _ hP
  have hxb : (D i).addrs.getD 12 0 ≠ b := h.ne_of_free hP hf.lt hf.free
  have hlen : (le 4 b).length = 4 := length_le 4 b
  have hfit : 4 * (k - 12) + (le 4 b).length ≤ 512 := by omega
  have hslot : IsSlot (some k) := by
    rintro m ⟨⟩
    exact hk'
  have hw : ¬P (i, some k) := by
    rw [← h.held i hi _ hslot, hzero]
    exact fun hne => hne rfl
  -- blocks in use, other than the indirect block itself
  have hsame : ∀ u, P u → u ≠ (i, none) → SameBlock d.bytes
      (splice d'.bytes (512 * (D i).addrs.getD 12 0 + 4 * (k - 12)) (le 4 b))
      (blockOf d.bytes (D u.1) u.2) :=
    fun u hu hne => (h.sameBlock hf hu).trans
      (sameBlock_splice (fun heq => hne (h.inj u (i, none) hu hP heq)) hfit)
  have hnew : blockOf (splice d'.bytes (512 * (D i).addrs.getD 12 0 + 4 * (k - 12)) (le 4 b))
      (D i) (some k) = b := by
    have hread := slice_splice_same d'.bytes (512 * (D i).addrs.getD 12 0 + 4 * (k - 12)) (le 4 b)
    rw [hlen] at hread
    rw [blockOf_indirect hk hx, hread]
    exact unle_le_four (by have := hf.lt; omega)
  have hold : ∀ j s, live j → IsSlot s → (j, s) ≠ (i, some k) →
      blockOf (splice d'.bytes (512 * (D i).addrs.getD 12 0 + 4 * (k - 12)) (le 4 b)) (D j) s =
        blockOf d.bytes (D j) s := by
    intro j s hj hs hne
    by_cases hji : j = i
    · subst hji
      cases s with
      | none => rfl
      | some m =>
        by_cases hm : m < 12
        · rw [blockOf_direct hm, blockOf_direct hm]
        · have hmk : m ≠ k := by
            rintro rfl
            exact hne rfl
          rw [← blockOf_congr hs fun _ => h.sameBlock hf hP, blockOf_indirect (by omega) hx,
            blockOf_indirect (by omega) hx, slice_splice_of_disjoint (by omega)]
    · refine blockOf_congr hs fun hx' => hsame (j, none) (h.indirect hj hx') ?_
      rintro ⟨⟩
      exact hji rfl
  refine ⟨h.add hi hslot hw h.len hlo hf.lt hf.free (fun c hc => ?_) hnew hold,
    h.keeps hw hnew (fun o ho => ?_) hold (fun j m hPm => hsame _ hPm fun hm => by cases hm)
      fun a ha => ?_, hnew⟩
  · rw [usedBit_splice harea.1 hc, hf.bits c hc]
  · exact (sameBlock_splice (Ne.symm hxb) hfit o ho).trans (hf.zero o ho)
  · rw [← hf.same a (by omega) (by omega)]
    exact splice_of_lt (by omega)

/-! ## `bmap` -/

/-- The blocks of files of which `nb i` is the number of pieces of inode `i`. -/
def inUse (live : ℕ → Prop) (nb : ℕ → ℕ) : Place → Prop
  | (i, some k) => live i ∧ k < nb i
  | (i, none) => live i ∧ 12 < nb i

/-- The blocks of a file of `n` pieces. -/
def cost (n : ℕ) : ℕ := n + if 12 < n then 1 else 0

/-- What `bmap` does: it gives the block `addr` of index `bn`, and the file has at least `bn + 1`
pieces. -/
structure Bmapped (live : ℕ → Prop) (D : ℕ → Mkfs.Dinode) (nb : ℕ → ℕ) (d d' : Disk)
    (ip ip' : Inode) (bn addr : ℕ) : Prop where
  inum : ip'.inum = ip.inum
  fields : ip'.din = { ip.din with addrs := ip'.din.addrs }
  old : bn < nb ip.inum → ip' = ip
  owns : Owns d'.bytes live (update D ip.inum ip'.din)
    (inUse live (update nb ip.inum (max (nb ip.inum) (bn + 1))))
  found : addr = blockOf d'.bytes ip'.din (some bn)
  keeps : Keeps live (inUse live nb) D (update D ip.inum ip'.din) d.bytes d'.bytes
  free : freeBlocks d'.bytes + cost (max (nb ip.inum) (bn + 1)) =
    freeBlocks d.bytes + cost (nb ip.inum)
  logged : ∀ c, c ∈ d'.logged ↔ c ∈ d.logged ∨ nb ip.inum ≤ bn ∧
    (c = 58 ∨ c = addr ∨ 12 ≤ bn ∧ c = blockOf d'.bytes ip'.din none)
  sections : d'.sections = d.sections

variable {nb : ℕ → ℕ} {ip ip' : Inode}

theorem Owns.congr {P' : Place → Prop} (h : Owns img live D P) (hP : ∀ u, P' u ↔ P u) :
    Owns img live D P' := by
  obtain rfl : P' = P := funext fun u => propext (hP u)
  exact h

theorem wordAt_slice (hj : j < 128) :
    wordAt (slice img (512 * x) 512) j = unle (slice img (512 * x + 4 * j) 4) := by
  rw [wordAt, slice_slice (by omega)]

/-- A block that the file has. -/
theorem bmap_hit (h : Owns d.bytes live D (inUse live nb)) (hD : D ip.inum = ip.din)
    (hbn : bn < nb ip.inum) :
    Bmapped live D nb d d ip ip bn (blockOf d.bytes ip.din (some bn)) := by
  have hself : update D ip.inum ip.din = D := by rw [← hD, update_eq_self]
  have hnb : max (nb ip.inum) (bn + 1) = nb ip.inum := by omega
  refine ⟨rfl, rfl, fun _ => rfl, ?_, rfl, ?_, ?_, fun c => ?_, rfl⟩
  · rw [hself, hnb, update_eq_self]
    exact h
  · rw [hself]
    exact .refl ..
  · rw [hnb]
  · simp [Nat.not_le.mpr hbn]

/-- The uses of a file with one piece more. -/
theorem inUse_succ (hi : live i) (u : Place) :
    inUse live (update nb i (max (nb i) (nb i + 1))) u ↔
      inUse live nb u ∨ u = (i, some (nb i)) ∨ nb i = 12 ∧ u = (i, none) := by
  obtain ⟨j, s⟩ := u
  by_cases hji : j = i
  · subst hji
    cases s with
    | none => simp [inUse, hi]; omega
    | some k => simp [inUse, hi]; omega
  · cases s with
    | none => simp [inUse, hji]
    | some k => simp [inUse, hji]

/-- The next block of a file, which is a direct one. -/
theorem bmap_direct (h : Owns d.bytes live D (inUse live nb)) (hi : live ip.inum)
    (hD : D ip.inum = ip.din) (hlt : nb ip.inum < 12) (hf : Fresh d d' b) (hlo : 59 ≤ b) :
    Bmapped live D nb d d' ip (ip.setAddr (nb ip.inum) b) (nb ip.inum) b := by
  have hlen := h.len _ hi
  have hzero : (D ip.inum).addrs.getD (nb ip.inum) 0 = 0 := by
    by_contra hne
    have := (h.held _ hi (some (nb ip.inum)) (by rintro k ⟨⟩; omega)).mp
      (by rwa [blockOf_direct hlt])
    exact absurd this.2 (Nat.lt_irrefl _)
  obtain ⟨howns, hkeeps⟩ := h.take hi hf hlo (Nat.le_of_lt hlt) hzero
  have hslot : slotOf (nb ip.inum) = some (nb ip.inum) := if_pos hlt
  rw [hD] at howns hkeeps hlen
  rw [hslot] at howns
  refine ⟨rfl, rfl, fun hb => absurd hb (Nat.lt_irrefl _), howns.congr fun u => ?_, ?_, hkeeps, ?_,
    fun c => ?_, hf.sections⟩
  · rw [inUse_succ hi]
    have : nb ip.inum ≠ 12 := by omega
    simp [this]
  · rw [blockOf_direct hlt]
    exact (getD_set_self (by omega)).symm
  · have := hf.freeBlocks
    simp only [cost]
    rw [if_neg (by omega), if_neg (by omega)]
    omega
  · have : ¬12 ≤ nb ip.inum := by omega
    simp only [hf.logged, List.mem_cons, le_refl, true_and, this, false_and, or_false]
    grind

/-- What the second part of `bmap` does, when the indirect block has no number at `k`. -/
structure Entered (live : ℕ → Prop) (D : ℕ → Mkfs.Dinode) (P : Place → Prop) (d d' : Disk)
    (ip : Inode) (k b : ℕ) : Prop where
  owns : Owns d'.bytes live D (fun u => P u ∨ u = (ip.inum, some k))
  found : b = blockOf d'.bytes ip.din (some k)
  keeps : Keeps live P D D d.bytes d'.bytes
  free : freeBlocks d'.bytes + 1 = freeBlocks d.bytes
  logged : d'.logged = ip.addr 12 :: b :: 58 :: d.logged
  sections : d'.sections = d.sections

theorem bmap_entry (h : Owns d.bytes live D P) (hi : live ip.inum) (hD : D ip.inum = ip.din)
    (hx : ip.addr 12 ≠ 0) (hk : 12 ≤ k) (hk' : k < 140)
    (hzero : blockOf d.bytes ip.din (some k) = 0) :
    wp handle (fun e => e = .outOfBlocks ∧ freeBlocks d.bytes = 0)
      (do
        let addr ← balloc
        logWrite (ip.addr 12)
          (patch (slice d.bytes (512 * ip.addr 12) 512) (4 * (k - 12)) (le 4 addr))
        return (addr, ip))
      (fun r d' => r.2 = ip ∧ Entered live D P d d' ip k r.1) d := by
  have hx' : (D ip.inum).addrs.getD 12 0 ≠ 0 := by rwa [hD]
  have hP := h.indirect hi hx'
  have harea := h.area _ hP
  have hblock : blockOf d.bytes (D ip.inum) none = ip.addr 12 := by rw [hD]; rfl
  rw [← hD] at hzero
  rw [wp_bind]
  refine (balloc_spec fun b hb => h.meta_used hb).mono fun b d₁ hb => ?_
  obtain ⟨hlo, hf⟩ := hb
  have hlen : 4 * (k - 12) + (le 4 b).length ≤ 512 := by
    rw [length_le]
    omega
  -- nobody has written to the indirect block since it was read
  have hbuf : slice d.bytes (512 * ip.addr 12) 512 = slice d₁.bytes (512 * ip.addr 12) 512 := by
    refine slice_congr fun y h1 h2 => ?_
    have := h.sameBlock hf hP (y - 512 * ip.addr 12) (by omega)
    dsimp only at this
    rw [hblock, Nat.add_sub_cancel' h1] at this
    exact this.symm
  rw [wp_bind, wp_logWrite, wp_pure, hbuf, splice_patch hlen]
  obtain ⟨howns, hkeeps, hfound⟩ := h.entry hi hf hlo hx' hk hk' hzero rfl
  dsimp only at harea
  rw [hblock] at harea
  have haddr : (D ip.inum).addrs.getD 12 0 = ip.addr 12 := hblock
  rw [haddr] at howns hkeeps hfound
  rw [hD] at hfound
  refine ⟨rfl, howns, hfound.symm, hkeeps, ?_, ?_, hf.sections⟩
  · rw [← hf.freeBlocks, freeBlocks_congr fun c hc => usedBit_splice harea.1 hc]
  · dsimp only
    rw [hf.logged]

/-- The second part of `bmap`, when there is an indirect block. -/
@[irreducible]
def bmapIndirect (ip : Inode) (k : ℕ) : BlockProg (ℕ × Inode) := do
  let buf ← bread (ip.addr 12)
  if wordAt buf (k - 12) = 0 then do
    let addr ← balloc
    logWrite (ip.addr 12) (patch buf (4 * (k - 12)) (le 4 addr))
    return (addr, ip)
  else return (wordAt buf (k - 12), ip)

theorem bmap_eq (hk : 12 ≤ k) (hk' : k < 140) :
    bmap ip k = (loadIndirect ip >>= fun ip => bmapIndirect ip k) := by
  have hge : ¬k < NDIRECT := Nat.not_lt.mpr hk
  have hin : k - NDIRECT < NINDIRECT := by
    simp only [NDIRECT, NINDIRECT, BSIZE]
    omega
  rw [bmap, if_neg hge, if_pos hin]
  unfold bmapIndirect
  rfl

theorem wp_bmapIndirect {Q : ℕ × Inode → Disk → Prop} (hx : ip.addr 12 ≠ 0) (hk : 12 ≤ k)
    (hk' : k < 140) :
    wp handle R (bmapIndirect ip k) Q d ↔
      if blockOf d.bytes ip.din (some k) = 0 then
        wp handle R (do
          let addr ← balloc
          logWrite (ip.addr 12)
            (patch (slice d.bytes (512 * ip.addr 12) 512) (4 * (k - 12)) (le 4 addr))
          return (addr, ip)) Q d
      else Q (blockOf d.bytes ip.din (some k), ip) d := by
  have hword : unle (slice d.bytes (512 * ip.addr 12 + 4 * (k - 12)) 4) =
      blockOf d.bytes ip.din (some k) := (blockOf_indirect hk hx).symm
  rw [bmapIndirect, wp_bind, wp_bread, wordAt_slice (by omega), hword]
  split
  · rfl
  · rfl

theorem cost_of_le (h : n ≤ 12) : cost n = n := by
  rw [cost, if_neg (by omega), Nat.add_zero]

theorem cost_of_lt (h : 12 < n) : cost n = n + 1 := by
  rw [cost, if_pos h]

/-- The next block of a file that has an indirect block. -/
theorem bmap_next (hi : live ip.inum)
    (hD : D ip.inum = ip.din) (hlt : 12 < nb ip.inum)
    (he : Entered live D (inUse live nb) d d' ip (nb ip.inum) b) :
    Bmapped live D nb d d' ip ip (nb ip.inum) b := by
  have hself : update D ip.inum ip.din = D := by rw [← hD, update_eq_self]
  refine ⟨rfl, rfl, fun _ => rfl, ?_, he.found, ?_, ?_, fun c => ?_, he.sections⟩
  · rw [hself]
    refine he.owns.congr fun u => ?_
    rw [inUse_succ hi]
    have : nb ip.inum ≠ 12 := by omega
    simp [this]
  · rw [hself]
    exact he.keeps
  · rw [Nat.max_eq_right (Nat.le_succ _), cost_of_lt hlt, cost_of_lt (by omega), ← he.free]
    omega
  · have : 12 ≤ nb ip.inum := by omega
    have hnone : blockOf d'.bytes ip.din none = ip.addr 12 := rfl
    simp only [he.logged, List.mem_cons, le_refl, true_and, this, hnone]
    grind

/-- The first block of a file behind the direct ones, when there is an indirect block for it. -/
theorem bmap_first (h : Owns d.bytes live D (inUse live nb)) (hi : live ip.inum)
    (hD : D ip.inum = ip.din) (hnb : nb ip.inum = 12) (h0 : ip.addr 12 = 0) {d₁ : Disk}
    (hlo : 59 ≤ x) (hf : Fresh d d₁ x) :
    wp handle (fun e => e = .outOfBlocks ∧ freeBlocks d.bytes + 12 < cost 13)
      (bmapIndirect (ip.setAddr 12 x) 12)
      (fun r d' => Bmapped live D nb d d' ip r.2 12 r.1) d₁ := by
  have hlen := h.len _ hi
  have hzero : (D ip.inum).addrs.getD 12 0 = 0 := by
    rw [hD]
    exact h0
  obtain ⟨howns, hkeeps⟩ := h.take hi hf hlo le_rfl hzero
  rw [hD] at howns hkeeps hlen
  change Owns d₁.bytes live (update D ip.inum (ip.setAddr 12 x).din) _ at howns
  change Keeps live _ D (update D ip.inum (ip.setAddr 12 x).din) _ _ at hkeeps
  have hinum : (ip.setAddr 12 x).inum = ip.inum := rfl
  have haddr : (ip.setAddr 12 x).addr 12 = x := getD_set_self (by omega)
  have hself : update D ip.inum (ip.setAddr 12 x).din ip.inum = (ip.setAddr 12 x).din :=
    update_self ..
  have hi' : live (ip.setAddr 12 x).inum := hi
  have hx : (ip.setAddr 12 x).addr 12 ≠ 0 := by omega
  have hno : blockOf d₁.bytes (ip.setAddr 12 x).din (some 12) = 0 := by
    by_contra hne
    have hheld := (howns.held _ hi (some 12) (by rintro k ⟨⟩; omega)).mp (by rwa [hself])
    rcases hheld with hu | hu
    · have := hu.2
      omega
    · cases hu
  rw [wp_bmapIndirect hx le_rfl (by decide), if_pos hno]
  refine ((bmap_entry howns hi' hself hx le_rfl (by decide) hno).weaken fun e he => ⟨he.1, ?_⟩).mono
    fun r d' hr => ?_
  · obtain ⟨hr2, he⟩ := hr
    rw [hr2]
    refine ⟨rfl, rfl, fun hb => absurd hb (by omega), ?_, he.found,
      hkeeps.trans he.keeps fun u hu => .inl hu, ?_, fun c => ?_, he.sections.trans hf.sections⟩
    · refine he.owns.congr fun u => ?_
      have hsucc := @inUse_succ ip.inum live nb hi u
      rw [hnb] at hsucc ⊢
      rw [hsucc]
      simp only [hinum, true_and, slotOf, Nat.lt_irrefl, if_false]
      grind
    · have h1 := hf.freeBlocks
      have h2 := he.free
      rw [hnb, cost_of_le le_rfl, cost_of_lt (by decide)]
      omega
    · have hnone : blockOf d'.bytes (ip.setAddr 12 x).din none = x := haddr
      simp only [he.logged, hf.logged, List.mem_cons, hnb, le_refl, true_and, haddr, hnone]
      grind
  · have := hf.freeBlocks
    rw [cost_of_lt (by decide), ← this, he.2]
    decide

/-- `bmap` of a piece that the file has. -/
theorem bmap_old (hne : blockOf d.bytes ip.din (some bn) ≠ 0) (hmax : bn < 140) :
    wp handle R (bmap ip bn)
      (fun r d' => r = (blockOf d.bytes ip.din (some bn), ip) ∧ d' = d) d := by
  by_cases hlt : bn < 12
  · have haddr : blockOf d.bytes ip.din (some bn) = ip.addr bn := blockOf_direct hlt
    rw [haddr] at hne ⊢
    rw [bmap, if_pos (show bn < NDIRECT from hlt), if_neg hne, wp_pure]
    exact ⟨rfl, rfl⟩
  · have hge : 12 ≤ bn := Nat.le_of_not_lt hlt
    have hx : ip.addr 12 ≠ 0 := fun h0 => hne (blockOf_of_indirect_eq_zero hge h0)
    rw [bmap_eq hge hmax, wp_bind, loadIndirect, if_neg (show ¬ip.addr NDIRECT = 0 from hx),
      wp_pure, wp_bmapIndirect hx hge hmax, if_neg hne]
    exact ⟨rfl, rfl⟩

/-- **`bmap`** gives the block of a piece that the file has, or of the next; then that is a new
block of zeroes. -/
theorem bmap_spec (h : Owns d.bytes live D (inUse live nb)) (hi : live ip.inum)
    (hD : D ip.inum = ip.din) (hbn : bn ≤ nb ip.inum) (hmax : bn < 140) :
    wp handle (fun e => e = .outOfBlocks ∧
        freeBlocks d.bytes + cost (nb ip.inum) < cost (max (nb ip.inum) (bn + 1)))
      (bmap ip bn) (fun r d' => Bmapped live D nb d d' ip r.2 bn r.1) d := by
  have hslot : IsSlot (some bn) := by
    rintro k ⟨⟩
    exact hmax
  have hheld : blockOf d.bytes ip.din (some bn) ≠ 0 ↔ bn < nb ip.inum := by
    rw [← hD, h.held _ hi _ hslot]
    exact ⟨fun hu => hu.2, fun hlt => ⟨hi, hlt⟩⟩
  by_cases hne : blockOf d.bytes ip.din (some bn) ≠ 0
  · refine (bmap_old hne hmax).mono fun r d' hr => ?_
    rw [hr.1, hr.2]
    exact bmap_hit h hD (hheld.mp hne)
  -- the piece behind the last
  obtain rfl : bn = nb ip.inum := by
    have := mt hheld.mpr hne
    omega
  rw [not_not] at hne
  have hind : ip.addr 12 ≠ 0 ↔ 12 < nb ip.inum := by
    have := h.held _ hi none fun _ hk => by cases hk
    rw [hD] at this
    exact this.trans ⟨fun hu => hu.2, fun hlt => ⟨hi, hlt⟩⟩
  rw [Nat.max_eq_right (Nat.le_succ _)]
  by_cases hlt : nb ip.inum < 12
  · have haddr : blockOf d.bytes ip.din (some (nb ip.inum)) = ip.addr (nb ip.inum) :=
      blockOf_direct hlt
    rw [haddr] at hne
    rw [bmap, if_pos (show nb ip.inum < NDIRECT from hlt), if_pos hne, wp_bind]
    refine ((balloc_spec fun b hb => h.meta_used hb).weaken fun e he => ⟨he.1, ?_⟩).mono
      fun b d' hb => bmap_direct h hi hD hlt hb.2 hb.1
    rw [cost_of_le hlt.le, cost_of_le hlt, he.2]
    omega
  have hge : 12 ≤ nb ip.inum := Nat.le_of_not_lt hlt
  rw [bmap_eq hge hmax, wp_bind, loadIndirect]
  by_cases hx : ip.addr 12 = 0
  · -- the indirect block is allocated too
    have hnb : nb ip.inum = 12 := by
      have : ¬12 < nb ip.inum := fun hb => hind.mpr hb hx
      omega
    rw [if_pos (show ip.addr NDIRECT = 0 from hx), wp_bind]
    refine ((balloc_spec fun b hb => h.meta_used hb).weaken fun e he => ⟨he.1, ?_⟩).mono
      fun x d₁ hf => ?_
    · rw [wp_pure, hnb, cost_of_le le_rfl]
      exact bmap_first h hi hD hnb hx hf.1 hf.2
    · rw [hnb, cost_of_le le_rfl, he.2]
      decide
  · have hlt' := hind.mp hx
    rw [if_neg (show ¬ip.addr NDIRECT = 0 from hx), wp_pure, wp_bmapIndirect hx hge hmax,
      if_pos hne]
    refine ((bmap_entry h hi hD hx hge hmax hne).weaken fun e he => ⟨he.1, ?_⟩).mono
      fun r d' hr => ?_
    · rw [hr.1]
      exact bmap_next hi hD hlt' hr.2
    · rw [cost_of_lt hlt', cost_of_lt (by omega), he.2]
      omega

end Xv6.Fs.Blocks
