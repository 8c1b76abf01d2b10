import Xv6.Fs.BlockMap
import Mathlib.Order.Interval.Finset.Nat

/-!
# A file is an array of bytes

`readi` and `writei` over a disk on which every block has one use.  The loops cut a range of bytes
at the ends of the blocks, and a block that `bmap` adds has zeroes; so the pieces together are one
store in the bytes of the file, and no byte of another file changes.

## Main definitions

* `dinodeAt`, `Allocated`, `Owned` — the inodes on the disk, and that each block has one use.
* `file` — the bytes of a file.
* `Wrote` — what the loop of `writei` does.

## Main results

* `readFrom_spec`, `writeFrom_spec` — the loops.
* `writei_spec` — `writei`, with the blocks that it passes to the log.
* `file_bytes` — a file is an array of bytes.
-/

namespace Xv6.Fs.Blocks

open Function Prog Image
open Mkfs (BSIZE NINODES IPB IBLOCK inoAddr)

variable {img img' : ℕ → UInt8} {d d' d₁ : Disk} {R : Fault → Prop} {b c i j k n o x off size : ℕ}
  {D : ℕ → Mkfs.Dinode} {live : ℕ → Prop} {nb : ℕ → ℕ} {P : Place → Prop} {s : Option ℕ}
  {bs src : List UInt8} {ip ip' ip₁ : Inode} {din : Mkfs.Dinode}

/-! ## Stores in the blocks of files -/

/-- A change that leaves every block with its use. -/
theorem Owns.of_same {D' : ℕ → Mkfs.Dinode} (h : Owns img live D P)
    (hlen : ∀ j, live j → (D' j).addrs.length = 13)
    (hsame : ∀ j s, live j → IsSlot s → blockOf img' (D' j) s = blockOf img (D j) s)
    (hbits : ∀ c < 1000, usedBit img' c = usedBit img c) : Owns img' live D' P where
  len := hlen
  alive := h.alive
  slot := h.slot
  held j hj s hs := by
    rw [hsame j s hj hs]
    exact h.held j hj s hs
  area u hu := by
    rw [hsame _ _ (h.alive u hu) (h.slot u hu)]
    exact h.area u hu
  inj u w hu hw heq := by
    rw [hsame _ _ (h.alive u hu) (h.slot u hu), hsame _ _ (h.alive w hw) (h.slot w hw)] at heq
    exact h.inj u w hu hw heq
  used b hb := by
    rw [hbits b hb, h.used b hb]
    refine or_congr_right (exists_congr fun u => and_congr_right fun hu => ?_)
    rw [hsame _ _ (h.alive u hu) (h.slot u hu)]

section Store

variable (h : Owns img live D P) (hP : P (i, some k)) (hfit : o + bs.length ≤ 512)
include h hP hfit

/-- Block numbers are not in blocks of bytes. -/
theorem Owns.blockOf_store (hj : live j) (hs : IsSlot s) :
    blockOf (splice img (512 * blockOf img (D i) (some k) + o) bs) (D j) s =
      blockOf img (D j) s := by
  refine blockOf_congr hs fun hx => sameBlock_splice (fun heq => ?_) hfit
  cases h.inj (j, none) (i, some k) (h.indirect hj hx) hP heq

theorem Owns.store : Owns (splice img (512 * blockOf img (D i) (some k) + o) bs) live D P :=
  h.of_same h.len (fun _ _ hj hs => h.blockOf_store hP hfit hj hs)
    fun _ hc => usedBit_splice (h.area _ hP).1 hc

/-- The bytes of all other pieces of files are left. -/
theorem Owns.contents_store_of_ne (hj : live j) (hx : x < 71680) (hne : (j, x / 512) ≠ (i, k)) :
    contents (splice img (512 * blockOf img (D i) (some k) + o) bs) (D j) x =
      contents img (D j) x := by
  have hslot : IsSlot (some (x / 512)) := by
    rintro m ⟨⟩
    omega
  rw [contents, contents, h.blockOf_store hP hfit hj hslot]
  split
  · rfl
  · rename_i hblock
    have hu := (h.held j hj _ hslot).mp hblock
    refine sameBlock_splice (fun heq => hne ?_) hfit _ (Nat.mod_lt x (by decide))
    cases h.inj (j, some (x / 512)) (i, some k) hu hP heq
    rfl

/-- **A store in a block of a file is a store in the file.** -/
theorem Owns.contents_store (hx : x < 71680) :
    contents (splice img (512 * blockOf img (D i) (some k) + o) bs) (D i) x =
      splice (contents img (D i)) (512 * k + o) bs x := by
  by_cases hxk : x / 512 = k
  · have hblock := (h.area _ hP).1
    have hne : blockOf img (D i) (some k) ≠ 0 := by
      dsimp only at hblock
      omega
    have hself : contents img (D i) x = img (512 * blockOf img (D i) (some k) + x % 512) := by
      rw [contents, hxk, if_neg hne]
    rw [contents, hxk, h.blockOf_store hP hfit (h.alive _ hP) (h.slot _ hP), if_neg hne]
    simp only [splice, hself]
    by_cases hin : o ≤ x % 512 ∧ x % 512 < o + bs.length
    · rw [if_pos (by omega), if_pos (by omega)]
      congr 1
      omega
    · rw [if_neg (by omega), if_neg (by omega)]
  · rw [h.contents_store_of_ne hP hfit (h.alive _ hP) hx (by simp [hxk]), splice,
      if_neg (by omega)]

end Store

/-! ## The loop of `readi` -/

/-- The loop of `readi`, where the file has all blocks: it gives the bytes and changes nothing. -/
theorem readFrom_spec (hfuel : n ≤ k) (hmax : off + n ≤ 71680)
    (hblocks : ∀ y, off ≤ y → y < off + n → blockOf d.bytes ip.din (some (y / 512)) ≠ 0) :
    wp handle R (readFrom k ip off n)
      (fun r d' => r = (slice (contents d.bytes ip.din) off n, ip) ∧ d' = d) d := by
  induction k generalizing off n with
  | zero =>
    obtain rfl : n = 0 := by omega
    exact ⟨rfl, rfl⟩
  | succ k ih =>
    rw [readFrom]
    split
    · rename_i h0
      rw [h0]
      exact ⟨rfl, rfl⟩
    · rename_i hn
      have hblock := hblocks off le_rfl (by omega)
      rw [wp_bind]
      refine (bmap_old hblock (by omega)).mono fun r d' hr => ?_
      rw [hr.1, hr.2, wp_bind, wp_bread, wp_bind]
      -- the piece up to the end of the block
      obtain ⟨m, hm⟩ : ∃ m, m = min n (BSIZE - off % BSIZE) := ⟨_, rfl⟩
      have hm' : m = min n (512 - off % 512) := hm
      rw [← hm]
      refine (ih (by omega) (by omega) fun y h1 h2 => hblocks y (by omega) (by omega)).mono
        fun q d'' hq => ?_
      rw [hq.1, hq.2, wp_pure]
      refine ⟨Prod.ext ?_ rfl, rfl⟩
      have hpiece :
          slice d.bytes (512 * blockOf d.bytes ip.din (some (off / 512)) + off % 512) m =
            slice (contents d.bytes ip.din) off m := by
        refine slice_ext fun y hy => ?_
        have hdiv : (off + y) / 512 = off / 512 := by omega
        rw [contents, hdiv, if_neg hblock]
        congr 1
        omega
      have hsplit : n = m + (n - m) := by omega
      dsimp only
      rw [show BSIZE = 512 from rfl, slice_slice (by omega), hpiece]
      conv_rhs => rw [hsplit, slice_append]

/-! ## The loop of `writei` -/

/-- The blocks that so many bytes need. -/
def blocksFor (size : ℕ) : ℕ := (size + 511) / 512

/-- What the loop of `writei` does. -/
structure Wrote (live : ℕ → Prop) (D : ℕ → Mkfs.Dinode) (nb : ℕ → ℕ) (d d' : Disk)
    (ip ip' : Inode) (off : ℕ) (src : List UInt8) : Prop where
  inum : ip'.inum = ip.inum
  fields : ip'.din = { ip.din with addrs := ip'.din.addrs }
  old : off + src.length ≤ 512 * nb ip.inum → ip' = ip
  owns : Owns d'.bytes live (update D ip.inum ip'.din)
    (inUse live (update nb ip.inum (max (nb ip.inum) (blocksFor (off + src.length)))))
  block : ∀ u, inUse live nb u →
    blockOf d'.bytes (update D ip.inum ip'.din u.1) u.2 = blockOf d.bytes (D u.1) u.2
  self : ∀ x < 71680, contents d'.bytes ip'.din x = splice (contents d.bytes ip.din) off src x
  others : ∀ j, live j → j ≠ ip.inum → ∀ x < 71680,
    contents d'.bytes (D j) x = contents d.bytes (D j) x
  below : ∀ a < 29696, d'.bytes a = d.bytes a
  free : freeBlocks d'.bytes + cost (max (nb ip.inum) (blocksFor (off + src.length))) =
    freeBlocks d.bytes + cost (nb ip.inum)
  logged : ∀ c, c ∈ d'.logged ↔ c ∈ d.logged ∨
    (∃ x, off ≤ x ∧ x < off + src.length ∧ c = blockOf d'.bytes ip'.din (some (x / 512))) ∨
    nb ip.inum < blocksFor (off + src.length) ∧ (c = 58 ∨
      12 < blocksFor (off + src.length) ∧ c = blockOf d'.bytes ip'.din none)
  sections : d'.sections = d.sections

theorem cost_mono {m : ℕ} (h : n ≤ m) : cost n ≤ cost m := by
  simp only [cost]
  split <;> split <;> omega

theorem inUse_mono {nb' : ℕ → ℕ} (h : ∀ i, nb i ≤ nb' i) {u : Place} (hu : inUse live nb u) :
    inUse live nb' u := by
  obtain ⟨i, _ | k⟩ := u
  · exact ⟨hu.1, lt_of_lt_of_le hu.2 (h i)⟩
  · exact ⟨hu.1, lt_of_lt_of_le hu.2 (h i)⟩

theorem inUse_congr {nb' : ℕ → ℕ} (h : ∀ i, live i → nb i = nb' i) (u : Place) :
    inUse live nb u ↔ inUse live nb' u := by
  obtain ⟨i, _ | k⟩ := u
  · exact and_congr_right fun hi => by rw [h i hi]
  · exact and_congr_right fun hi => by rw [h i hi]

theorem le_update_max (nb : ℕ → ℕ) (i n j : ℕ) :
    nb j ≤ update nb i (max (nb i) n) j := by
  by_cases hji : j = i
  · subst hji
    rw [update_self]
    exact Nat.le_max_left ..
  · rw [update_of_ne hji]

theorem Wrote.nil (h : Owns d.bytes live D (inUse live nb)) (hD : D ip.inum = ip.din)
    (hoff : off ≤ 512 * nb ip.inum) : Wrote live D nb d d ip ip off [] := by
  have hself : update D ip.inum ip.din = D := by rw [← hD, update_eq_self]
  have hle : blocksFor off ≤ nb ip.inum := by
    rw [blocksFor]
    omega
  have hnb : max (nb ip.inum) (blocksFor (off + ([] : List UInt8).length)) = nb ip.inum :=
    Nat.max_eq_left hle
  refine ⟨rfl, rfl, fun _ => rfl, ?_, ?_, ?_, fun _ _ _ _ _ => rfl, fun _ _ => rfl, ?_,
    fun c => ?_, rfl⟩
  · rw [hself, hnb, update_eq_self]
    exact h
  · intro u _
    rw [hself]
  · intro x _
    rw [splice_nil]
  · rw [hnb]
  · have hlt : ¬nb ip.inum < blocksFor off := Nat.not_lt.mpr hle
    simp only [List.length_nil, Nat.add_zero, hlt, false_and, or_false]
    constructor
    · exact .inl
    · rintro (hc | ⟨x, h1, h2, _⟩)
      · exact hc
      · omega

/-- One piece: the block is looked up, and changed in part. -/
theorem Bmapped.wrote {addr : ℕ} (h : Bmapped live D nb d d₁ ip ip' (off / 512) addr)
    (bs : List UInt8) (hi : live ip.inum) (hD : D ip.inum = ip.din) (hpos : 0 < bs.length)
    (hfit : off % 512 + bs.length ≤ 512) :
    Wrote live D nb d
      { d₁ with
        bytes := splice d₁.bytes (512 * addr + off % 512) bs
        logged := addr :: d₁.logged } ip ip' off bs := by
  have hend : blocksFor (off + bs.length) = off / 512 + 1 := by
    rw [blocksFor]
    omega
  have hDi : update D ip.inum ip'.din ip.inum = ip'.din := update_self ..
  have hP : inUse live (update nb ip.inum (max (nb ip.inum) (off / 512 + 1)))
      (ip.inum, some (off / 512)) := by
    refine ⟨hi, ?_⟩
    rw [update_self]
    omega
  have haddr : addr = blockOf d₁.bytes (update D ip.inum ip'.din ip.inum)
      (some (off / 512)) := by
    rw [hDi]
    exact h.found
  have hlow : 59 ≤ addr := by
    rw [haddr]
    exact (h.owns.area _ hP).1
  have hslots : ∀ u, inUse live nb u → live u.1 ∧ IsSlot u.2 := fun u hu =>
    have hu' := inUse_mono (le_update_max nb ip.inum _) hu
    ⟨h.owns.alive u hu', h.owns.slot u hu'⟩
  have hself := h.owns.blockOf_store hP hfit hi (h.owns.slot _ hP)
  rw [← haddr, hDi] at hself
  refine ⟨h.inum, h.fields, fun hle => h.old (by omega), ?_, ?_, ?_, ?_, ?_, ?_, fun c => ?_,
    h.sections⟩
  · rw [hend, haddr]
    exact h.owns.store hP hfit
  · intro u hu
    rw [haddr]
    exact (h.owns.blockOf_store hP hfit (hslots u hu).1 (hslots u hu).2).trans (h.keeps.block u hu)
  · intro x hx
    have hstore := h.owns.contents_store hP hfit hx
    have hkeep := h.keeps.contents ip.inum hi x hx
    rw [← haddr, Nat.div_add_mod] at hstore
    rw [hDi] at hstore hkeep
    rw [hD] at hkeep
    exact hstore.trans (splice_apply_congr hkeep)
  · intro j hj hji x hx
    have hstore := h.owns.contents_store_of_ne hP hfit hj hx fun heq => hji (congrArg Prod.fst heq)
    have hkeep := h.keeps.contents j hj x hx
    rw [← haddr] at hstore
    rw [update_of_ne hji] at hstore hkeep
    exact hstore.trans hkeep
  · intro a ha
    exact (splice_of_lt (by omega)).trans (h.keeps.below a ha)
  · rw [hend, ← h.free, freeBlocks_congr fun c hc => usedBit_splice hlow hc]
  · have hrange : (∃ x, off ≤ x ∧ x < off + bs.length ∧
        c = blockOf (splice d₁.bytes (512 * addr + off % 512) bs) ip'.din (some (x / 512))) ↔
        c = addr := by
      constructor
      · rintro ⟨x, h1, h2, hc⟩
        have hx : x / 512 = off / 512 := by omega
        rw [hc, hx, hself, h.found]
      · rintro rfl
        exact ⟨off, le_rfl, by omega, by rw [hself, h.found]⟩
    rw [hrange, hend, List.mem_cons, h.logged, Nat.lt_succ_iff, Nat.lt_succ_iff]
    have hnone : blockOf (splice d₁.bytes (512 * addr + off % 512) bs) ip'.din none =
      blockOf d₁.bytes ip'.din none := rfl
    rw [hnone]
    grind

/-- **Pieces one behind the other.** -/
theorem Wrote.trans {d₂ : Disk} {ip₂ : Inode} {cs : List UInt8} (hi : live ip.inum)
    (h : Wrote live D nb d d₁ ip ip₁ off bs)
    (h' : Wrote live (update D ip.inum ip₁.din)
      (update nb ip.inum (max (nb ip.inum) (blocksFor (off + bs.length)))) d₁ d₂ ip₁ ip₂
      (off + bs.length) cs) : Wrote live D nb d d₂ ip ip₂ off (bs ++ cs) := by
  obtain ⟨hinum, hfields, hold, howns, hblock, hself, hothers, hbelow, hfree, hlogged, hsec⟩ := h'
  rw [h.inum] at hinum hold howns hblock hothers hfree hlogged
  rw [update_self] at hold howns hfree hlogged
  rw [update_idem] at howns hblock
  have hlen : off + (bs ++ cs).length = off + bs.length + cs.length := by
    rw [List.length_append, Nat.add_assoc]
  have hle : blocksFor (off + bs.length) ≤ blocksFor (off + bs.length + cs.length) := by
    rw [blocksFor, blocksFor]
    omega
  have hmax : max (max (nb ip.inum) (blocksFor (off + bs.length)))
      (blocksFor (off + bs.length + cs.length)) =
      max (nb ip.inum) (blocksFor (off + bs.length + cs.length)) := by
    omega
  rw [hmax] at howns hfree
  rw [update_idem] at howns
  -- the blocks of the first part are still there
  have hsame : ∀ x < off + bs.length,
      blockOf d₂.bytes ip₂.din (some (x / 512)) = blockOf d₁.bytes ip₁.din (some (x / 512)) := by
    intro x hx
    have := hblock (ip.inum, some (x / 512)) ⟨hi, by rw [update_self, blocksFor]; omega⟩
    simpa only [update_self] using this
  have hind : 12 < blocksFor (off + bs.length) →
      blockOf d₂.bytes ip₂.din none = blockOf d₁.bytes ip₁.din none := by
    intro hlt
    have := hblock (ip.inum, none) ⟨hi, by rw [update_self]; omega⟩
    simpa only [update_self] using this
  refine ⟨hinum, ?_, fun hend => ?_, ?_, fun u hu => ?_, fun x hx => ?_, fun j hj hji x hx => ?_,
    fun a ha => (hbelow a ha).trans (h.below a ha), ?_, fun c => ?_, hsec.trans h.sections⟩
  · rw [hfields, h.fields]
  · rw [hlen] at hend
    rw [hold (by omega), h.old (by omega)]
  · rw [hlen]
    exact howns
  · exact (hblock u (inUse_mono (le_update_max nb ip.inum _) hu)).trans (h.block u hu)
  · rw [hself x hx, splice_append]
    exact splice_apply_congr (h.self x hx)
  · have := hothers j hj hji x hx
    rw [update_of_ne hji] at this
    exact this.trans (h.others j hj hji x hx)
  · rw [hlen, hfree, h.free]
  · have hrange : (∃ x, off ≤ x ∧ x < off + bs.length + cs.length ∧
        c = blockOf d₂.bytes ip₂.din (some (x / 512))) ↔
        (∃ x, off ≤ x ∧ x < off + bs.length ∧ c = blockOf d₁.bytes ip₁.din (some (x / 512))) ∨
        ∃ x, off + bs.length ≤ x ∧ x < off + bs.length + cs.length ∧
          c = blockOf d₂.bytes ip₂.din (some (x / 512)) := by
      constructor
      · rintro ⟨x, h1, h2, hc⟩
        by_cases hx : x < off + bs.length
        · exact .inl ⟨x, h1, hx, hc.trans (hsame x hx)⟩
        · exact .inr ⟨x, by omega, h2, hc⟩
      · rintro (⟨x, h1, h2, hc⟩ | ⟨x, h1, h2, hc⟩)
        · exact ⟨x, h1, by omega, hc.trans (hsame x h2).symm⟩
        · exact ⟨x, by omega, h2, hc⟩
    have halloc : nb ip.inum < blocksFor (off + bs.length + cs.length) ∧ (c = 58 ∨
          12 < blocksFor (off + bs.length + cs.length) ∧ c = blockOf d₂.bytes ip₂.din none) ↔
        (nb ip.inum < blocksFor (off + bs.length) ∧ (c = 58 ∨
          12 < blocksFor (off + bs.length) ∧ c = blockOf d₁.bytes ip₁.din none)) ∨
        max (nb ip.inum) (blocksFor (off + bs.length)) < blocksFor (off + bs.length + cs.length) ∧
          (c = 58 ∨ 12 < blocksFor (off + bs.length + cs.length) ∧
            c = blockOf d₂.bytes ip₂.din none) := by
      rw [Nat.max_lt]
      grind
    rw [hlen, hlogged, h.logged, hrange, halloc, or_assoc, or_or_or_comm]

/-- **The loop of `writei`.**  It stops with a panic only when there are not enough blocks. -/
theorem writeFrom_spec (hfuel : src.length ≤ k) (h : Owns d.bytes live D (inUse live nb))
    (hi : live ip.inum) (hD : D ip.inum = ip.din) (hoff : off ≤ 512 * nb ip.inum)
    (hmax : off + src.length ≤ 71680) :
    wp handle (fun e => e = .outOfBlocks ∧ freeBlocks d.bytes + cost (nb ip.inum) <
        cost (max (nb ip.inum) (blocksFor (off + src.length))))
      (writeFrom k ip off src)
      (fun r d' => r.1 = off + src.length ∧ Wrote live D nb d d' ip r.2 off src) d := by
  induction k generalizing d D nb ip off src with
  | zero =>
    obtain rfl : src = [] := List.length_eq_zero_iff.mp (by omega)
    exact ⟨rfl, .nil h hD hoff⟩
  | succ k ih =>
    rw [writeFrom]
    split
    · rename_i h0
      subst h0
      exact ⟨rfl, .nil h hD hoff⟩
    · rename_i hne
      have hpos : 0 < src.length := List.length_pos_iff.mpr hne
      obtain ⟨m, hm⟩ : ∃ m, m = min src.length (BSIZE - off % BSIZE) := ⟨_, rfl⟩
      have hm' : m = min src.length (512 - off % 512) := hm
      have htake : (src.take m).length = m := List.length_take_of_le (by omega)
      have hdrop : (src.drop m).length = src.length - m := List.length_drop
      have hend : off + m + (src.length - m) = off + src.length := by omega
      have hfirst : max (nb ip.inum) (off / 512 + 1) =
          max (nb ip.inum) (blocksFor (off + m)) := by
        rw [blocksFor]
        omega
      have hle : max (nb ip.inum) (blocksFor (off + m)) ≤
          max (nb ip.inum) (blocksFor (off + src.length)) := by
        rw [blocksFor, blocksFor]
        omega
      rw [wp_bind]
      refine ((bmap_spec h hi hD (show off / 512 ≤ nb ip.inum by omega)
        (show off / 512 < 140 by omega)).weaken fun e he => ⟨he.1, ?_⟩).mono
        fun r d₁ hr => ?_
      · rw [wp_bind, wp_bread, wp_bind, wp_logWrite]
        have hone := hr.wrote (src.take m) hi hD (by omega) (by omega)
        rw [← hm, show BSIZE = 512 from rfl, splice_patch (by omega)]
        have howns := hone.owns
        rw [htake, ← hr.inum] at howns
        have hnb : update nb r.2.inum (max (nb r.2.inum) (blocksFor (off + m)))
            r.2.inum = max (nb r.2.inum) (blocksFor (off + m)) := update_self ..
        have hrest := ih (by omega) howns (by rwa [hr.inum]) (update_self ..)
          (show off + m ≤ _ by rw [hnb, blocksFor]; omega)
          (show _ + (src.drop m).length ≤ _ by omega)
        rw [hnb, hdrop, hend, hr.inum] at hrest
        refine (hrest.weaken fun e he => ⟨he.1, ?_⟩).mono fun q d' hq => ?_
        · refine ⟨hq.1, ?_⟩
          have hboth : Wrote live D nb d d' ip q.2 off (src.take m ++ src.drop m) :=
            hone.trans hi (by rw [htake]; exact hq.2)
          rwa [List.take_append_drop] at hboth
        · have hfree := hone.free
          rw [htake] at hfree
          have := he.2
          rw [hfree] at this
          refine lt_of_lt_of_le this (cost_mono ?_)
          omega
      · rw [hfirst] at he
        exact lt_of_lt_of_le he.2 (cost_mono hle)

/-! ## Inodes on the disk -/

/-- Inode `i` on the disk. -/
def dinodeAt (img : ℕ → UInt8) (i : ℕ) : Mkfs.Dinode := .ofBytes (slice img (inoAddr i) 64)

/-- The inodes that are allocated. -/
def Allocated (img : ℕ → UInt8) (i : ℕ) : Prop :=
  0 < i ∧ i < NINODES ∧ (dinodeAt img i).type ≠ 0

/-- **Every block has one use.**  A file has the blocks that its size asks for, and the block of
their numbers when they are more than twelve; all these are different and in the data area, and
the bitmap marks them and the blocks before the data area, and no others. -/
def Owned (img : ℕ → UInt8) : Prop :=
  Owns img (Allocated img) (dinodeAt img)
    (inUse (Allocated img) fun i => blocksFor (dinodeAt img i).size)

/-- The bytes of file `i`. -/
def file (img : ℕ → UInt8) (i : ℕ) : List UInt8 :=
  slice (contents img (dinodeAt img i)) 0 (dinodeAt img i).size

theorem length_file (img : ℕ → UInt8) (i : ℕ) : (file img i).length = (dinodeAt img i).size :=
  length_slice ..

theorem Owned.size_le (h : Owned img) (hi : Allocated img i) : (dinodeAt img i).size ≤ 71680 := by
  by_contra hgt
  have hin : inUse (Allocated img) (fun i => blocksFor (dinodeAt img i).size) (i, some 140) :=
    ⟨hi, show 140 < blocksFor _ by rw [blocksFor]; omega⟩
  exact absurd (h.slot _ hin 140 rfl) (Nat.lt_irrefl _)

theorem dinodeAt_congr (h : ∀ a < 29696, img' a = img a) (hi : i < NINODES) :
    dinodeAt img' i = dinodeAt img i := by
  have hi' : i < 200 := hi
  refine congrArg Mkfs.Dinode.ofBytes (slice_congr fun x _ hx => h x ?_)
  rw [inoAddr] at hx
  omega

theorem dinodeAt_splice_self (hlen : bs.length = 64) :
    dinodeAt (splice img (inoAddr i) bs) i = .ofBytes bs := by
  have := slice_splice_same img (inoAddr i) bs
  rw [hlen] at this
  rw [dinodeAt, this]

theorem dinodeAt_splice_of_ne (hlen : bs.length = 64) (hne : j ≠ i) :
    dinodeAt (splice img (inoAddr i) bs) j = dinodeAt img j := by
  refine congrArg Mkfs.Dinode.ofBytes (slice_splice_of_disjoint ?_)
  simp only [inoAddr]
  omega

theorem wp_iupdate {Q : Unit → Disk → Prop} (hlen : ip.din.addrs.length = 13) :
    wp handle R (iupdate ip) Q d ↔
      Q () { d with
        bytes := splice d.bytes (inoAddr ip.inum) ip.din.bytes
        logged := IBLOCK ip.inum :: d.logged } := by
  have haddr : 512 * IBLOCK ip.inum + ip.inum % IPB * 64 = inoAddr ip.inum := by
    rw [show IBLOCK ip.inum = ip.inum / 8 + 32 from rfl, show IPB = 8 from rfl, inoAddr]
    omega
  have hfit : ip.inum % IPB * 64 + ip.din.bytes.length ≤ 512 := by
    rw [Mkfs.Dinode.length_bytes hlen, show IPB = 8 from rfl]
    omega
  rw [iupdate, wp_bind, wp_bread, wp_logWrite, splice_patch hfit, haddr]

section High

variable (h : Owns img live D P) (himg : ∀ a, 29696 ≤ a → img' a = img a) (hi : live i)
  (haddrs : din.addrs = (D i).addrs)
include h himg hi haddrs

/-- The blocks of a file depend on the numbers in the inode, and not on what is before the
bitmap. -/
theorem Owns.blockOf_high (hs : IsSlot s) : blockOf img' din s = blockOf img (D i) s := by
  have haddr : blockOf img' din s = blockOf img' (D i) s := by
    cases s <;> simp only [blockOf, haddrs]
  rw [haddr]
  refine blockOf_congr hs fun hx o _ => himg _ ?_
  have := (h.area _ (h.indirect hi hx)).1
  change 59 ≤ (D i).addrs.getD 12 0 at this
  omega

theorem Owns.contents_high (hx : x < 71680) : contents img' din x = contents img (D i) x := by
  have hslot : IsSlot (some (x / 512)) := by
    rintro m ⟨⟩
    omega
  rw [contents, contents, h.blockOf_high himg hi haddrs hslot]
  split
  · rfl
  · rename_i hne
    have := (h.area _ ((h.held i hi _ hslot).mp hne)).1
    dsimp only at this
    exact himg _ (by omega)

end High

theorem blocksFor_max (m n : ℕ) : blocksFor (max m n) = max (blocksFor m) (blocksFor n) := by
  simp only [blocksFor]
  omega

/-- What `writei` does. -/
structure Written (d d' : Disk) (ip ip' : Inode) (off : ℕ) (src : List UInt8) : Prop where
  owned : Owned d'.bytes
  inum : ip'.inum = ip.inum
  incore : dinodeAt d'.bytes ip.inum = ip'.din
  fields : ip'.din =
    { ip.din with size := max ip.din.size (off + src.length), addrs := ip'.din.addrs }
  self : file d'.bytes ip.inum = patch (file d.bytes ip.inum) off src
  inodes : ∀ j < NINODES, j ≠ ip.inum → dinodeAt d'.bytes j = dinodeAt d.bytes j
  others : ∀ j, Allocated d.bytes j → j ≠ ip.inum → file d'.bytes j = file d.bytes j
  free : freeBlocks d'.bytes + cost (blocksFor (max ip.din.size (off + src.length))) =
    freeBlocks d.bytes + cost (blocksFor ip.din.size)

/-- The blocks that `writei` passes to `log_write`: those of the bytes; the bitmap, and the
indirect block if there is one in the end, when the file has more blocks; and the inode's, when it
has become longer. -/
def Logged (d d' : Disk) (ip ip' : Inode) (off : ℕ) (src : List UInt8) (c : ℕ) : Prop :=
  c ∈ d.logged ∨
  (∃ x, off ≤ x ∧ x < off + src.length ∧ c = blockOf d'.bytes ip'.din (some (x / 512))) ∨
  (blocksFor ip.din.size < blocksFor (off + src.length) ∧ (c = 58 ∨
    12 < blocksFor (off + src.length) ∧ c = blockOf d'.bytes ip'.din none)) ∨
  ip.din.size < off + src.length ∧ c = IBLOCK ip.inum

/-- The inode is written when the file has become longer. -/
theorem Wrote.written (h : Wrote (Allocated d.bytes) (dinodeAt d.bytes)
      (fun i => blocksFor (dinodeAt d.bytes i).size) d d₁ ip ip₁ off src)
    (hown : Owned d.bytes) (hi : Allocated d.bytes ip.inum)
    (hip : dinodeAt d.bytes ip.inum = ip.din) (hoff : off ≤ ip.din.size)
    (hend : off + src.length ≤ 71680) (himg : ∀ a, 29696 ≤ a → d'.bytes a = d₁.bytes a)
    (hinum : ip'.inum = ip.inum)
    (hdin : ip'.din = { ip₁.din with size := max ip.din.size (off + src.length) })
    (hself : dinodeAt d'.bytes ip.inum = ip'.din)
    (hinodes : ∀ j < NINODES, j ≠ ip.inum → dinodeAt d'.bytes j = dinodeAt d.bytes j) :
    Written d d' ip ip' off src := by
  have hsize : ip.din.size ≤ 71680 := by
    rw [← hip]
    exact hown.size_le hi
  have hfields : ip'.din =
      { ip.din with size := max ip.din.size (off + src.length), addrs := ip'.din.addrs } := by
    rw [hdin, h.fields]
  have halloc : Allocated d'.bytes = Allocated d.bytes := by
    funext j
    by_cases hj : j < NINODES
    · by_cases hji : j = ip.inum
      · rw [Allocated, Allocated, hji, hself, hip, hfields]
      · rw [Allocated, Allocated, hinodes j hj hji]
    · simp only [Allocated, hj, false_and, and_false]
  have haddrs : ∀ j, Allocated d.bytes j → (dinodeAt d'.bytes j).addrs =
      (update (dinodeAt d.bytes) ip.inum ip₁.din j).addrs := by
    intro j hj
    by_cases hji : j = ip.inum
    · rw [hji, hself, hdin, update_self]
    · rw [hinodes j hj.2.1 hji, update_of_ne hji]
  have hlen : ∀ j, Allocated d.bytes j → (dinodeAt d'.bytes j).addrs.length = 13 := by
    intro j hj
    rw [haddrs j hj]
    exact h.owns.len j hj
  have hcontents : ∀ j, Allocated d.bytes j → ∀ x < 71680,
      contents d'.bytes (dinodeAt d'.bytes j) x =
      contents d₁.bytes (update (dinodeAt d.bytes) ip.inum ip₁.din j) x :=
    fun j hj x hx => h.owns.contents_high himg hj (haddrs j hj) hx
  have hbits : ∀ c < 1000, usedBit d'.bytes c = usedBit d₁.bytes c := by
    intro c _
    rw [usedBit, himg _ (by omega), usedBit]
  refine ⟨?_, hinum, hself, hfields, ?_, hinodes, ?_, ?_⟩
  · have howns := h.owns.of_same hlen
      (fun j s hj hs => h.owns.blockOf_high himg hj (haddrs j hj) hs) hbits
    rw [Owned, halloc]
    have hnb : ∀ j, Allocated d.bytes j → blocksFor (dinodeAt d'.bytes j).size =
        update (fun i => blocksFor (dinodeAt d.bytes i).size) ip.inum
          (max (blocksFor (dinodeAt d.bytes ip.inum).size) (blocksFor (off + src.length))) j := by
      intro j hj
      by_cases hji : j = ip.inum
      · rw [hji, hself, hdin, update_self, hip, blocksFor_max]
      · rw [hinodes j hj.2.1 hji, update_of_ne hji]
    exact howns.congr (inUse_congr hnb)
  · have hsize' : (dinodeAt d'.bytes ip.inum).size = max ip.din.size (off + src.length) := by
      rw [hself, hdin]
    rw [file, file, hsize', hip, ← slice_splice_grow hoff, Nat.zero_add]
    refine slice_congr fun x _ hx => ?_
    rw [hcontents _ hi x (by omega), update_self]
    exact h.self x (by omega)
  · intro j hj hji
    have hle := hown.size_le hj
    rw [file, file, hinodes j hj.2.1 hji]
    refine slice_congr fun x _ hx => ?_
    have := hcontents j hj x (by omega)
    rw [hinodes j hj.2.1 hji, update_of_ne hji] at this
    exact this.trans (h.others j hj hji x (by omega))
  · have hfree := h.free
    rw [hip, ← blocksFor_max] at hfree
    rw [freeBlocks_congr hbits, hfree]

/-- Block numbers of an inode are small. -/
theorem Owns.addrs_lt (h : Owns img live D P) (hi : live i) : ∀ a ∈ (D i).addrs, a < 1000 := by
  intro a ha
  obtain ⟨k, hk, rfl⟩ := List.getElem_of_mem ha
  have hlen := h.len i hi
  have hblock : blockOf img (D i) (slotOf k) = (D i).addrs[k] := by
    rw [blockOf_slotOf (by omega), List.getD_eq_getElem _ _ hk]
  rw [← hblock]
  by_cases h0 : blockOf img (D i) (slotOf k) = 0
  · omega
  · exact (h.area _ ((h.held i hi _ (isSlot_slotOf k)).mp h0)).2

section Ends

variable (h : Wrote (Allocated d.bytes) (dinodeAt d.bytes)
    (fun i => blocksFor (dinodeAt d.bytes i).size) d d₁ ip ip₁ off src)
  (hown : Owned d.bytes) (hi : Allocated d.bytes ip.inum)
  (hip : dinodeAt d.bytes ip.inum = ip.din) (hoff : off ≤ ip.din.size)
  (hend : off + src.length ≤ 71680)
include h hown hi hip hoff hend

/-- The end of `writei` when the file has become longer: the inode is written. -/
theorem Wrote.longer (hgrow : ip.din.size < off + src.length) {ip₂ : Inode}
    (hinum : ip₂.inum = ip.inum) (hdin : ip₂.din = { ip₁.din with size := off + src.length })
    (hd' : d' = { d₁ with
      bytes := splice d₁.bytes (inoAddr ip₂.inum) ip₂.din.bytes
      logged := IBLOCK ip₂.inum :: d₁.logged }) :
    Written d d' ip ip₂ off src ∧ ∀ c, c ∈ d'.logged ↔ Logged d d' ip ip₂ off src c := by
  have haddrs := h.owns.addrs_lt hi
  have hlen := h.owns.len _ hi
  rw [update_self] at haddrs hlen
  have hbytes : ip₂.din.bytes.length = 64 := by
    rw [hdin]
    exact Mkfs.Dinode.length_bytes hlen
  have himg : ∀ a, 29696 ≤ a → d'.bytes a = d₁.bytes a := by
    intro a ha
    have : ip.inum < 200 := hi.2.1
    rw [hd']
    refine splice_of_le ?_
    rw [hbytes, hinum, inoAddr]
    omega
  constructor
  · refine h.written hown hi hip hoff hend himg hinum ?_ ?_ fun j hj hne => ?_
    · rw [hdin, Nat.max_eq_right hgrow.le]
    · have hfields := h.fields
      rw [← hip, dinodeAt] at hfields
      rw [hd', hinum, dinodeAt_splice_self hbytes, hdin, hfields]
      exact Mkfs.ofBytes_bytes_with _ (by omega) fun a ha => by have := haddrs a ha; omega
    · rw [hd', hinum, dinodeAt_splice_of_ne hbytes hne]
      exact dinodeAt_congr h.below hj
  · intro c
    have hblock : ∀ s, IsSlot s → blockOf d'.bytes ip₂.din s = blockOf d₁.bytes ip₁.din s := by
      intro s hs
      have := h.owns.blockOf_high himg hi
        (show ip₂.din.addrs = (update (dinodeAt d.bytes) ip.inum ip₁.din ip.inum).addrs by
          rw [hdin, update_self]) hs
      rwa [update_self] at this
    have hrange : (∃ x, off ≤ x ∧ x < off + src.length ∧
        c = blockOf d'.bytes ip₂.din (some (x / 512))) ↔ ∃ x, off ≤ x ∧ x < off + src.length ∧
        c = blockOf d₁.bytes ip₁.din (some (x / 512)) := by
      refine exists_congr fun x => and_congr_right fun _ => and_congr_right fun hx => ?_
      rw [hblock _ (by rintro m ⟨⟩; omega)]
    have hmem : c ∈ d'.logged ↔ c = IBLOCK ip.inum ∨ c ∈ d₁.logged := by
      rw [hd', ← hinum]
      exact List.mem_cons
    rw [hmem, h.logged, Logged, hrange, hblock none (by rintro m ⟨⟩), hip]
    simp only [hgrow, true_and]
    grind

/-- The end of `writei` when the file is as long as it was. -/
theorem Wrote.same (hle : off + src.length ≤ ip.din.size) :
    ip₁ = ip ∧ Written d d₁ ip ip off src ∧ ∀ c, c ∈ d₁.logged ↔ Logged d d₁ ip ip off src c := by
  obtain rfl : ip₁ = ip := h.old (by rw [hip, blocksFor]; omega)
  refine ⟨rfl, h.written hown hi hip hoff hend (fun _ _ => rfl) rfl ?_ ?_ ?_, fun c => ?_⟩
  · rw [Nat.max_eq_left hle]
  · rw [dinodeAt_congr h.below hi.2.1, hip]
  · intro j hj _
    exact dinodeAt_congr h.below hj
  · rw [h.logged, Logged, hip]
    simp only [Nat.not_lt.mpr hle, false_and, or_false]

end Ends

/-- **`writei`**, where the range is allowed. -/
theorem writei_spec (devsw : ℕ → Devsw) (hown : Owned d.bytes) (hi : Allocated d.bytes ip.inum)
    (hip : dinodeAt d.bytes ip.inum = ip.din) (hdev : ip.din.type ≠ T_DEV)
    (hoff : off ≤ ip.din.size) (hend : off + src.length ≤ 71680) :
    wp handle (fun e => e = .outOfBlocks ∧ freeBlocks d.bytes + cost (blocksFor ip.din.size) <
        cost (blocksFor (max ip.din.size (off + src.length))))
      (writei devsw ip src off)
      (fun r d' => r.1 = some src.length ∧ Written d d' ip r.2 off src ∧
        (∀ c, c ∈ d'.logged ↔ Logged d d' ip r.2 off src c) ∧ d'.sections = d.sections) d := by
  have hblocks : off ≤ 512 * blocksFor (dinodeAt d.bytes ip.inum).size := by
    rw [hip, blocksFor]
    omega
  have hword : (off + src.length) % WORD = off + src.length :=
    Nat.mod_eq_of_lt (by rw [WORD]; omega)
  have hmax : MAXBYTES = 71680 := rfl
  rw [writei, if_neg hdev, if_neg (by omega), if_neg (by omega), wp_bind]
  refine ((writeFrom_spec le_rfl hown hi hip hblocks hend).weaken fun e he => ⟨he.1, ?_⟩).mono
    fun r d₁ hr => ?_
  · obtain ⟨off', ip₁⟩ := r
    obtain ⟨rfl, hw⟩ := hr
    dsimp only at hw ⊢
    have hsize : ip₁.din.size = ip.din.size := by rw [hw.fields]
    rw [hsize]
    split
    · rename_i hgrow
      generalize hip₂ : (⟨ip₁.inum, ⟨ip₁.din.type, ip₁.din.major, ip₁.din.minor, ip₁.din.nlink,
        off + src.length, ip₁.din.addrs⟩⟩ : Inode) = ip₂
      have hinum : ip₂.inum = ip.inum := by rw [← hip₂, hw.inum]
      have hdin : ip₂.din = { ip₁.din with size := off + src.length } := by rw [← hip₂]
      have hlen := hw.owns.len _ hi
      rw [update_self] at hlen
      rw [wp_bind, wp_iupdate (by rw [hdin, hlen]), wp_pure]
      have := hw.longer hown hi hip hoff hend hgrow.2 hinum hdin rfl
      exact ⟨rfl, this.1, this.2, hw.sections⟩
    · rename_i hsame
      have hle : off + src.length ≤ ip.din.size := by
        by_contra hgt
        exact hsame ⟨by omega, by omega⟩
      obtain ⟨rfl, hwritten, hlogged⟩ := hw.same hown hi hip hoff hend hle
      exact ⟨rfl, hwritten, hlogged, hw.sections⟩
  · have := he.2
    rwa [hip, ← blocksFor_max] at this

/-! ## Files -/

/-- The ranges that `writei` refuses. -/
def Refused (size off n : ℕ) : Prop := size < off ∨ WORD ≤ off + n ∨ MAXBYTES < off + n

instance : Decidable (Refused size off n) := inferInstanceAs (Decidable (_ ∨ _ ∨ _))

/-- The sum of two `uint` values is less than the first when it wraps. -/
theorem mod_lt_iff (hoff : off < WORD) (hn : n < WORD) :
    (off + n) % WORD < off ↔ WORD ≤ off + n := by
  simp only [WORD] at *
  omega

/-- `writei`, where the range is refused. -/
theorem writei_refused (devsw : ℕ → Devsw) (hdev : ip.din.type ≠ T_DEV) (hoff : off < WORD)
    (hsrc : src.length < WORD) (hbad : Refused ip.din.size off src.length) :
    wp handle R (writei devsw ip src off) (fun r d' => r = (none, ip) ∧ d' = d) d := by
  have hwrap := mod_lt_iff hoff hsrc
  rw [Refused] at hbad
  rw [writei, if_neg hdev]
  by_cases hearly : ip.din.size < off ∨ (off + src.length) % WORD < off
  · rw [if_pos hearly]
    exact ⟨rfl, rfl⟩
  · rw [if_neg hearly, if_pos (by omega)]
    exact ⟨rfl, rfl⟩

theorem readi_spec (devsw : ℕ → Devsw) (hown : Owned d.bytes) (hi : Allocated d.bytes ip.inum)
    (hip : dinodeAt d.bytes ip.inum = ip.din) (hdev : ip.din.type ≠ T_DEV) (hoff : off < WORD)
    (hn : n < WORD) :
    wp handle R (readi devsw ip off n)
      (fun r d' => r = (if ip.din.size < off ∨ WORD ≤ off + n then none
        else some (((file d.bytes ip.inum).drop off).take n), ip) ∧ d' = d) d := by
  have hwrap := mod_lt_iff hoff hn
  rw [readi, if_neg hdev]
  by_cases hbad : ip.din.size < off ∨ WORD ≤ off + n
  · rw [if_pos (by omega), if_pos hbad]
    exact ⟨rfl, rfl⟩
  · rw [if_neg (by omega), if_neg hbad]
    have hsize := hown.size_le hi
    rw [hip] at hsize
    obtain ⟨m, hm⟩ : ∃ m, m = if ip.din.size < off + n then ip.din.size - off else n := ⟨_, rfl⟩
    have hle : off + m ≤ ip.din.size := by
      rw [hm]
      split <;> omega
    have hblocks : ∀ y, off ≤ y → y < off + m → blockOf d.bytes ip.din (some (y / 512)) ≠ 0 := by
      intro y _ hy
      have hslot : IsSlot (some (y / 512)) := by
        rintro k ⟨⟩
        omega
      rw [← hip, hown.held _ hi _ hslot]
      refine ⟨hi, show y / 512 < blocksFor _ from ?_⟩
      rw [hip, blocksFor]
      omega
    rw [← hm, wp_bind]
    refine (readFrom_spec le_rfl (by omega) hblocks).mono fun r d' hr => ?_
    rw [hr.1, hr.2, wp_pure]
    refine ⟨Prod.ext (congrArg some ?_) rfl, rfl⟩
    rw [file, hip, drop_slice (by omega), Nat.zero_add]
    by_cases hlt : ip.din.size < off + n
    · rw [hm, if_pos hlt, List.take_of_length_le (by rw [length_slice]; omega)]
    · rw [hm, if_neg hlt, take_slice (by omega)]

/-- **A file is an array of bytes.**  `writei` refuses a range that begins behind the end of the
file, wraps around or is too long, and changes nothing then; otherwise it stores the bytes in the
file, and stops with a panic only when there are not enough blocks.  `readi` gives the bytes of
the range that the file has. -/
theorem file_bytes (devsw : ℕ → Devsw) (hown : Owned d.bytes) (hi : Allocated d.bytes ip.inum)
    (hip : dinodeAt d.bytes ip.inum = ip.din) (hdev : ip.din.type ≠ T_DEV) (hoff : off < WORD)
    (hsrc : src.length < WORD) (hn : n < WORD) :
    (Refused ip.din.size off src.length →
      run handle (writei devsw ip src off) d = .ok ((none, ip), d)) ∧
    (¬Refused ip.din.size off src.length →
      wp handle (fun e => e = .outOfBlocks ∧ freeBlocks d.bytes + cost (blocksFor ip.din.size) <
          cost (blocksFor (max ip.din.size (off + src.length))))
        (writei devsw ip src off)
        (fun r d' => r.1 = some src.length ∧ Written d d' ip r.2 off src) d) ∧
    run handle (readi devsw ip off n) d =
      .ok ((if ip.din.size < off ∨ WORD ≤ off + n then none
        else some (((file d.bytes ip.inum).drop off).take n), ip), d) := by
  refine ⟨fun hbad => (writei_refused devsw hdev hoff hsrc hbad).run_eq, fun hgood => ?_,
    (readi_spec devsw hown hi hip hdev hoff hn).run_eq⟩
  · have hmax : MAXBYTES = 71680 := rfl
    rw [Refused] at hgood
    exact (writei_spec devsw hown hi hip hdev (by omega) (by omega)).mono
      fun r d' hr => ⟨hr.1, hr.2.1⟩

/-- No driver has functions. -/
def noDevices : ℕ → Devsw := fun _ => ⟨none, none⟩

/-- An empty file, of inode 1. -/
def emptyInode : Inode := ⟨1, ⟨2, 0, 0, 1, 0, List.replicate 13 0⟩⟩

/-- A disk with an empty file, on which the blocks before the data area are marked. -/
def emptyDisk : Disk where
  bytes := splice (splice (fun _ => 0) 29696 [255, 255, 255, 255, 255, 255, 255, 7])
    (inoAddr 1) emptyInode.din.bytes
  logged := []
  sections := []

theorem dinodeAt_emptyDisk_self : dinodeAt emptyDisk.bytes 1 = emptyInode.din := by
  rw [emptyDisk, dinodeAt_splice_self (by decide)]
  decide

theorem dinodeAt_emptyDisk_of_ne (hi : i < NINODES) (h : i ≠ 1) :
    (dinodeAt emptyDisk.bytes i).type = 0 := by
  have hi' : i < 200 := hi
  rw [emptyDisk, dinodeAt_splice_of_ne (by decide) h, dinodeAt, slice_splice_of_disjoint]
  · rfl
  · rw [inoAddr]
    omega

theorem usedBit_emptyDisk (b : ℕ) : usedBit emptyDisk.bytes b = true ↔ b < 59 := by
  have hbytes : emptyDisk.bytes (29696 + b / 8) =
      splice (fun _ => 0) 29696 [255, 255, 255, 255, 255, 255, 255, 7] (29696 + b / 8) :=
    splice_of_le (Nat.le_add_right_of_le (by decide))
  rw [usedBit, hbytes]
  by_cases hb : b < 64
  · clear hbytes
    revert b
    decide
  · rw [splice_of_le (by simp only [List.length_cons, List.length_nil]; omega)]
    rw [UInt8.toNat_zero, Nat.zero_testBit]
    exact iff_of_false Bool.false_ne_true (by omega)

theorem owned_emptyDisk : Owned emptyDisk.bytes := by
  have halloc : ∀ i, Allocated emptyDisk.bytes i → i = 1 := by
    intro i hi
    by_contra hne
    exact hi.2.2 (dinodeAt_emptyDisk_of_ne hi.2.1 hne)
  have hnone : ∀ u, ¬inUse (Allocated emptyDisk.bytes)
      (fun i => blocksFor (dinodeAt emptyDisk.bytes i).size) u := by
    rintro ⟨i, _ | k⟩ ⟨hi, hlt⟩
    all_goals
      dsimp only at hlt
      rw [halloc i hi, dinodeAt_emptyDisk_self] at hlt
      exact absurd hlt (Nat.not_lt_zero _)
  refine ⟨?_, fun u hu => (hnone u hu).elim, fun u hu => (hnone u hu).elim, ?_,
    fun u hu => (hnone u hu).elim, fun u _ hu => (hnone u hu).elim, ?_⟩
  · intro i hi
    rw [halloc i hi, dinodeAt_emptyDisk_self]
    rfl
  · intro i hi s _
    refine iff_of_false (fun hne => hne ?_) (hnone _)
    rw [halloc i hi, dinodeAt_emptyDisk_self]
    cases s with
    | none => rfl
    | some k =>
      by_cases hk : k < 12
      · rw [blockOf_direct hk, emptyInode, List.getD_eq_getElem?_getD, List.getElem?_replicate]
        split <;> rfl
      · exact blockOf_of_indirect_eq_zero (Nat.le_of_not_lt hk) rfl
  · intro b hb
    rw [usedBit_emptyDisk]
    exact ⟨.inl, fun h => h.resolve_right fun ⟨u, hu, _⟩ => hnone u hu⟩

theorem allocated_emptyDisk : Allocated emptyDisk.bytes emptyInode.inum := by
  refine ⟨by decide, by decide, ?_⟩
  rw [show emptyInode.inum = 1 from rfl, dinodeAt_emptyDisk_self]
  decide

theorem freeBlocks_emptyDisk : freeBlocks emptyDisk.bytes = 941 := by
  have hset : freeSet emptyDisk.bytes = Finset.Ico 59 1000 := by
    ext b
    have := usedBit_emptyDisk b
    rw [freeSet, Finset.mem_filter, Finset.mem_range, Finset.mem_Ico, ← Bool.not_eq_true, this]
    omega
  rw [freeBlocks, hset, Nat.card_Ico]

/-- A call that runs on the disk with an empty file, and needs at most 941 blocks. -/
theorem run_emptyDisk {α : Type} {m : BlockProg α} {Q : α → Disk → Prop}
    (h : wp handle (fun e => e = .outOfBlocks ∧
      freeBlocks emptyDisk.bytes + cost (blocksFor emptyInode.din.size) <
        cost (blocksFor (max emptyInode.din.size n))) m Q emptyDisk) (hn : n ≤ 481280) :
    ∃ r d', run handle m emptyDisk = .ok (r, d') ∧ Q r d' := by
  cases hr : run handle m emptyDisk with
  | ok q => exact ⟨q.1, q.2, rfl, h.of_ok hr⟩
  | error e =>
    have hlack := (h.of_error hr).2
    have hsize : emptyInode.din.size = 0 := rfl
    have hmost : cost (blocksFor (max emptyInode.din.size n)) ≤ cost 940 :=
      cost_mono (by rw [blocksFor, hsize]; omega)
    have hcost : cost 940 = 941 := by decide
    rw [freeBlocks_emptyDisk] at hlack
    omega

/-- The first byte of a file. -/
theorem file_bytes_emptyDisk : ∃ r d',
    run handle (writei noDevices emptyInode [7] 0) emptyDisk = .ok (r, d') ∧ r.1 = some 1 ∧
    file d'.bytes 1 = [7] := by
  have hbytes := file_bytes noDevices owned_emptyDisk allocated_emptyDisk dinodeAt_emptyDisk_self
    (by decide) (show 0 < WORD by decide) (show [7].length < WORD by decide)
    (show 0 < WORD by decide)
  obtain ⟨r, d', hrun, hret, hwritten⟩ :=
    run_emptyDisk (hbytes.2.1 (by rw [Refused]; decide)) (by decide)
  have hfile : file emptyDisk.bytes emptyInode.inum = [] := by
    rw [file, show emptyInode.inum = 1 from rfl, dinodeAt_emptyDisk_self]
    rfl
  have hself := hwritten.self
  rw [hfile] at hself
  exact ⟨r, d', hrun, hret, hself⟩

end Xv6.Fs.Blocks
