import Xv6.Fs.FileBytes

/-!
# The transactions of `filewrite`

`filewrite` cuts what it writes into chunks, with one transaction for each, and `begin_op` counts
on at most `MAXOPBLOCKS` blocks for a transaction.  Since a block has one use, the blocks that
`writei` passes to `log_write` can be counted exactly.  A chunk may have `maxChunk` bytes, which
are thirteen blocks.

`writei` looks at one chunk at a time.  When it refuses a chunk, those before it are written, the
offset of the file is behind them, and `filewrite` returns −1 all the same.

## Main definitions

* `sectionBlocks` — the blocks of one transaction.
* `sectionCounts` — those of all transactions of a call.
* `accepted` — the bytes that a call writes.
* `AllOrNothing` — a call writes all of its bytes, or none and says so.

## Main results

* `card_logged` — the blocks that `writei` passes to `log_write`.
* `filewriteFrom_spec` — the transactions of a call.
* `filewrite_sections` — when all of them have at most `MAXOPBLOCKS` blocks.
* `filewrite_allOrNothing` — when a call writes all or nothing.
-/

namespace Xv6.Fs.Blocks

open Prog Image
open Mkfs (BSIZE NINODES IBLOCK T_FILE)

variable {d d' d₁ : Disk} {R : Fault → Prop} {b c i j k n x size off : ℕ} {src : List UInt8}
  {ip ip' : Inode} {devsw : ℕ → Devsw}

/-! ## One transaction -/

/-- The blocks of a transaction that writes `n` bytes at `off` to a file of `size` bytes: those of
the bytes, the bitmap, the indirect block and the inode's. -/
def sectionBlocks (size off n : ℕ) : ℕ :=
  ((off + n - 1) / 512 + 1 - off / 512) +
    (if blocksFor size < blocksFor (off + n) then 1 else 0) +
    (if blocksFor size < blocksFor (off + n) ∧ 12 < blocksFor (off + n) then 1 else 0) +
    (if size < off + n then 1 else 0)

theorem card_ite_singleton (p : Prop) [Decidable p] (x : ℕ) :
    (if p then {x} else ∅ : Finset ℕ).card = if p then 1 else 0 := by
  split <;> rfl

theorem mem_ite_singleton {p : Prop} [Decidable p] :
    c ∈ (if p then {x} else ∅ : Finset ℕ) ↔ p ∧ c = x := by
  by_cases hp : p <;> simp [hp]

/-- Blocks of bytes, the bitmap, an indirect block and a block of inodes are all different. -/
theorem card_blocks {f : ℕ → ℕ} {a y ind ib : ℕ} {A B G : Prop} [Decidable A] [Decidable B]
    [Decidable G] (harea : ∀ k < y, 59 ≤ f k) (hinj : ∀ k < y, ∀ j < y, f k = f j → k = j)
    (hind : B → 59 ≤ ind ∧ ∀ k < y, f k ≠ ind) (hib : ib < 58) :
    ((Finset.Ico a y).image f ∪ ((if A then {58} else ∅) ∪
      ((if A ∧ B then {ind} else ∅) ∪ if G then {ib} else ∅))).card =
      (y - a) + ((if A then 1 else 0) + ((if A ∧ B then 1 else 0) + if G then 1 else 0)) := by
  have himage : ((Finset.Ico a y).image f).card = y - a := by
    rw [Finset.card_image_of_injOn, Nat.card_Ico]
    intro k hk j hj heq
    exact hinj k (Finset.mem_Ico.mp hk).2 j (Finset.mem_Ico.mp hj).2 heq
  rw [Finset.card_union_of_disjoint, himage, Finset.card_union_of_disjoint, card_ite_singleton,
    Finset.card_union_of_disjoint, card_ite_singleton, card_ite_singleton]
  · rw [Finset.disjoint_left]
    intro c hc hc'
    have hc := mem_ite_singleton.mp hc
    have hc' := mem_ite_singleton.mp hc'
    have := hind hc.1.2
    omega
  · rw [Finset.disjoint_left]
    intro c hc hc'
    have hc := mem_ite_singleton.mp hc
    rcases Finset.mem_union.mp hc' with hc' | hc'
    · have hc' := mem_ite_singleton.mp hc'
      have := hind hc'.1.2
      omega
    · have hc' := mem_ite_singleton.mp hc'
      omega
  · rw [Finset.disjoint_left]
    intro c hc hc'
    obtain ⟨k, hk, rfl⟩ := Finset.mem_image.mp hc
    have hk := (Finset.mem_Ico.mp hk).2
    have hlow := harea k hk
    simp only [Finset.mem_union, mem_ite_singleton] at hc'
    rcases hc' with hc' | hc' | hc'
    · omega
    · exact (hind hc'.1.2).2 k hk hc'.2
    · omega

theorem Written.allocated (hw : Written d d' ip ip' off src) (hi : Allocated d.bytes ip.inum)
    (hip : dinodeAt d.bytes ip.inum = ip.din) : Allocated d'.bytes ip.inum := by
  refine ⟨hi.1, hi.2.1, ?_⟩
  rw [hw.incore, hw.fields, ← hip]
  exact hi.2.2

/-- **The blocks that `writei` passes to `log_write` are counted.** -/
theorem card_logged (hi : Allocated d.bytes ip.inum) (hip : dinodeAt d.bytes ip.inum = ip.din)
    (hpos : 0 < src.length) (hd : d.logged = []) (hw : Written d d' ip ip' off src)
    (hlogged : ∀ c, c ∈ d'.logged ↔ Logged d d' ip ip' off src c) :
    d'.logged.toFinset.card = sectionBlocks ip.din.size off src.length := by
  have hi' : ip.inum < 200 := hi.2.1
  have hlive := hw.allocated hi hip
  have hle : blocksFor (off + src.length) ≤ blocksFor (dinodeAt d'.bytes ip.inum).size := by
    rw [hw.incore, hw.fields, blocksFor_max]
    exact Nat.le_max_right ..
  have hend : blocksFor (off + src.length) = (off + src.length - 1) / 512 + 1 := by
    rw [blocksFor]
    omega
  -- the uses of blocks
  have hpiece : ∀ k < blocksFor (off + src.length), inUse (Allocated d'.bytes)
      (fun i => blocksFor (dinodeAt d'.bytes i).size) (ip.inum, some k) :=
    fun k hk => ⟨hlive, lt_of_lt_of_le hk hle⟩
  have hnone : 12 < blocksFor (off + src.length) → inUse (Allocated d'.bytes)
      (fun i => blocksFor (dinodeAt d'.bytes i).size) (ip.inum, none) :=
    fun hlt => ⟨hlive, lt_of_lt_of_le hlt hle⟩
  have harea : ∀ u, inUse (Allocated d'.bytes) (fun i => blocksFor (dinodeAt d'.bytes i).size) u →
      u.1 = ip.inum → 59 ≤ blockOf d'.bytes ip'.din u.2 := by
    intro u hu hinum
    have := (hw.owned.area u hu).1
    rwa [hinum, hw.incore] at this
  have hinj : ∀ s s', inUse (Allocated d'.bytes) (fun i => blocksFor (dinodeAt d'.bytes i).size)
      (ip.inum, s) → inUse (Allocated d'.bytes) (fun i => blocksFor (dinodeAt d'.bytes i).size)
      (ip.inum, s') → blockOf d'.bytes ip'.din s = blockOf d'.bytes ip'.din s' → s = s' := by
    intro s s' hs hs' heq
    rw [← hw.incore] at heq
    cases hw.owned.inj _ _ hs hs' heq
    rfl
  have hset : d'.logged.toFinset = (Finset.Ico (off / 512) (blocksFor (off + src.length))).image
      (fun k => blockOf d'.bytes ip'.din (some k)) ∪
      ((if blocksFor ip.din.size < blocksFor (off + src.length) then {58} else ∅) ∪
        ((if blocksFor ip.din.size < blocksFor (off + src.length) ∧
            12 < blocksFor (off + src.length)
          then {blockOf d'.bytes ip'.din none} else ∅) ∪
        if ip.din.size < off + src.length then {IBLOCK ip.inum} else ∅)) := by
    ext c
    have hrange : (∃ x, off ≤ x ∧ x < off + src.length ∧
        c = blockOf d'.bytes ip'.din (some (x / 512))) ↔
        ∃ k, (off / 512 ≤ k ∧ k < blocksFor (off + src.length)) ∧
          blockOf d'.bytes ip'.din (some k) = c := by
      constructor
      · rintro ⟨x, h1, h2, rfl⟩
        exact ⟨x / 512, ⟨by omega, by omega⟩, rfl⟩
      · rintro ⟨k, ⟨h1, h2⟩, rfl⟩
        have hk : max off (512 * k) / 512 = k := by omega
        exact ⟨max off (512 * k), by omega, by omega, by rw [hk]⟩
    rw [List.mem_toFinset, hlogged, Logged, hd, hrange]
    simp only [List.not_mem_nil, false_or, Finset.mem_union, mem_ite_singleton, Finset.mem_image,
      Finset.mem_Ico]
    grind
  have hib : IBLOCK ip.inum < 58 := by
    rw [show IBLOCK ip.inum = ip.inum / 8 + 32 from rfl]
    omega
  rw [hset, card_blocks (fun k hk => harea _ (hpiece k hk) rfl)
    (fun k hk j hj heq => Option.some.inj (hinj _ _ (hpiece k hk) (hpiece j hj) heq))
    (fun hlt => ⟨harea _ (hnone hlt) rfl, fun k hk heq => by
      cases hinj _ _ (hpiece k hk) (hnone hlt) heq⟩) hib, sectionBlocks, ← hend]
  omega

/-! ## All transactions -/

/-- The blocks of the transactions of a call that writes `n` bytes at `off` to a file of `size`
bytes, for at most so many rounds. -/
def sectionCounts : ℕ → ℕ → ℕ → ℕ → List ℕ
  | 0, _, _, _ => []
  | k + 1, size, off, n =>
    if n = 0 then []
    else if Refused size off (min n maxChunk) then [0]
    else sectionBlocks size off (min n maxChunk) ::
      sectionCounts k (max size (off + min n maxChunk)) (off + min n maxChunk)
        (n - min n maxChunk)

/-- The bytes that such a call writes. -/
def accepted : ℕ → ℕ → ℕ → ℕ → ℕ
  | 0, _, _, _ => 0
  | k + 1, size, off, n =>
    if n = 0 then 0
    else if Refused size off (min n maxChunk) then 0
    else min n maxChunk +
      accepted k (max size (off + min n maxChunk)) (off + min n maxChunk) (n - min n maxChunk)

theorem wp_beginOp {Q : Unit → Disk → Prop} :
    wp handle R beginOp Q d ↔ Q () { d with logged := [] } := by
  rw [wp, beginOp, run_op]
  rfl

theorem wp_endOp {Q : Unit → Disk → Prop} :
    wp handle R endOp Q d ↔
      Q () { d with logged := [], sections := d.logged :: d.sections } := by
  rw [wp, endOp, run_op]
  rfl

/-- **The transactions of `filewrite`**, and what they write.  It stops with a panic only when
there are not enough blocks. -/
theorem filewriteFrom_spec (hfuel : src.length ≤ k) (hown : Owned d.bytes)
    (hi : Allocated d.bytes ip.inum) (hip : dinodeAt d.bytes ip.inum = ip.din)
    (hdev : ip.din.type ≠ T_DEV) (hoff : off < WORD) :
    wp handle (fun e => e = .outOfBlocks ∧ freeBlocks d.bytes + cost (blocksFor ip.din.size) <
        cost (blocksFor (max ip.din.size (off + src.length))))
      (filewriteFrom devsw k ip off src)
      (fun r d' => (∃ new : List (List ℕ), d'.sections = new.reverse ++ d.sections ∧
          new.map (fun l => l.toFinset.card) = sectionCounts k ip.din.size off src.length) ∧
        (r.1 = true ↔ accepted k ip.din.size off src.length = src.length) ∧
        r.2.2 = off + accepted k ip.din.size off src.length ∧
        file d'.bytes ip.inum = patch (file d.bytes ip.inum) off
          (src.take (accepted k ip.din.size off src.length))) d := by
  induction k generalizing d ip off src with
  | zero =>
    have h0 : src = [] := List.length_eq_zero_iff.mp (Nat.le_zero.mp hfuel)
    subst h0
    exact ⟨⟨[], rfl, rfl⟩, iff_of_true rfl rfl, rfl, (patch_nil ..).symm⟩
  | succ k ih =>
    rw [filewriteFrom, sectionCounts, accepted]
    split
    · rename_i h0
      subst h0
      exact ⟨⟨[], rfl, rfl⟩, iff_of_true rfl rfl, rfl, (patch_nil ..).symm⟩
    · rename_i hne
      have hpos : 0 < src.length := List.length_pos_iff.mpr hne
      obtain ⟨m, hm⟩ : ∃ m, m = min src.length maxChunk := ⟨_, rfl⟩
      have hm' : m = min src.length 6656 := hm
      have htake : (src.take m).length = m := List.length_take_of_le (by omega)
      have hdrop : (src.drop m).length = src.length - m := List.length_drop
      have hne : ¬src.length = 0 := by omega
      rw [if_neg hne, if_neg hne, ← hm, wp_bind, wp_beginOp, wp_bind]
      by_cases hbad : Refused ip.din.size off m
      · rw [if_pos hbad, if_pos hbad]
        refine (writei_refused devsw hdev hoff (by rw [htake, WORD]; omega)
          (by rwa [htake])).mono fun r d₁ hr => ?_
        rw [hr.1, hr.2, wp_bind, wp_endOp]
        exact ⟨⟨[[]], rfl, rfl⟩, iff_of_false Bool.false_ne_true (by omega), rfl,
          (patch_nil ..).symm⟩
      · rw [if_neg hbad, if_neg hbad]
        have hmax : MAXBYTES = 71680 := rfl
        have hgood := hbad
        rw [Refused] at hgood
        have hwrite := @writei_spec { d with logged := [] } off (src.take m) ip devsw hown hi hip
          hdev (by omega) (by rw [htake]; omega)
        rw [htake] at hwrite
        refine (hwrite.weaken fun e he => ⟨he.1, ?_⟩).mono fun r d₁ hr => ?_
        · obtain ⟨q, ip'⟩ := r
          obtain ⟨hq, hw, hlogged, hsec⟩ := hr
          dsimp only at hq hw hlogged
          rw [hq, wp_bind, wp_endOp]
          dsimp only
          have hword : (off + m) % WORD = off + m := Nat.mod_eq_of_lt (by rw [WORD]; omega)
          rw [if_pos rfl, hword]
          have hsize : ip'.din.size = max ip.din.size (off + m) := by rw [hw.fields, htake]
          have hfree := hw.free
          rw [htake, ← hsize] at hfree
          have hrest := @ih { d₁ with logged := [], sections := d₁.logged :: d₁.sections }
            (off + m) (src.drop m) ip' (by omega) hw.owned
            (by rw [hw.inum]; exact hw.allocated hi hip) (by rw [hw.inum]; exact hw.incore)
            (by rw [hw.fields]; exact hdev) (by omega)
          have hend : max ip'.din.size (off + m + (src.length - m)) =
              max ip.din.size (off + src.length) := by omega
          rw [hdrop, hend, hfree, hsize] at hrest
          refine hrest.mono fun r d₂ hpost => ?_
          obtain ⟨⟨new, hnew, hcounts⟩, hok, hoff', hfile⟩ := hpost
          generalize accepted k (max ip.din.size (off + m)) (off + m) (src.length - m) = a at *
          refine ⟨⟨d₁.logged :: new, ?_, ?_⟩, ?_, ?_, ?_⟩
          · rw [hnew, List.reverse_cons, List.append_assoc, hsec]
            rfl
          · have hcard := card_logged (d := { d with logged := [] }) hi hip (by omega) rfl hw
              hlogged
            rw [htake] at hcard
            rw [List.map_cons, hcard, hcounts]
          · rw [hok]
            omega
          · rw [hoff', Nat.add_assoc]
          · have hlong : off ≤ (file d.bytes ip.inum).length := by
              rw [length_file, hip]
              omega
            have hself := hw.self
            rw [hw.inum] at hfile
            rw [hfile, hself, List.take_add, ← patch_patch hlong, htake]
        · refine lt_of_lt_of_le he.2 (cost_mono ?_)
          rw [blocksFor_max, blocksFor_max, blocksFor, blocksFor, blocksFor]
          omega

/-- The calls whose transactions are small enough. -/
def Fits (size off n : ℕ) : Prop :=
  n = 0 ∨ Refused size off (min n maxChunk) ∨
    sectionBlocks size off (min n maxChunk) ≤ MAXOPBLOCKS

/-- A chunk of the greatest length has too many blocks. -/
theorem lt_sectionBlocks_maxChunk (size off : ℕ) :
    MAXOPBLOCKS < sectionBlocks size off maxChunk := by
  have hmax : maxChunk = 6656 := rfl
  have hten : MAXOPBLOCKS = 10 := rfl
  rw [sectionBlocks, hmax, hten]
  omega

theorem sectionCounts_zero (k size off : ℕ) : sectionCounts k size off 0 = [] := by
  cases k <;> rfl

theorem sectionCounts_le_iff (hfuel : n ≤ k) :
    (∀ c ∈ sectionCounts k size off n, c ≤ MAXOPBLOCKS) ↔ Fits size off n := by
  by_cases hn : n = 0
  · rw [hn, sectionCounts_zero]
    exact iff_of_true (fun c hc => by cases hc) (.inl rfl)
  obtain ⟨k, rfl⟩ : ∃ j, k = j + 1 := ⟨k - 1, by omega⟩
  rw [sectionCounts, if_neg hn]
  by_cases hbad : Refused size off (min n maxChunk)
  · rw [if_pos hbad]
    exact iff_of_true (by simp) (.inr (.inl hbad))
  · rw [if_neg hbad]
    simp only [Fits, hn, hbad, false_or]
    by_cases hle : n ≤ maxChunk
    · -- there is no other chunk
      rw [Nat.min_eq_left hle, Nat.sub_self, sectionCounts_zero]
      simp
    · have hbig := lt_sectionBlocks_maxChunk size off
      rw [Nat.min_eq_right (Nat.le_of_not_le hle)]
      exact iff_of_false (fun hall => absurd (hall _ List.mem_cons_self) (Nat.not_le.mpr hbig))
        (Nat.not_le.mpr hbig)

theorem filewrite_counts (devsw : ℕ → Devsw) (hown : Owned d.bytes)
    (hi : Allocated d.bytes ip.inum) (hip : dinodeAt d.bytes ip.inum = ip.din)
    (hdev : ip.din.type ≠ T_DEV) (hoff : off < WORD) (src : List UInt8) :
    wp handle (fun e => e = .outOfBlocks ∧ freeBlocks d.bytes + cost (blocksFor ip.din.size) <
        cost (blocksFor (max ip.din.size (off + src.length))))
      (filewrite devsw true ip off src)
      (fun _ d' => ∃ new : List (List ℕ), d'.sections = new ++ d.sections ∧
        (new.map fun l => l.toFinset.card).reverse =
          sectionCounts src.length ip.din.size off src.length) d := by
  rw [filewrite, if_neg Bool.true_eq_false.mp, wp_bind]
  refine (filewriteFrom_spec le_rfl hown hi hip hdev hoff).mono fun r d' hr => ?_
  obtain ⟨⟨new, hnew, hcounts⟩, -⟩ := hr
  rw [wp_pure]
  refine ⟨new.reverse, hnew, ?_⟩
  rw [List.map_reverse, List.reverse_reverse, hcounts]

/-- **When the transactions of `filewrite` respect the reservation.**  All of them have at most
`MAXOPBLOCKS` blocks exactly when nothing is written or the first chunk is small enough, which
then is the only one. -/
theorem filewrite_sections (devsw : ℕ → Devsw) (hown : Owned d.bytes)
    (hi : Allocated d.bytes ip.inum) (hip : dinodeAt d.bytes ip.inum = ip.din)
    (htype : ip.din.type = T_FILE) (hoff : off < WORD) (src : List UInt8) :
    wp handle (fun e => e = .outOfBlocks ∧ freeBlocks d.bytes + cost (blocksFor ip.din.size) <
        cost (blocksFor (max ip.din.size (off + src.length))))
      (filewrite devsw true ip off src)
      (fun _ d' => ∃ new : List (List ℕ), d'.sections = new ++ d.sections ∧
        ((∀ l ∈ new, l.toFinset.card ≤ MAXOPBLOCKS) ↔ Fits ip.din.size off src.length)) d := by
  have hdev : ip.din.type ≠ T_DEV := by
    rw [htype]
    decide
  refine (filewrite_counts devsw hown hi hip hdev hoff src).mono fun r d' hr => ?_
  obtain ⟨new, hnew, hcounts⟩ := hr
  refine ⟨new, hnew, ?_⟩
  rw [← sectionCounts_le_iff le_rfl, ← hcounts]
  simp

/-- One byte for a new file: the block of the byte, the bitmap and the inode's. -/
theorem filewrite_sections_emptyDisk : ∃ r d',
    run handle (filewrite noDevices true emptyInode 0 [7]) emptyDisk = .ok (r, d') ∧
    ∀ l ∈ d'.sections, l.toFinset.card ≤ MAXOPBLOCKS := by
  obtain ⟨r, d', hrun, new, hnew, hiff⟩ := run_emptyDisk (filewrite_sections noDevices
    owned_emptyDisk allocated_emptyDisk dinodeAt_emptyDisk_self (by decide)
    (show 0 < WORD by decide) [7]) (by decide)
  refine ⟨r, d', hrun, ?_⟩
  rw [hnew, show emptyDisk.sections = [] from rfl, List.append_nil, hiff, Fits]
  decide

/-- **Sixteen blocks in one transaction**: the first chunk of a new file. -/
theorem filewrite_firstChunk : ∃ r d', run handle
    (filewrite noDevices true emptyInode 0 (List.replicate 6656 0)) emptyDisk = .ok (r, d') ∧
    ∃ l ∈ d'.sections, MAXOPBLOCKS < l.toFinset.card := by
  have hlen : (List.replicate 6656 (0 : UInt8)).length = 6655 + 1 := List.length_replicate
  generalize List.replicate 6656 (0 : UInt8) = src at hlen ⊢
  obtain ⟨r, d', hrun, new, hnew, hcounts⟩ := run_emptyDisk (filewrite_counts noDevices
    owned_emptyDisk allocated_emptyDisk dinodeAt_emptyDisk_self (by decide)
    (show 0 < WORD by decide) src) (by omega)
  have hone : sectionCounts (6655 + 1) emptyInode.din.size 0 (6655 + 1) = [16] := by
    have hmin : min (6655 + 1) maxChunk = 6655 + 1 := by decide
    rw [sectionCounts, hmin, if_neg (by decide), if_neg (by decide), Nat.sub_self,
      sectionCounts_zero]
    decide
  rw [hlen, hone] at hcounts
  have hmem : 16 ∈ new.map fun l => l.toFinset.card := by
    rw [← List.mem_reverse, hcounts]
    exact List.mem_singleton_self 16
  obtain ⟨l, hl, hcard⟩ := List.mem_map.mp hmem
  exact ⟨r, d', hrun, l, by rw [hnew]; exact List.mem_append_left _ hl,
    by rw [hcard]; decide⟩

/-! ## All or nothing -/

/-- A call that writes `src` at `off` to a file with the bytes `old`: it writes all of them,
moves the offset behind them and returns their number, or it changes nothing and returns −1.
What it returns is `r`, the offset then is `off'`, and the bytes are `new`. -/
def AllOrNothing (old : List UInt8) (off : ℕ) (src : List UInt8) (r : Option ℕ) (off' : ℕ)
    (new : List UInt8) : Prop :=
  r = some src.length ∧ off' = off + src.length ∧ new = patch old off src ∨
    r = none ∧ off' = off ∧ new = old

/-- The calls of which `writei` refuses the first chunk or no chunk. -/
def Undivided (size off n : ℕ) : Prop :=
  size < off ∨ off + n ≤ MAXBYTES ∨ MAXBYTES < off + min n maxChunk

instance : Decidable (Undivided size off n) := inferInstanceAs (Decidable (_ ∨ _ ∨ _))

/-- All chunks are accepted when the file has room for them. -/
theorem accepted_eq_self (hfuel : n ≤ k) (hoff : off ≤ size) (hend : off + n ≤ MAXBYTES) :
    accepted k size off n = n := by
  have hword : MAXBYTES < WORD := by decide
  have hchunk : maxChunk = 6656 := rfl
  induction k generalizing size off n with
  | zero => exact (Nat.le_zero.mp hfuel).symm
  | succ k ih =>
    rw [accepted]
    split
    · omega
    · have hgood : ¬Refused size off (min n maxChunk) := by
        rw [Refused]
        omega
      rw [if_neg hgood, ih (by omega) (by omega) (by omega)]
      omega

/-- A call that is too long has a chunk that is refused. -/
theorem accepted_ne_self (hpos : 0 < n) (hend : MAXBYTES < off + n) :
    accepted k size off n ≠ n := by
  induction k generalizing size off n with
  | zero =>
    rw [accepted]
    omega
  | succ k ih =>
    rw [accepted, if_neg (by omega)]
    split
    · omega
    · rename_i hgood
      rw [Refused] at hgood
      have hrest : accepted k (max size (off + min n maxChunk)) (off + min n maxChunk)
          (n - min n maxChunk) ≠ n - min n maxChunk := ih (by omega) (by omega)
      omega

theorem accepted_eq_zero_iff (hfuel : n ≤ k) :
    accepted k size off n = 0 ↔ n = 0 ∨ Refused size off (min n maxChunk) := by
  have hchunk : maxChunk = 6656 := rfl
  cases k with
  | zero => exact iff_of_true rfl (.inl (Nat.le_zero.mp hfuel))
  | succ k =>
    rw [accepted]
    split
    · rename_i h0
      exact iff_of_true rfl (.inl h0)
    · split
      · rename_i hbad
        exact iff_of_true rfl (.inr hbad)
      · rename_i h0 hgood
        exact iff_of_false (by omega) (by tauto)

/-- What a call writes, all or nothing. -/
theorem accepted_undivided_iff (hsize : size ≤ MAXBYTES) :
    accepted n size off n = n ∨ accepted n size off n = 0 ↔ Undivided size off n := by
  have hword : MAXBYTES < WORD := by decide
  have hzero := @accepted_eq_zero_iff n n size off le_rfl
  rw [Refused] at hzero
  rw [Undivided]
  constructor
  · intro h
    by_contra hno
    rcases h with h | h
    · exact accepted_ne_self (by omega) (by omega) h
    · omega
  · intro h
    by_cases hall : off ≤ size ∧ off + n ≤ MAXBYTES
    · exact .inl (accepted_eq_self le_rfl hall.1 hall.2)
    · exact .inr (by omega)

theorem filewrite_spec (devsw : ℕ → Devsw) (hown : Owned d.bytes)
    (hi : Allocated d.bytes ip.inum) (hip : dinodeAt d.bytes ip.inum = ip.din)
    (hdev : ip.din.type ≠ T_DEV) (hoff : off < WORD) (src : List UInt8) :
    wp handle (fun e => e = .outOfBlocks ∧ freeBlocks d.bytes + cost (blocksFor ip.din.size) <
        cost (blocksFor (max ip.din.size (off + src.length))))
      (filewrite devsw true ip off src)
      (fun r d' => r.1 = (if accepted src.length ip.din.size off src.length = src.length
          then some src.length else none) ∧
        r.2.2 = off + accepted src.length ip.din.size off src.length ∧
        file d'.bytes ip.inum = patch (file d.bytes ip.inum) off
          (src.take (accepted src.length ip.din.size off src.length))) d := by
  rw [filewrite, if_neg Bool.true_eq_false.mp, wp_bind]
  refine (filewriteFrom_spec le_rfl hown hi hip hdev hoff).mono fun r d' hr => ?_
  obtain ⟨-, hok, hoff', hfile⟩ := hr
  rw [wp_pure]
  refine ⟨?_, hoff', hfile⟩
  by_cases hall : accepted src.length ip.din.size off src.length = src.length
  · rw [if_pos hall, if_pos (hok.mpr hall)]
  · rw [if_neg hall, if_neg fun h => hall (hok.mp h)]

/-- **When `filewrite` writes all or nothing**: exactly when the offset is behind the end of the
file, all the bytes fit, or the first chunk does not fit.  A call for a file that is not open for
writing changes nothing. -/
theorem filewrite_allOrNothing (devsw : ℕ → Devsw) (writable : Bool) (hown : Owned d.bytes)
    (hi : Allocated d.bytes ip.inum) (hip : dinodeAt d.bytes ip.inum = ip.din)
    (htype : ip.din.type = T_FILE) (hoff : off < WORD) (src : List UInt8) :
    wp handle (fun e => e = .outOfBlocks ∧ freeBlocks d.bytes + cost (blocksFor ip.din.size) <
        cost (blocksFor (max ip.din.size (off + src.length))))
      (filewrite devsw writable ip off src)
      (fun r d' => AllOrNothing (file d.bytes ip.inum) off src r.1 r.2.2 (file d'.bytes ip.inum) ↔
        writable = false ∨ Undivided ip.din.size off src.length) d := by
  cases writable with
  | false =>
    rw [filewrite, if_pos rfl, wp_pure]
    exact iff_of_true (.inr ⟨rfl, rfl, rfl⟩) (.inl rfl)
  | true =>
    have hdev : ip.din.type ≠ T_DEV := by
      rw [htype]
      decide
    have hsize := hown.size_le hi
    rw [hip] at hsize
    refine (filewrite_spec devsw hown hi hip hdev hoff src).mono fun r d' hr => ?_
    rw [← accepted_undivided_iff hsize]
    generalize accepted src.length ip.din.size off src.length = a at hr ⊢
    obtain ⟨hr, hoff', hfile⟩ := hr
    rw [AllOrNothing, hr, hoff', hfile]
    by_cases hall : a = src.length
    · subst hall
      simp
    · by_cases hzero : a = 0
      · subst hzero
        simp [hall]
      · simp [hall, hzero]

/-- One byte for a new file. -/
theorem filewrite_allOrNothing_emptyDisk : ∃ r d',
    run handle (filewrite noDevices true emptyInode 0 [7]) emptyDisk = .ok (r, d') ∧
    AllOrNothing (file emptyDisk.bytes 1) 0 [7] r.1 r.2.2 (file d'.bytes 1) := by
  obtain ⟨r, d', hrun, hiff⟩ := run_emptyDisk (filewrite_allOrNothing noDevices true
    owned_emptyDisk allocated_emptyDisk dinodeAt_emptyDisk_self (by decide)
    (show 0 < WORD by decide) [7]) (by decide)
  exact ⟨r, d', hrun, hiff.mpr (.inr (by decide))⟩

/-- **A call that writes ten chunks and returns −1**: one byte too many for a new file. -/
theorem filewrite_divided : ∃ r d', run handle
    (filewrite noDevices true emptyInode 0 (List.replicate 71681 0)) emptyDisk = .ok (r, d') ∧
    r.1 = none ∧ r.2.2 = 66560 ∧ file d'.bytes 1 = List.replicate 66560 0 ∧
    ¬AllOrNothing (file emptyDisk.bytes 1) 0 (List.replicate 71681 0) r.1 r.2.2
      (file d'.bytes 1) := by
  have hlen : (List.replicate 71681 (0 : UInt8)).length = 71681 := List.length_replicate
  have htake : (List.replicate 71681 (0 : UInt8)).take 66560 = List.replicate 66560 0 :=
    List.take_replicate ..
  have hten : accepted 71681 emptyInode.din.size 0 71681 = 66560 := by
    decide +kernel
  have hempty : file emptyDisk.bytes 1 = [] := by
    rw [file, dinodeAt_emptyDisk_self]
    rfl
  generalize List.replicate 71681 (0 : UInt8) = src at hlen htake ⊢
  obtain ⟨r, d', hrun, hr, hoff', hfile⟩ := run_emptyDisk (filewrite_spec noDevices
    owned_emptyDisk allocated_emptyDisk dinodeAt_emptyDisk_self (by decide)
    (show 0 < WORD by decide) src) (by omega)
  rw [hlen, hten] at hr hoff' hfile
  rw [if_neg (by omega)] at hr
  rw [htake, show emptyInode.inum = 1 from rfl, hempty, nil_patch] at hfile
  refine ⟨r, d', hrun, hr, hoff', hfile, ?_⟩
  rw [AllOrNothing, hr, hoff']
  simp

end Xv6.Fs.Blocks
