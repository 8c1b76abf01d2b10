import Xv6.Vm.Copyout

/-!
# Loading a program

`exec` goes through the program headers of a file.  For each segment it grows the new address
space up to the end of the segment, and reads the bytes of the file to where they belong, over
what earlier segments have left there.

## Main definitions

* `userByte pd s va` — the byte that the user finds at an address.
* `segments`, `loaded`, `top` — the segments of a file, what they say is at an address, and where
  they end.
* `Aside` — the pages of the new address space are neither free nor used for something else.

## Main results

* `allocuvm_aside` — `allocuvm` in a new address space.
* `loaduvm_spec` — `loaduvm` leaves the bytes of the file over those that were there.
* `loadSegments_spec` — the loop over the program headers.
-/

namespace Xv6.Vm.Ram

open Function Prog
open Xv6.Image (slice splice unle slice_congr splice_add splice_zero splice_of_le)

variable {env : Env} {used : Page → ℕ} {s₀ s t : State} {pd pd' : PageDir} {c : List UInt8}
  {L : List (ℕ → UInt8)} {ph : ℕ → UInt8} {f g : ℕ → UInt8} {p q : Page}
  {a i k n v sz oldsz newsz off offset : ℕ}

/-! ## What the file says -/

/-- The bytes of a file from `off` on. -/
def headerAt (c : List UInt8) (off : ℕ) : ℕ → UInt8 := fun j => c.getD (off + j) 0

/-- The `n` program headers from `off` on. -/
def headersFrom (c : List UInt8) (n off : ℕ) : List (ℕ → UInt8) :=
  (List.range n).map fun i => headerAt c (off + i * phSize)

/-- Whether a program header is one of a segment to be loaded. -/
def isLoad (ph : ℕ → UInt8) : Bool := phType ph == ELF_PROG_LOAD

/-- The segments of a file, in the order of their headers. -/
def segments (c : List UInt8) : List (ℕ → UInt8) :=
  (headersFrom c (elfPhnum (headerAt c 0)) (elfPhoff (headerAt c 0))).filter isLoad

/-- Whether the file has a byte for address `a` in a segment. -/
def covers (a : ℕ) (ph : ℕ → UInt8) : Bool := phVaddr ph ≤ a ∧ a < phVaddr ph + phFilesz ph

/-- The byte at address `a`: that of the last segment that has one, or 0. -/
def loaded (c : List UInt8) (segs : List (ℕ → UInt8)) (a : ℕ) : UInt8 :=
  match segs.reverse.find? (covers a) with
  | some ph => c.getD (phOff ph + (a - phVaddr ph)) 0
  | none => 0

/-- The end of the segments. -/
def top (segs : List (ℕ → UInt8)) : ℕ :=
  segs.foldl (fun sz ph => max sz (phVaddr ph + phMemsz ph)) 0

theorem headersFrom_succ (c : List UInt8) (n off : ℕ) :
    headersFrom c (n + 1) off = headerAt c off :: headersFrom c n (off + phSize) := by
  rw [headersFrom, List.range_succ_eq_map, List.map_cons, List.map_map, Nat.zero_mul, Nat.add_zero]
  congr 1
  refine List.map_congr_left fun i _ => ?_
  simp only [Function.comp_apply, Nat.succ_mul]
  congr 1
  omega

theorem loaded_append (c : List UInt8) (L : List (ℕ → UInt8)) (ph : ℕ → UInt8) (a : ℕ) :
    loaded c (L ++ [ph]) a =
      if covers a ph then c.getD (phOff ph + (a - phVaddr ph)) 0 else loaded c L a := by
  simp only [loaded, List.reverse_append, List.reverse_singleton, List.singleton_append,
    List.find?_cons]
  cases covers a ph <;> rfl

theorem top_append (L : List (ℕ → UInt8)) (ph : ℕ → UInt8) :
    top (L ++ [ph]) = max (top L) (phVaddr ph + phMemsz ph) := by
  rw [top, List.foldl_append]
  rfl

/-! ## Fields of the headers -/

theorem field_lt (buf : ℕ → UInt8) (a : ℕ) : field buf a 4 < WORD := by
  have h0 := (buf (a + 0)).toNat_lt
  have h1 := (buf (a + 1)).toNat_lt
  have h2 := (buf (a + 2)).toNat_lt
  have h3 := (buf (a + 3)).toNat_lt
  have hslice : slice buf a 4 = [buf (a + 0), buf (a + 1), buf (a + 2), buf (a + 3)] := rfl
  simp only [field, hslice, unle, WORD]
  omega

/-- What `readi` of a regular file stores, when it is all that was asked for. -/
theorem readi_file (hn : n < 0xffffffff)
    (hcount : count ((Inode.file c).readi k off n) = n) :
    (Inode.file c).readi k off n = some ((c.drop off).take n) ∧ off + n ≤ c.length ∧
      off + n < WORD ∧ ((c.drop off).take n).length = n := by
  rw [Inode.readi] at hcount ⊢
  split at hcount
  · simp only [count] at hcount
    omega
  · rename_i hok
    simp only [count, List.length_take, List.length_drop] at hcount
    have hlen : ((c.drop off).take n).length = n := by
      rw [List.length_take, List.length_drop]
      omega
    refine ⟨if_neg hok, by omega, by omega, hlen⟩

theorem getD_take_drop (hi : i < n) : ((c.drop off).take n).getD i 0 = c.getD (off + i) 0 := by
  rw [List.getD_eq_getElem?_getD, List.getElem?_take_of_lt hi, List.getElem?_drop,
    List.getD_eq_getElem?_getD]

/-- A buffer that has been filled is read as the file would be. -/
theorem field_fill {buf : ℕ → UInt8} {w : ℕ} (hlen : ((c.drop off).take n).length = n)
    (h : a + w ≤ n) :
    field (fill buf (some ((c.drop off).take n))) a w = field (headerAt c off) a w := by
  have hsame : slice (fill buf (some ((c.drop off).take n))) a w = slice (headerAt c off) a w := by
    refine slice_congr fun x h1 h2 => ?_
    rw [fill, splice_zero (by omega), getD_take_drop (by omega), headerAt]
  rw [field, field, hsame]

/-! ## Pages of the new address space -/

/-- The new address space has its pages to itself, and what else is in use, which `used` counts,
is as it was at the start. -/
structure Aside (env : Env) (used : Page → ℕ) (pd : PageDir) (s₀ s : State) : Prop where
  room : ∀ q, used q + pd.owns q + s.kmem.free q ≤ env.room q
  same : ∀ q, 0 < used q → s.page q = s₀.page q
  kernel : KernelOnly pd

namespace Aside

section

variable (h : Aside env used pd s₀ s)
include h

theorem sole : Sole env pd s := by
  intro q
  have := h.room q
  omega

theorem noAlias : NoAlias pd := by
  refine h.kernel.noAlias fun q => ?_
  have h1 := h.room q
  have h2 := room_le_one env.toEnv q
  omega

/-- What is used for something else is neither free nor in the directory. -/
theorem unused (hq : 0 < used q) :
    pd.owns q + s.kmem.free q = 0 := by
  have h1 := h.room q
  have h2 := room_le_one env.toEnv q
  omega

theorem ne_of_owns (hq : 0 < used q) (hp : 1 ≤ pd.owns p) : q ≠ p := by
  rintro rfl
  have := h.unused hq
  omega

/-- A store to a page of the directory. -/
theorem store (hp : 1 ≤ pd.owns p) (g : ℕ → UInt8) :
    Aside env used pd s₀ { s with page := update s.page p g } where
  room := h.room
  same q hq := by
    rw [← h.same q hq]
    exact update_of_ne (h.ne_of_owns hq hp) _ _
  kernel := h.kernel

end

end Aside

/-- `allocuvm` writes to pages only that it has taken. -/
theorem allocFrom_frame (oldsz newsz n v : ℕ) (hv : v + n ≤ KERNPAGE)
    (hq : pd.owns q + s.kmem.free q = 0) :
    wp (handle env) (fun _ => True) (allocFrom oldsz newsz pd n v)
      (fun _ t => t.page q = s.page q) s := by
  have hfrees : ∀ {α : Type} {m : MemProg α} {t : State}, Only Frees m →
      wp (handle env) (fun _ => True) (lift m) (fun _ t' => t'.page = t.page) t :=
    fun hm => (wp_lift_frees hm (Q := fun _ _ => True) wp_true).mono fun _ _ h => h.2
  induction n generalizing pd v s with
  | zero => rfl
  | succ n ih =>
    rw [allocFrom, wp_bind]
    refine (wp_lift_takes takes_kalloc kalloc_draws).mono fun o t ht => ?_
    obtain ⟨ho, hframe⟩ := ht
    have hpage := (hframe q (by omega)).2
    have hfree := (hframe q (by omega)).1
    cases o with
    | none =>
      dsimp only
      rw [wp_bind]
      refine (hfrees (frees_deallocuvm ..)).mono fun r t' ht' => ?_
      rw [wp_pure, ht', hpage]
    | some mem =>
      have hne : q ≠ mem := by
        rintro rfl
        have := ho.2 q
        rw [holds_self] at this
        omega
      dsimp only
      rw [wp_bind, wp_store, wp_bind]
      -- the state in which the page is cleared
      let t₁ : State := { t with
        page := update t.page mem
          (Xv6.Image.splice (t.page mem) 0 (List.replicate PGSIZE 0)) }
      have hmap : wp (Vm.handle env.toEnv) (fun _ => True) (mappages pd v mem true true 1)
          (fun r m => ∀ q, r.2.owns q + m.free q =
            pd.owns q + t.kmem.free q + if r.1 then holds mem q else 0) t₁.kmem :=
        (mappages_owns (by omega) mem true true).weaken fun _ _ => trivial
      refine (wp_lift_takes (takes_mappages pd v mem true true 1) hmap).mono fun r t₂ hr => ?_
      obtain ⟨howns, hframe₂⟩ := hr
      have hpage₂ : t₂.page q = s.page q := by
        rw [(hframe₂ q hfree).2, ← hpage]
        exact update_of_ne hne _ _
      obtain ⟨ok, pd'⟩ := r
      cases ok with
      | true =>
        have hown := howns q
        simp only [if_true, holds, if_neg hne.symm] at hown
        have hdir : pd'.owns q + t₂.kmem.free q = 0 := by omega
        refine (ih (v + 1) (by omega) hdir).mono fun r t₃ ht₃ => ?_
        rw [ht₃, hpage₂]
      | false =>
        simp only [Bool.false_eq_true, if_false, wp_bind]
        refine (hfrees (frees_deallocuvm ..)).mono fun r t₃ ht₃ => ?_
        rw [wp_bind]
        refine (hfrees frees_kfree).mono fun _ t₄ ht₄ => ?_
        rw [wp_pure, ht₄, ht₃, hpage₂]

theorem allocuvm_frame (oldsz newsz : ℕ) (hq : pd.owns q + s.kmem.free q = 0) :
    wp (handle env) (fun _ => True) (allocuvm pd oldsz newsz)
      (fun _ t => t.page q = s.page q) s := by
  unfold allocuvm
  split
  · rfl
  split
  · rfl
  rename_i hnew hle
  have hmono := pgroundup_mono (Nat.le_of_not_lt hle)
  have htop := pgroundup_le_kernpage (Nat.le_of_not_le hnew)
  exact allocFrom_frame _ _ _ _ (by omega) hq

/-- **`allocuvm` in a new address space** leaves all else that is in use. -/
theorem allocuvm_aside (h : Aside env used pd s₀ s) (hd : Dense pd (pgroundup oldsz)) (newsz : ℕ) :
    wp (handle env) (fun _ => False) (allocuvm pd oldsz newsz)
      (fun r t => Grows pd r.2 s t oldsz newsz r.1 ∧ Aside env used r.2 s₀ t) s := by
  have habove : wp (Vm.handle env.toEnv) (fun _ => True) (Vm.allocuvm pd oldsz newsz)
      (fun r _ => SameAbove pd r.2) s.kmem := allocuvm_above oldsz newsz
  rw [← allocuvm_erase, ← wp_erase] at habove
  have hframe : wp (handle env) (fun _ => True) (allocuvm pd oldsz newsz)
      (fun _ t => ∀ q, 0 < used q → t.page q = s.page q) s := by
    refine wp.all fun q => ?_
    by_cases hq : 0 < used q
    · exact (allocuvm_frame oldsz newsz (h.unused hq)).mono fun _ _ ht _ => ht
    · exact wp_true.mono fun _ _ _ hpos => absurd hpos hq
  refine ((allocuvm_spec h.sole hd newsz).and (habove.and hframe)).mono fun r t hr => ?_
  obtain ⟨⟨hgrows, hcons⟩, habove, hframe⟩ := hr
  refine ⟨hgrows, fun q => ?_, fun q hq => (hframe q hq).trans (h.same q hq), h.kernel.above habove⟩
  have h1 := hcons q
  have h2 := h.room q
  omega

/-! ## Bytes of the user -/

/-- The byte that the user finds at a virtual address. -/
def userByte (pd : PageDir) (s : State) (va : ℕ) : Option UInt8 :=
  (userPage pd (va / PGSIZE)).map fun p => s.page p (va % PGSIZE)

/-- The pages up to the size are the user's, and have these bytes. -/
structure Loaded (pd : PageDir) (s : State) (sz : ℕ) (f : ℕ → UInt8) : Prop where
  lt : sz < KERNBASE
  dense : Dense pd (pgroundup sz)
  byte : ∀ a < pgroundup sz * PGSIZE, userByte pd s a = some (f a)

theorem Kept.userByte (h : Kept pd pd' s t k) (ha : a / PGSIZE < k) :
    userByte pd' t a = userByte pd s a := by
  have hpage : userPage pd' (a / PGSIZE) = userPage pd (a / PGSIZE) := by
    rw [userPage, userPage, h.pte _ ha]
  rw [Ram.userByte, Ram.userByte, hpage]
  cases hp : userPage pd (a / PGSIZE) with
  | none => rfl
  | some p =>
    obtain ⟨e, he, rfl⟩ := userPage_eq_some hp
    rw [Option.map_some, Option.map_some, h.bytes _ ha e he]

namespace Loaded

theorem congr (h : Loaded pd s sz f) (hfg : ∀ a, g a = f a) : Loaded pd s sz g :=
  ⟨h.lt, h.dense, fun a ha => (h.byte a ha).trans (congrArg some (hfg a).symm)⟩

/-- A page below the size. -/
theorem page (h : Loaded pd s sz f) (hv : v < pgroundup sz) : ∃ p, userPage pd v = some p := by
  have hPG : 0 < PGSIZE := by decide
  have hbyte := h.byte (v * PGSIZE) (Nat.mul_lt_mul_of_pos_right hv hPG)
  rw [userByte, Nat.mul_div_cancel v hPG] at hbyte
  cases hp : userPage pd v with
  | some p => exact ⟨p, rfl⟩
  | none =>
    rw [hp] at hbyte
    cases hbyte

/-- After `allocuvm`, there are zeroes behind the old end. -/
theorem grow (h : Loaded pd s oldsz f) (hg : Grows pd pd' s t oldsz newsz sz) (hne : sz ≠ 0)
    (hf : ∀ a, pgroundup oldsz * PGSIZE ≤ a → f a = 0) :
    sz = max oldsz newsz ∧ Loaded pd' t sz f := by
  obtain ⟨hnew, hsz, hdense, hzero⟩ := hg.grown.resolve_left fun h0 => hne h0.1
  have hlt := h.lt
  refine ⟨hsz, by omega, hdense, fun a ha => ?_⟩
  have hPG : 0 < PGSIZE := by decide
  by_cases hold : a < pgroundup oldsz * PGSIZE
  · rw [hg.kept.userByte ((Nat.div_lt_iff_lt_mul hPG).mpr hold)]
    exact h.byte a hold
  · obtain ⟨e, he, huser, hbytes⟩ := hzero (a / PGSIZE)
      ((Nat.le_div_iff_mul_le hPG).mpr (Nat.le_of_not_lt hold))
      ((Nat.div_lt_iff_lt_mul hPG).mpr ha)
    rw [userByte, userPage, he, hf a (Nat.le_of_not_lt hold)]
    simp [huser, hbytes _ (Nat.mod_lt a hPG)]

/-- A store to the beginning of a page. -/
theorem store (h : Loaded pd s sz f) (halias : NoAlias pd) (hv : v < pgroundup sz)
    (hp : userPage pd v = some p) {bs : List UInt8} (hbs : bs.length ≤ PGSIZE) :
    Loaded pd { s with page := update s.page p (splice (s.page p) 0 bs) } sz
      (splice f (v * PGSIZE) bs) where
  lt := h.lt
  dense := h.dense
  byte a ha := by
    have hfit := kernpage_lt_vpages
    have htop := pgroundup_le_kernpage h.lt.le
    have hPG : 0 < PGSIZE := by decide
    have hmod := Nat.mod_add_div a PGSIZE
    have hlt := Nat.mod_lt a hPG
    have hu : a / PGSIZE < pgroundup sz := (Nat.div_lt_iff_lt_mul hPG).mpr ha
    have hbyte := h.byte a ha
    rw [userByte] at hbyte ⊢
    obtain ⟨q, hq⟩ := h.page hu
    rw [hq, Option.map_some] at hbyte ⊢
    by_cases huv : a / PGSIZE = v
    · rw [← huv, hq] at hp
      cases hp
      have haddr : a = v * PGSIZE + a % PGSIZE := by
        rw [← huv, Nat.mul_comm]
        omega
      simp only [update_self]
      generalize a % PGSIZE = o at *
      subst haddr
      by_cases ho : o < bs.length
      · rw [splice_add ho, splice_zero ho]
      · rw [splice_of_le (by omega), splice_of_le (by omega)]
        exact hbyte
    · have hne : q ≠ p := by
        rintro rfl
        exact huv (halias _ (by omega) _ (by omega) _ hq hp)
      simp only [update_of_ne hne]
      rw [hbyte]
      rcases Nat.lt_or_gt_of_ne huv with hlt' | hgt
      · rw [Image.splice_of_lt]
        exact (Nat.div_lt_iff_lt_mul hPG).mp hlt'
      · rw [splice_of_le]
        have := (Nat.le_div_iff_mul_le hPG).mp (Nat.succ_le_of_lt hgt)
        rw [Nat.succ_mul] at this
        omega

end Loaded

/-! ## `loaduvm` -/

/-- What the bytes from page `i` of a segment on leave of `f`. -/
def overlay (c : List UInt8) (addr offset filesz i : ℕ) (f : ℕ → UInt8) (a : ℕ) : UInt8 :=
  if addr + i * PGSIZE ≤ a ∧ a < addr + filesz then c.getD (offset + (a - addr)) 0 else f a

/-- Page `i` and the pages from `i + 1` on. -/
theorem overlay_step {b filesz n1 : ℕ} (hn1 : n1 = min (filesz - i * PGSIZE) PGSIZE)
    (hlen : ((c.drop (offset + i * PGSIZE)).take n1).length = n1) (a : ℕ) :
    overlay c (b * PGSIZE) offset filesz i f a =
      overlay c (b * PGSIZE) offset filesz (i + 1)
        (splice f ((b + i) * PGSIZE) ((c.drop (offset + i * PGSIZE)).take n1)) a := by
  simp only [overlay, splice, hlen, Nat.succ_mul, Nat.add_mul]
  generalize i * PGSIZE = x at *
  generalize b * PGSIZE = y at *
  by_cases hin : y + x ≤ a ∧ a < y + filesz
  · rw [if_pos hin]
    by_cases hpage : a < y + x + PGSIZE
    · rw [if_neg (by omega), if_pos (by omega), getD_take_drop (by omega)]
      congr 1
      omega
    · rw [if_pos (by omega)]
  · rw [if_neg hin, if_neg (by omega), if_neg (by omega)]

theorem loadFrom_spec {b filesz : ℕ} (hc : c.length < WORD) (n : ℕ)
    (hn : i + n = pgroundup filesz) (hfit : b + pgroundup filesz ≤ pgroundup sz)
    (hoff : 0 < n → offset + i * PGSIZE < WORD) (h : Aside env used pd s₀ s)
    (hl : Loaded pd s sz f) :
    wp (handle env) (fun _ => False) (loadFrom pd (.file c) offset filesz n (b + i) i k)
      (fun ok t => Aside env used pd s₀ t ∧
        (ok = true → Loaded pd t sz (overlay c (b * PGSIZE) offset filesz i f))) s := by
  have htop := pgroundup_le_kernpage hl.lt.le
  have hend : filesz ≤ pgroundup filesz * PGSIZE := by
    simp only [pgroundup, PGSIZE]
    omega
  induction n generalizing i k s f with
  | zero =>
    refine ⟨h, fun _ => hl.congr fun a => if_neg ?_⟩
    rw [Nat.add_zero] at hn
    rw [hn]
    omega
  | succ n ih =>
    have hv : b + i < pgroundup sz := by omega
    have hlift : lift (Pure.pure (some pd)) = Pure.pure (some pd) := rfl
    rw [loadFrom, walkpgdir_false, if_pos (hl.dense.table (by omega) hv), hlift, wp_bind, wp_pure]
    obtain ⟨p, hp⟩ := hl.page hv
    obtain ⟨e, he, rfl⟩ := userPage_eq_some hp
    have howns := owns_pos (by omega) he
    dsimp only
    rw [he, Option.map_some, Option.getD_some, wp_bind, wp_store]
    generalize hn1 : (if filesz - i * PGSIZE < PGSIZE then filesz - i * PGSIZE else PGSIZE) = n1
    split
    · exact ⟨h.store howns _, fun hf => absurd hf Bool.false_ne_true⟩
    · rename_i hcount
      have hle : n1 ≤ PGSIZE := by
        rw [← hn1]
        split <;> omega
      have hfilesz : i * PGSIZE < filesz := by
        simp only [pgroundup, PGSIZE] at hn ⊢
        omega
      obtain ⟨hread, hfile, -, hlen⟩ := readi_file (lt_of_le_of_lt hle (by decide))
        (not_not.mp hcount)
      rw [Nat.mod_eq_of_lt (hoff (Nat.succ_pos n))] at hread hfile hlen ⊢
      rw [hread, Option.getD_some]
      have hnext := hl.store h.noAlias hv hp (hlen.trans_le hle)
      refine (ih (i := i + 1) (by omega) (fun hpos => ?_) (h.store howns _) hnext).mono
        fun ok t ht => ⟨ht.1, fun hok => (ht.2 hok).congr fun a => ?_⟩
      · -- another page is to come, so this one was read in full
        have : n1 = PGSIZE := by
          rw [← hn1, if_neg]
          simp only [pgroundup, PGSIZE] at hn ⊢
          omega
        rw [Nat.succ_mul]
        omega
      · exact overlay_step (by rw [← hn1]; split <;> omega) hlen a

/-- **`loaduvm`** of a segment that lies below the size: the bytes of the file are over those
that were there. -/
theorem loaduvm_spec {addr filesz : ℕ} (hc : c.length < WORD) (haligned : addr % PGSIZE = 0)
    (hfits : addr + filesz ≤ sz) (hoff : offset < WORD) (h : Aside env used pd s₀ s)
    (hl : Loaded pd s sz f) :
    wp (handle env) (fun _ => False) (loaduvm pd addr (.file c) offset filesz k)
      (fun ok t => Aside env used pd s₀ t ∧
        (ok = true → Loaded pd t sz (overlay c addr offset filesz 0 f))) s := by
  have haddr : addr / PGSIZE * PGSIZE = addr := Nat.div_mul_cancel (Nat.dvd_of_mod_eq_zero haligned)
  have hfit : addr / PGSIZE + pgroundup filesz ≤ pgroundup sz := by
    simp only [pgroundup, PGSIZE] at haligned ⊢
    omega
  have hfirst : 0 < pgroundup filesz → offset + 0 * PGSIZE < WORD := by
    rw [Nat.zero_mul, Nat.add_zero]
    exact fun _ => hoff
  have hload := loadFrom_spec (i := 0) (k := k) hc (pgroundup filesz) (Nat.zero_add _) hfit hfirst
    h hl
  rw [haddr, Nat.add_zero] at hload
  rw [loaduvm, if_neg (not_not.mpr haligned)]
  exact hload

/-! ## The program headers -/

/-- Every segment ends below the size. -/
def Below (L : List (ℕ → UInt8)) (sz : ℕ) : Prop := ∀ ph ∈ L, phVaddr ph + phFilesz ph ≤ sz

theorem loaded_eq_zero (h : Below L sz) (ha : sz ≤ a) : loaded c L a = 0 := by
  have hnone : L.reverse.find? (covers a) = none := by
    refine List.find?_eq_none.mpr fun ph hph hcov => ?_
    have hle := h ph (List.mem_reverse.mp hph)
    simp only [covers, decide_eq_true_eq] at hcov
    omega
  rw [loaded, hnone]

/-- What has been loaded after some of the segments. -/
structure Progress (c : List UInt8) (L : List (ℕ → UInt8)) (pd : PageDir) (s : State) (sz : ℕ) :
    Prop where
  size : sz = top L
  below : Below L sz
  image : Loaded pd s sz (loaded c L)

/-- The end of a segment, when the sum does not wrap. -/
theorem add_mod_of_not_lt {x y : ℕ} (hx : x < WORD) (hy : y < WORD) (h : ¬(x + y) % WORD < x) :
    (x + y) % WORD = x + y := by
  simp only [WORD] at *
  omega

/-- One segment more. -/
theorem Progress.snoc {sz₁ : ℕ} (hl : Progress c L pd s sz)
    (hsz : sz₁ = max sz (phVaddr ph + phMemsz ph)) (hfile : phFilesz ph ≤ phMemsz ph)
    (himage : Loaded pd' t sz₁ (overlay c (phVaddr ph) (phOff ph) (phFilesz ph) 0 (loaded c L))) :
    Progress c (L ++ [ph]) pd' t sz₁ where
  size := by rw [top_append, ← hl.size, hsz]
  below x hx := by
    rcases List.mem_append.mp hx with hL | hlast
    · have := hl.below x hL
      omega
    · rw [List.mem_singleton.mp hlast]
      omega
  image := himage.congr fun a => by
    simp only [loaded_append, overlay, covers, decide_eq_true_eq, Nat.zero_mul, Nat.add_zero]

/-- A program header that has been read in full is the one in the file. -/
theorem header_read (ph : ℕ → UInt8) (hcount : count ((Inode.file c).readi k off phSize) = phSize) :
    off + phSize ≤ c.length ∧ ∀ a w, a + w ≤ phSize →
      field (fill ph ((Inode.file c).readi k off phSize)) a w = field (headerAt c off) a w := by
  obtain ⟨hread, hfile, -, hlen⟩ := readi_file (by decide) hcount
  refine ⟨hfile, fun a w haw => ?_⟩
  rw [hread]
  exact field_fill hlen haw

/-- **The loop over the program headers**: what the segments say is in memory, or the new address
space is given up. -/
theorem loadSegments_spec (hc : c.length < WORD) (n : ℕ) (h : Aside env used pd s₀ s)
    (hl : Progress c L pd s sz) :
    wp (handle env) (fun _ => False) (loadSegments (.file c) n pd sz ph off k)
      (fun r t => Aside env used r.2 s₀ t ∧ ∀ sz', r.1 = some sz' →
        Progress c (L ++ (headersFrom c n off).filter isLoad) r.2 t sz') s := by
  induction n generalizing pd s sz ph off k L with
  | zero =>
    refine ⟨h, ?_⟩
    rintro sz' ⟨⟩
    rwa [show (headersFrom c 0 off).filter isLoad = [] from rfl, List.append_nil]
  | succ n ih =>
    rw [loadSegments, headersFrom_succ]
    dsimp only
    split
    · exact ⟨h, by rintro _ ⟨⟩⟩
    rename_i hcount
    obtain ⟨hfile, hfield⟩ := header_read ph (not_not.mp hcount)
    have hnext : (off + phSize) % WORD = off + phSize := Nat.mod_eq_of_lt (by omega)
    generalize fill ph ((Inode.file c).readi k off phSize) = ph' at hfield ⊢
    have htype : phType ph' = phType (headerAt c off) := hfield 0 4 (by decide)
    have hoff : phOff ph' = phOff (headerAt c off) := hfield 4 4 (by decide)
    have hvaddr : phVaddr ph' = phVaddr (headerAt c off) := hfield 8 4 (by decide)
    have hfilesz : phFilesz ph' = phFilesz (headerAt c off) := hfield 16 4 (by decide)
    have hmemsz : phMemsz ph' = phMemsz (headerAt c off) := hfield 20 4 (by decide)
    have hv : phVaddr (headerAt c off) < WORD := field_lt _ _
    have hm : phMemsz (headerAt c off) < WORD := field_lt _ _
    have ho : phOff (headerAt c off) < WORD := field_lt _ _
    rw [htype, hoff, hvaddr, hfilesz, hmemsz, hnext]
    generalize headerAt c off = hd at *
    split
    · rename_i hskip
      rw [List.filter_cons_of_neg (by simpa [isLoad] using hskip)]
      exact ih h hl
    rename_i hload
    rw [List.filter_cons_of_pos (by simpa [isLoad] using hload)]
    split
    · exact ⟨h, by rintro _ ⟨⟩⟩
    rename_i hmem
    split
    · exact ⟨h, by rintro _ ⟨⟩⟩
    rename_i hwrap
    rw [add_mod_of_not_lt hv hm hwrap, wp_bind]
    refine (allocuvm_aside h hl.image.dense _).mono fun r s₁ hr => ?_
    obtain ⟨sz₁, pd₁⟩ := r
    obtain ⟨hgrows, h₁⟩ := hr
    dsimp only
    split
    · exact ⟨h₁, by rintro _ ⟨⟩⟩
    rename_i hne
    split
    · exact ⟨h₁, by rintro _ ⟨⟩⟩
    rename_i haligned
    have hround : sz ≤ pgroundup sz * PGSIZE := by
      simp only [pgroundup, PGSIZE]
      omega
    obtain ⟨hsz₁, himage⟩ := hl.image.grow hgrows hne fun a ha =>
      loaded_eq_zero hl.below (hround.trans ha)
    rw [wp_bind]
    refine (loaduvm_spec hc (not_not.mp haligned) (by omega) ho h₁ himage).mono
      fun ok s₂ hok => ?_
    obtain ⟨h₂, hloaded⟩ := hok
    cases ok with
    | false => exact ⟨h₂, by rintro _ ⟨⟩⟩
    | true =>
      have hstep := hl.snoc hsz₁ (by omega) (hloaded rfl)
      rw [List.append_cons]
      exact ih h₂ hstep

end Xv6.Vm.Ram
