import Xv6.Vm.Draws

/-!
# Address spaces without holes

A process of size `sz` has the pages below `PGROUNDUP(sz)` and no others.  The functions of
`vm.c` keep it so, on their error paths too, and then `copyuvm` and `loaduvm` find every
page they look for.  `growproc` does not: to shrink a process to size 0 frees its pages and
is then taken for a failure, so that the size stays.

## Main definitions

* `Dense pd k` — the pages of the user's half that are mapped are the first `k`.
* `NoHole` — what the functions may stop with; the panics of `copyuvm` and `loaduvm` are not
  among it.

## Main results

* `allocuvm_dense`, `deallocuvm_dense`, `copyuvm_dense`, `exec_dense`, `growproc_dense` —
  what the functions keep.
-/

namespace Xv6.Vm

open Prog

/-- The first `k` pages are mapped, and no other page of the user's half. -/
def Dense (pd : PageDir) (k : ℕ) : Prop := ∀ v < KERNPAGE, (pd.pte v).isSome ↔ v < k

/-- Stops other than those of `copyuvm` and `loaduvm`. -/
def NoHole (e : Fault) : Prop :=
  e ∉ [Fault.copyuvmNoPte, .copyuvmNotPresent, .loaduvmAligned, .loaduvmNoPte]

instance : DecidablePred NoHole := fun e => inferInstanceAs
  (Decidable (e ∉ [Fault.copyuvmNoPte, .copyuvmNotPresent, .loaduvmAligned, .loaduvmNoPte]))

variable {env : Env} {m : Kmem} {pd d : PageDir} {v k sz oldsz newsz : ℕ}

theorem Dense.congr {pd' : PageDir} (h : Dense pd k)
    (hpte : ∀ v < KERNPAGE, (pd'.pte v).isSome = (pd.pte v).isSome) : Dense pd' k := by
  intro v hv
  rw [hpte v hv]
  exact h v hv

/-- A page that is mapped has a page table. -/
theorem Dense.table (h : Dense pd k) (hv : v < KERNPAGE) (hk : v < k) :
    (pd.table (pdx v)).isSome := by
  by_contra htab
  have hnone : pd.pte v = none := pte_of_table_none (by simpa using htab)
  have hsome := (h v hv).mpr hk
  rw [hnone] at hsome
  cases hsome

/-- Without page tables in the user's half. -/
theorem dense_kernelTables (h : pd.tables = kernelTables) : Dense pd 0 := by
  intro v hv
  rw [pte_eq_none_of_tables (h ▸ pdx_notMem_kernelTables hv)]
  simp

/-! ## `vm.c` -/

/-- `mappages` of the next page. -/
theorem mappages_dense {R : Fault → Prop} (h : Dense pd k) (hk : k < KERNPAGE) (pa : Page)
    (w x : Bool) : wp (handle env) R (mappages pd k pa w x 1)
      (fun r _ => Dense r.2 (if r.1 then k + 1 else k)) m := by
  have hfit := kernpage_lt_vpages
  rw [mappages, wp_bind]
  refine walkpgdir_draws.mono fun o m₁ ho => ?_
  cases o with
  | none => exact h
  | some pd₁ =>
    obtain ⟨-, -, -, htab, hpte⟩ := ho
    have hsome : (pd₁.table (pdx k)).isSome := by
      rw [← mem_tables, htab]
      exact Finset.mem_insert_self ..
    have hnone : ¬ (pd₁.pte k).isSome := by
      rw [hpte, h k hk]
      exact Nat.lt_irrefl k
    dsimp only
    rw [if_neg hnone]
    intro v hv
    by_cases hvk : v = k
    · subst hvk
      simp [pte_setPte_self hsome]
    · rw [pte_setPte_of_ne (by omega) (by omega) hvk, hpte, h v hv]
      simp only [if_true]
      omega

/-- The loop of `deallocuvm`, which has come to page `v`: the pages from `k₀` to there are
unmapped. -/
theorem deallocFrom_dense {k₀ : ℕ} (n : ℕ) (hn : pgroundup oldsz ≤ v + n) (hv : k₀ ≤ v)
    (hold : oldsz ≤ KERNBASE) (hk : k ≤ pgroundup oldsz)
    (h : ∀ u < KERNPAGE, (pd.pte u).isSome ↔ u < k ∧ (u < k₀ ∨ v ≤ u)) :
    wp (handle env) NoHole (deallocFrom oldsz pd n v) (fun pd' _ => Dense pd' (min k k₀)) m := by
  have hfit := kernpage_lt_vpages
  -- Past the last page the loop has nothing left to do.
  have hdone : ∀ pd' v', (∀ u < KERNPAGE, (pd'.pte u).isSome ↔ u < k ∧ (u < k₀ ∨ v' ≤ u)) →
      k ≤ v' → Dense pd' (min k k₀) := by
    intro pd' v' h' hle u hu
    rw [h' u hu]
    omega
  induction n generalizing pd v m with
  | zero => exact hdone pd v h (by omega)
  | succ n ih =>
    rw [deallocFrom]
    split
    · rename_i hlt
      have hvk : v < KERNPAGE := lt_kernpage hold hlt
      rw [walkpgdir_false, wp_bind, wp_pure]
      by_cases htab : (pd.table (pdx v)).isSome
      · rw [if_pos htab]
        dsimp only
        split
        · split
          · exact wp_panic (by decide)
          · rw [wp_bind]
            refine wp_kfree (.inl ⟨by decide, by decide⟩)
              (ih (by omega) (by omega) fun u hu => ?_)
            by_cases huv : u = v
            · subst huv
              rw [pte_setPte_self htab]
              simp
              omega
            · rw [pte_setPte_of_ne (by omega) (by omega) huv, h u hu]
              omega
        · rename_i hnone
          refine ih (by omega) (by omega) fun u hu => ?_
          by_cases huv : u = v
          · subst huv
            have hu' := h u hu
            rw [hnone] at hu' ⊢
            simp at hu' ⊢
            omega
          · rw [h u hu]
            omega
      · -- The page table is not there, so neither is a later page.
        rw [if_neg htab]
        have hge : k ≤ v := by
          have hv' := h v hvk
          rw [pte_of_table_none (by simpa using htab)] at hv'
          simp at hv'
          omega
        dsimp only
        refine ih ?_ (by omega) fun u hu => ?_
        · simp only [NPTENTRIES]
          omega
        · rw [h u hu]
          simp only [NPTENTRIES]
          omega
    · rename_i hge
      refine hdone pd v h ?_
      rw [← lt_pgroundup_iff] at hge
      omega

/-- `deallocuvm` and `freevm` have no panics but `kfree`'s. -/
theorem deallocuvm_faults (pd : PageDir) (oldsz newsz : ℕ) :
    wp (handle env) (· ∈ [Fault.kfree, .freedTwice]) (deallocuvm pd oldsz newsz)
      (fun _ _ => True) m := by
  unfold deallocuvm
  split
  · trivial
  rw [wp_bind]
  generalize pgroundup oldsz - pgroundup newsz = n
  generalize pgroundup newsz = v
  induction n generalizing pd v m with
  | zero => trivial
  | succ n ih =>
    rw [deallocFrom]
    split
    · rw [walkpgdir_false, wp_bind, wp_pure]
      split
      · exact ih pd _
      · split
        · split
          · exact wp_panic (by decide)
          · rw [wp_bind]
            exact wp_kfree (.inl ⟨by decide, by decide⟩) (ih _ _)
        · exact ih _ _
    · trivial

theorem freevm_faults (pd : PageDir) :
    wp (handle env) (· ∈ [Fault.kfree, .freedTwice]) (freevm pd) (fun _ _ => True) m := by
  have hkfree : ∀ (p : Page) (m' : Kmem),
      wp (handle env) (· ∈ [Fault.kfree, .freedTwice]) (kfree p) (fun _ _ => True) m' :=
    fun p m' => wp_kfree (.inl ⟨by decide, by decide⟩) trivial
  unfold freevm
  rw [wp_bind]
  refine (deallocuvm_faults pd _ _).mono fun r m' _ => ?_
  rw [wp_bind]
  have htables : wp (handle env) (· ∈ [Fault.kfree, .freedTwice]) (freeTables r.2)
      (fun _ _ => True) m' := by
    unfold freeTables
    generalize List.finRange 1024 = l
    refine wp_forM (I := fun _ => True) (fun i _ t _ => ?_) trivial
    split
    · trivial
    · exact hkfree _ _
  exact htables.mono fun _ _ _ => hkfree _ _

theorem freevm_noHole (pd : PageDir) :
    wp (handle env) NoHole (freevm pd) (fun _ _ => True) m := by
  refine (freevm_faults pd).weaken fun e he => ?_
  revert he
  cases e <;> decide

/-- **`deallocuvm`** leaves the first pages. -/
theorem deallocuvm_dense (h : Dense pd k) (hk : k ≤ pgroundup oldsz) (hold : oldsz ≤ KERNBASE)
    (hlt : newsz < oldsz) : wp (handle env) NoHole (deallocuvm pd oldsz newsz)
      (fun r _ => r.1 = newsz ∧ Dense r.2 (min k (pgroundup newsz))) m := by
  have hmono := pgroundup_mono hlt.le
  unfold deallocuvm
  rw [if_neg (by omega), wp_bind]
  refine (deallocFrom_dense _ (by omega) le_rfl hold hk fun u hu => ?_).mono
    fun pd' m' hd => ⟨rfl, hd⟩
  rw [h u hu]
  omega

theorem allocFrom_dense (n : ℕ) (hv : v + n = pgroundup newsz) (hle : pgroundup oldsz ≤ v)
    (hnew : newsz ≤ KERNBASE) (h : Dense pd v) :
    wp (handle env) NoHole (allocFrom oldsz newsz pd n v) (fun r _ =>
      r.1 = 0 ∧ Dense r.2 (pgroundup oldsz) ∨ r.1 = newsz ∧ Dense r.2 (pgroundup newsz)) m := by
  have hfit := pgroundup_le_kernpage hnew
  induction n generalizing pd v m with
  | zero =>
    obtain rfl : v = pgroundup newsz := hv
    exact .inr ⟨rfl, h⟩
  | succ n ih =>
    have hlt : oldsz < newsz := by
      by_contra hge
      have hmono := pgroundup_mono (Nat.le_of_not_lt hge)
      omega
    -- On failure `deallocuvm` takes the new pages back.
    have hundo : ∀ (pd' : PageDir) (m' : Kmem), Dense pd' v →
        wp (handle env) NoHole (deallocuvm pd' newsz oldsz)
          (fun r _ => Dense r.2 (pgroundup oldsz)) m' := by
      intro pd' m' h'
      refine (deallocuvm_dense h' (by omega) hnew hlt).mono fun r _ hr => ?_
      rw [Nat.min_eq_right hle] at hr
      exact hr.2
    rw [allocFrom, wp_bind]
    refine wp_kalloc (fun _ => ?_) fun mem ps _ _ => ?_
    · rw [wp_bind]
      exact (hundo pd _ h).mono fun r _ hr => .inl ⟨rfl, hr⟩
    · rw [wp_bind]
      refine (mappages_dense h (by omega) mem true true).mono fun r m' hr => ?_
      obtain ⟨ok, pd'⟩ := r
      cases ok with
      | true => exact ih (by omega) (by omega) hr
      | false =>
        simp only [Bool.false_eq_true, if_false, wp_bind] at hr ⊢
        refine (hundo pd' m' hr).mono fun r _ hr' => ?_
        rw [wp_bind]
        exact wp_kfree (.inl ⟨by decide, by decide⟩) (.inl ⟨rfl, hr'⟩)

/-- **`allocuvm`** adds the pages up to the new size, or none. -/
theorem allocuvm_dense (h : Dense pd (pgroundup oldsz)) (newsz : ℕ) :
    wp (handle env) NoHole (allocuvm pd oldsz newsz) (fun r _ =>
      r.1 = 0 ∧ Dense r.2 (pgroundup oldsz) ∨
      newsz < KERNBASE ∧ r.1 = max oldsz newsz ∧ Dense r.2 (pgroundup r.1)) m := by
  unfold allocuvm
  split
  · exact .inl ⟨rfl, h⟩
  rename_i hnew
  split
  · rename_i hlt
    exact .inr ⟨by omega, by rw [Nat.max_eq_left hlt.le], h⟩
  · rename_i hle
    have hmono := pgroundup_mono (Nat.le_of_not_lt hle)
    refine (allocFrom_dense _ (by omega) le_rfl (by omega) h).mono fun r _ hr => hr.imp id ?_
    rintro ⟨hsize, hdense⟩
    exact ⟨by omega, by omega, hsize ▸ hdense⟩

/-- `copyuvm`'s loop finds every page. -/
theorem copyFrom_dense (env : Env) (m : Kmem) (n : ℕ) (h : Dense pd k) (hn : v + n ≤ k)
    (hk : k ≤ KERNPAGE) (hd : Dense d v) : wp (handle env) NoHole (copyFrom pd d n v)
      (fun o _ => ∀ d', o = some d' → Dense d' (v + n)) m := by
  induction n generalizing d v m with
  | zero =>
    rintro d' ⟨⟩
    exact hd
  | succ n ih =>
    have hfree : ∀ (d' : PageDir) (m' : Kmem), wp (handle env) NoHole (freevm d')
        (fun _ _ => True) m' := fun d' m' => freevm_noHole d'
    rw [copyFrom, walkpgdir_false, wp_bind, wp_pure, if_pos (h.table (by omega) (by omega))]
    dsimp only
    split
    · rename_i hnone
      have hsome := (h v (by omega)).mpr (by omega)
      rw [hnone] at hsome
      cases hsome
    · rw [wp_bind]
      refine wp_kalloc (fun _ => ?_) fun mem ps _ _ => ?_
      · rw [wp_bind]
        exact (hfree d _).mono fun _ _ _ d' hd' => by cases hd'
      · rw [wp_bind]
        refine (mappages_dense hd (by omega) mem _ _).mono fun r m' hr => ?_
        obtain ⟨ok, d₁⟩ := r
        cases ok with
        | true =>
          rw [show v + (n + 1) = v + 1 + n by omega]
          exact ih m' (by omega) hr
        | false =>
          simp only [Bool.false_eq_true, if_false, wp_bind]
          exact (hfree d₁ m').mono fun _ _ _ d' hd' => by cases hd'

theorem copyuvm_dense (layout : Layout) (h : Dense pd (pgroundup sz)) (hsz : sz ≤ KERNBASE) :
    wp (handle env) NoHole (copyuvm layout pd sz)
      (fun o _ => ∀ d, o = some d → Dense d (pgroundup sz)) m := by
  unfold copyuvm
  rw [wp_bind]
  refine (setupkvm_draws layout).mono fun o m' ho => ?_
  cases o with
  | none =>
    rintro d ⟨⟩
  | some d =>
    have hcopy := copyFrom_dense env m' (pgroundup sz) h (by omega)
      (pgroundup_le_kernpage hsz) (dense_kernelTables ho.2)
    rwa [Nat.zero_add] at hcopy

/-! ## `exec` and `growproc` -/

theorem loadFrom_dense (h : Dense pd k) (hk : k ≤ KERNPAGE) (reads : ℕ → Bool) (n i : ℕ)
    (hn : v + n ≤ k) : wp (handle env) NoHole (loadFrom pd reads n v i) (fun _ _ => True) m := by
  induction n generalizing v i with
  | zero => trivial
  | succ n ih =>
    rw [loadFrom, walkpgdir_false, wp_bind, wp_pure, if_pos (h.table (by omega) (by omega))]
    dsimp only
    split
    · exact ih (i + 1) (by omega)
    · trivial

/-- `loaduvm` finds the pages of a segment that lies below the size. -/
theorem loaduvm_dense (h : Dense pd (pgroundup sz)) (hsz : sz < KERNBASE) {addr filesz : ℕ}
    (haligned : addr % PGSIZE = 0) (hfits : addr + filesz ≤ sz) (reads : ℕ → Bool) :
    wp (handle env) NoHole (loaduvm pd addr filesz reads) (fun _ _ => True) m := by
  unfold loaduvm
  rw [if_neg (not_not.mpr haligned)]
  refine loadFrom_dense h (pgroundup_le_kernpage hsz.le) reads _ _ ?_
  simp only [pgroundup, PGSIZE] at haligned ⊢
  omega

/-- The end of a segment, when the sum does not wrap. -/
theorem vaddr_add_memsz {ph : Proghdr} (h : ¬ ph.vaddr + ph.memsz < ph.vaddr) :
    (ph.vaddr + ph.memsz).toNat = ph.vaddr.toNat + ph.memsz.toNat := by
  have hv := ph.vaddr.toNat_lt
  have hm := ph.memsz.toNat_lt
  rw [UInt32.lt_iff_toNat_lt, UInt32.toNat_add] at h
  rw [UInt32.toNat_add]
  omega

theorem loadSegments_dense (phs : List (Option Proghdr)) (hsz : sz < KERNBASE)
    (h : Dense pd (pgroundup sz)) : wp (handle env) NoHole (loadSegments pd sz phs)
      (fun r _ => ∀ sz', r.1 = some sz' → sz' < KERNBASE ∧ Dense r.2 (pgroundup sz')) m := by
  induction phs generalizing pd sz m with
  | nil =>
    rintro sz' ⟨⟩
    exact ⟨hsz, h⟩
  | cons ph phs ih =>
    cases ph with
    | none =>
      rintro sz' ⟨⟩
    | some ph =>
      rw [loadSegments]
      split
      · exact ih hsz h
      split
      · rintro sz' ⟨⟩
      rename_i hfile
      split
      · rintro sz' ⟨⟩
      rename_i hwrap
      rw [wp_bind]
      refine (allocuvm_dense h _).mono fun r m' hr => ?_
      obtain ⟨sz₁, pd₁⟩ := r
      dsimp only at hr ⊢
      split
      · rintro sz' ⟨⟩
      rename_i hne
      obtain ⟨hend, hsize, hdense⟩ := hr.resolve_left fun h0 => hne h0.1
      rw [vaddr_add_memsz hwrap] at hend hsize
      split
      · rintro sz' ⟨⟩
      rename_i haligned
      have hfile' : ph.filesz.toNat ≤ ph.memsz.toNat := by
        rw [UInt32.lt_iff_toNat_lt] at hfile
        omega
      rw [wp_bind]
      refine (loaduvm_dense hdense (by omega) (not_not.mp haligned) (by omega) _).mono
        fun b m'' _ => ?_
      cases b with
      | true => exact ih (by omega) hdense
      | false =>
        rintro sz' ⟨⟩

theorem clearpteu_dense (h : Dense pd k) (hv : v < KERNPAGE) :
    wp (handle env) NoHole (clearpteu pd v) (fun pd' _ => Dense pd' k) m := by
  have hfit := kernpage_lt_vpages
  rw [clearpteu, walkpgdir_false, wp_bind, wp_pure]
  by_cases htab : (pd.table (pdx v)).isSome
  · rw [if_pos htab]
    refine h.congr fun u hu => ?_
    by_cases huv : u = v
    · subst huv
      rw [pte_setPte_self htab, Option.isSome_map]
    · rw [pte_setPte_of_ne (by omega) (by omega) huv]
  · rw [if_neg htab]
    exact wp_panic (by decide)

theorem pushStack_noHole (sz : ℕ) (argv : Argv) :
    wp (handle env) NoHole (pushStack pd sz argv) (fun _ _ => True) m := by
  have hcopyout : ∀ word0 va len m', wp (handle env) NoHole (copyout pd word0 va len)
      (fun _ _ => True) m' := by
    intro word0 va len m'
    unfold copyout
    generalize (if len = 0 then 0 else (va + len - 1) / PGSIZE + 1 - va / PGSIZE) = n
    generalize va / PGSIZE = v
    induction n generalizing v with
    | zero => trivial
    | succ n ih =>
      rw [copyoutFrom, uva2ka, walkpgdir_false, wp_bind, wp_bind, wp_pure]
      split
      · cases word0 with
        | true => exact wp_panic (by decide)
        | false => trivial
      · rw [wp_pure]
        split
        · exact ih _
        · trivial
  have hpush : ∀ sp argc lens m', wp (handle env) NoHole (pushArgs pd argv.word0 sp argc lens)
      (fun _ _ => True) m' := by
    intro sp argc lens
    induction lens generalizing sp argc with
    | nil => exact fun _ => trivial
    | cons len lens ih =>
      intro m'
      rw [pushArgs]
      split
      · trivial
      · rw [wp_bind]
        refine (hcopyout _ _ _ m').mono fun b m'' _ => ?_
        cases b with
        | true => exact ih _ _ m''
        | false => trivial
  rw [pushStack, wp_bind]
  refine (hpush _ _ _ m).mono fun o m' _ => ?_
  cases o with
  | none => trivial
  | some r => exact hcopyout _ _ _ m'

/-- **`exec`** makes a dense address space, whose size is not 0. -/
theorem exec_dense (layout : Layout) (old : PageDir) (image : Option Image) (argv : Argv) :
    wp (handle env) NoHole (exec layout old image argv) (fun o _ => ∀ r, o = some r →
      Dense r.1 (pgroundup r.2) ∧ 0 < r.2 ∧ r.2 < KERNBASE) m := by
  have hbad : ∀ (pd : PageDir) (m' : Kmem), wp (handle env) NoHole (execBad pd)
      (fun o _ => ∀ r, o = some r → Dense r.1 (pgroundup r.2) ∧ 0 < r.2 ∧ r.2 < KERNBASE) m' := by
    intro pd m'
    rw [execBad, wp_bind]
    refine (freevm_noHole pd).mono fun _ _ _ => ?_
    rintro r ⟨⟩
  unfold exec
  split
  · rintro r ⟨⟩
  split
  · rintro r ⟨⟩
  rename_i image _
  rw [wp_bind]
  refine (setupkvm_draws layout).mono fun o m₁ h₁ => ?_
  cases o with
  | none =>
    rintro r ⟨⟩
  | some pd =>
    dsimp only
    rw [execInto, wp_bind]
    refine (loadSegments_dense image.phdrs (by decide) (dense_kernelTables h₁.2)).mono
      fun r m₂ h₂ => ?_
    obtain ⟨sz, pd₂⟩ := r
    cases sz with
    | none => exact hbad pd₂ m₂
    | some sz =>
      obtain ⟨hsz, hdense⟩ := h₂ sz rfl
      have hround : pgroundup (pgroundup sz * PGSIZE) = pgroundup sz := by
        simp only [pgroundup, PGSIZE]
        omega
      rw [← hround] at hdense
      dsimp only
      rw [wp_bind]
      refine (allocuvm_dense hdense _).mono fun r m₃ h₃ => ?_
      obtain ⟨sz₃, pd₃⟩ := r
      dsimp only at h₃ ⊢
      split
      · exact hbad pd₃ m₃
      · rename_i hne
        obtain ⟨hend, hsize, hdense₃⟩ := h₃.resolve_left fun h0 => hne h0.1
        have hv : sz₃ / PGSIZE - 2 < KERNPAGE := by
          simp only [KERNBASE, PGSIZE] at hend hsize ⊢
          omega
        rw [wp_bind]
        refine (clearpteu_dense hdense₃ hv).mono fun pd₄ m₄ h₄ => ?_
        rw [wp_bind]
        refine (pushStack_noHole sz₃ argv).mono fun b m₅ _ => ?_
        cases b with
        | false => exact hbad pd₄ m₅
        | true =>
          simp only [if_true, wp_bind]
          refine (freevm_noHole old).mono fun _ _ _ => ?_
          rintro r ⟨⟩
          exact ⟨h₄, by omega, by omega⟩

/-- **`growproc`** keeps a process dense, unless the new size is 0: then the pages are
freed, and the size stays. -/
theorem growproc_dense (hsz : sz < KERNBASE) (hpos : 0 < sz) {n : ℤ} (hn : -0x80000000 ≤ n)
    (h : Dense pd (pgroundup sz)) : wp (handle env) NoHole (growproc pd sz n) (fun r _ =>
      if n < 0 ∧ (sz : ℤ) + n = 0 then r.2.2 = sz ∧ Dense r.2.1 0
      else Dense r.2.1 (pgroundup r.2.2) ∧ 0 < r.2.2 ∧ r.2.2 < KERNBASE) m := by
  unfold growproc
  dsimp only
  by_cases hgrow : 0 < n
  · rw [if_pos hgrow, wp_bind]
    refine (allocuvm_dense h _).mono fun r m' hr => ?_
    obtain ⟨r, pd'⟩ := r
    dsimp only at hr ⊢
    have hkeep : ¬ (n < 0 ∧ (sz : ℤ) + n = 0) := by omega
    split
    · rename_i h0
      rw [wp_pure]
      refine ⟨?_, hpos, hsz⟩
      rcases hr with hr | hr
      · exact hr.2
      · omega
    · rename_i hne
      obtain ⟨hend, hsize, hdense⟩ := hr.resolve_left fun h0 => hne h0.1
      rw [wp_pure]
      exact ⟨hdense, by show 0 < r; omega, by show r < KERNBASE; omega⟩
  rw [if_neg hgrow]
  by_cases hshrink : n < 0
  · rw [if_pos hshrink, wp_bind]
    have hbase : KERNBASE = 0x80000000 := rfl
    by_cases hneg : (sz : ℤ) + n < 0
    · -- The sum wraps to a size above the old one, and nothing happens.
      have hnew : sz ≤ ((sz + n) % 0x100000000).toNat := by omega
      unfold deallocuvm
      rw [if_pos hnew, wp_pure]
      dsimp only
      rw [if_neg (by omega : ¬ sz = 0), wp_pure, if_neg (by omega)]
      exact ⟨h, hpos, hsz⟩
    · have hnew : ((sz + n) % 0x100000000).toNat = (sz + n).toNat := by omega
      rw [hnew]
      refine (deallocuvm_dense h le_rfl hsz.le (by omega)).mono fun r m' hr => ?_
      obtain ⟨r, pd'⟩ := r
      obtain ⟨rfl, hdense⟩ := hr
      have hmono := pgroundup_mono (a := (sz + n).toNat) (b := sz) (by omega)
      rw [Nat.min_eq_right hmono] at hdense
      dsimp only at hdense ⊢
      by_cases hzero : (sz : ℤ) + n = 0
      · have h0 : (sz + n).toNat = 0 := by omega
        rw [if_pos h0, wp_pure, if_pos ⟨hshrink, hzero⟩]
        rw [h0] at hdense
        exact ⟨rfl, hdense⟩
      · rw [if_neg (by omega), wp_pure, if_neg (by omega)]
        exact ⟨hdense, by show 0 < (sz + n).toNat; omega, by show (sz + n).toNat < KERNBASE; omega⟩
  · rw [if_neg hshrink, wp_pure, if_neg (by omega)]
    exact ⟨h, hpos, hsz⟩

end Xv6.Vm
