import Xv6.Vm.Exclusive

/-!
# What `deallocuvm` clears

The loop of `deallocuvm` goes from page to page.  Where there is no page table it goes on by the
size of one from where it is, which need not be the first page of a table.  If the walk starts
inside a hole, it so comes out of it behind the first entries of the next page table, and leaves
them as they are.

## Main definitions

* `PassedOver pd v u` — a walk from page `v` on does not look at page `u`.
* `Clears` — what a call should do.
* `Allocated` — the pages that a call frees may be freed.

## Main results

* `deallocFrom_exact` — the loop, for any page directory.
* `deallocuvm_clears` — a call does what it should exactly when it passes over no page.
-/

namespace Xv6.Vm

open Prog

variable {env : Env} {m m' : Kmem} {pd pd' : PageDir} {v w u n oldsz newsz : ℕ}

/-- The walk starts at page `v`, in a hole, and page `u` is in the first page table behind it,
before the place at which the walk comes out. -/
def PassedOver (pd : PageDir) (v u : ℕ) : Prop :=
  v < u ∧ u % NPTENTRIES < v % NPTENTRIES ∧
    ∀ i < u / NPTENTRIES, v / NPTENTRIES ≤ i → pd.table (pdx (NPTENTRIES * i)) = none

/-- Page `u` is below `oldsz` and a walk from page `v` on comes to it. -/
def Cleared (pd : PageDir) (v oldsz u : ℕ) : Prop :=
  v ≤ u ∧ u * PGSIZE < oldsz ∧ ¬PassedOver pd v u

/-- The pages mapped from `v` on are memory, not free, and mapped once. -/
def Allocated (env : Env) (pd : PageDir) (m : Kmem) (v oldsz : ℕ) : Prop :=
  ∀ u e, v ≤ u → u * PGSIZE < oldsz → pd.pte u = some e →
    1 + m.free e.page ≤ env.room e.page ∧
      ∀ u' e', v ≤ u' → u' * PGSIZE < oldsz → pd.pte u' = some e' → e'.page = e.page → u' = u

/-- What the loop does from page `v` on. -/
structure Deallocs (pd pd' : PageDir) (m m' : Kmem) (v oldsz : ℕ) : Prop where
  gone : ∀ u < VPAGES, Cleared pd v oldsz u → pd'.pte u = none
  kept : ∀ u < VPAGES, ¬Cleared pd v oldsz u → pd'.pte u = pd.pte u
  fresh : ∀ u e, Cleared pd v oldsz u → pd.pte u = some e → m.free e.page = 0
  freed : ∀ u e, Cleared pd v oldsz u → pd.pte u = some e → m'.free e.page = 1
  others : ∀ q, (∀ u e, Cleared pd v oldsz u → pd.pte u = some e → e.page ≠ q) →
    m'.free q = m.free q

/-! ## Holes -/

theorem pdx_eq_of_div (h : u / 1024 = v / 1024) : pdx u = pdx v := by
  simp only [pdx, h]

theorem pdx_mul_div (v : ℕ) : pdx (NPTENTRIES * (v / NPTENTRIES)) = pdx v := by
  apply pdx_eq_of_div
  simp only [NPTENTRIES]
  omega

/-- In a page table nothing is passed over. -/
theorem not_passedOver (h : (pd.table (pdx v)).isSome) : ¬PassedOver pd v u := by
  rintro ⟨hlt, hmod, hhole⟩
  have hnone := hhole (v / NPTENTRIES) (by simp only [NPTENTRIES] at hmod ⊢; omega) le_rfl
  rw [pdx_mul_div] at hnone
  rw [hnone] at h
  cases h

theorem not_passedOver_succ (h : (pd.table (pdx v)).isSome) : ¬PassedOver pd (v + 1) u := by
  by_cases hmod : (v + 1) % 1024 = 0
  · rintro ⟨-, hlt, -⟩
    simp only [NPTENTRIES, hmod] at hlt
    omega
  · apply not_passedOver
    rwa [pdx_eq_of_div (by omega : (v + 1) / 1024 = v / 1024)]

/-- The walk goes on in the hole. -/
theorem passedOver_skip (h : pd.table (pdx v) = none) (hu : v + NPTENTRIES ≤ u) :
    PassedOver pd (v + NPTENTRIES) u ↔ PassedOver pd v u := by
  simp only [PassedOver, NPTENTRIES] at hu ⊢
  constructor
  · rintro ⟨hlt, hmod, hhole⟩
    refine ⟨by omega, by omega, fun i hi hv => ?_⟩
    by_cases hiv : i = v / 1024
    · rw [hiv, pdx_eq_of_div (by omega : 1024 * (v / 1024) / 1024 = v / 1024)]
      exact h
    · exact hhole i hi (by omega)
  · rintro ⟨hlt, hmod, hhole⟩
    exact ⟨by omega, by omega, fun i hi hv => hhole i hi (by omega)⟩

/-- What the walk goes past in one round is not mapped or passed over. -/
theorem passedOver_of_hole (h : pd.table (pdx v) = none) (h1 : v ≤ u) (h2 : u < v + NPTENTRIES) :
    pd.pte u = none ∨ PassedOver pd v u := by
  simp only [NPTENTRIES] at h2
  by_cases hdiv : u / 1024 = v / 1024
  · left
    apply pte_of_table_none
    rw [pdx_eq_of_div hdiv, h]
    rfl
  · right
    refine ⟨by omega, by simp only [NPTENTRIES]; omega, fun i hi hv => ?_⟩
    simp only [NPTENTRIES] at hi hv
    rw [NPTENTRIES, pdx_eq_of_div (by omega : 1024 * i / 1024 = v / 1024)]
    exact h

theorem table_setPte_eq_none (w : ℕ) (e : Option Pte) (i : Fin 1024) :
    (pd.setPte w e).table i = none ↔ pd.table i = none := by
  unfold PageDir.setPte
  split
  · rfl
  · rename_i t ht
    by_cases hi : i = pdx w
    · subst hi
      simp [PageDir.setTable, ht]
    · simp [PageDir.setTable, hi]

theorem passedOver_setPte (w : ℕ) (e : Option Pte) :
    PassedOver (pd.setPte w e) v u ↔ PassedOver pd v u := by
  simp only [PassedOver, table_setPte_eq_none]

/-! ## Rounds of the loop -/

/-- `kfree` of any page: a run that goes on has found it in use. -/
theorem wp_kfree_or {R : Fault → Prop} {p : Page} {Q : Unit → Kmem → Prop}
    (hR : ∀ e, ¬1 + m.free p ≤ env.room p → R e)
    (hQ : m.free p = 0 → Q () { m with freelist := p :: m.freelist }) :
    wp (handle env) R (kfree p) Q m := by
  by_cases hroom : 1 + m.free p ≤ env.room p
  · have hle := room_le_one env p
    exact wp_kfree (.inr hroom) (hQ (by omega))
  · simp only [wp, kfree, run_op, handle]
    by_cases hp : p < env.layout.stop ∨ PHYSTOP ≤ p
    · rw [if_pos hp]
      exact hR _ hroom
    · rw [if_neg hp]
      by_cases hmem : p ∈ m.freelist
      · rw [if_pos hmem]
        exact hR _ hroom
      · rw [if_neg hmem]
        exact hQ (List.count_eq_zero.mpr hmem)

namespace Deallocs

/-- A round that clears nothing. -/
theorem congr (h : Deallocs pd pd' m m' w oldsz)
    (hsame : ∀ u, pd.pte u ≠ none → (Cleared pd v oldsz u ↔ Cleared pd w oldsz u)) :
    Deallocs pd pd' m m' v oldsz := by
  have hsome : ∀ u e, pd.pte u = some e → (Cleared pd v oldsz u ↔ Cleared pd w oldsz u) :=
    fun u e he => hsame u (by simp [he])
  constructor
  · intro u hu hc
    by_cases hw : Cleared pd w oldsz u
    · exact h.gone u hu hw
    · rw [h.kept u hu hw]
      by_contra hne
      exact hw ((hsame u hne).mp hc)
  · intro u hu hc
    by_cases hw : Cleared pd w oldsz u
    · rw [h.gone u hu hw]
      by_contra hne
      exact hc ((hsame u (Ne.symm hne)).mpr hw)
    · exact h.kept u hu hw
  · exact fun u e hc he => h.fresh u e ((hsome u e he).mp hc) he
  · exact fun u e hc he => h.freed u e ((hsome u e he).mp hc) he
  · exact fun q hq => h.others q fun u e hc he => hq u e ((hsome u e he).mpr hc) he

/-- A round that frees a page. -/
theorem cons {e : Pte} (hold : oldsz ≤ KERNBASE) (htab : (pd.table (pdx v)).isSome)
    (hlt : v * PGSIZE < oldsz) (he : pd.pte v = some e) (hfree : m.free e.page = 0)
    (h : Deallocs (pd.setPte v none) pd' { m with freelist := e.page :: m.freelist } m' (v + 1)
      oldsz) : Deallocs pd pd' m m' v oldsz := by
  have hfit := kernpage_lt_vpages
  have hv := lt_kernpage hold hlt
  -- which pages are cleared, before and after the round
  have hiff : ∀ u, Cleared pd v oldsz u ↔ u = v ∨ Cleared (pd.setPte v none) (v + 1) oldsz u := by
    intro u
    simp only [Cleared, passedOver_setPte, not_passedOver htab, not_passedOver_succ htab,
      not_false_eq_true, and_true]
    constructor
    · rintro ⟨h1, h2⟩
      by_cases huv : u = v
      · exact .inl huv
      · exact .inr ⟨by omega, h2⟩
    · rintro (rfl | ⟨h1, h2⟩)
      · exact ⟨le_rfl, hlt⟩
      · exact ⟨by omega, h2⟩
  have hne : ∀ u, Cleared (pd.setPte v none) (v + 1) oldsz u → u ≠ v := by
    rintro u ⟨h1, -, -⟩
    omega
  have hpte : ∀ u e', Cleared (pd.setPte v none) (v + 1) oldsz u → pd.pte u = some e' →
      (pd.setPte v none).pte u = some e' := by
    intro u e' hc he'
    have hu := lt_kernpage hold hc.2.1
    rw [pte_setPte_of_ne (by omega) (by omega) (hne u hc)]
    exact he'
  -- a later page is another one, since the free list has this one by then
  have hother : ∀ u e', Cleared (pd.setPte v none) (v + 1) oldsz u → pd.pte u = some e' →
      e'.page ≠ e.page := by
    intro u e' hc he' heq
    have := h.fresh u e' hc (hpte u e' hc he')
    rw [free_freed, heq, holds_self] at this
    omega
  have hsetPte : ∀ u e', (pd.setPte v none).pte u = some e' →
      Cleared (pd.setPte v none) (v + 1) oldsz u → pd.pte u = some e' := by
    intro u e' he' hc
    have hu := lt_kernpage hold hc.2.1
    rwa [pte_setPte_of_ne (by omega) (by omega) (hne u hc)] at he'
  constructor
  · intro u hu hc
    rcases (hiff u).mp hc with rfl | hc
    · rw [h.kept u hu fun hc => hne u hc rfl, pte_setPte_self htab]
    · exact h.gone u hu hc
  · intro u hu hc
    have hc := mt (hiff u).mpr hc
    push Not at hc
    rw [h.kept u hu hc.2, pte_setPte_of_ne hu (by omega) hc.1]
  · intro u e' hc he'
    rcases (hiff u).mp hc with rfl | hc
    · obtain rfl := Option.some.inj (he.symm.trans he')
      exact hfree
    · have := h.fresh u e' hc (hpte u e' hc he')
      rw [free_freed] at this
      omega
  · intro u e' hc he'
    rcases (hiff u).mp hc with rfl | hc
    · obtain rfl := Option.some.inj (he.symm.trans he')
      rw [h.others e.page fun u' e' hc' he' => hother u' e' hc' (hsetPte u' e' he' hc'),
        free_freed, holds_self, hfree]
    · exact h.freed u e' hc (hpte u e' hc he')
  · intro q hq
    rw [h.others q fun u e' hc he' => hq u e' ((hiff u).mpr (.inr hc)) (hsetPte u e' he' hc),
      free_freed, holds, if_neg (hq v e ((hiff v).mpr (.inl rfl)) he), Nat.add_zero]

end Deallocs

/-- The pages behind the one that is freed are still allocated. -/
theorem Allocated.tail {e : Pte} (h : Allocated env pd m v oldsz) (hold : oldsz ≤ KERNBASE)
    (hlt : v * PGSIZE < oldsz) (he : pd.pte v = some e) :
    Allocated env (pd.setPte v none) { m with freelist := e.page :: m.freelist } (v + 1) oldsz := by
  have hfit := kernpage_lt_vpages
  have hv := lt_kernpage hold hlt
  have hpte : ∀ u e', v + 1 ≤ u → u * PGSIZE < oldsz → (pd.setPte v none).pte u = some e' →
      pd.pte u = some e' := by
    intro u e' h1 h2 he'
    have hu := lt_kernpage hold h2
    rwa [pte_setPte_of_ne (by omega) (by omega) (by omega)] at he'
  intro u e' h1 h2 he'
  have he' := hpte u e' h1 h2 he'
  obtain ⟨hroom, honce⟩ := h u e' (by omega) h2 he'
  constructor
  · have hne : e.page ≠ e'.page := fun heq => by
      have := honce v e le_rfl hlt he heq
      omega
    rw [free_freed, holds, if_neg hne]
    omega
  · exact fun u' e'' h1' h2' he'' => honce u' e'' (by omega) h2' (hpte u' e'' h1' h2' he'')

theorem Allocated.mono (h : Allocated env pd m v oldsz) (hvw : v ≤ w) :
    Allocated env pd m w oldsz := by
  intro u e h1 h2 he
  obtain ⟨hroom, honce⟩ := h u e (by omega) h2 he
  exact ⟨hroom, fun u' e' h1' => honce u' e' (by omega)⟩

/-- **The loop of `deallocuvm`** over any page directory. -/
theorem deallocFrom_exact (n : ℕ) (hn : pgroundup oldsz ≤ v + n) (hold : oldsz ≤ KERNBASE) :
    wp (handle env) (fun _ => ¬Allocated env pd m v oldsz) (deallocFrom oldsz pd n v)
      (fun pd' m' => Deallocs pd pd' m m' v oldsz) m := by
  -- behind the last page the loop has nothing to do
  have hdone : ∀ {pd : PageDir} {m : Kmem} {v : ℕ}, ¬v * PGSIZE < oldsz →
      Deallocs pd pd m m v oldsz := by
    intro pd m v hge
    have hno : ∀ u, ¬Cleared pd v oldsz u := by
      rintro u ⟨h1, h2, -⟩
      simp only [PGSIZE] at hge h2
      omega
    exact ⟨fun u _ hc => absurd hc (hno u), fun _ _ _ => rfl, fun u _ hc => absurd hc (hno u),
      fun u _ hc => absurd hc (hno u), fun _ _ => rfl⟩
  induction n generalizing pd v m with
  | zero =>
    refine hdone ?_
    rw [← lt_pgroundup_iff]
    omega
  | succ n ih =>
    rw [deallocFrom]
    split
    · rename_i hlt
      rw [walkpgdir_false, wp_bind, wp_pure]
      by_cases htab : (pd.table (pdx v)).isSome
      · rw [if_pos htab]
        dsimp only
        split
        · rename_i e he
          split
          · rename_i h0
            refine wp_panic fun hall => ?_
            have := (hall v e le_rfl hlt he).1
            rw [h0, room_zero] at this
            omega
          · rw [wp_bind]
            refine wp_kfree_or (fun e' hroom hall => hroom (hall v e le_rfl hlt he).1)
              fun hfree => ?_
            refine ((ih (by omega)).weaken fun _ hbad hall => hbad (hall.tail hold hlt he)).mono
              fun pd' m' h => h.cons hold htab hlt he hfree
        · rename_i hnone
          refine ((ih (by omega)).weaken fun _ hbad hall => hbad (hall.mono (by omega))).mono
            fun pd' m' h => h.congr fun u hu => ?_
          simp only [Cleared, not_passedOver htab, not_passedOver_succ htab, not_false_eq_true,
            and_true]
          constructor
          · rintro ⟨h1, h2⟩
            refine ⟨Nat.lt_of_le_of_ne h1 fun heq => hu ?_, h2⟩
            rw [← heq, hnone]
          · rintro ⟨h1, h2⟩
            exact ⟨by omega, h2⟩
      · rw [if_neg htab]
        have htab : pd.table (pdx v) = none := by simpa using htab
        refine ((ih (v := v + NPTENTRIES) (by simp only [NPTENTRIES]; omega)).weaken
          fun _ hbad hall => hbad (hall.mono (by omega))).mono
            fun pd' m' h => h.congr fun u hu => ?_
        constructor
        · rintro ⟨h1, h2, h3⟩
          have hle : v + NPTENTRIES ≤ u := by
            by_contra hgt
            exact (passedOver_of_hole htab h1 (by omega)).elim hu h3
          exact ⟨hle, h2, mt (passedOver_skip htab hle).mp h3⟩
        · rintro ⟨h1, h2, h3⟩
          exact ⟨by omega, h2, mt (passedOver_skip htab h1).mpr h3⟩
    · rename_i hge
      exact hdone hge

/-- What a call should do to the pages from `PGROUNDUP(newsz)` to `oldsz`. -/
structure Clears (pd pd' : PageDir) (m m' : Kmem) (oldsz newsz : ℕ) : Prop where
  gone : ∀ u, pgroundup newsz ≤ u → u * PGSIZE < oldsz → pd'.pte u = none
  freed : ∀ u e, pgroundup newsz ≤ u → u * PGSIZE < oldsz → pd.pte u = some e →
    m.free e.page = 0 ∧ m'.free e.page = 1
  kept : ∀ u < VPAGES, ¬(pgroundup newsz ≤ u ∧ u * PGSIZE < oldsz) → pd'.pte u = pd.pte u

/-- **`deallocuvm` clears its whole range** and frees each page in it once, exactly when the walk
passes over no page that is mapped.  It comes to its end when the pages are allocated. -/
theorem deallocuvm_clears (env : Env) (pd : PageDir) (m : Kmem) (hsz : newsz < oldsz)
    (hold : oldsz ≤ KERNBASE) :
    (Allocated env pd m (pgroundup newsz) oldsz → ∃ pd' m',
      run (handle env) (deallocuvm pd oldsz newsz) m = .ok ((newsz, pd'), m')) ∧
    ∀ r pd' m', run (handle env) (deallocuvm pd oldsz newsz) m = .ok ((r, pd'), m') →
      (Clears pd pd' m m' oldsz newsz ↔ ∀ u, pgroundup newsz ≤ u → u * PGSIZE < oldsz →
        (pd.pte u).isSome → ¬PassedOver pd (pgroundup newsz) u) := by
  have hfit := kernpage_lt_vpages
  have hwp : wp (handle env) (fun _ => ¬Allocated env pd m (pgroundup newsz) oldsz)
      (deallocuvm pd oldsz newsz)
      (fun r m' => r.1 = newsz ∧ Deallocs pd r.2 m m' (pgroundup newsz) oldsz) m := by
    unfold deallocuvm
    rw [if_neg (by omega), wp_bind]
    exact (deallocFrom_exact _ (by omega) hold).mono fun pd' m' h => ⟨rfl, h⟩
  constructor
  · intro hall
    cases hrun : run (handle env) (deallocuvm pd oldsz newsz) m with
    | error e => exact absurd hall (hwp.of_error hrun)
    | ok r =>
      obtain ⟨⟨r, pd'⟩, m'⟩ := r
      obtain ⟨rfl, -⟩ := hwp.of_ok hrun
      exact ⟨pd', m', rfl⟩
  · intro r pd' m' hrun
    have h := (hwp.of_ok hrun).2
    constructor
    · intro hclears u h1 h2 hsome hpass
      have hu := lt_kernpage hold h2
      have hkept := h.kept u (by omega) fun hc => hc.2.2 hpass
      rw [hclears.gone u h1 h2] at hkept
      rw [← hkept] at hsome
      cases hsome
    · intro hno
      have hc : ∀ u, pgroundup newsz ≤ u → u * PGSIZE < oldsz → (pd.pte u).isSome →
          Cleared pd (pgroundup newsz) oldsz u := fun u h1 h2 hsome => ⟨h1, h2, hno u h1 h2 hsome⟩
      constructor
      · intro u h1 h2
        have hu := lt_kernpage hold h2
        cases hpte : pd.pte u with
        | some e => exact h.gone u (by omega) (hc u h1 h2 (by simp [hpte]))
        | none =>
          by_cases hcu : Cleared pd (pgroundup newsz) oldsz u
          · exact h.gone u (by omega) hcu
          · rw [h.kept u (by omega) hcu, hpte]
      · intro u e h1 h2 he
        have hcu := hc u h1 h2 (by simp [he])
        exact ⟨h.fresh u e hcu he, h.freed u e hcu he⟩
      · exact fun u hu hout => h.kept u hu fun hcu => hout ⟨hcu.1, hcu.2.1⟩

/-- A directory with one page table, the second, and one page in it, the first. -/
def gapDir : PageDir where
  page := 0x200
  table i := if i.val = 1 then
      some ⟨0x201, fun j => if j.val = 0 then some ⟨0x202, true, true⟩ else none⟩
    else none

theorem gapDir_pte {e : Pte} (h : gapDir.pte u = some e) :
    u / 1024 % 1024 = 1 ∧ u % 1024 = 0 ∧ e.page = 0x202 := by
  simp only [PageDir.pte, gapDir, pdx, ptx] at h
  split at h
  · rename_i h1
    simp only [Option.bind_some] at h
    split at h
    · rename_i h2
      cases h
      exact ⟨h1, h2, rfl⟩
    · cases h
  · cases h

theorem gapDir_allocated (v : ℕ) (hold : oldsz ≤ KERNBASE) :
    Allocated smallKernel gapDir ⟨[], 0⟩ v oldsz := by
  intro u e h1 h2 he
  obtain ⟨hdir, htab, hpage⟩ := gapDir_pte he
  have hu : u < 0x80000 := lt_kernpage hold h2
  constructor
  · rw [hpage]
    decide
  · intro u' e' h1' h2' he' _
    obtain ⟨hdir', htab', -⟩ := gapDir_pte he'
    have hu' : u' < 0x80000 := lt_kernpage hold h2'
    omega

theorem deallocuvm_clears_gapDir : 0 < 4198400 ∧ 4198400 ≤ KERNBASE ∧
    (Allocated smallKernel gapDir ⟨[], 0⟩ (pgroundup 0) 4198400 → ∃ pd' m',
      run (handle smallKernel) (deallocuvm gapDir 4198400 0) ⟨[], 0⟩ = .ok ((0, pd'), m')) ∧
    ∀ r pd' m', run (handle smallKernel) (deallocuvm gapDir 4198400 0) ⟨[], 0⟩ =
        .ok ((r, pd'), m') →
      (Clears gapDir pd' ⟨[], 0⟩ m' 4198400 0 ↔ ∀ u, pgroundup 0 ≤ u → u * PGSIZE < 4198400 →
        (gapDir.pte u).isSome → ¬PassedOver gapDir (pgroundup 0) u) :=
  ⟨by decide, by decide, deallocuvm_clears smallKernel gapDir ⟨[], 0⟩ (by decide) (by decide)⟩

/-- From page 1 on, the walk goes on at page 1025 and page 1024 stays. -/
theorem deallocuvm_passes_over : Allocated smallKernel gapDir ⟨[], 0⟩ (pgroundup 4096) 4198400 ∧
    run (handle smallKernel) (deallocuvm gapDir 4198400 4096) ⟨[], 0⟩ =
      .ok ((4096, gapDir), ⟨[], 0⟩) ∧
    pgroundup 4096 ≤ 1024 ∧ 1024 * PGSIZE < 4198400 ∧ (gapDir.pte 1024).isSome := by
  refine ⟨gapDir_allocated _ (by decide), ?_, by decide, by decide, by decide⟩
  unfold deallocuvm
  rw [if_neg (by decide), run_bind]
  rfl

end Xv6.Vm
