import Xv6.Vm.Sbrk

/-!
# `copyout`

`copyout` goes through the pages that its bytes are for, up to the first that is not the user's.
`uva2ka` does not ask whether there is a page table for the page it looks at, so a page without
one stops the kernel, or makes it go on with whatever is at address 0.

## Main definitions

* `userPage pd v` — the page that the user has at virtual page `v`.
* `Writes` — the bytes of a buffer are at an address, and nothing else has changed.
* `Built env pd` — the directories that `setupkvm`, `allocuvm` and `clearpteu` make.

## Main results

* `copyoutFrom_spec` — the loop.
* `copyout_exact` — `copyout` is exact and total exactly when it comes to no page without a page
  table.
-/

namespace Xv6.Vm.Ram

open Function Prog

variable {env : Env} {R : Fault → Prop} {s t : State} {pd pd' : PageDir} {va v u i j k n : ℕ}
  {buf : List UInt8} {p : Page}

/-- The page of the user at virtual page `v`. -/
def userPage (pd : PageDir) (v : ℕ) : Option Page :=
  (pd.pte v).bind fun e => if e.user then some e.page else none

/-- The virtual page of byte `i` from `va` on. -/
def pageOf (va i : ℕ) : ℕ := (va + i) % WORD / PGSIZE

/-- The pages before that of byte `i` are the user's. -/
def Reaches (pd : PageDir) (va i : ℕ) : Prop := ∀ j < i, (userPage pd (pageOf va j)).isSome

/-- No page is the user's at two places. -/
def NoAlias (pd : PageDir) : Prop :=
  ∀ u < VPAGES, ∀ v < VPAGES, ∀ p, userPage pd u = some p → userPage pd v = some p → u = v

/-- The bytes of `buf` are at `va`, and everything else is as it was. -/
structure Writes (pd : PageDir) (va : ℕ) (buf : List UInt8) (s t : State) : Prop where
  kmem : t.kmem = s.kmem
  bytes : ∀ i < buf.length, ∀ p, userPage pd (pageOf va i) = some p →
    t.page p ((va + i) % PGSIZE) = buf.getD i 0
  others : ∀ p o, (∀ i < buf.length, userPage pd (pageOf va i) = some p → (va + i) % PGSIZE ≠ o) →
    t.page p o = s.page p o

/-! ## One round -/

theorem wp_uva2ka {Q : Option Page → State → Prop} :
    wp (handle env) R (uva2ka pd v) Q s ↔
      if (pd.table (pdx v)).isSome then Q (userPage pd v) s else R .nullPte := by
  rw [uva2ka, walkpgdir_false, wp_bind]
  by_cases htab : (pd.table (pdx v)).isSome
  · have hlift : lift (Pure.pure (some pd)) = Pure.pure (some pd) := rfl
    rw [if_pos htab, if_pos htab, hlift, wp_pure, userPage]
    dsimp only
    cases pd.pte v with
    | none => rfl
    | some e =>
      simp only [Option.bind_some]
      cases e.user <;> rfl
  · rw [if_neg htab, if_neg htab]
    rfl

theorem pageOf_lt (va i : ℕ) : pageOf va i < VPAGES := by
  simp only [pageOf, WORD, PGSIZE, VPAGES]
  omega

/-- Bytes at different places are different ones. -/
theorem place_inj (hi : i < WORD) (hj : j < WORD) (hpage : pageOf va i = pageOf va j)
    (hoff : (va + i) % PGSIZE = (va + j) % PGSIZE) : i = j := by
  simp only [pageOf, WORD, PGSIZE] at *
  omega

/-- The bytes that one round writes are in one page. -/
theorem pageOf_round (hva : va < WORD) (hi : i < PGSIZE - va % PGSIZE) :
    pageOf va i = va / PGSIZE := by
  simp only [pageOf, WORD, PGSIZE] at *
  omega

/-- The next round begins where this one ends. -/
theorem pageOf_next (hn : n = PGSIZE - va % PGSIZE) :
    pageOf ((va / PGSIZE + 1) * PGSIZE % WORD) j = pageOf va (n + j) ∧
      ((va / PGSIZE + 1) * PGSIZE % WORD + j) % PGSIZE = (va + (n + j)) % PGSIZE := by
  simp only [pageOf, WORD, PGSIZE] at *
  omega

/-- A round that stores `n` bytes to page `pa`, and the rest. -/
theorem Writes.cons {pa : Page} (halias : NoAlias pd) (hva : va < WORD) (hlen : buf.length < WORD)
    (hn : n = min (PGSIZE - va % PGSIZE) buf.length) (hpa : userPage pd (va / PGSIZE) = some pa)
    (h : Writes pd ((va / PGSIZE + 1) * PGSIZE % WORD) (buf.drop n)
      { s with
        page := update s.page pa
          (Xv6.Image.splice (s.page pa) (va % PGSIZE) (buf.take n)) } t) :
    Writes pd va buf s t := by
  have hPG : 0 < PGSIZE := by decide
  have hvp : va / PGSIZE < VPAGES := by
    simp only [WORD, PGSIZE, VPAGES] at *
    omega
  -- what the rest writes to is behind the bytes of this round
  have hnext : ∀ j < (buf.drop n).length,
      pageOf ((va / PGSIZE + 1) * PGSIZE % WORD) j = pageOf va (n + j) ∧
        ((va / PGSIZE + 1) * PGSIZE % WORD + j) % PGSIZE = (va + (n + j)) % PGSIZE := by
    intro j hj
    rw [List.length_drop] at hj
    exact pageOf_next (by omega)
  have hoff : ∀ i < n, (va + i) % PGSIZE = va % PGSIZE + i := by
    intro i hi
    simp only [PGSIZE] at *
    omega
  have htake : (buf.take n).length = n := by
    rw [List.length_take]
    omega
  constructor
  · exact h.kmem
  · intro i hi p hp
    by_cases hin : i < n
    · have hpage : pageOf va i = va / PGSIZE := pageOf_round hva (by omega)
      rw [hpage, hpa] at hp
      cases hp
      rw [h.others pa _ fun j hj hj' heq => ?_, hoff i hin]
      · simp only [update_self]
        rw [Xv6.Image.splice_add (by omega), List.getD_eq_getElem?_getD, List.getD_eq_getElem?_getD,
          List.getElem?_take_of_lt hin]
      · obtain ⟨h1, h2⟩ := hnext j hj
        rw [h1] at hj'
        rw [h2] at heq
        rw [List.length_drop] at hj
        have hsame := halias _ (pageOf_lt va (n + j)) _ hvp pa hj' hpa
        have := place_inj (by omega) (by omega) (hsame.trans hpage.symm) heq
        omega
    · have hj : i - n < (buf.drop n).length := by
        rw [List.length_drop]
        omega
      obtain ⟨h1, h2⟩ := hnext (i - n) hj
      have hni : n + (i - n) = i := by omega
      rw [hni] at h1 h2
      have := h.bytes (i - n) hj p (by rw [h1]; exact hp)
      rw [h2, List.getD_eq_getElem?_getD, List.getElem?_drop, hni] at this
      rw [this, List.getD_eq_getElem?_getD]
  · intro p o hno
    rw [h.others p o fun j hj hj' => ?_]
    · by_cases hp : p = pa
      · subst hp
        simp only [update_self]
        by_cases hin : va % PGSIZE ≤ o ∧ o < va % PGSIZE + n
        · have hlt : o - va % PGSIZE < n := by omega
          have hpage := pageOf_round (i := o - va % PGSIZE) hva (by omega)
          have := hno (o - va % PGSIZE) (by omega) (by rw [hpage]; exact hpa)
          rw [hoff _ hlt] at this
          omega
        · rcases Nat.lt_or_ge o (va % PGSIZE) with hlt | hge
          · exact Xv6.Image.splice_of_lt hlt
          · exact Xv6.Image.splice_of_le (by omega)
      · simp only [update_of_ne hp]
    · obtain ⟨h1, h2⟩ := hnext j hj
      rw [List.length_drop] at hj
      rw [h1] at hj'
      rw [h2]
      exact hno (n + j) (by omega) hj'

/-! ## The loop -/

/-- **The loop of `copyout`**: it writes everything, or comes to a page that is not the user's. -/
theorem copyoutFrom_spec (halias : NoAlias pd) (k : ℕ) (hk : buf.length ≤ k) (hva : va < WORD)
    (hlen : buf.length < WORD) :
    wp (handle env)
      (fun _ => ∃ i < buf.length, Reaches pd va i ∧ pd.table (pdx (pageOf va i)) = none)
      (copyoutFrom pd k va buf) (fun b t => match b with
        | true => Reaches pd va buf.length ∧ Writes pd va buf s t
        | false => ∃ i < buf.length, Reaches pd va i ∧ (pd.table (pdx (pageOf va i))).isSome ∧
            userPage pd (pageOf va i) = none) s := by
  have hdone : ∀ {va : ℕ} {s : State}, Reaches pd va ([] : List UInt8).length ∧
      Writes pd va [] s s := fun {va s} =>
    ⟨fun j hj => absurd hj (Nat.not_lt_zero j), rfl, fun i hi => absurd hi (Nat.not_lt_zero i),
      fun _ _ _ => rfl⟩
  induction k generalizing va buf s with
  | zero =>
    obtain rfl := List.length_eq_zero_iff.mp (Nat.le_zero.mp hk)
    exact hdone
  | succ k ih =>
    rw [copyoutFrom]
    split
    · rename_i hnil
      subst hnil
      exact hdone
    · rename_i hne
      have hpos : 0 < buf.length := List.length_pos_iff.mpr hne
      have hfirst : pageOf va 0 = va / PGSIZE := by
        simp only [pageOf, Nat.add_zero, Nat.mod_eq_of_lt hva]
      rw [wp_bind, wp_uva2ka]
      split
      · rename_i htab
        cases hpa : userPage pd (va / PGSIZE) with
        | none =>
          refine ⟨0, hpos, fun j hj => absurd hj (Nat.not_lt_zero j), ?_, ?_⟩
          · rw [hfirst]
            exact htab
          · rw [hfirst]
            exact hpa
        | some pa =>
          dsimp only
          rw [wp_bind, wp_store]
          generalize hn : min (PGSIZE - va % PGSIZE) buf.length = n
          have hPG : va % PGSIZE < PGSIZE := Nat.mod_lt _ (by decide)
          have hdrop : (buf.drop n).length = buf.length - n := List.length_drop
          have hva' : (va / PGSIZE + 1) * PGSIZE % WORD < WORD := Nat.mod_lt _ (by decide)
          -- what is reached in the rest is reached from the start
          have hpages : ∀ i < n, (userPage pd (pageOf va i)).isSome := by
            intro i hi
            rw [pageOf_round hva (by omega), hpa]
            rfl
          have hreach : ∀ j ≤ buf.length - n,
              Reaches pd ((va / PGSIZE + 1) * PGSIZE % WORD) j → Reaches pd va (n + j) := by
            intro j hj hr i hi
            by_cases hin : i < n
            · exact hpages i hin
            · have := hr (i - n) (by omega)
              rwa [(pageOf_next (n := n) (by omega)).1, Nat.add_sub_cancel' (by omega)] at this
          refine ((ih (by omega) hva' (by omega)).weaken fun _ hbad => ?_).mono
            fun b t hb => ?_
          · obtain ⟨j, hj, hr, htab'⟩ := hbad
            rw [hdrop] at hj
            refine ⟨n + j, by omega, hreach j (by omega) hr, ?_⟩
            rwa [(pageOf_next (n := n) (by omega)).1] at htab'
          · cases b with
            | true =>
              obtain ⟨hr, hw⟩ := hb
              rw [hdrop] at hr
              have hall := hreach _ le_rfl hr
              rw [Nat.add_sub_cancel' (by omega)] at hall
              exact ⟨hall, hw.cons halias hva hlen hn.symm hpa⟩
            | false =>
              obtain ⟨j, hj, hr, htab', hno⟩ := hb
              rw [hdrop] at hj
              rw [(pageOf_next (n := n) (by omega)).1] at htab' hno
              exact ⟨n + j, by omega, hreach j (by omega) hr, htab', hno⟩
      · rename_i htab
        refine ⟨0, hpos, fun j hj => absurd hj (Nat.not_lt_zero j), ?_⟩
        rw [hfirst]
        simpa using htab

/-! ## Directories that the kernel makes -/

/-- The directories that `setupkvm`, `allocuvm` and `clearpteu` make.  Between the calls, the rest
of the kernel may take and free pages that are not in the directory. -/
inductive Built (env : Vm.Env) : PageDir → Prop
  | setupkvm {pd : PageDir} (m m' : Kmem) (hm : ∀ q, m.free q ≤ env.room q)
      (hrun : run (Vm.handle env) (setupkvm env.layout) m = .ok (some pd, m')) : Built env pd
  | allocuvm {pd pd' : PageDir} (m m' : Kmem) (oldsz newsz r : ℕ) (hpd : Built env pd)
      (hm : ∀ q, pd.owns q + m.free q ≤ env.room q)
      (hrun : run (Vm.handle env) (Vm.allocuvm pd oldsz newsz) m = .ok ((r, pd'), m')) :
      Built env pd'
  | clearpteu {pd pd' : PageDir} (m m' : Kmem) (v : ℕ) (hpd : Built env pd) (hv : v < VPAGES)
      (hrun : run (Vm.handle env) (clearpteu pd v) m = .ok (pd', m')) : Built env pd'

/-- The kernel's half is not the user's. -/
def KernelOnly (pd : PageDir) : Prop := ∀ v, KERNPAGE ≤ v → v < VPAGES → userPage pd v = none

section Kernel

variable {e : Vm.Env} {m : Kmem}

theorem mappages_kernelOnly (hpd : KernelOnly pd) (hv : v + n ≤ VPAGES) (pa : Page) (w : Bool) :
    wp (Vm.handle e) (fun _ => True) (mappages pd v pa w false n)
      (fun r _ => KernelOnly r.2) m := by
  induction n generalizing pd v pa m with
  | zero => exact hpd
  | succ n ih =>
    rw [mappages, wp_bind]
    refine walkpgdir_draws.mono fun o m₁ ho => ?_
    cases o with
    | none => exact hpd
    | some pd₁ =>
      obtain ⟨-, -, -, htab, hsame⟩ := ho
      have hsome : (pd₁.table (pdx v)).isSome := by
        rw [← mem_tables, htab]
        exact Finset.mem_insert_self ..
      dsimp only
      split
      · exact wp_panic trivial
      · refine ih (fun u h1 h2 => ?_) (by omega) _
        by_cases huv : u = v
        · subst huv
          rw [userPage, pte_setPte_self hsome]
          rfl
        · rw [userPage, pte_setPte_of_ne h2 (by omega) huv, hsame]
          exact hpd u h1 h2

theorem mapKernel_kernelOnly (hpd : KernelOnly pd) (ks : List Kmap)
    (hks : ∀ k ∈ ks, k.virt + (k.physEnd - k.physStart) ≤ VPAGES) :
    wp (Vm.handle e) (fun _ => True) (mapKernel pd ks)
      (fun o _ => ∀ pd', o = some pd' → KernelOnly pd') m := by
  induction ks generalizing pd m with
  | nil =>
    rintro pd' h
    cases h
    exact hpd
  | cons k ks ih =>
    obtain ⟨hk, hks⟩ := List.forall_mem_cons.mp hks
    rw [mapKernel, wp_bind]
    refine (mappages_kernelOnly hpd hk _ _).mono fun r m₁ hr => ?_
    obtain ⟨ok, pd₁⟩ := r
    cases ok with
    | false =>
      rintro pd' h
      cases h
    | true => exact ih hr hks

theorem setupkvm_kernelOnly (layout : Layout) :
    wp (Vm.handle e) (fun _ => True) (setupkvm layout)
      (fun o _ => ∀ pd', o = some pd' → KernelOnly pd') m := by
  unfold setupkvm
  rw [wp_bind]
  refine kalloc_draws.mono fun o m₁ _ => ?_
  cases o with
  | none =>
    rintro pd' h
    cases h
  | some p =>
    exact mapKernel_kernelOnly (fun _ _ _ => rfl) _ fun k hk => (kmap_kernel layout k hk).2

/-- The entries of the kernel's half are as they were. -/
def SameAbove (pd pd' : PageDir) : Prop := ∀ u, KERNPAGE ≤ u → u < VPAGES → pd'.pte u = pd.pte u

theorem SameAbove.trans {pd'' : PageDir} (h : SameAbove pd pd') (h' : SameAbove pd' pd'') :
    SameAbove pd pd'' := fun u h1 h2 => (h' u h1 h2).trans (h u h1 h2)

theorem deallocuvm_above {oldsz newsz : ℕ} (hold : oldsz ≤ KERNBASE) :
    wp (Vm.handle e) (fun _ => True) (deallocuvm pd oldsz newsz)
      (fun r _ => SameAbove pd r.2) m := by
  unfold deallocuvm
  split
  · exact fun _ _ _ => rfl
  · rw [wp_bind]
    refine ((deallocFrom_exact _ (by omega) hold).weaken fun _ _ => trivial).mono
      fun pd' m' hd u h1 h2 => hd.kept u h2 fun hc => ?_
    have := lt_kernpage hold hc.2.1
    omega

theorem mappages_above (hv : v < KERNPAGE) (pa : Page) (w x : Bool) :
    wp (Vm.handle e) (fun _ => True) (mappages pd v pa w x 1) (fun r _ => SameAbove pd r.2) m := by
  have hfit := kernpage_lt_vpages
  rw [mappages, wp_bind]
  refine walkpgdir_draws.mono fun o m₁ ho => ?_
  cases o with
  | none => exact fun _ _ _ => rfl
  | some pd₁ =>
    obtain ⟨-, -, -, -, hsame⟩ := ho
    dsimp only
    split
    · exact wp_panic trivial
    · intro u h1 h2
      rw [pte_setPte_of_ne h2 (by omega) (by omega), hsame]

theorem allocuvm_above (oldsz newsz : ℕ) :
    wp (Vm.handle e) (fun _ => True) (Vm.allocuvm pd oldsz newsz)
      (fun r _ => SameAbove pd r.2) m := by
  unfold Vm.allocuvm
  split
  · exact fun _ _ _ => rfl
  split
  · exact fun _ _ _ => rfl
  rename_i hnew hle
  have hmono := pgroundup_mono (Nat.le_of_not_lt hle)
  have htop := pgroundup_le_kernpage (Nat.le_of_not_le hnew)
  have hv : pgroundup oldsz + (pgroundup newsz - pgroundup oldsz) ≤ KERNPAGE := by omega
  generalize pgroundup newsz - pgroundup oldsz = n at hv ⊢
  generalize pgroundup oldsz = v at hv ⊢
  have hundo : ∀ (pd : PageDir) (m : Kmem), wp (Vm.handle e) (fun _ => True)
      (deallocuvm pd newsz oldsz) (fun r _ => SameAbove pd r.2) m :=
    fun pd m => deallocuvm_above (by omega)
  induction n generalizing pd v m with
  | zero => exact fun _ _ _ => rfl
  | succ n ih =>
    rw [Vm.allocFrom, wp_bind]
    refine kalloc_draws.mono fun o m₁ _ => ?_
    cases o with
    | none =>
      dsimp only
      rw [wp_bind]
      exact (hundo pd m₁).mono fun r _ hr => hr
    | some mem =>
      dsimp only
      rw [wp_bind]
      refine (mappages_above (by omega) mem true true).mono fun r m₂ hr => ?_
      obtain ⟨ok, pd'⟩ := r
      cases ok with
      | true => exact (ih _ (by omega)).mono fun r _ hr' => hr.trans hr'
      | false =>
        simp only [Bool.false_eq_true, if_false, wp_bind]
        refine (hundo pd' m₂).mono fun r' m₃ hr' => ?_
        rw [wp_bind]
        exact wp_true.mono fun _ _ _ => hr.trans hr'

theorem KernelOnly.above (h : KernelOnly pd) (h' : SameAbove pd pd') : KernelOnly pd' := by
  intro v h1 h2
  rw [userPage, h' v h1 h2]
  exact h v h1 h2

/-- `clearpteu` takes no page away and gives none to the user. -/
theorem clearpteu_spec (hv : v < VPAGES) :
    wp (Vm.handle e) (fun _ => True) (clearpteu pd v) (fun pd' _ => (∀ q, pd'.owns q = pd.owns q) ∧
      ∀ u < VPAGES, userPage pd' u = if u = v then none else userPage pd u) m := by
  rw [clearpteu, walkpgdir_false, wp_bind, wp_pure]
  by_cases htab : (pd.table (pdx v)).isSome
  · rw [if_pos htab]
    refine ⟨fun q => ?_, fun u hu => ?_⟩
    · by_cases hk : v < KERNPAGE
      · have hset := owns_setPte hk htab ((pd.pte v).map fun e => { e with user := false }) q
        cases hpte : pd.pte v with
        | none => simpa [hpte, Pte.owns] using hset
        | some e =>
          rw [hpte] at hset
          exact Nat.add_right_cancel hset
      · exact owns_setPte_kernel pd (by omega) hv _ q
    · by_cases huv : u = v
      · subst huv
        rw [if_pos rfl, userPage, pte_setPte_self htab]
        cases pd.pte u <;> rfl
      · rw [if_neg huv, userPage, pte_setPte_of_ne hu hv huv]
        rfl
  · rw [if_neg htab]
    exact wp_panic trivial

end Kernel

/-- **What all these directories have in common**: no page has two uses, and the kernel's half is
the kernel's. -/
theorem Built.spec {e : Vm.Env} (h : Built e pd) : (∀ q, pd.owns q ≤ e.room q) ∧ KernelOnly pd := by
  induction h with
  | @setupkvm pd m m' hm hrun =>
    refine ⟨fun q => ?_, (setupkvm_kernelOnly _).of_ok hrun pd rfl⟩
    have h1 := (setupkvm_owns e.layout).of_ok hrun q
    have h2 := hm q
    omega
  | @allocuvm pd pd' m m' oldsz newsz r _ hm hrun ih =>
    refine ⟨fun q => ?_, ih.2.above ((allocuvm_above oldsz newsz).of_ok hrun)⟩
    have h1 := (allocuvm_owns oldsz newsz hm).of_ok hrun q
    have h2 := hm q
    simp only at h1
    omega
  | @clearpteu pd pd' m m' v _ hv hrun ih =>
    obtain ⟨h1, h2⟩ := (clearpteu_spec hv).of_ok hrun
    refine ⟨fun q => (h1 q).trans_le (ih.1 q), fun u hu hu' => ?_⟩
    rw [h2 u hu']
    split
    · rfl
    · exact ih.2 u hu hu'

theorem userPage_eq_some {v : ℕ} (h : userPage pd v = some p) :
    ∃ e, pd.pte v = some e ∧ e.page = p := by
  rw [userPage] at h
  cases hpte : pd.pte v with
  | none =>
    rw [hpte] at h
    cases h
  | some e =>
    rw [hpte] at h
    simp only [Option.bind_some] at h
    split at h
    · exact ⟨e, rfl, Option.some.inj h⟩
    · cases h

/-- A page of the user's has a page table. -/
theorem table_of_userPage {v : ℕ} (h : (userPage pd v).isSome) : (pd.table (pdx v)).isSome := by
  by_contra htab
  rw [userPage, pte_of_table_none (Bool.eq_false_iff.mpr htab)] at h
  cases h

/-- A page of the user's is one of the directory's. -/
theorem KernelOnly.maps {v : ℕ} (h : KernelOnly pd) (hv : v < VPAGES)
    (hp : userPage pd v = some p) : Maps pd v p := by
  refine ⟨?_, userPage_eq_some hp⟩
  by_contra hge
  rw [h v (by omega) hv] at hp
  cases hp

theorem KernelOnly.noAlias (h : KernelOnly pd) (howns : ∀ q, pd.owns q ≤ 1) : NoAlias pd :=
  fun _ hu _ hv p hup hvp => (h.maps hu hup).unique (h.maps hv hvp) (howns p)

theorem Built.noAlias {e : Vm.Env} (h : Built e pd) : NoAlias pd :=
  h.spec.2.noAlias fun q => (h.spec.1 q).trans (room_le_one e q)

/-- `copyout` returns, says whether all the pages are the user's, and writes just the bytes. -/
def CopyoutExact (env : Env) (pd : PageDir) (va : ℕ) (buf : List UInt8) (s : State) : Prop :=
  ∃ b t, run (handle env) (copyout pd va buf) s = .ok (b, t) ∧
    (b = true ↔ ∀ i < buf.length, (userPage pd (pageOf va i)).isSome) ∧
    (b = true → Writes pd va buf s t)

/-- **`copyout` is exact and total** exactly when the first page it touches that is not the
user's, if there is one, has a page table. -/
theorem copyout_exact (hpd : Built env.toEnv pd) (hva : va < WORD) (hlen : buf.length < WORD)
    (s : State) :
    CopyoutExact env pd va buf s ↔ ∀ i < buf.length,
      (∀ j < i, (userPage pd (pageOf va j)).isSome) → (pd.table (pdx (pageOf va i))).isSome := by
  have hspec := @copyoutFrom_spec env s pd va buf hpd.noAlias buf.length le_rfl hva hlen
  constructor
  · rintro ⟨b, t, hrun, hb, -⟩ i hi hreach
    have hend := hspec.of_ok hrun
    cases b with
    | true => exact table_of_userPage (hend.1 i hi)
    | false =>
      obtain ⟨j, hj, hreach', htab, hno⟩ := hend
      rcases Nat.lt_trichotomy i j with hij | rfl | hji
      · exact table_of_userPage (hreach' i hij)
      · exact htab
      · have := hreach j hji
        rw [hno] at this
        cases this
  · intro htab
    cases hrun : run (handle env) (copyout pd va buf) s with
    | error e =>
      obtain ⟨i, hi, hreach, hnone⟩ := hspec.of_error hrun
      have := htab i hi hreach
      rw [hnone] at this
      cases this
    | ok r =>
      obtain ⟨b, t⟩ := r
      have hend := hspec.of_ok hrun
      refine ⟨b, t, hrun, ?_⟩
      cases b with
      | true => exact ⟨⟨fun _ => hend.1, fun _ => rfl⟩, fun _ => hend.2⟩
      | false =>
        obtain ⟨i, hi, -, -, hno⟩ := hend
        refine ⟨⟨fun h => absurd h Bool.false_ne_true, fun h => ?_⟩,
          fun h => absurd h Bool.false_ne_true⟩
        have := h i hi
        rw [hno] at this
        cases this

/-! ## An address space without user pages -/

/-- Memory with just the pages that a new directory takes. -/
def newRam : Kmem := ⟨List.range' 0x200 65, 0⟩

theorem free_range' (b n calls q : ℕ) :
    (⟨List.range' b n, calls⟩ : Kmem).free q = if b ≤ q ∧ q < b + n then 1 else 0 := by
  rw [Kmem.free]
  split
  · rename_i hq
    exact List.count_eq_one_of_mem List.nodup_range' (List.mem_range'_1.mpr hq)
  · rename_i hq
    exact List.count_eq_zero_of_not_mem fun hmem => hq (List.mem_range'_1.mp hmem)

theorem newRam_room (q : ℕ) : newRam.free q ≤ smallRam.toEnv.room q := by
  have hroom : smallRam.room q = if 0x110 ≤ q ∧ q < 0xE000 then 1 else 0 := rfl
  rw [hroom, newRam, free_range']
  split_ifs <;> omega

/-- A directory fresh from `setupkvm`: the user has nothing, not even page tables. -/
theorem newDir : ∃ pd, Built smallRam.toEnv pd ∧ pd.table (pdx 0) = none := by
  have hnew := @setupkvm_draws smallRam.toEnv (fun _ => False) newRam smallRam.layout
  cases hrun : run (Vm.handle smallRam.toEnv) (setupkvm smallRam.layout) newRam with
  | error e => exact (hnew.of_error hrun).elim
  | ok r =>
    obtain ⟨o, m⟩ := r
    have ho := hnew.of_ok hrun
    cases o with
    | none =>
      obtain ⟨d, hd, hrefused⟩ := ho
      have hlen : newRam.freelist.length = 65 := by decide
      exact absurd (hrefused.failsAt.fails (by omega)) Bool.false_ne_true
    | some pd =>
      have h0 := pdx_notMem_kernelTables (v := 0) (by decide)
      rw [← ho.2, mem_tables] at h0
      exact ⟨pd, .setupkvm newRam m newRam_room hrun, by simpa using h0⟩

theorem copyout_exact_newDir : ∃ pd, Built smallRam.toEnv pd ∧
    (CopyoutExact smallRam pd 0 [7] fullRam ↔ ∀ i < 1,
      (∀ j < i, (userPage pd (pageOf 0 j)).isSome) → (pd.table (pdx (pageOf 0 i))).isSome) := by
  obtain ⟨pd, hpd, -⟩ := newDir
  exact ⟨pd, hpd, copyout_exact hpd (by decide) (by decide) fullRam⟩

/-- `copyout` of one byte to address 0, where there is no page table. -/
theorem copyout_nullPte : ∃ pd, Built smallRam.toEnv pd ∧
    run (handle smallRam) (copyout pd 0 [7]) fullRam = .error .nullPte ∧
      ¬CopyoutExact smallRam pd 0 [7] fullRam := by
  obtain ⟨pd, hpd, htab⟩ := newDir
  have hbad : wp (handle smallRam) (fun e => e = .nullPte) (copyout pd 0 [7])
      (fun _ _ => False) fullRam := by
    have h0 : ¬(pd.table (pdx (0 / PGSIZE))).isSome := by simp [htab]
    rw [copyout, List.length_singleton, copyoutFrom, if_neg (List.cons_ne_nil _ _), wp_bind,
      wp_uva2ka, if_neg h0]
  have hrun : run (handle smallRam) (copyout pd 0 [7]) fullRam = .error .nullPte := by
    cases hrun : run (handle smallRam) (copyout pd 0 [7]) fullRam with
    | ok r => exact (hbad.of_ok hrun).elim
    | error e => rw [hbad.of_error hrun]
  refine ⟨pd, hpd, hrun, ?_⟩
  rintro ⟨b, t, hok, -⟩
  rw [hrun] at hok
  cases hok

end Xv6.Vm.Ram
