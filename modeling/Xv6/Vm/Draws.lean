import Xv6.Vm.Owners
import Mathlib.Data.Finset.Card

/-!
# How many pages a page directory takes

`setupkvm` takes one page for the directory and one for each of the 64 page tables of the
kernel's half, in this order, and stops at the first that it does not get.  As it gives
nothing back, the pages it has taken are the first of the free list.

## Main definitions

* `Drawn env m m' n` — the next `n` calls of `kalloc` gave a page each.
* `Refused env m m' n` — so did `n` calls, and the one after them did not.
* `PageDir.tables` — where the directory has page tables.

## Main results

* `setupkvm_draws` — `setupkvm` draws 65 pages, or is refused one of them.
-/

namespace Xv6.Vm

open Prog

/-- The next `n` calls of `kalloc` gave the first `n` pages of the list. -/
structure Drawn (env : Env) (m m' : Kmem) (n : ℕ) : Prop where
  pages : n ≤ m.freelist.length
  allowed : ∀ i < n, env.fails (m.calls + i) = false
  eq : m' = ⟨m.freelist.drop n, m.calls + n⟩

/-- The next `n` calls of `kalloc` give a page, and the call after them does not. -/
structure FailsAt (env : Env) (m : Kmem) (n : ℕ) : Prop where
  pages : n ≤ m.freelist.length
  allowed : ∀ i < n, env.fails (m.calls + i) = false
  refused : m.freelist.length = n ∨ env.fails (m.calls + n) = true

/-- The calls of `kalloc` up to the first that failed. -/
structure Refused (env : Env) (m m' : Kmem) (n : ℕ) : Prop where
  failsAt : FailsAt env m n
  eq : m' = ⟨m.freelist.drop n, m.calls + n + 1⟩

variable {env : Env} {R : Fault → Prop} {m m' m'' : Kmem} {pd pd' : PageDir} {v b n k : ℕ}

namespace Drawn

theorem refl (env : Env) (m : Kmem) : Drawn env m m 0 :=
  ⟨Nat.zero_le _, fun _ h => absurd h (Nat.not_lt_zero _), rfl⟩

theorem trans (h : Drawn env m m' n) (h' : Drawn env m' m'' k) : Drawn env m m'' (n + k) := by
  obtain ⟨hpages, hallowed, rfl⟩ := h
  obtain ⟨hpages', hallowed', rfl⟩ := h'
  rw [List.length_drop] at hpages'
  refine ⟨by omega, fun i hi => ?_, ?_⟩
  · by_cases hin : i < n
    · exact hallowed i hin
    · have h := hallowed' (i - n) (by omega)
      rwa [show m.calls + n + (i - n) = m.calls + i by omega] at h
  · rw [List.drop_drop, Nat.add_assoc]

theorem refused (h : Drawn env m m' n) (h' : Refused env m' m'' k) :
    Refused env m m'' (n + k) := by
  obtain ⟨⟨hpages, hallowed, hwhy⟩, rfl⟩ := h'
  obtain ⟨hle, hall, -⟩ := h.trans ⟨hpages, hallowed, rfl⟩
  obtain ⟨-, -, rfl⟩ := h
  refine ⟨⟨hle, hall, ?_⟩, ?_⟩
  · rw [List.length_drop] at hwhy
    rw [Nat.add_assoc] at hwhy
    exact hwhy.imp (by omega) id
  · rw [List.drop_drop, Nat.add_assoc m.calls]

/-- What has been given has not been refused. -/
theorem le_of_failsAt (h : Drawn env m m' n) (hk : FailsAt env m k) : n ≤ k := by
  by_contra hlt
  push Not at hlt
  have hpages := h.pages
  rcases hk.refused with hlen | hfail
  · omega
  · rw [h.allowed k hlt] at hfail
    cases hfail

end Drawn

theorem FailsAt.unique (h : FailsAt env m n) (h' : FailsAt env m k) : n = k :=
  Nat.le_antisymm (Drawn.le_of_failsAt ⟨h.pages, h.allowed, rfl⟩ h')
    (Drawn.le_of_failsAt ⟨h'.pages, h'.allowed, rfl⟩ h)

/-- With pages to spare, a refusal is not for want of one. -/
theorem FailsAt.fails (h : FailsAt env m n) (hlen : n < m.freelist.length) :
    env.fails (m.calls + n) = true :=
  h.refused.resolve_left (by omega)

/-- `kalloc` draws one page or is refused it. -/
theorem kalloc_draws : wp (handle env) R kalloc (fun o m' => match o with
    | none => Refused env m m' 0 ∧ ∀ q, m'.free q = m.free q
    | some p => Drawn env m m' 1 ∧ ∀ q, m'.free q + holds p q = m.free q) m := by
  refine wp_kalloc (fun h => ⟨⟨⟨Nat.zero_le _, ?_, ?_⟩, rfl⟩, fun _ => rfl⟩)
    fun p ps hm hf => ⟨⟨?_, fun i hi => ?_, ?_⟩, fun q => (free_taken hm _ q).symm⟩
  · exact fun _ h => absurd h (Nat.not_lt_zero _)
  · exact h.imp (fun h => by rw [h]; rfl) id
  · rw [hm]
    exact Nat.succ_le_succ (Nat.zero_le _)
  · rw [Nat.lt_one_iff.mp hi]
    exact hf
  · rw [hm]
    rfl

/-! ## Page tables -/

/-- Where there are page tables. -/
def PageDir.tables (pd : PageDir) : Finset (Fin 1024) :=
  Finset.univ.filter fun i => (pd.table i).isSome

@[simp] theorem mem_tables {i : Fin 1024} : i ∈ pd.tables ↔ (pd.table i).isSome := by
  simp [PageDir.tables]

theorem pte_eq_none_of_tables (h : pdx v ∉ pd.tables) : pd.pte v = none :=
  pte_of_table_none (by simpa using h)

@[simp] theorem tables_empty (p : Page) : (⟨p, fun _ => none⟩ : PageDir).tables = ∅ := by
  ext i
  simp

theorem tables_setPte (pd : PageDir) (v : ℕ) (e : Option Pte) :
    (pd.setPte v e).tables = pd.tables := by
  unfold PageDir.setPte
  split
  · rfl
  · rename_i t ht
    ext i
    by_cases hi : i = pdx v
    · subst hi
      simp [PageDir.setTable, ht]
    · simp [PageDir.setTable, hi]

theorem tables_setTable (pd : PageDir) (i : Fin 1024) (t : Table) :
    (pd.setTable i t).tables = insert i pd.tables := by
  ext j
  by_cases hj : j = i
  · subst hj
    simp [PageDir.setTable]
  · simp [PageDir.setTable, hj]

/-- A new page table maps nothing. -/
theorem pte_newTable (h : pd.table (pdx v) = none) (p : Page) (u : ℕ) :
    (pd.setTable (pdx v) ⟨p, fun _ => none⟩).pte u = pd.pte u := by
  by_cases hu : pdx u = pdx v
  · simp [PageDir.pte, PageDir.setTable, hu, h]
  · simp [PageDir.pte, PageDir.setTable, hu]

/-- `walkpgdir` draws a page for the page table if there is none. -/
theorem walkpgdir_draws : wp (handle env) R (walkpgdir pd v true) (fun o m' => match o with
    | none => Refused env m m' 0 ∧ pdx v ∉ pd.tables
    | some pd' => ∃ d, Drawn env m m' d ∧ pd.tables.card + d = pd'.tables.card ∧
        pd'.tables = insert (pdx v) pd.tables ∧ pd'.pte = pd.pte) m := by
  unfold walkpgdir
  split
  · rename_i t ht
    have hmem : pdx v ∈ pd.tables := by simp [ht]
    refine ⟨0, Drawn.refl env m, Nat.add_zero _, ?_, rfl⟩
    rw [Finset.insert_eq_self.mpr hmem]
  · rename_i ht
    have hmem : pdx v ∉ pd.tables := by simp [ht]
    simp only [if_true, wp_bind]
    refine kalloc_draws.mono fun o m' h => ?_
    cases o with
    | none => exact ⟨h.1, hmem⟩
    | some p =>
      refine ⟨1, h.1, ?_, tables_setTable .., funext fun u => pte_newTable ht p u⟩
      rw [tables_setTable, Finset.card_insert_of_notMem hmem]

/-- `pd'` is `pd` with entries for the `n` pages from `v` on, and with page tables for them
that took `d` pages. -/
structure Mapped (T : Finset (Fin 1024)) (pd pd' : PageDir) (v n d : ℕ) : Prop where
  count : pd.tables.card + d = pd'.tables.card
  sub : pd'.tables ⊆ T
  mono : pd.tables ⊆ pd'.tables
  cover : ∀ u, v ≤ u → u < v + n → pdx u ∈ pd'.tables
  above : ∀ u, v + n ≤ u → u < VPAGES → pd'.pte u = none

/-- `mappages` over pages that are not mapped, in page tables of the set `T`: it does not
panic, and fails only while one of the tables is missing. -/
theorem mappages_draws {T : Finset (Fin 1024)} (n : ℕ) (pa : Page) (w x : Bool)
    (hT : ∀ u, v ≤ u → u < v + n → pdx u ∈ T) (hsub : pd.tables ⊆ T)
    (habove : ∀ u, v ≤ u → u < VPAGES → pd.pte u = none) (hv : v + n ≤ VPAGES) :
    wp (handle env) R (mappages pd v pa w x n) (fun r m' => match r.1 with
      | true => ∃ d, Drawn env m m' d ∧ Mapped T pd r.2 v n d
      | false => ∃ d, Refused env m m' d ∧ pd.tables.card + d < T.card) m := by
  induction n generalizing pd v pa m with
  | zero =>
    refine ⟨0, Drawn.refl env m, Nat.add_zero _, hsub, Finset.Subset.refl _, fun u h h' => ?_, ?_⟩
    · omega
    · exact fun u h => habove u h
  | succ n ih =>
    rw [mappages, wp_bind]
    refine walkpgdir_draws.mono fun o m₁ h => ?_
    cases o with
    | none =>
      refine ⟨0, h.1, ?_⟩
      rw [Nat.add_zero]
      apply Finset.card_lt_card
      exact (Finset.ssubset_iff_of_subset hsub).mpr ⟨pdx v, hT v le_rfl (by omega), h.2⟩
    | some pd₁ =>
      obtain ⟨d, hdrawn, hcount, htab, hpte⟩ := h
      have hvtab : pdx v ∈ pd₁.tables := htab ▸ Finset.mem_insert_self ..
      have hnone : pd₁.pte v = none := by
        rw [hpte]
        exact habove v le_rfl (by omega)
      dsimp only
      rw [if_neg (by rw [hnone]; simp)]
      have hsub₁ : (pd₁.setPte v (some ⟨pa, w, x⟩)).tables ⊆ T := by
        rw [tables_setPte, htab]
        exact Finset.insert_subset (hT v le_rfl (by omega)) hsub
      have habove₁ : ∀ u, v + 1 ≤ u → u < VPAGES →
          (pd₁.setPte v (some ⟨pa, w, x⟩)).pte u = none := by
        intro u hu hu'
        rw [pte_setPte_of_ne hu' (by omega) (by omega), hpte]
        exact habove u (by omega) hu'
      refine (ih (pa + 1) (fun u hu hu' => hT u (by omega) (by omega)) hsub₁ habove₁
        (by omega)).mono fun r m₂ hr => ?_
      simp only [tables_setPte] at hr
      obtain ⟨ok, pd₂⟩ := r
      cases ok with
      | false =>
        obtain ⟨d', hrefused, hlt⟩ := hr
        exact ⟨d + d', hdrawn.refused hrefused, by omega⟩
      | true =>
        obtain ⟨d', hdrawn', hcount', hsub', hmono, hcover, habove'⟩ := hr
        rw [tables_setPte] at hcount' hmono
        refine ⟨d + d', hdrawn.trans hdrawn', by omega, hsub', ?_, fun u hu hu' => ?_, ?_⟩
        · exact (htab ▸ Finset.subset_insert ..).trans hmono
        · by_cases hvu : u = v
          · exact hmono (hvu ▸ hvtab)
          · exact hcover u (by omega) (by omega)
        · exact fun u hu => habove' u (by omega)

/-- `mappages` of a single page that is not mapped draws one if the page table is missing. -/
theorem mappages_one (hpte : pd.pte v = none) (pa : Page) (w x : Bool) :
    wp (handle env) R (mappages pd v pa w x 1) (fun r m' => match r.1 with
      | true => Drawn env m m' (if pdx v ∈ pd.tables then 0 else 1) ∧
          r.2.tables = insert (pdx v) pd.tables
      | false => Refused env m m' 0 ∧ pdx v ∉ pd.tables ∧ r.2 = pd) m := by
  rw [mappages, wp_bind]
  refine walkpgdir_draws.mono fun o m₁ h => ?_
  cases o with
  | none => exact ⟨h.1, h.2, rfl⟩
  | some pd₁ =>
    obtain ⟨d, hdrawn, hcount, htab, hsame⟩ := h
    dsimp only
    rw [hsame, hpte, if_neg (by simp)]
    refine ⟨?_, (tables_setPte ..).trans htab⟩
    rw [htab] at hcount
    by_cases hmem : pdx v ∈ pd.tables
    · rw [Finset.insert_eq_self.mpr hmem] at hcount
      rw [if_pos hmem, show 0 = d by omega]
      exact hdrawn
    · rw [Finset.card_insert_of_notMem hmem] at hcount
      rw [if_neg hmem, show 1 = d by omega]
      exact hdrawn

/-! ## `setupkvm` -/

/-- Entries of `kmap` in the order of their addresses, from page `b` on. -/
def Ascending : ℕ → List Kmap → Prop
  | b, [] => b ≤ VPAGES
  | b, k :: ks => b ≤ k.virt ∧ Ascending (k.virt + (k.physEnd - k.physStart)) ks

theorem Ascending.le_vpages {ks : List Kmap} (h : Ascending b ks) : b ≤ VPAGES := by
  induction ks generalizing b with
  | nil => exact h
  | cons k ks ih => exact (h.1.trans (Nat.le_add_right _ _)).trans (ih h.2)

theorem mapKernel_draws {T : Finset (Fin 1024)} (ks : List Kmap) (hasc : Ascending b ks)
    (hT : ∀ k ∈ ks, ∀ u, k.virt ≤ u → u < k.virt + (k.physEnd - k.physStart) → pdx u ∈ T)
    (hsub : pd.tables ⊆ T) (habove : ∀ u, b ≤ u → u < VPAGES → pd.pte u = none) :
    wp (handle env) R (mapKernel pd ks) (fun o m' => match o with
      | some pd' => ∃ d, Drawn env m m' d ∧ pd.tables.card + d = pd'.tables.card ∧
          pd'.tables ⊆ T ∧ pd.tables ⊆ pd'.tables ∧ ∀ k ∈ ks, ∀ u, k.virt ≤ u →
            u < k.virt + (k.physEnd - k.physStart) → pdx u ∈ pd'.tables
      | none => ∃ d, Refused env m m' d ∧ pd.tables.card + d < T.card) m := by
  induction ks generalizing pd b m with
  | nil =>
    exact ⟨0, Drawn.refl env m, Nat.add_zero _, hsub, Finset.Subset.refl _,
      fun k hk => by simp at hk⟩
  | cons k ks ih =>
    obtain ⟨hb, hasc⟩ := hasc
    obtain ⟨hTk, hTks⟩ := List.forall_mem_cons.mp hT
    rw [mapKernel, wp_bind]
    refine (mappages_draws _ k.physStart k.writable false hTk hsub
      (fun u hu => habove u (hb.trans hu)) hasc.le_vpages).mono fun r m₁ h => ?_
    obtain ⟨ok, pd₁⟩ := r
    cases ok with
    | false => exact h
    | true =>
      obtain ⟨d, hdrawn, hcount, hsub₁, hmono, hcover, habove₁⟩ := h
      refine (ih hasc hTks hsub₁ habove₁).mono fun o m₂ ho => ?_
      cases o with
      | none =>
        obtain ⟨d', hrefused, hlt⟩ := ho
        exact ⟨d + d', hdrawn.refused hrefused, by omega⟩
      | some pd₂ =>
        obtain ⟨d', hdrawn', hcount', hsub₂, hmono', hcover'⟩ := ho
        refine ⟨d + d', hdrawn.trans hdrawn', by omega, hsub₂, hmono.trans hmono', ?_⟩
        refine List.forall_mem_cons.mpr ⟨fun u hu hu' => hmono' (hcover u hu hu'), hcover'⟩

/-- The page tables of the kernel's half: memory, and the devices. -/
def kernelTables : Finset (Fin 1024) :=
  Finset.univ.filter fun i => 512 ≤ i.val ∧ i.val < 568 ∨ 1016 ≤ i.val

theorem card_kernelTables : kernelTables.card = 64 := by decide +kernel

theorem mem_kernelTables {i : Fin 1024} :
    i ∈ kernelTables ↔ 512 ≤ i.val ∧ i.val < 568 ∨ 1016 ≤ i.val := by
  simp [kernelTables]

theorem kmap_ascending (layout : Layout) : Ascending 0 (kmap layout) := by
  have htext : 0x100 < layout.data := layout.text_lt
  have hdata := layout.data_le
  have hstop : layout.stop ≤ 0x400 := layout.stop_le
  simp only [kmap, Ascending, KERNPAGE, VPAGES, EXTMEM, PHYSTOP, DEVSPACE]
  omega

theorem kmap_tables (layout : Layout) : ∀ k ∈ kmap layout, ∀ u, k.virt ≤ u →
    u < k.virt + (k.physEnd - k.physStart) → pdx u ∈ kernelTables := by
  have htext : 0x100 < layout.data := layout.text_lt
  have hdata := layout.data_le
  have hstop : layout.stop ≤ 0x400 := layout.stop_le
  simp only [kmap, KERNPAGE, VPAGES, EXTMEM, PHYSTOP, DEVSPACE, List.mem_cons,
    List.not_mem_nil, or_false, forall_eq_or_imp, forall_eq, mem_kernelTables, pdx]
  refine ⟨?_, ?_, ?_, ?_⟩ <;> intro u hu hu' <;> omega

/-- Every page table of the kernel's half is needed. -/
theorem kernelTables_needed (layout : Layout) {i : Fin 1024} (hi : i ∈ kernelTables) :
    ∃ k ∈ kmap layout, ∃ u, k.virt ≤ u ∧ u < k.virt + (k.physEnd - k.physStart) ∧ pdx u = i := by
  have htext : 0x100 < layout.data := layout.text_lt
  have hdata := layout.data_le
  have hstop : layout.stop ≤ 0x400 := layout.stop_le
  have hpdx : pdx (i.val * 1024) = i := by
    apply Fin.ext
    simp only [pdx]
    omega
  rw [mem_kernelTables] at hi
  have hcases : KERNPAGE ≤ i.val * 1024 ∧ i.val * 1024 < KERNPAGE + (EXTMEM - 0) ∨
      KERNPAGE + EXTMEM ≤ i.val * 1024 ∧
        i.val * 1024 < KERNPAGE + EXTMEM + (layout.data - EXTMEM) ∨
      KERNPAGE + layout.data ≤ i.val * 1024 ∧
        i.val * 1024 < KERNPAGE + layout.data + (PHYSTOP - layout.data) ∨
      DEVSPACE ≤ i.val * 1024 ∧ i.val * 1024 < DEVSPACE + (VPAGES - DEVSPACE) := by
    simp only [KERNPAGE, EXTMEM, PHYSTOP, DEVSPACE, VPAGES]
    omega
  rcases hcases with h | h | h | h
  · exact ⟨_, List.mem_cons_self, _, h.1, h.2, hpdx⟩
  · exact ⟨_, List.mem_cons_of_mem _ List.mem_cons_self, _, h.1, h.2, hpdx⟩
  · exact ⟨_, List.mem_cons_of_mem _ (List.mem_cons_of_mem _ List.mem_cons_self), _, h.1, h.2, hpdx⟩
  · exact ⟨_, List.mem_cons_of_mem _ (List.mem_cons_of_mem _
      (List.mem_cons_of_mem _ List.mem_cons_self)), _, h.1, h.2, hpdx⟩

/-- **`setupkvm`** never panics.  It draws 65 pages, or is refused one of them. -/
theorem setupkvm_draws (layout : Layout) :
    wp (handle env) R (setupkvm layout) (fun o m' => match o with
      | some pd => Drawn env m m' 65 ∧ pd.tables = kernelTables
      | none => ∃ d < 65, Refused env m m' d) m := by
  unfold setupkvm
  rw [wp_bind]
  refine kalloc_draws.mono fun o m₁ h => ?_
  cases o with
  | none => exact ⟨0, by omega, h.1⟩
  | some p =>
    have hsub : (⟨p, fun _ => none⟩ : PageDir).tables ⊆ kernelTables := by simp
    have habove : ∀ u, 0 ≤ u → u < VPAGES → (⟨p, fun _ => none⟩ : PageDir).pte u = none :=
      fun _ _ _ => rfl
    refine (mapKernel_draws (kmap layout) (kmap_ascending layout) (kmap_tables layout) hsub
      habove).mono fun o m₂ ho => ?_
    cases o with
    | none =>
      obtain ⟨d, hrefused, hlt⟩ := ho
      rw [card_kernelTables, tables_empty, Finset.card_empty] at hlt
      exact ⟨1 + d, by omega, h.1.refused hrefused⟩
    | some pd =>
      obtain ⟨d, hdrawn, hcount, hsub', -, hcover⟩ := ho
      have htab : pd.tables = kernelTables := by
        refine Finset.Subset.antisymm hsub' fun i hi => ?_
        obtain ⟨k, hk, u, hu, hu', rfl⟩ := kernelTables_needed layout hi
        exact hcover k hk u hu hu'
      rw [htab, card_kernelTables, tables_empty, Finset.card_empty, Nat.zero_add] at hcount
      refine ⟨?_, htab⟩
      have hall := h.1.trans hdrawn
      rwa [hcount] at hall

/-- The user's half of a new directory has no page tables. -/
theorem pdx_notMem_kernelTables (hv : v < KERNPAGE) : pdx v ∉ kernelTables := by
  have h := pdx_lt_512 hv
  rw [mem_kernelTables]
  omega

end Xv6.Vm
