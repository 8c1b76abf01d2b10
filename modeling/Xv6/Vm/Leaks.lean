import Xv6.Vm.Exclusive

/-!
# What a failed `fork` or `exec` loses

A call that runs out of memory gives back what it has taken, but for two places.  When
`setupkvm` does not get a page table it returns 0 and leaves its page directory and the page
tables before it; and when `copyuvm` does not get a page table for a page it has just
filled, it frees the address space, in which that page is not.

Which of them it is depends on the number of the call of `kalloc` that fails first: `fork`
takes the kernel stack, the page directory and the 64 page tables of the kernel's half,
and then 1025 pages for every 1024 it copies, the second of them a page table.

## Main definitions

* `Leaks c n` — call `c` loses pages when its `kalloc` number `n` is the first that fails.

## Main results

* `leak_iff` — the free pages are the same after the call exactly when it does not.
-/

namespace Xv6.Vm

open Prog Outcome Machine

/-- Whether pages are lost when the `n`th call of `kalloc`, from 0, is the first to fail. -/
def Leaks : Call → ℕ → Prop
  | .fork, n => 2 ≤ n ∧ n ≤ 65 ∨ 67 ≤ n ∧ (n - 67) % 1025 = 0
  | .exec _ _, n => 1 ≤ n ∧ n ≤ 64
  | _, _ => False

/-- The same pages are free. -/
def SameFree (m m' : Kmem) : Prop := ∀ q, q ∈ m'.freelist ↔ q ∈ m.freelist

variable {env : Env} {s s' : Sys} {i : Fin 64} {sp : Space} {m m' : Kmem} {pd d : PageDir}
  {v n : ℕ} {p : Page}

theorem mem_freelist {q : Page} : q ∈ m.freelist ↔ 0 < m.free q := List.count_pos_iff.symm

theorem sameFree_of_free (h : ∀ q, m'.free q = m.free q) : SameFree m m' := by
  intro q
  rw [mem_freelist, mem_freelist, h q]

/-- A page that is missing makes a difference, when it was there once. -/
theorem not_sameFree (hle : m.free p ≤ 1) (h : m'.free p + 1 ≤ m.free p) : ¬ SameFree m m' := by
  intro hsame
  have hp := (hsame p).mpr (mem_freelist.mpr (by omega))
  have hpos := mem_freelist.mp hp
  omega

/-- A page that has been drawn is not there. -/
theorem exists_drawn {k : ℕ} (hk : 0 < k) (hlen : k ≤ m.freelist.length) (c : ℕ) :
    ∃ p, (⟨m.freelist.drop k, c⟩ : Kmem).free p + 1 ≤ m.free p := by
  obtain ⟨l, calls⟩ := m
  cases l with
  | nil =>
    rw [List.length_nil] at hlen
    omega
  | cons p l =>
    obtain ⟨k, rfl⟩ := Nat.exists_eq_succ_of_ne_zero hk.ne'
    refine ⟨p, ?_⟩
    have hrest : (l.drop k).count p ≤ l.count p := (List.drop_sublist _ _).count_le p
    simp only [Kmem.free, List.drop_succ_cons, List.count_cons_self]
    omega

/-! ## `copyuvm` -/

/-- The calls of `kalloc` for the pages below `v`: each takes one, and every 1024th a page
table too. -/
def copyCalls (v : ℕ) : ℕ := v + (v + 1023) / 1024

/-- The page tables of the user's half that the pages below `v` need. -/
def Reaches (d : PageDir) (v : ℕ) : Prop := ∀ u < KERNPAGE, pdx u ∈ d.tables ↔ u / 1024 * 1024 < v

theorem reaches_mapped (h : Reaches d v) (hv : v < KERNPAGE) {d' : PageDir}
    (htab : d'.tables = insert (pdx v) d.tables) : Reaches d' (v + 1) := by
  intro u hu
  rw [htab, Finset.mem_insert, h u hu]
  have hpdx : pdx u = pdx v ↔ u / 1024 = v / 1024 := by
    simp only [pdx, KERNPAGE, Fin.mk.injEq] at hu hv ⊢
    omega
  rw [hpdx]
  omega

/-- How the loop of `copyuvm` fails.  The calls for the pages below `v` come before. -/
theorem copyFrom_fails (k : ℕ) (hk : v + k ≤ KERNPAGE) (hd : Dense d v) (hreach : Reaches d v)
    (hsole : ∀ q, d.owns q + m.free q ≤ env.room q) :
    wp (handle env) (fun _ => True) (copyFrom pd d k v) (fun o m' => o = none →
      ∃ n, FailsAt env m n ∧
        ((copyCalls v + n) % 1025 ≠ 1 ∧ (∀ q, m'.free q = d.owns q + m.free q) ∨
          (copyCalls v + n) % 1025 = 1 ∧
            ∃ mem, ∀ q, m'.free q + holds mem q = d.owns q + m.free q)) m := by
  induction k generalizing d v m with
  | zero => rintro ⟨⟩
  | succ k ih =>
    have hv : v < KERNPAGE := by omega
    have hpte : d.pte v = none := by
      have h := hd v hv
      cases hd' : d.pte v with
      | none => rfl
      | some e =>
        rw [hd'] at h
        exact absurd (h.mp rfl) (Nat.lt_irrefl v)
    rw [copyFrom, walkpgdir_false, wp_bind, wp_pure]
    split
    · exact wp_panic trivial
    split
    · exact wp_panic trivial
    rename_i e _
    rw [wp_bind]
    refine kalloc_draws.mono fun o m₁ h => ?_
    cases o with
    | none =>
      obtain ⟨hrefused, hfree⟩ := h
      rw [wp_bind]
      refine ((freevm_owns d fun q => ?_).weaken fun _ _ => trivial).mono fun _ m₂ h₂ _ => ?_
      · rw [hfree q]
        exact hsole q
      · refine ⟨0, hrefused.failsAt, .inl ⟨?_, fun q => ?_⟩⟩
        · simp only [copyCalls]
          omega
        · rw [h₂ q, hfree q]
    | some mem =>
      obtain ⟨hdrawn, hfree⟩ := h
      dsimp only
      rw [wp_bind]
      refine (wp.and (mappages_one hpte mem e.writable e.user)
        (wp.and (mappages_dense (R := fun _ => True) hd hv mem e.writable e.user)
          (mappages_owns hv mem e.writable e.user))).mono fun r m₂ hr => ?_
      obtain ⟨ok, d'⟩ := r
      obtain ⟨hdraws, hdense, howns⟩ := hr
      have hin : pdx v ∈ d.tables ↔ v % 1024 ≠ 0 := by
        rw [hreach v hv]
        omega
      cases ok with
      | true =>
        simp only [if_true] at howns hdense ⊢
        have hkeep : ∀ q, d'.owns q + m₂.free q = d.owns q + m.free q := by
          intro q
          have hq := howns q
          have hq' := hfree q
          omega
        refine (ih (by omega) hdense (reaches_mapped hreach hv hdraws.2) fun q =>
          (hkeep q).trans_le (hsole q)).mono fun o m₃ ho hnone => ?_
        obtain ⟨n, hfail, hcases⟩ := ho hnone
        have htotal := (hdrawn.trans hdraws.1).refused ⟨hfail, rfl⟩
        refine ⟨_, htotal.failsAt, ?_⟩
        have hcount : copyCalls v + (1 + (if pdx v ∈ d.tables then 0 else 1) + n) =
            copyCalls (v + 1) + n := by
          simp only [copyCalls, hin]
          split <;> omega
        rw [hcount]
        simpa only [hkeep] using hcases
      | false =>
        dsimp only at hdraws
        obtain ⟨hrefused, hout, rfl⟩ := hdraws
        simp only [Bool.false_eq_true, if_false, Nat.add_zero, wp_bind] at howns ⊢
        have hsole' : ∀ q, d'.owns q + m₂.free q ≤ env.room q := by
          intro q
          have hq := howns q
          have hq' := hfree q
          have hle := hsole q
          omega
        refine ((freevm_owns d' hsole').weaken fun _ _ => trivial).mono fun _ m₃ h₃ _ => ?_
        refine ⟨1, (hdrawn.refused hrefused).failsAt, .inr ⟨?_, mem, fun q => ?_⟩⟩
        · rw [hin, not_not] at hout
          simp only [copyCalls]
          omega
        · have hq := howns q
          have hq' := hfree q
          have hq₃ := h₃ q
          omega

/-! ## The calls -/

/-- What is to be said of a call that fails. -/
def LeakSpec (env : Env) (s : Sys) (c : Call) (r : Bool × Sys) : Prop :=
  r.1 = false → ∀ n, FailsAt env s.kmem n → s.kmem.calls + n < r.2.kmem.calls →
    (SameFree s.kmem r.2.kmem ↔ ¬ Leaks c n)

theorem reaches_kernelTables (h : d.tables = kernelTables) : Reaches d 0 := by
  intro u hu
  rw [h]
  exact iff_of_false (pdx_notMem_kernelTables hu) (Nat.not_lt_zero _)

/-- `fork`, once it has a kernel stack. -/
theorem copyuvm_leaks {kstack : Page} (hsz : sp.sz < KERNBASE) (hone : ∀ q, m.free q ≤ 1)
    (hdrawn : Drawn env m m' 1) (hfree : ∀ q, m'.free q + holds kstack q = m.free q)
    (hsole : ∀ q, m'.free q ≤ env.room q) :
    wp (handle env) (fun _ => True) (copyuvm env.layout sp.pgdir sp.sz) (fun o m₂ => o = none →
      ∃ n, FailsAt env m n ∧
        (SameFree m ⟨kstack :: m₂.freelist, m₂.calls⟩ ↔ ¬ Leaks .fork n)) m' := by
  have hfit := pgroundup_le_kernpage hsz.le
  unfold copyuvm
  rw [wp_bind]
  refine (wp.and (setupkvm_draws env.layout) (setupkvm_owns env.layout)).mono fun o m₁ h => ?_
  obtain ⟨hdraws, howns⟩ := h
  cases o with
  | none =>
    intro _
    obtain ⟨k, hk, hrefused⟩ := hdraws
    refine ⟨1 + k, (hdrawn.refused hrefused).failsAt, ?_⟩
    obtain ⟨hfail, rfl⟩ := hrefused
    by_cases hzero : k = 0
    · subst hzero
      refine iff_of_true (sameFree_of_free fun q => ?_) ?_
      · have hq := hfree q
        rw [free_freed]
        exact hq
      · simp only [Leaks]
        omega
    · obtain ⟨p, hp⟩ := exists_drawn (Nat.pos_of_ne_zero hzero) hfail.pages (m'.calls + k + 1)
      refine iff_of_false (not_sameFree (p := p) (hone p) ?_) ?_
      · have hq := hfree p
        have hle := hone p
        rw [free_freed]
        omega
      · simp only [Leaks, not_not]
        omega
  | some d =>
    dsimp only at howns ⊢
    refine (copyFrom_fails (pgroundup sp.sz) (by omega) (dense_kernelTables hdraws.2)
      (reaches_kernelTables hdraws.2) fun q => ?_).mono fun o m₂ ho hnone => ?_
    · rw [howns q]
      exact hsole q
    · obtain ⟨n, hfail, hcases⟩ := ho hnone
      have htotal := (hdrawn.trans hdraws.1).refused ⟨hfail, rfl⟩
      refine ⟨1 + 65 + n, htotal.failsAt, ?_⟩
      simp only [howns] at hcases
      have hzero : copyCalls 0 = 0 := rfl
      rw [hzero, Nat.zero_add] at hcases
      rcases hcases with ⟨hmod, hsame⟩ | ⟨hmod, mem, hlost⟩
      · refine iff_of_true (sameFree_of_free fun q => ?_) ?_
        · have hq := hsame q
          have hq' := hfree q
          rw [free_freed]
          omega
        · simp only [Leaks]
          omega
      · refine iff_of_false (not_sameFree (p := mem) (hone mem) ?_) ?_
        · have hq := hlost mem
          have hq' := hfree mem
          rw [holds_self] at hq
          rw [free_freed]
          omega
        · simp only [Leaks, not_not]
          omega

theorem fork_leaks (hs : Owned env s) (hsp : s.space i = some sp) :
    Sat (fun _ => True) (LeakSpec env s .fork) (fork env s i sp) := by
  have hsz := (hs.small i sp (by rw [life_of_space hsp]; rfl)).2
  have hfree₀ : ∀ q, s.kmem.free q ≤ env.room q := fun q =>
    (Nat.le_add_right _ _).trans (hs.sole q)
  have hone : ∀ q, s.kmem.free q ≤ 1 := fun q => (hfree₀ q).trans (room_le_one env q)
  unfold fork allocproc
  split
  · -- No slot, and no call of `kalloc`.
    intro _ n _ hmade
    exact absurd hmade (by show ¬ s.kmem.calls + n < s.kmem.calls; omega)
  rw [sat_bind, sat_bind, sat_mem]
  refine kalloc_draws.mono fun o m₁ h => ?_
  cases o with
  | none =>
    intro _ n hfail _
    obtain rfl := h.1.failsAt.unique hfail
    refine iff_of_true (sameFree_of_free h.2) ?_
    simp only [Leaks]
    omega
  | some kstack =>
    obtain ⟨hdrawn, hfree⟩ := h
    dsimp only
    rw [sat_pure]
    dsimp only
    rw [sat_bind, sat_mem]
    refine (copyuvm_leaks hsz hone hdrawn hfree fun q => ?_).mono fun o m₂ ho => ?_
    · have hq := hfree q
      have hle := hfree₀ q
      show m₁.free q ≤ env.room q
      omega
    cases o with
    | none =>
      dsimp only
      rw [sat_bind, sat_mem]
      refine wp_kfree (.inl ⟨trivial, trivial⟩) fun _ n hfail _ => ?_
      obtain ⟨n', hfail', hiff⟩ := ho rfl
      obtain rfl := hfail'.unique hfail
      exact hiff
    | some d =>
      dsimp only
      rw [sat_bind]
      refine (dupFiles_shrinks _ _ _).mono (fun _ _ => trivial) fun s₃ _ => ?_
      rintro ⟨⟩

theorem sysExec_leaks (hs : Owned env s) (hsp : s.space i = some sp) (image : Option Image)
    (argv : Argv) :
    Sat (fun _ => True) (LeakSpec env s (.exec image argv)) (sysExec env s i sp image argv) := by
  have hlife := life_of_space hsp
  have hle := hs.life_owns i
  simp only [hlife, Life.owns, Space.owns] at hle
  have hone : ∀ q, s.kmem.free q ≤ 1 := fun q =>
    ((Nat.le_add_right _ _).trans (hle q)).trans (room_le_one env q)
  unfold sysExec
  rw [sat_bind, sat_mem]
  have hnone : wp (handle env) (fun _ => True) (exec env.layout sp.pgdir image argv)
      (fun o m => o = none → LeakSpec env s (.exec image argv) (false, { s with kmem := m }))
      s.kmem := by
    unfold exec
    split
    · intro _ _ n _ hmade
      exact absurd hmade (by show ¬ s.kmem.calls + n < s.kmem.calls; omega)
    split
    · intro _ _ n _ hmade
      exact absurd hmade (by show ¬ s.kmem.calls + n < s.kmem.calls; omega)
    rename_i image _
    rw [wp_bind]
    refine (wp.and (setupkvm_draws env.layout) (setupkvm_owns env.layout)).mono fun o m₁ h => ?_
    obtain ⟨hdraws, howns⟩ := h
    cases o with
    | none =>
      intro _ _ n hfail _
      obtain ⟨k, hk, hrefused⟩ := hdraws
      obtain rfl := hrefused.failsAt.unique hfail
      obtain ⟨-, rfl⟩ := hrefused
      by_cases hzero : k = 0
      · subst hzero
        refine iff_of_true (sameFree_of_free fun q => rfl) ?_
        simp only [Leaks]
        omega
      · obtain ⟨p, hp⟩ := exists_drawn (Nat.pos_of_ne_zero hzero) hfail.pages
          (s.kmem.calls + k + 1)
        refine iff_of_false (not_sameFree (p := p) (hone p) hp) ?_
        simp only [Leaks, not_not]
        omega
    | some pd =>
      dsimp only at howns ⊢
      refine ((execInto_owns sp.pgdir image.phdrs argv fun q => ?_).weaken
        fun _ _ => trivial).mono fun o m₂ ho hnone _ n hfail _ => ?_
      · have hq := hle q
        rw [howns q]
        omega
      · subst hnone
        have hge := hdraws.1.le_of_failsAt hfail
        refine iff_of_true (sameFree_of_free fun q => (ho q).trans (howns q)) ?_
        simp only [Leaks]
        omega
  refine hnone.mono fun o m ho => ?_
  cases o with
  | none => exact ho rfl
  | some r => rintro ⟨⟩

/-- **What failures cost.**  Let `fork` or `exec` return −1 after its `n`th call of `kalloc`
was the first that failed, in any state the kernel can get to.  The same pages are free as
before exactly when call `n` is not one whose failure leaks. -/
theorem leak_iff {s₀ : Sys} {acts : List (Fin 64 × Call)} {c : Call} (hboot : boot env = .ok s₀)
    (hrun : Machine.exec (step env) s₀ acts = some s) (hsp : s.space i = some sp)
    (hc : c = .fork ∨ ∃ image argv, c = .exec image argv)
    (hfail : FailsAt env s.kmem n) (hcall : call env s i sp c = .ok (false, s'))
    (hmade : s.kmem.calls + n < s'.kmem.calls) :
    SameFree s.kmem s'.kmem ↔ ¬ Leaks c n := by
  have h₀ : Owned env s₀ := owned_boot.of_ok hboot
  have hs := exec_invariant (fun s a s' hs _ hst => owned_step hs hst) h₀ along_true hrun
  rcases hc with rfl | ⟨image, argv, rfl⟩
  · exact (fork_leaks hs hsp).of_ok hcall rfl n hfail hmade
  · exact (sysExec_leaks hs hsp image argv).of_ok hcall rfl n hfail hmade

/-! ## A leak -/

/-- `fork` returns −1 when it does not get one of the pages for the kernel's half. -/
theorem fork_refused (i : Fin 64) (sp : Space) (hs : Owned env s)
    (hslot : ∃ j, (s.proc j).life = .unused) (hfail : FailsAt env s.kmem n) (hn : 1 ≤ n)
    (hn' : n ≤ 65) :
    Sat (fun _ => False) (fun r => r.1 = false ∧ s.kmem.calls + n < r.2.kmem.calls)
      (fork env s i sp) := by
  have hfree₀ : ∀ q, s.kmem.free q ≤ env.room q := fun q =>
    (Nat.le_add_right _ _).trans (hs.sole q)
  unfold fork allocproc
  split
  · rename_i hnone
    obtain ⟨j, hj⟩ := hslot
    have h := List.find?_eq_none.mp hnone j (List.mem_finRange j)
    simp [hj] at h
  rw [sat_bind, sat_bind, sat_mem]
  refine kalloc_draws.mono fun o m₁ h => ?_
  cases o with
  | none =>
    have hzero := h.1.failsAt.unique hfail
    omega
  | some kstack =>
    obtain ⟨hdrawn, hfree⟩ := h
    dsimp only
    rw [sat_pure]
    dsimp only
    rw [sat_bind, sat_mem, copyuvm, wp_bind]
    refine (wp.and (setupkvm_draws env.layout) (setupkvm_owns env.layout)).mono fun o m₂ ho => ?_
    cases o with
    | some d =>
      have hge := (hdrawn.trans ho.1.1).le_of_failsAt hfail
      omega
    | none =>
      obtain ⟨⟨k, -, hrefused⟩, hle⟩ := ho
      have hall := hdrawn.refused hrefused
      obtain rfl := hall.failsAt.unique hfail
      rw [wp_pure]
      dsimp only
      rw [sat_bind, sat_mem]
      refine wp_kfree (.inr ?_) ⟨rfl, ?_⟩
      · have hk := hle kstack
        have hq := hfree kstack
        have hroom := hfree₀ kstack
        rw [holds_self] at hq
        dsimp only at hk ⊢
        omega
      · show s.kmem.calls + (1 + k) < m₂.calls
        rw [hall.eq]
        exact Nat.lt_succ_self _

/-- A kernel that is refused the third page of the first `fork`. -/
def shortKernel : Env := { smallKernel with fails := fun n => Nat.beq n 136 }

theorem shortKernel_fails {n : ℕ} (h : n ≠ 136) : shortKernel.fails n = false :=
  Bool.eq_false_of_not_eq_true fun hn => h (Nat.eq_of_beq_eq_true hn)

/-- The first `fork` of `shortKernel` fails at its third page, the first page table. -/
theorem shortKernel_fork : ∃ s₀ sp s', boot shortKernel = .ok s₀ ∧ Owned shortKernel s₀ ∧
    s₀.space initproc = some sp ∧ FailsAt shortKernel s₀.kmem 2 ∧
    call shortKernel s₀ initproc sp .fork = .ok (false, s') ∧
    s₀.kmem.calls + 2 < s'.kmem.calls := by
  have hfails : ∀ n < 134, shortKernel.fails n = false := by
    intro n hn
    exact shortKernel_fails (by omega)
  obtain ⟨s₀, hboot⟩ := boot_ok shortKernel hfails (by decide)
  have hown : Owned shortKernel s₀ := owned_boot.of_ok hboot
  obtain ⟨r, m, hrun, rfl⟩ := boot_eq_ok.mp hboot
  obtain ⟨hcalls, hcases⟩ := (bootMem_draws _).of_ok hrun
  have hcalls' : m.calls = 134 := hcalls
  have hlen : 100 ≤ m.freelist.length := by
    rcases hcases with h | ⟨n, hn, hfail⟩
    · exact h.2
    · rw [hfails n (by omega)] at hfail
      cases hfail
  have hfail : FailsAt shortKernel m 2 := by
    refine ⟨by omega, fun i hi => ?_, .inr ?_⟩
    · exact shortKernel_fails (by omega)
    · rw [hcalls']
      rfl
  have hsat := fork_refused initproc r.2.2 hown ⟨⟨1, by omega⟩, rfl⟩ hfail
    (by omega) (by omega)
  cases hcall : fork shortKernel _ initproc r.2.2 with
  | error e => exact (hsat.of_error hcall).elim
  | ok x =>
    obtain ⟨b, s'⟩ := x
    obtain ⟨hb, hmade⟩ := hsat.of_ok hcall
    dsimp only at hb hmade
    subst hb
    exact ⟨_, r.2.2, s', hboot, hown, rfl, hfail, hcall, hmade⟩

theorem leak_iff_shortKernel : ∃ s₀ s' : Sys, boot shortKernel = .ok s₀ ∧
    (SameFree s₀.kmem s'.kmem ↔ ¬ Leaks .fork 2) := by
  obtain ⟨s₀, sp, s', hboot, -, hsp, hfail, hcall, hmade⟩ := shortKernel_fork
  have hrun : Machine.exec (step shortKernel) s₀ [] = some s₀ := rfl
  exact ⟨s₀, s', hboot, leak_iff hboot hrun hsp (.inl rfl) hfail hcall hmade⟩

/-- The page directory of the child is neither used nor free after that `fork`. -/
theorem fork_loses_pages : ∃ s₀ sp s', boot shortKernel = .ok s₀ ∧
    s₀.space initproc = some sp ∧ call shortKernel s₀ initproc sp .fork = .ok (false, s') ∧
    ¬ SameFree s₀.kmem s'.kmem := by
  obtain ⟨s₀, sp, s', hboot, hown, hsp, hfail, hcall, hmade⟩ := shortKernel_fork
  refine ⟨s₀, sp, s', hboot, hsp, hcall, ?_⟩
  rw [(fork_leaks hown hsp).of_ok hcall rfl 2 hfail hmade, not_not]
  exact .inl ⟨by decide, by decide⟩

end Xv6.Vm
