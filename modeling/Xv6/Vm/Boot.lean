import Xv6.Vm.Calls
import Xv6.Vm.Dense

/-!
# The start of the kernel

`kinit1` and `kinit2` put every page behind the kernel on the free list; `kvmalloc`,
`startothers` and `userinit` take theirs from it.  If `kalloc` gives a page whenever there
is one, and the kernel leaves 65 of the first 4 MB for its page directory, it comes up, and
the first process has its one page.

## Main results

* `bootMem_owns` — no page has two owners.
* `bootMem_draws` — how many pages it asks for, and what a refusal does.
-/

namespace Xv6.Vm

open Prog

variable {env : Env} {R : Fault → Prop} {p : Page}

/-- The uses of page `q` by a process. -/
def Space.owns (sp : Space) (q : Page) : ℕ := holds sp.kstack q + sp.pgdir.owns q

/-- Whether page `q` is among the `n` pages from `p` on. -/
def among (p n q : ℕ) : ℕ := if p ≤ q ∧ q < p + n then 1 else 0

theorem among_succ (p n q : ℕ) : among p (n + 1) q = holds p q + among (p + 1) n q := by
  simp only [among, holds]
  split <;> split <;> split <;> omega

/-- `freerange` of pages that are memory and not free yet. -/
theorem freerange_spec {m : Kmem} (n : ℕ) (hroom : ∀ q, m.free q + among p n q ≤ env.room q) :
    wp (handle env) R (freerange p n) (fun _ m' => (∀ q, m'.free q = m.free q + among p n q) ∧
      m'.freelist.length = m.freelist.length + n ∧ m'.calls = m.calls) m := by
  induction n generalizing p m with
  | zero => exact ⟨fun q => by simp [among], rfl, rfl⟩
  | succ n ih =>
    simp only [among_succ] at hroom ⊢
    rw [freerange, wp_bind]
    refine wp_kfree (.inr ?_) ((ih fun q => ?_).mono fun _ m' h => ⟨fun q => ?_, ?_, h.2.2⟩)
    · have hp := hroom p
      rw [holds_self] at hp
      omega
    · have hq := hroom q
      rw [free_freed]
      omega
    · have hq := h.1 q
      rw [free_freed] at hq
      omega
    · rw [h.2.1, List.length_cons]
      omega

/-- The stacks came from the free list; each of them took a call. -/
theorem startothers_spec {m : Kmem} (n : ℕ) :
    wp (handle env) R (startothers n)
      (fun l m' => (∀ q, l.count q + m'.free q = m.free q) ∧ m'.calls = m.calls + n) m := by
  induction n generalizing m with
  | zero => exact ⟨fun q => by simp, rfl⟩
  | succ n ih =>
    rw [startothers, wp_bind]
    refine wp_kalloc (fun _ => ?_) fun p ps hm _ => ?_
    · rw [wp_bind]
      exact ih.mono fun l m' h => ⟨fun q => h.1 q, h.2.trans (Nat.add_right_comm m.calls 1 n)⟩
    · rw [wp_bind]
      refine ih.mono fun l m' h => ⟨fun q => ?_, ?_⟩
      · have hq := h.1 q
        have htaken := free_taken hm (m.calls + 1) q
        have hcount : (p :: l).count q = l.count q + holds p q := by
          simp [holds, List.count_cons]
        simp only [Option.toList_some, List.singleton_append]
        omega
      · exact h.2.trans (Nat.add_right_comm m.calls 1 n)

theorem userinit_owns {m : Kmem} (layout : Layout) :
    wp (handle env) VmFault (userinit layout)
      (fun sp m' => (∀ q, sp.owns q + m'.free q ≤ m.free q) ∧ sp.sz = PGSIZE) m := by
  unfold userinit
  rw [wp_bind]
  refine wp_kalloc (fun _ => wp_panic (by decide)) fun p ps hm _ => ?_
  dsimp only
  rw [wp_bind]
  refine (setupkvm_owns layout).mono fun o m₁ h₁ => ?_
  cases o with
  | none => exact wp_panic (by decide)
  | some pd =>
    dsimp only at h₁ ⊢
    rw [wp_bind]
    refine (inituvm_owns pd).mono fun pd' m₂ h₂ => ⟨fun q => ?_, rfl⟩
    have htaken := free_taken hm (m.calls + 1) q
    have hq := h₁ q
    have hq' := h₂ q
    simp only [Space.owns]
    omega

/-- The pages of `kinit1` and `kinit2` are those that may have an owner. -/
theorem room_eq (env : Env) (q : ℕ) : among env.layout.stop (EARLY - env.layout.stop) q +
    among EARLY (PHYSTOP - EARLY) q = env.room q := by
  have hstop := env.layout.stop_le
  have hearly : EARLY ≤ PHYSTOP := by decide
  simp only [among, Env.room]
  split <;> split <;> split <;> omega

theorem bootMem_owns (env : Env) : wp (handle env) VmFault (bootMem env.layout env.others)
    (fun r m => r.2.2.sz = PGSIZE ∧ ∀ q,
      r.1.owns q + r.2.1.count q + r.2.2.owns q + m.free q ≤ env.room q) ⟨[], 0⟩ := by
  have hempty : ∀ q, (⟨[], 0⟩ : Kmem).free q = 0 := fun _ => rfl
  have hroom := room_eq env
  unfold bootMem
  rw [wp_bind, kinit1]
  refine (freerange_spec _ fun q => ?_).mono fun _ m₁ h₁ => ?_
  · rw [hempty, ← hroom q]
    omega
  replace h₁ := h₁.1
  simp only [hempty, Nat.zero_add] at h₁
  rw [wp_bind]
  refine (setupkvm_owns env.layout).mono fun o m₂ h₂ => ?_
  cases o with
  | none => exact wp_panic (by decide)
  | some kpgdir =>
    dsimp only at h₂ ⊢
    rw [wp_bind]
    refine (startothers_spec env.others).mono fun l m₃ h₃ => ?_
    rw [wp_bind, kinit2]
    -- The loop is long: its length is a variable from here on.
    generalize PHYSTOP - EARLY = n at hroom
    refine (freerange_spec n fun q => ?_).mono fun _ m₄ h₄ => ?_
    · have hq := hroom q
      have hq₁ := h₁ q
      have hq₂ := h₂ q
      have hq₃ := h₃.1 q
      omega
    rw [wp_bind]
    refine (userinit_owns env.layout).mono fun sp m₅ h₅ => ⟨h₅.2, fun q => ?_⟩
    have hq := hroom q
    have hq₁ := h₁ q
    have hq₂ := h₂ q
    have hq₃ := h₃.1 q
    have hq₄ := h₄.1 q
    have hq₅ := h₅.1 q
    dsimp only
    omega

/-! ## Success -/

/-- `inituvm` does not look at what `mappages` returns. -/
theorem inituvm_draws {m : Kmem} {pd : PageDir} (htab : pd.tables = kernelTables) :
    wp (handle env) (fun _ => FailsAt env m 0) (inituvm pd) (fun pd' m' =>
      Drawn env m m' 2 ∧ Dense pd' 1 ∨ Refused env m m' 1) m := by
  have hnew : pdx 0 ∉ pd.tables := htab ▸ pdx_notMem_kernelTables (by decide)
  unfold inituvm
  rw [wp_bind]
  refine kalloc_draws.mono fun o m₁ ho => ?_
  cases o with
  | none => exact ho.1.failsAt
  | some mem =>
    dsimp only
    rw [wp_bind]
    refine (wp.and (mappages_dense (dense_kernelTables htab) (by decide) mem true true)
      (mappages_one (R := fun _ => True) (pte_eq_none_of_tables hnew) mem true true)).mono
        fun r m₂ hr => ?_
    obtain ⟨ok, pd'⟩ := r
    obtain ⟨hdense, hdraws⟩ := hr
    cases ok with
    | true =>
      rw [if_neg hnew] at hdraws
      exact .inl ⟨ho.1.trans hdraws.1, hdense⟩
    | false => exact .inr (ho.1.refused hdraws.1)

theorem userinit_draws {m : Kmem} (layout : Layout) :
    wp (handle env) (fun _ => ∃ d < 67, FailsAt env m d) (userinit layout) (fun sp m' =>
      Drawn env m m' 68 ∧ Dense sp.pgdir (pgroundup sp.sz) ∨ Refused env m m' 67) m := by
  unfold userinit
  rw [wp_bind]
  refine kalloc_draws.mono fun o m₁ ho => ?_
  cases o with
  | none => exact ⟨0, by omega, ho.1.failsAt⟩
  | some kstack =>
    dsimp only
    rw [wp_bind]
    refine (setupkvm_draws layout).mono fun o m₂ ho₂ => ?_
    cases o with
    | none =>
      obtain ⟨d, hd, hrefused⟩ := ho₂
      exact ⟨1 + d, by omega, (ho.1.refused hrefused).failsAt⟩
    | some pd =>
      have hone : pgroundup PGSIZE = 1 := by decide
      have hdrawn := ho.1.trans ho₂.1
      dsimp only
      rw [wp_bind]
      refine ((inituvm_draws ho₂.2).weaken fun _ hfail => ?_).mono fun pd' m₃ h => ?_
      · exact ⟨66, by omega, (hdrawn.refused ⟨hfail, rfl⟩).failsAt⟩
      · refine h.imp (fun h => ⟨hdrawn.trans h.1, ?_⟩) fun h => hdrawn.refused h
        show Dense pd' (pgroundup PGSIZE)
        rw [hone]
        exact h.2

/-- **The kernel comes up**, if it leaves enough of the first 4 MB and none of the pages it
asks for is refused. -/
theorem bootMem_draws (env : Env) : wp (handle env)
    (fun _ => (∃ n < 133 + env.others, env.fails n = true) ∨ EARLY < env.layout.stop + 65)
    (bootMem env.layout env.others) (fun r m' => m'.calls = 133 + env.others ∧
      (Dense r.2.2.pgdir (pgroundup r.2.2.sz) ∧ 100 ≤ m'.freelist.length ∨
        ∃ n < m'.calls, env.fails n = true)) ⟨[], 0⟩ := by
  have hempty : ∀ q, (⟨[], 0⟩ : Kmem).free q = 0 := fun _ => rfl
  have hroom := room_eq env
  unfold bootMem
  rw [wp_bind, kinit1]
  refine (freerange_spec _ fun q => ?_).mono fun _ m₁ h₁ => ?_
  · rw [hempty, ← hroom q]
    omega
  obtain ⟨hfree₁, hlen₁, hcalls₁⟩ := h₁
  simp only [hempty, Nat.zero_add, List.length_nil] at hfree₁ hlen₁ hcalls₁
  rw [wp_bind]
  refine (wp.and (setupkvm_draws env.layout) (setupkvm_owns env.layout)).mono fun o m₂ h₂ => ?_
  obtain ⟨hdraws, howns⟩ := h₂
  cases o with
  | none =>
    obtain ⟨d, hd, hrefused⟩ := hdraws
    by_cases hstop : EARLY < env.layout.stop + 65
    · exact .inr hstop
    · exact .inl ⟨m₁.calls + d, by omega, hrefused.failsAt.fails (by omega)⟩
  | some kpgdir =>
    have hcalls₂ : m₂.calls = 65 := by
      rw [hdraws.1.eq, hcalls₁]
    dsimp only at howns ⊢
    rw [wp_bind]
    refine (startothers_spec env.others).mono fun l m₃ h₃ => ?_
    rw [wp_bind, kinit2]
    have hmany : 168 ≤ PHYSTOP - EARLY := by decide
    generalize PHYSTOP - EARLY = n at hroom hmany
    refine (freerange_spec n fun q => ?_).mono fun _ m₄ h₄ => ?_
    · have hq := hroom q
      have hq₁ := hfree₁ q
      have hq₂ := howns q
      have hq₃ := h₃.1 q
      omega
    obtain ⟨-, hlen₄, hcalls₄⟩ := h₄
    rw [h₃.2, hcalls₂] at hcalls₄
    rw [wp_bind]
    refine ((userinit_draws env.layout).weaken fun _ h => ?_).mono fun sp m₅ h₅ => ?_
    · obtain ⟨d, hd, hfail⟩ := h
      exact .inl ⟨m₄.calls + d, by omega, hfail.fails (by omega)⟩
    · rcases h₅ with ⟨⟨-, -, rfl⟩, hdense⟩ | ⟨hfail, rfl⟩
      · refine ⟨?_, .inl ⟨hdense, ?_⟩⟩
        · show m₄.calls + 68 = 133 + env.others
          omega
        · rw [List.length_drop]
          omega
      · refine ⟨?_, .inr ⟨m₄.calls + 67, Nat.lt_succ_self _, hfail.fails (by omega)⟩⟩
        show m₄.calls + 67 + 1 = 133 + env.others
        omega

end Xv6.Vm
