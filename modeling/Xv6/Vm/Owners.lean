import Xv6.Vm.Pgdir
import Xv6.Lib.Tally
import Mathlib.Data.Fintype.Basic

/-!
# Where the pages go

Every page that leaves the free list goes into an address space, and every page that leaves
an address space goes back to the free list.  For a page `q`, `owns` counts its uses in a
page directory and `Kmem.free` its places in the free list; the lemmas say that the
functions of `vm.c` leave the sum of the two as it was, or say what is missing.  As long as
the sum is at most 1, a page that is freed is not on the list already.

Entries of the kernel's half map pages that they do not own.

## Main definitions

* `PageDir.owns pd q` — the uses of page `q` in `pd`: as the directory itself, as one of
  its page tables, and in entries of the user's half.
* `VmFault` — what the functions may stop with; a page freed twice is not among it.

## Main results

* `mappages_owns`, `allocuvm_owns`, `deallocuvm_owns` — nothing is lost.
* `freevm_owns` — everything goes back.
* `setupkvm_owns` — a failure loses what it had.
-/

namespace Xv6.Vm

open Prog

/-- Whether `p` is the page counted. -/
def holds (p q : ℕ) : ℕ := if p = q then 1 else 0

@[simp] theorem holds_self (p : Page) : holds p p = 1 := if_pos rfl

/-- The places of page `q` in the free list. -/
def Kmem.free (m : Kmem) (q : Page) : ℕ := m.freelist.count q

/-- The page an entry maps. -/
def Pte.owns (q : Page) : Option Pte → ℕ
  | none => 0
  | some e => holds e.page q

/-- The pages that a page table maps. -/
def Table.maps (t : Table) (q : Page) : ℕ := ∑ j, Pte.owns q (t.pte j)

/-- The page table at index `i` of a directory, and what it maps for the user. -/
def Table.owns (q : Page) (i : Fin 1024) : Option Table → ℕ
  | none => 0
  | some t => holds t.page q + if i.val < 512 then t.maps q else 0

def PageDir.owns (pd : PageDir) (q : Page) : ℕ :=
  holds pd.page q + ∑ i, Table.owns q i (pd.table i)

/-- The number of owners page `q` may have: one, if it is memory behind the kernel. -/
def Env.room (env : Env) (q : ℕ) : ℕ := if env.layout.stop ≤ q ∧ q < PHYSTOP then 1 else 0

/-- What the functions on memory may stop with. -/
def VmFault (e : Fault) : Prop :=
  e ∉ [Fault.kfree, .freedTwice, .filedup, .fileclose, .pipeclose, .initExiting]

instance : DecidablePred VmFault := fun e => inferInstanceAs
  (Decidable (e ∉ [Fault.kfree, .freedTwice, .filedup, .fileclose, .pipeclose, .initExiting]))

theorem room_le_one (env : Env) (q : ℕ) : env.room q ≤ 1 := by
  unfold Env.room
  split <;> omega

@[simp] theorem room_zero (env : Env) : env.room 0 = 0 := by
  have htext := env.layout.text_lt
  have hdata := env.layout.data_le
  rw [Env.room, if_neg (by omega)]

variable {env : Env} {R : Fault → Prop} {m : Kmem} {pd : PageDir} {v : ℕ} {q : Page}

/-! ## The operations -/

section Ops

variable {α : Type}

/-- `kalloc` fails, or takes the first page. -/
theorem wp_kalloc {Q : Option Page → Kmem → Prop}
    (hnone : m.freelist = [] ∨ env.fails m.calls = true → Q none ⟨m.freelist, m.calls + 1⟩)
    (hsome : ∀ p ps, m.freelist = p :: ps → env.fails m.calls = false →
      Q (some p) ⟨ps, m.calls + 1⟩) : wp (handle env) R kalloc Q m := by
  obtain ⟨l, n⟩ := m
  simp only [wp, kalloc, run_op, handle]
  cases l with
  | nil => exact hnone (.inl rfl)
  | cons p ps =>
    dsimp only at hnone hsome ⊢
    by_cases hf : env.fails n = true
    · rw [if_pos hf]
      exact hnone (.inr hf)
    · rw [if_neg hf]
      exact hsome p ps rfl (by simpa using hf)

/-- `kfree` of a page that has room for one more owner, unless anything may be freed. -/
theorem wp_kfree {p : Page} {Q : Unit → Kmem → Prop}
    (hroom : R .kfree ∧ R .freedTwice ∨ 1 + m.free p ≤ env.room p)
    (hQ : Q () { m with freelist := p :: m.freelist }) : wp (handle env) R (kfree p) Q m := by
  simp only [wp, kfree, run_op, handle]
  by_cases hp : p < env.layout.stop ∨ PHYSTOP ≤ p
  · rw [if_pos hp]
    have hout : ¬ (env.layout.stop ≤ p ∧ p < PHYSTOP) :=
      fun hin => hp.elim (Nat.not_lt.mpr hin.1) (Nat.not_le.mpr hin.2)
    refine (hroom.resolve_right fun h => ?_).1
    rw [Env.room, if_neg hout] at h
    omega
  rw [if_neg hp]
  by_cases hmem : p ∈ m.freelist
  · rw [if_pos hmem]
    refine (hroom.resolve_right fun h => ?_).2
    have hpos : 0 < m.free p := List.count_pos_iff.mpr hmem
    have hle := room_le_one env p
    omega
  · rw [if_neg hmem]
    exact hQ

theorem wp_panic {why : Fault} {Q : α → Kmem → Prop} (hR : R why) :
    wp (handle env) R (panic why) Q m := hR

end Ops

@[simp] theorem free_freed (m : Kmem) (p q : Page) :
    ({ m with freelist := p :: m.freelist } : Kmem).free q = m.free q + holds p q := by
  simp [Kmem.free, holds, List.count_cons]

theorem free_taken {p : Page} {ps : List Page} (h : m.freelist = p :: ps) (n : ℕ) (q : Page) :
    m.free q = (⟨ps, n⟩ : Kmem).free q + holds p q := by
  simp [Kmem.free, holds, h, List.count_cons]

/-- The count of calls has no bearing on what is free. -/
@[simp] theorem free_calls (m : Kmem) (n : ℕ) (q : Page) :
    (⟨m.freelist, n⟩ : Kmem).free q = m.free q := rfl

/-! ## Entries -/

theorem pdx_lt_512 (hv : v < KERNPAGE) : (pdx v).val < 512 := by
  simp only [pdx, KERNPAGE] at hv ⊢
  omega

theorem pdx_ge_512 (hv : KERNPAGE ≤ v) (hv' : v < VPAGES) : ¬ (pdx v).val < 512 := by
  simp only [pdx, KERNPAGE, VPAGES] at hv hv' ⊢
  omega

theorem owns_setTable (pd : PageDir) (i : Fin 1024) (t : Table) (q : Page) :
    (pd.setTable i t).owns q + Table.owns q i (pd.table i) =
      pd.owns q + Table.owns q i (some t) := by
  have h := Tally.sum_update_at (Finset.mem_univ i) pd.table (some t) (Table.owns q)
  simp only [PageDir.owns, PageDir.setTable] at h ⊢
  omega

/-- A new page table is empty. -/
theorem owns_newTable (h : pd.table (pdx v) = none) (p q : Page) :
    (pd.setTable (pdx v) ⟨p, fun _ => none⟩).owns q = pd.owns q + holds p q := by
  have hset := owns_setTable pd (pdx v) ⟨p, fun _ => none⟩ q
  rw [h] at hset
  simpa [Table.owns, Table.maps, Pte.owns] using hset

theorem pte_eq {t : Table} (h : pd.table (pdx v) = some t) : pd.pte v = t.pte (ptx v) := by
  simp [PageDir.pte, h]

/-- A store to an entry of the user's half exchanges one page for another. -/
theorem owns_setPte (hv : v < KERNPAGE) (h : (pd.table (pdx v)).isSome) (e : Option Pte)
    (q : Page) : (pd.setPte v e).owns q + Pte.owns q (pd.pte v) = pd.owns q + Pte.owns q e := by
  obtain ⟨t, ht⟩ := Option.isSome_iff_exists.mp h
  have hset := owns_setTable pd (pdx v) { t with pte := Function.update t.pte (ptx v) e } q
  have hmaps := Tally.sum_update (Finset.mem_univ (ptx v)) t.pte e (Pte.owns q)
  simp only [ht, Table.owns, pdx_lt_512 hv, if_true, Table.maps] at hset
  rw [PageDir.setPte, ht, pte_eq ht]
  dsimp only
  omega

/-- A store to an entry of the kernel's half has nothing to do with pages in use. -/
theorem owns_setPte_kernel (pd : PageDir) (hv : KERNPAGE ≤ v) (hv' : v < VPAGES)
    (e : Option Pte) (q : Page) : (pd.setPte v e).owns q = pd.owns q := by
  unfold PageDir.setPte
  split
  · rfl
  · rename_i t ht
    have hset := owns_setTable pd (pdx v) { t with pte := Function.update t.pte (ptx v) e } q
    simp only [ht, Table.owns, pdx_ge_512 hv hv', if_false] at hset
    omega

@[simp] theorem setPte_table_isSome (v w : ℕ) (e : Option Pte) :
    ((pd.setPte v e).table (pdx w)).isSome = (pd.table (pdx w)).isSome := by
  unfold PageDir.setPte
  split
  · rfl
  · rename_i t ht
    by_cases hw : pdx w = pdx v
    · simp [PageDir.setTable, hw, ht]
    · simp [PageDir.setTable, hw]

/-! ## `walkpgdir` and `mappages` -/

/-- Without `alloc`, `walkpgdir` is a look at the directory. -/
theorem walkpgdir_false (pd : PageDir) (v : ℕ) : walkpgdir pd v false =
    Pure.pure (if (pd.table (pdx v)).isSome then some pd else none) := by
  unfold walkpgdir
  cases pd.table (pdx v) <;> rfl

/-- The page table is there, and any page it took came from the free list. -/
theorem walkpgdir_owns (pd : PageDir) (v : ℕ) :
    wp (handle env) R (walkpgdir pd v true) (fun o m' =>
      (∀ q, (o.getD pd).owns q + m'.free q = pd.owns q + m.free q) ∧
      ∀ pd', o = some pd' → (pd'.table (pdx v)).isSome ∧ pd'.pte v = pd.pte v) m := by
  unfold walkpgdir
  split
  · rename_i t ht
    simp [ht]
  · rename_i ht
    simp only [if_true, wp_bind]
    refine wp_kalloc (fun _ => ?_) fun p ps hm _ => ?_
    · simp
    · simp only [wp_pure, Option.getD_some, owns_newTable ht, Option.some.injEq, forall_eq']
      refine ⟨fun q => ?_, ?_⟩
      · have htaken := free_taken hm (m.calls + 1) q
        omega
      · simp [PageDir.pte, PageDir.setTable, ht]

/-- `mappages` of one page of the user's half. -/
theorem mappages_owns (hv : v < KERNPAGE) (pa : Page) (w u : Bool) :
    wp (handle env) VmFault (mappages pd v pa w u 1) (fun r m' => ∀ q,
      r.2.owns q + m'.free q = pd.owns q + m.free q + if r.1 then holds pa q else 0) m := by
  rw [mappages, wp_bind]
  refine (walkpgdir_owns pd v).mono fun o m' h => ?_
  cases o with
  | none => simpa using h.1
  | some pd' =>
    obtain ⟨hsum, htab⟩ := h
    obtain ⟨hsome, -⟩ := htab pd' rfl
    dsimp only
    split
    · exact wp_panic (by decide)
    · rename_i hnone
      intro q
      have hset := owns_setPte hv hsome (some ⟨pa, w, u⟩) q
      have hq := hsum q
      rw [Option.not_isSome_iff_eq_none.mp hnone] at hset
      simp only [if_true, Option.getD_some, Pte.owns] at hq hset ⊢
      omega

/-- `mappages` of the kernel's half takes pages for page tables only. -/
theorem mappages_kernel_owns (n : ℕ) (hv : KERNPAGE ≤ v) (hv' : v + n ≤ VPAGES) (pa : Page)
    (w u : Bool) : wp (handle env) VmFault (mappages pd v pa w u n)
      (fun r m' => ∀ q, r.2.owns q + m'.free q = pd.owns q + m.free q) m := by
  induction n generalizing pd v pa m with
  | zero => exact fun _ => rfl
  | succ n ih =>
    rw [mappages, wp_bind]
    refine (walkpgdir_owns pd v).mono fun o m' h => ?_
    cases o with
    | none => exact h.1
    | some pd' =>
      dsimp only
      split
      · exact wp_panic (by decide)
      · refine (ih (by omega) (by omega) (pa + 1)).mono fun r m'' hr q => ?_
        have hset := owns_setPte_kernel pd' hv (by omega) (some ⟨pa, w, u⟩) q
        have hsum := h.1 q
        have hrest := hr q
        simp only [Option.getD_some] at hsum
        omega

/-! ## `deallocuvm` and `allocuvm` -/

theorem lt_pgroundup_iff (sz : ℕ) : v < pgroundup sz ↔ v * PGSIZE < sz := by
  simp only [pgroundup, PGSIZE]
  omega

theorem lt_kernpage {oldsz : ℕ} (hold : oldsz ≤ KERNBASE) (hv : v * PGSIZE < oldsz) :
    v < KERNPAGE := by
  simp only [KERNBASE, PGSIZE] at hold hv
  omega

theorem deallocFrom_owns {oldsz : ℕ} (hold : oldsz ≤ KERNBASE) (n : ℕ)
    (hsole : ∀ q, pd.owns q + m.free q ≤ env.room q) :
    wp (handle env) VmFault (deallocFrom oldsz pd n v)
      (fun pd' m' => ∀ q, pd'.owns q + m'.free q = pd.owns q + m.free q) m := by
  induction n generalizing pd v m with
  | zero => exact fun _ => rfl
  | succ n ih =>
    rw [deallocFrom]
    split
    · rename_i hlt
      rw [walkpgdir_false, wp_bind, wp_pure]
      by_cases htab : (pd.table (pdx v)).isSome
      · rw [if_pos htab]
        dsimp only
        split
        · rename_i e he
          -- The entry gives its page up and the list takes it.
          have hmove : ∀ q, (pd.setPte v none).owns q + holds e.page q = pd.owns q := by
            intro q
            have hset := owns_setPte (lt_kernpage hold hlt) htab none q
            rw [he] at hset
            simpa [Pte.owns] using hset
          have hroom : 1 + m.free e.page ≤ env.room e.page := by
            have hown := hmove e.page
            have hle := hsole e.page
            rw [holds_self] at hown
            omega
          split
          · rename_i h0
            rw [h0, room_zero] at hroom
            omega
          · rw [wp_bind]
            refine wp_kfree (.inr hroom) ((ih fun q => ?_).mono fun pd' m' h q => ?_)
            · have hown := hmove q
              have hle := hsole q
              rw [free_freed]
              omega
            · have hown := hmove q
              have hrest := h q
              rw [free_freed] at hrest
              omega
        · exact ih hsole
      · rw [if_neg htab]
        exact ih hsole
    · exact fun _ => rfl

theorem deallocuvm_owns {oldsz newsz : ℕ} (hold : oldsz ≤ KERNBASE)
    (hsole : ∀ q, pd.owns q + m.free q ≤ env.room q) :
    wp (handle env) VmFault (deallocuvm pd oldsz newsz)
      (fun r m' => ∀ q, r.2.owns q + m'.free q = pd.owns q + m.free q) m := by
  unfold deallocuvm
  split
  · exact fun _ => rfl
  · rw [wp_bind]
    exact (deallocFrom_owns hold _ hsole).mono fun pd' m' h => h

theorem allocFrom_owns {oldsz newsz : ℕ} (n : ℕ) (hv : v + n ≤ KERNPAGE)
    (hnew : newsz ≤ KERNBASE) (hsole : ∀ q, pd.owns q + m.free q ≤ env.room q) :
    wp (handle env) VmFault (allocFrom oldsz newsz pd n v)
      (fun r m' => ∀ q, r.2.owns q + m'.free q = pd.owns q + m.free q) m := by
  induction n generalizing pd v m with
  | zero => exact fun _ => rfl
  | succ n ih =>
    rw [allocFrom, wp_bind]
    refine wp_kalloc (fun _ => ?_) fun mem ps hm _ => ?_
    · simp only [wp_bind]
      exact (deallocuvm_owns (m := ⟨m.freelist, m.calls + 1⟩) hnew hsole).mono fun r m' h => h
    · have htaken := free_taken hm (m.calls + 1)
      rw [wp_bind]
      refine (mappages_owns (by omega) mem true true).mono fun r m' h => ?_
      obtain ⟨ok, pd'⟩ := r
      cases ok with
      | true =>
        simp only [if_true] at h
        have hkeep : ∀ q, pd'.owns q + m'.free q = pd.owns q + m.free q := by
          intro q
          have hmap := h q
          have hmem := htaken q
          omega
        refine (ih (by omega) fun q => ?_).mono fun r m'' hr q => (hr q).trans (hkeep q)
        exact (hkeep q).trans_le (hsole q)
      | false =>
        simp only [Bool.false_eq_true, if_false, Nat.add_zero, wp_bind] at h ⊢
        -- The page is in hand while `deallocuvm` runs.
        have hhand : ∀ q, pd'.owns q + m'.free q + holds mem q = pd.owns q + m.free q := by
          intro q
          have hmap := h q
          have hmem := htaken q
          omega
        refine (deallocuvm_owns hnew fun q => ?_).mono fun r m'' hr => ?_
        · have hle := hsole q
          have hq := hhand q
          omega
        rw [wp_bind]
        refine wp_kfree (.inr ?_) ?_
        · have hle := hsole mem
          have hq := hhand mem
          have hrest := hr mem
          rw [holds_self] at hq
          omega
        · rw [wp_pure]
          intro q
          have hq := hhand q
          have hrest := hr q
          dsimp only
          rw [free_freed]
          omega

theorem pgroundup_le_kernpage {sz : ℕ} (h : sz ≤ KERNBASE) : pgroundup sz ≤ KERNPAGE := by
  simp only [pgroundup, KERNBASE, PGSIZE] at h ⊢
  omega

theorem pgroundup_mono {a b : ℕ} (h : a ≤ b) : pgroundup a ≤ pgroundup b := by
  simp only [pgroundup, PGSIZE]
  omega

/-- **`allocuvm`** keeps every page in the directory or on the free list. -/
theorem allocuvm_owns (oldsz newsz : ℕ) (hsole : ∀ q, pd.owns q + m.free q ≤ env.room q) :
    wp (handle env) VmFault (allocuvm pd oldsz newsz)
      (fun r m' => ∀ q, r.2.owns q + m'.free q = pd.owns q + m.free q) m := by
  unfold allocuvm
  split
  · exact fun _ => rfl
  split
  · exact fun _ => rfl
  · have hle : pgroundup newsz ≤ KERNPAGE := pgroundup_le_kernpage (by omega)
    have hmono := pgroundup_mono (a := oldsz) (b := newsz) (by omega)
    exact allocFrom_owns _ (by omega) (by omega) hsole

/-! ## `freevm` -/

theorem pte_setPte_self (h : (pd.table (pdx v)).isSome) (e : Option Pte) :
    (pd.setPte v e).pte v = e := by
  obtain ⟨t, ht⟩ := Option.isSome_iff_exists.mp h
  simp [PageDir.setPte, ht, PageDir.pte, PageDir.setTable]

theorem pte_setPte_of_ne {u : ℕ} (hu : u < VPAGES) (hv : v < VPAGES) (hne : u ≠ v)
    (e : Option Pte) : (pd.setPte v e).pte u = pd.pte u := by
  unfold PageDir.setPte
  split
  · rfl
  · rename_i t ht
    by_cases hd : pdx u = pdx v
    · have hp : ptx u ≠ ptx v := by
        simp only [pdx, ptx, VPAGES, Fin.mk.injEq, ne_eq] at *
        omega
      simp [PageDir.pte, PageDir.setTable, hd, ht, hp]
    · simp [PageDir.pte, PageDir.setTable, hd]

theorem pte_of_table_none {u : ℕ} (h : (pd.table (pdx u)).isSome = false) : pd.pte u = none := by
  cases ht : pd.table (pdx u) with
  | none => simp [PageDir.pte, ht]
  | some t => simp [ht] at h

theorem kernpage_lt_vpages : KERNPAGE < VPAGES := by decide

/-- A loop over the whole of the user's half clears it.  It starts at the first page of a
page table, so it leaves out only page tables that do not exist. -/
theorem deallocFrom_clears (n : ℕ) (hn : KERNPAGE ≤ v + n)
    (hclear : ∀ u < v, u < KERNPAGE → pd.pte u = none)
    (htab : v % 1024 = 0 ∨ (pd.table (pdx v)).isSome) :
    wp (handle env) (fun _ => True) (deallocFrom KERNBASE pd n v)
      (fun pd' _ => ∀ u < KERNPAGE, pd'.pte u = none) m := by
  have hfit := kernpage_lt_vpages
  induction n generalizing pd v m with
  | zero => exact fun u hu => hclear u (by omega) hu
  | succ n ih =>
    -- In the same page table, the next page has it too.
    have hnext : (pd.table (pdx v)).isSome →
        (v + 1) % 1024 = 0 ∨ (pd.table (pdx (v + 1))).isSome := by
      intro h
      by_cases hmod : (v + 1) % 1024 = 0
      · exact .inl hmod
      · have hsame : pdx (v + 1) = pdx v := by
          simp only [pdx, Fin.mk.injEq]
          omega
        exact .inr (hsame ▸ h)
    rw [deallocFrom]
    split
    · rename_i hlt
      have hv : v < KERNPAGE := lt_kernpage le_rfl hlt
      rw [walkpgdir_false, wp_bind, wp_pure]
      by_cases hsome : (pd.table (pdx v)).isSome
      · rw [if_pos hsome]
        dsimp only
        split
        · split
          · exact wp_panic trivial
          · rw [wp_bind]
            refine wp_kfree (.inl ⟨trivial, trivial⟩) (ih (by omega) (fun u hu hk => ?_) ?_)
            · by_cases huv : u = v
              · rw [huv]
                exact pte_setPte_self hsome none
              · rw [pte_setPte_of_ne (by omega) (by omega) huv]
                exact hclear u (by omega) hk
            · simpa using hnext hsome
        · rename_i hpte
          refine ih (by omega) (fun u hu hk => ?_) (hnext hsome)
          by_cases huv : u = v
          · rw [huv, hpte]
          · exact hclear u (by omega) hk
      · rw [if_neg hsome]
        have hmod : v % 1024 = 0 := htab.resolve_right hsome
        have hskip : v + (NPTENTRIES - 1) + 1 = v + 1024 := rfl
        dsimp only
        rw [hskip]
        refine ih (by omega) (fun u hu hk => ?_) (.inl (by omega))
        by_cases huv : u < v
        · exact hclear u huv hk
        · apply pte_of_table_none
          have hsame : pdx u = pdx v := by
            simp only [pdx, Fin.mk.injEq]
            omega
          rw [hsame]
          simpa using hsome
    · rename_i hge
      refine fun u hu => hclear u ?_ hu
      simp only [KERNBASE, PGSIZE] at hge
      omega

/-- The page of the page table at index `i`. -/
def Table.self (q : Page) : Option Table → ℕ
  | none => 0
  | some t => holds t.page q

@[simp] theorem Table.self_none (q : Page) : Table.self q none = 0 := rfl

@[simp] theorem Table.self_some (q : Page) (t : Table) :
    Table.self q (some t) = holds t.page q := rfl

/-- When the user's half is empty, what is left are the directory and its page tables. -/
theorem owns_of_clear (h : ∀ u < KERNPAGE, pd.pte u = none) (q : Page) :
    pd.owns q = holds pd.page q + ∑ i, Table.self q (pd.table i) := by
  refine congrArg (holds pd.page q + ·) (Finset.sum_congr rfl fun i _ => ?_)
  cases ht : pd.table i with
  | none => rfl
  | some t =>
    simp only [Table.owns, Table.self, Nat.add_eq_left, ite_eq_right_iff]
    intro hi
    refine Finset.sum_eq_zero fun j _ => ?_
    -- The page at indices `i` and `j`.
    have hd : pdx (i.val * 1024 + j.val) = i := by
      apply Fin.ext
      simp only [pdx]
      omega
    have hp : ptx (i.val * 1024 + j.val) = j := by
      apply Fin.ext
      simp only [ptx]
      omega
    have hnone := h (i.val * 1024 + j.val) (by simp only [KERNPAGE]; omega)
    rw [PageDir.pte, hd, ht, Option.bind_some, hp] at hnone
    rw [hnone]
    rfl

theorem freeTables_owns (pd : PageDir)
    (hsole : ∀ q, m.free q + ∑ i, Table.self q (pd.table i) ≤ env.room q) :
    wp (handle env) VmFault (freeTables pd)
      (fun _ m' => ∀ q, m'.free q = m.free q + ∑ i, Table.self q (pd.table i)) m := by
  have key : ∀ (l : List (Fin 1024)) (m : Kmem), l.Nodup →
      (∀ q, m.free q + ∑ i ∈ l.toFinset, Table.self q (pd.table i) ≤ env.room q) →
      wp (handle env) VmFault (l.forM fun i =>
        match pd.table i with
        | none => Pure.pure ()
        | some t => kfree t.page)
      (fun _ m' => ∀ q, m'.free q = m.free q + ∑ i ∈ l.toFinset, Table.self q (pd.table i)) m := by
    intro l
    induction l with
    | nil => exact fun m _ _ q => (Nat.add_zero _).symm
    | cons i l ih =>
      intro m hl hsole
      obtain ⟨hi, hl⟩ := List.nodup_cons.mp hl
      have hinsert : ∀ q, ∑ j ∈ (i :: l).toFinset, Table.self q (pd.table j) =
          Table.self q (pd.table i) + ∑ j ∈ l.toFinset, Table.self q (pd.table j) := by
        intro q
        rw [List.toFinset_cons, Finset.sum_insert (by simpa using hi)]
      simp only [hinsert] at hsole ⊢
      change wp _ _ (_ >>= fun _ => l.forM _) _ m
      rw [wp_bind]
      dsimp only
      cases ht : pd.table i with
      | none =>
        simp only [ht, Table.self_none, Nat.zero_add, wp_pure] at hsole ⊢
        exact ih m hl hsole
      | some t =>
        simp only [ht, Table.self_some] at hsole ⊢
        refine wp_kfree (.inr ?_) ((ih _ hl fun q => ?_).mono fun _ m' h q => ?_)
        · have hle := hsole t.page
          rw [holds_self] at hle
          omega
        · have hle := hsole q
          rw [free_freed]
          omega
        · have hrest := h q
          rw [free_freed] at hrest
          omega
  unfold freeTables
  have hnodup := List.nodup_finRange 1024
  simp only [← List.toFinset_finRange 1024] at hsole ⊢
  generalize List.finRange 1024 = l at hnodup hsole ⊢
  exact key l m hnodup hsole

/-- **`freevm`** gives everything back. -/
theorem freevm_owns (pd : PageDir) (hsole : ∀ q, pd.owns q + m.free q ≤ env.room q) :
    wp (handle env) VmFault (freevm pd) (fun _ m' => ∀ q, m'.free q = pd.owns q + m.free q) m := by
  unfold freevm
  rw [wp_bind]
  have hclear : wp (handle env) (fun _ => True) (deallocuvm pd KERNBASE 0)
      (fun r _ => ∀ u < KERNPAGE, r.2.pte u = none) m := by
    have h0 : pgroundup 0 = 0 := rfl
    have hfuel : KERNPAGE ≤ 0 + (pgroundup KERNBASE - 0) := by decide
    unfold deallocuvm
    rw [if_neg (by decide), wp_bind, h0]
    generalize pgroundup KERNBASE - 0 = n at hfuel ⊢
    exact deallocFrom_clears n hfuel (fun u hu => absurd hu (Nat.not_lt_zero u)) (.inl rfl)
  refine (wp.and (deallocuvm_owns le_rfl hsole) hclear).mono fun r m₁ h => ?_
  obtain ⟨hsum, hnone⟩ := h
  simp only [owns_of_clear hnone] at hsum
  rw [wp_bind]
  refine (freeTables_owns r.2 fun q => ?_).mono fun _ m₂ h => ?_
  · have hq := hsum q
    have hle := hsole q
    omega
  · refine wp_kfree (.inr ?_) fun q => ?_
    · have hq := hsum r.2.page
      have hle := hsole r.2.page
      have htab := h r.2.page
      rw [holds_self] at hq
      omega
    · have hq := hsum q
      have htab := h q
      rw [free_freed]
      omega

/-! ## New address spaces -/

theorem mapKernel_owns (ks : List Kmap)
    (hks : ∀ k ∈ ks, KERNPAGE ≤ k.virt ∧ k.virt + (k.physEnd - k.physStart) ≤ VPAGES) :
    wp (handle env) VmFault (mapKernel pd ks)
      (fun o m' => match o with
        | none => ∀ q, m'.free q ≤ pd.owns q + m.free q
        | some pd' => ∀ q, pd'.owns q + m'.free q = pd.owns q + m.free q) m := by
  induction ks generalizing pd m with
  | nil => exact fun _ => rfl
  | cons k ks ih =>
    obtain ⟨⟨hv, hv'⟩, hks⟩ := List.forall_mem_cons.mp hks
    rw [mapKernel, wp_bind]
    refine (mappages_kernel_owns _ hv hv' _ _ _).mono fun r m' h => ?_
    obtain ⟨ok, pd'⟩ := r
    cases ok with
    | false => exact fun q => (Nat.le_add_left _ _).trans (h q).le
    | true =>
      refine (ih hks).mono fun o m'' ho => ?_
      cases o with
      | none => exact fun q => (ho q).trans (h q).le
      | some pd'' => exact fun q => (ho q).trans (h q)

/-- The kernel's mappings are in the kernel's half. -/
theorem kmap_kernel (layout : Layout) : ∀ k ∈ kmap layout,
    KERNPAGE ≤ k.virt ∧ k.virt + (k.physEnd - k.physStart) ≤ VPAGES := by
  have htext : 0x100 < layout.data := layout.text_lt
  have hdata := layout.data_le
  have hstop : layout.stop ≤ 0x400 := layout.stop_le
  simp only [kmap, KERNPAGE, VPAGES, EXTMEM, PHYSTOP, DEVSPACE, List.mem_cons,
    List.not_mem_nil, or_false, forall_eq_or_imp, forall_eq]
  omega

/-- A page directory without page tables. -/
theorem owns_empty (p q : Page) : (⟨p, fun _ => none⟩ : PageDir).owns q = holds p q := by
  simp [PageDir.owns, Table.owns]

/-- A page directory of `setupkvm` has its pages from the free list; when it fails, the ones
it has taken are not given back. -/
theorem setupkvm_owns (layout : Layout) :
    wp (handle env) VmFault (setupkvm layout) (fun o m' => match o with
      | none => ∀ q, m'.free q ≤ m.free q
      | some pd => ∀ q, pd.owns q + m'.free q = m.free q) m := by
  unfold setupkvm
  rw [wp_bind]
  refine wp_kalloc (fun _ q => le_rfl) fun p ps hm _ => ?_
  have htaken : ∀ q, (⟨p, fun _ => none⟩ : PageDir).owns q +
      (⟨ps, m.calls + 1⟩ : Kmem).free q = m.free q := by
    intro q
    rw [owns_empty, free_taken hm (m.calls + 1) q, Nat.add_comm]
  refine (mapKernel_owns (kmap layout) (kmap_kernel layout)).mono fun o m' h => ?_
  cases o with
  | none => exact fun q => (h q).trans (htaken q).le
  | some pd => exact fun q => (h q).trans (htaken q)

/-- `copyuvm`'s loop.  When there is no page for a page table, the page it was for is
lost. -/
theorem copyFrom_owns {d : PageDir} (n : ℕ) (hv : v + n ≤ KERNPAGE)
    (hsole : ∀ q, d.owns q + m.free q ≤ env.room q) :
    wp (handle env) VmFault (copyFrom pd d n v) (fun o m' => match o with
      | none => ∀ q, m'.free q ≤ d.owns q + m.free q
      | some d' => ∀ q, d'.owns q + m'.free q = d.owns q + m.free q) m := by
  induction n generalizing d v m with
  | zero => exact fun _ => rfl
  | succ n ih =>
    rw [copyFrom, walkpgdir_false, wp_bind, wp_pure]
    by_cases htab : (pd.table (pdx v)).isSome
    · rw [if_pos htab]
      dsimp only
      split
      · exact wp_panic (by decide)
      · rw [wp_bind]
        refine wp_kalloc (fun _ => ?_) fun mem ps hm _ => ?_
        · rw [wp_bind]
          exact (freevm_owns (m := ⟨m.freelist, m.calls + 1⟩) d hsole).mono
            fun _ m' h q => (h q).le
        · have htaken := free_taken hm (m.calls + 1)
          rw [wp_bind]
          refine (mappages_owns (by omega) mem _ _).mono fun r m' h => ?_
          obtain ⟨ok, d'⟩ := r
          cases ok with
          | true =>
            simp only [if_true] at h
            have hkeep : ∀ q, d'.owns q + m'.free q = d.owns q + m.free q := by
              intro q
              have hmap := h q
              have hmem := htaken q
              omega
            refine (ih (by omega) fun q => (hkeep q).trans_le (hsole q)).mono fun o m'' ho => ?_
            cases o with
            | none => exact fun q => (ho q).trans (hkeep q).le
            | some d'' => exact fun q => (ho q).trans (hkeep q)
          | false =>
            simp only [Bool.false_eq_true, if_false, Nat.add_zero, wp_bind] at h ⊢
            have hlost : ∀ q, d'.owns q + m'.free q ≤ d.owns q + m.free q := by
              intro q
              have hmap := h q
              have hmem := htaken q
              omega
            refine (freevm_owns d' fun q => (hlost q).trans (hsole q)).mono fun _ m'' h' q => ?_
            exact (h' q).le.trans (hlost q)
    · rw [if_neg htab]
      exact wp_panic (by decide)

theorem copyuvm_owns (layout : Layout) {sz : ℕ} (hsz : sz ≤ KERNBASE)
    (hsole : ∀ q, m.free q ≤ env.room q) :
    wp (handle env) VmFault (copyuvm layout pd sz) (fun o m' => match o with
      | none => ∀ q, m'.free q ≤ m.free q
      | some d => ∀ q, d.owns q + m'.free q = m.free q) m := by
  unfold copyuvm
  rw [wp_bind]
  refine (setupkvm_owns layout).mono fun o m' h => ?_
  cases o with
  | none => exact h
  | some d =>
    have hle := pgroundup_le_kernpage hsz
    refine (copyFrom_owns _ (by omega) fun q => (h q).trans_le (hsole q)).mono fun o' m'' ho => ?_
    cases o' with
    | none => exact fun q => (ho q).trans (h q).le
    | some d' => exact fun q => (ho q).trans (h q)

theorem inituvm_owns (pd : PageDir) : wp (handle env) VmFault (inituvm pd)
    (fun pd' m' => ∀ q, pd'.owns q + m'.free q ≤ pd.owns q + m.free q) m := by
  unfold inituvm
  rw [wp_bind]
  refine wp_kalloc (fun _ => wp_panic (by decide)) fun mem ps hm _ => ?_
  rw [wp_bind]
  refine (mappages_owns (by decide) mem _ _).mono fun r m' h q => ?_
  have hmap := h q
  have hmem := free_taken hm (m.calls + 1) q
  split at hmap <;> omega

/-! ## `exec` and `growproc` -/

theorem loadFrom_mem (reads : ℕ → Bool) (n i : ℕ) :
    wp (handle env) VmFault (loadFrom pd reads n v i) (fun _ m' => m' = m) m := by
  induction n generalizing v i with
  | zero => exact rfl
  | succ n ih =>
    rw [loadFrom, walkpgdir_false, wp_bind, wp_pure]
    split
    · exact wp_panic (by decide)
    · split
      · exact ih (i + 1)
      · exact rfl

theorem loaduvm_mem (addr filesz : ℕ) (reads : ℕ → Bool) :
    wp (handle env) VmFault (loaduvm pd addr filesz reads) (fun _ m' => m' = m) m := by
  unfold loaduvm
  split
  · exact wp_panic (by decide)
  · exact loadFrom_mem _ _ _

theorem copyoutFrom_mem (word0 : Bool) (n : ℕ) :
    wp (handle env) VmFault (copyoutFrom pd word0 n v) (fun _ m' => m' = m) m := by
  induction n generalizing v with
  | zero => exact rfl
  | succ n ih =>
    rw [copyoutFrom, uva2ka, walkpgdir_false, wp_bind, wp_bind, wp_pure]
    split
    · cases word0 with
      | true => exact wp_panic (by decide)
      | false => exact rfl
    · rw [wp_pure]
      split
      · exact ih
      · exact rfl

theorem pushArgs_mem (word0 : Bool) (sp argc : ℕ) (lens : List ℕ) :
    wp (handle env) VmFault (pushArgs pd word0 sp argc lens) (fun _ m' => m' = m) m := by
  induction lens generalizing sp argc with
  | nil => exact rfl
  | cons len lens ih =>
    rw [pushArgs]
    split
    · exact rfl
    · rw [wp_bind]
      refine (copyoutFrom_mem _ _).mono fun b m' h => ?_
      subst h
      cases b with
      | true => exact ih _ _
      | false => exact rfl

theorem pushStack_mem (sz : ℕ) (argv : Argv) :
    wp (handle env) VmFault (pushStack pd sz argv) (fun _ m' => m' = m) m := by
  rw [pushStack, wp_bind]
  refine (pushArgs_mem argv.word0 sz 0 argv.lens).mono fun o m' h => ?_
  subst h
  cases o with
  | none => exact rfl
  | some r => exact copyoutFrom_mem _ _

theorem loadSegments_owns (sz : ℕ) (phs : List (Option Proghdr))
    (hsole : ∀ q, pd.owns q + m.free q ≤ env.room q) :
    wp (handle env) VmFault (loadSegments pd sz phs)
      (fun r m' => ∀ q, r.2.owns q + m'.free q = pd.owns q + m.free q) m := by
  induction phs generalizing pd sz m with
  | nil => exact fun _ => rfl
  | cons ph phs ih =>
    cases ph with
    | none => exact fun _ => rfl
    | some ph =>
      rw [loadSegments]
      split
      · exact ih sz hsole
      split
      · exact fun _ => rfl
      split
      · exact fun _ => rfl
      · rw [wp_bind]
        refine (allocuvm_owns sz _ hsole).mono fun r m' h => ?_
        obtain ⟨sz', pd'⟩ := r
        dsimp only at h ⊢
        split
        · exact h
        split
        · exact h
        · rw [wp_bind]
          refine (loaduvm_mem _ _ _).mono fun b m'' hm => ?_
          subst hm
          cases b with
          | true =>
            refine (ih sz' fun q => (h q).trans_le (hsole q)).mono fun r _ hr q => ?_
            exact (hr q).trans (h q)
          | false => exact h

/-- Taking `PTE_U` away leaves the page. -/
theorem clearpteu_owns (hv : v < KERNPAGE) :
    wp (handle env) VmFault (clearpteu pd v)
      (fun pd' m' => (∀ q, pd'.owns q = pd.owns q) ∧ m' = m) m := by
  rw [clearpteu, walkpgdir_false, wp_bind, wp_pure]
  by_cases htab : (pd.table (pdx v)).isSome
  · rw [if_pos htab]
    dsimp only
    rw [wp_pure]
    refine ⟨fun q => ?_, rfl⟩
    have hset := owns_setPte hv htab ((pd.pte v).map fun e => { e with user := false }) q
    cases hpte : pd.pte v with
    | none => simpa [hpte, Pte.owns] using hset
    | some e =>
      rw [hpte] at hset
      exact Nat.add_right_cancel hset
  · rw [if_neg htab]
    exact wp_panic (by decide)

/-- The size `allocuvm` returns, if not 0. -/
theorem allocuvm_size (oldsz newsz : ℕ) :
    wp (handle env) (fun _ => True) (allocuvm pd oldsz newsz)
      (fun r _ => r.1 ≠ 0 → newsz < KERNBASE ∧ r.1 = max oldsz newsz) m := by
  unfold allocuvm
  split
  · exact fun h => absurd rfl h
  rename_i hnew
  split
  · exact fun _ => ⟨by omega, by omega⟩
  rename_i hle
  generalize pgroundup newsz - pgroundup oldsz = n
  generalize pgroundup oldsz = v
  induction n generalizing pd v m with
  | zero => exact fun _ => ⟨by omega, by omega⟩
  | succ n ih =>
    rw [allocFrom, wp_bind]
    refine wp_kalloc (fun _ => ?_) fun mem ps _ _ => ?_
    · rw [wp_bind]
      exact wp_true.mono fun r _ _ h => absurd rfl h
    · rw [wp_bind]
      refine wp_true.mono fun r m' _ => ?_
      obtain ⟨ok, pd'⟩ := r
      cases ok with
      | true => exact ih _
      | false =>
        simp only [Bool.false_eq_true, if_false, wp_bind]
        refine wp_true.mono fun r _ _ => ?_
        rw [wp_bind]
        exact wp_true.mono fun _ _ _ h => absurd rfl h

/-- `exec` has the new address space `pd` and the old one: it gives one of the two back. -/
theorem execInto_owns (old : PageDir) (phdrs : List (Option Proghdr)) (argv : Argv)
    (hsole : ∀ q, old.owns q + (pd.owns q + m.free q) ≤ env.room q) :
    wp (handle env) VmFault (execInto old pd phdrs argv) (fun o m' => match o with
      | none => ∀ q, m'.free q = pd.owns q + m.free q
      | some r => (∀ q, r.1.owns q + m'.free q = old.owns q + (pd.owns q + m.free q)) ∧
          0 < r.2 ∧ r.2 < KERNBASE) m := by
  have hsole' : ∀ (pd' : PageDir) (m' : Kmem),
      (∀ q, pd'.owns q + m'.free q = pd.owns q + m.free q) →
      ∀ q, old.owns q + (pd'.owns q + m'.free q) ≤ env.room q := by
    intro pd' m' h q
    rw [h q]
    exact hsole q
  have hbad : ∀ (pd' : PageDir) (m' : Kmem),
      (∀ q, pd'.owns q + m'.free q = pd.owns q + m.free q) →
      wp (handle env) VmFault (execBad pd') (fun o m'' => match o with
        | none => ∀ q, m''.free q = pd.owns q + m.free q
        | some r => (∀ q, r.1.owns q + m''.free q = old.owns q + (pd.owns q + m.free q)) ∧
            0 < r.2 ∧ r.2 < KERNBASE) m' := by
    intro pd' m' h
    rw [execBad, wp_bind]
    refine (freevm_owns pd' fun q => ?_).mono fun _ m'' h' q => (h' q).trans (h q)
    exact (Nat.le_add_left _ _).trans (hsole' pd' m' h q)
  rw [execInto, wp_bind]
  refine (loadSegments_owns 0 phdrs fun q => ?_).mono fun r m₂ h₂ => ?_
  · exact (Nat.le_add_left _ _).trans (hsole q)
  obtain ⟨sz, pd₂⟩ := r
  cases sz with
  | none => exact hbad pd₂ m₂ h₂
  | some sz =>
    dsimp only at h₂ ⊢
    rw [wp_bind]
    refine (wp.and (allocuvm_owns _ _ fun q => ?_) (allocuvm_size _ _)).mono fun r m₃ h₃ => ?_
    · exact (Nat.le_add_left _ _).trans (hsole' pd₂ m₂ h₂ q)
    obtain ⟨sz₃, pd₃⟩ := r
    obtain ⟨h₃, hsize⟩ := h₃
    replace h₃ : ∀ q, pd₃.owns q + m₃.free q = pd.owns q + m.free q :=
      fun q => (h₃ q).trans (h₂ q)
    dsimp only at hsize ⊢
    split
    · exact hbad pd₃ m₃ h₃
    · rename_i hne
      obtain ⟨hlt, hmax⟩ := hsize hne
      have hv : sz₃ / PGSIZE - 2 < KERNPAGE := by
        simp only [KERNBASE, PGSIZE] at hlt hmax ⊢
        omega
      rw [wp_bind]
      refine (clearpteu_owns hv).mono fun pd₄ m₄ h₄ => ?_
      obtain ⟨h₄, rfl⟩ := h₄
      replace h₄ : ∀ q, pd₄.owns q + m₄.free q = pd.owns q + m.free q := by
        intro q
        rw [h₄ q]
        exact h₃ q
      rw [wp_bind]
      refine (pushStack_mem sz₃ argv).mono fun b m₅ h₅ => ?_
      subst h₅
      cases b with
      | false => exact hbad pd₄ m₅ h₄
      | true =>
        simp only [if_true, wp_bind]
        refine (freevm_owns old fun q => ?_).mono fun _ m₆ h₆ => ⟨fun q => ?_, ?_, ?_⟩
        · have hle := hsole' pd₄ m₅ h₄ q
          omega
        · have hq := h₄ q
          have hfree := h₆ q
          dsimp only
          omega
        · exact Nat.pos_of_ne_zero hne
        · show sz₃ < KERNBASE
          omega

/-- **`exec`** has its new address space from the free list, and gives the old one back. -/
theorem exec_owns (layout : Layout) (old : PageDir) (image : Option Image) (argv : Argv)
    (hsole : ∀ q, old.owns q + m.free q ≤ env.room q) :
    wp (handle env) VmFault (exec layout old image argv)
      (fun o m' => match o with
        | none => ∀ q, m'.free q ≤ m.free q
        | some r => (∀ q, r.1.owns q + m'.free q = old.owns q + m.free q) ∧
            0 < r.2 ∧ r.2 < KERNBASE) m := by
  unfold exec
  split
  · exact fun _ => le_rfl
  split
  · exact fun _ => le_rfl
  rename_i image _
  rw [wp_bind]
  refine (setupkvm_owns layout).mono fun o m₁ h₁ => ?_
  cases o with
  | none => exact h₁
  | some pd =>
    dsimp only at h₁ ⊢
    refine (execInto_owns old image.phdrs argv fun q => ?_).mono fun o m₂ h₂ => ?_
    · rw [h₁ q]
      exact hsole q
    · simp only [h₁] at h₂
      cases o with
      | none => exact fun q => (h₂ q).le
      | some r => exact h₂

/-- **`growproc`** moves pages between the free list and the address space. -/
theorem growproc_owns {sz : ℕ} (hsz : 0 < sz ∧ sz < KERNBASE) (n : ℤ)
    (hsole : ∀ q, pd.owns q + m.free q ≤ env.room q) :
    wp (handle env) VmFault (growproc pd sz n) (fun r m' =>
      (∀ q, r.2.1.owns q + m'.free q = pd.owns q + m.free q) ∧ 0 < r.2.2 ∧ r.2.2 < KERNBASE) m := by
  unfold growproc
  dsimp only
  split
  · rw [wp_bind]
    refine (wp.and (allocuvm_owns _ _ hsole) (allocuvm_size _ _)).mono fun r m' h => ?_
    obtain ⟨r, pd'⟩ := r
    obtain ⟨h, hsize⟩ := h
    dsimp only at h hsize ⊢
    split
    · exact ⟨h, hsz⟩
    · rename_i hne
      obtain ⟨hlt, hmax⟩ := hsize hne
      exact ⟨h, Nat.pos_of_ne_zero hne, by show r < KERNBASE; omega⟩
  split
  · rw [wp_bind]
    have hsize : wp (handle env) (fun _ => True)
        (deallocuvm pd sz ((sz + n) % 0x100000000).toNat) (fun r _ => r.1 ≤ sz) m := by
      unfold deallocuvm
      split
      · exact le_rfl
      · rw [wp_bind]
        exact wp_true.mono fun _ _ _ => by simp only [wp_pure]; omega
    refine (wp.and (deallocuvm_owns (by omega) hsole) hsize).mono fun r m' h => ?_
    obtain ⟨r, pd'⟩ := r
    obtain ⟨h, hsize⟩ := h
    dsimp only at h hsize ⊢
    split
    · exact ⟨h, hsz⟩
    · rename_i hne
      exact ⟨h, Nat.pos_of_ne_zero hne, by show r < KERNBASE; omega⟩
  · exact ⟨fun _ => rfl, hsz⟩

end Xv6.Vm
