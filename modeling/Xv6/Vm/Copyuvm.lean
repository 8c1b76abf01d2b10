import Xv6.Vm.Copyout

/-!
# `copyuvm`

`fork` gives the child a copy of its parent's memory.  Here `copyuvm` moves the bytes, by an
operation for `memmove` next to those of the allocator; without the bytes it is the program that
says which pages are used (`copyuvm_erase`).

A page that the loop has filled is in use, so what comes after it does not write to it.  A page
of the parent was in use from the start.  No page has two owners, so parent and child have no
page in common, and what goes to memory through the one is not seen through the other.

## Main definitions

* `CopyOp`, `CopyProg`, `handle` — the operations, programs and what they do.
* `copyuvm` — the function of that name.
* `Write`, `State.write` — a store of one of the two processes to a user address.
* `Forked` — what the child gets.

## Main results

* `setupkvm_pte` — the kernel's half of a directory is a function of `kmap`.
* `copyFrom_spec` — the loop.
* `copyuvm_forked` — `copyuvm` never panics, and what it returns is an isolated copy.
-/

namespace Xv6.Vm.Ram.Copy

open Function Prog
open Xv6.Image (slice splice)

/-! ## The function -/

/-- The operations of the allocator, and `memmove` of a page to a page. -/
inductive CopyOp
  | mem (o : MemOp)
  | memmove (dst src : Page)

abbrev CopyOp.Ret : CopyOp → Type
  | .mem o => o.Ret
  | .memmove _ _ => Unit

/-- A program of the kernel that copies pages. -/
abbrev CopyProg := Prog CopyOp CopyOp.Ret

/-- What the operations do. -/
def handle (env : Env) : Prog.Handler CopyOp CopyOp.Ret State Fault
  | .mem o, s => Ram.handle env (.mem o) s
  | .memmove dst src, s =>
    .ok ((), { s with
      page := update s.page dst (splice (s.page dst) 0 (slice (s.page src) 0 PGSIZE)) })

/-- `memmove(dst, src, PGSIZE)` -/
def memmove (dst src : Page) : CopyProg Unit := Prog.op (CopyOp.memmove dst src)

/-- A program that does not copy pages. -/
def lift {α : Type} (m : MemProg α) : CopyProg α := m.interp fun o => Prog.op (CopyOp.mem o)

/-- The loop of `copyuvm` from page `v` of `pd` on, with `n` pages to go.  The first directory
returned is that of the parent, as `walkpgdir` leaves it. -/
def copyFrom (pd d : PageDir) : ℕ → ℕ → CopyProg (PageDir × Option PageDir)
  | 0, _ => return (pd, some d)
  | n + 1, v => do
      match ← lift (walkpgdir pd v false) with
      | none => lift (Vm.panic .copyuvmNoPte)
      | some pd =>
        match pd.pte v with
        | none => lift (Vm.panic .copyuvmNotPresent)
        | some e =>
          match ← lift kalloc with
          | none =>
            lift (freevm d)
            return (pd, none)
          | some mem =>
            memmove mem e.page
            let (ok, d) ← lift (mappages d v mem e.writable e.user 1)
            if ok then copyFrom pd d n (v + 1)
            else
              lift (freevm d)
              return (pd, none)

/-- `copyuvm(pgdir, sz)`: `pgdir` as it is left, and the copy. -/
def copyuvm (layout : Layout) (pd : PageDir) (sz : ℕ) : CopyProg (PageDir × Option PageDir) := do
  match ← lift (setupkvm layout) with
  | none => return (pd, none)
  | some d => copyFrom pd d (pgroundup sz) 0

variable {α β : Type} {env : Env} {R : Fault → Prop} {s t r : State} {pd d d₁ d₂ : PageDir}
  {p q : Page} {u v n k sz : ℕ}

/-! ## Without the bytes -/

/-- What is left of an operation without the bytes. -/
def CopyOp.erase : (o : CopyOp) → MemProg o.Ret
  | .mem o => Prog.op o
  | .memmove _ _ => Pure.pure ()

/-- A program without the bytes. -/
def erase (m : CopyProg α) : MemProg α := m.interp CopyOp.erase

theorem handle_erase (o : CopyOp) (s : State) :
    run (Vm.handle env.toEnv) o.erase s.kmem =
      (handle env o s).map fun r => (r.1, r.2.kmem) := by
  cases o with
  | mem o => exact Ram.handle_erase (.mem o) s
  | memmove dst src => rfl

@[simp] theorem erase_lift (m : MemProg α) : erase (lift m) = m := by
  induction m with
  | pure a => rfl
  | call o next ih => exact congrArg (Prog.call o) (funext ih)

@[simp] theorem erase_bind (m : CopyProg α) (f : α → CopyProg β) :
    erase (m >>= f) = erase m >>= fun a => erase (f a) := interp_bind m f

@[simp] theorem erase_pure (a : α) : erase (Pure.pure a : CopyProg α) = Pure.pure a := rfl

@[simp] theorem erase_memmove (dst src : Page) : erase (memmove dst src) = Pure.pure () := rfl

theorem panic_bind (why : Fault) (f : α → MemProg β) : Vm.panic why >>= f = Vm.panic why :=
  congrArg (Prog.call (MemOp.panic why)) (funext fun r => r.elim)

theorem copyFrom_erase (pd d : PageDir) (n v : ℕ) :
    (erase (copyFrom pd d n v) >>= fun r => Pure.pure r.2) = Vm.copyFrom pd d n v := by
  induction n generalizing d v with
  | zero => rfl
  | succ n ih =>
    simp only [copyFrom, Vm.copyFrom, walkpgdir_false, erase_bind, erase_lift, pure_bind]
    by_cases htab : (pd.table (pdx v)).isSome
    · simp only [if_pos htab]
      cases pd.pte v with
      | none => simp only [erase_lift, panic_bind]
      | some e =>
        simp only [erase_bind, erase_lift, bind_assoc]
        congr 1
        funext o
        cases o with
        | none => simp only [erase_bind, erase_lift, erase_pure, bind_assoc, pure_bind]
        | some mem =>
          simp only [erase_bind, erase_lift, erase_memmove, bind_assoc, pure_bind]
          congr 1
          funext r
          obtain ⟨ok, d'⟩ := r
          cases ok with
          | true => exact ih d' (v + 1)
          | false =>
            simp only [Bool.false_eq_true, if_false, erase_bind, erase_lift, erase_pure,
              bind_assoc, pure_bind]
    · simp only [if_neg htab, erase_lift, panic_bind]

/-- **`copyuvm`, without the bytes**, is what it was without the contents of pages. -/
theorem copyuvm_erase (layout : Layout) (pd : PageDir) (sz : ℕ) :
    (erase (copyuvm layout pd sz) >>= fun r => Pure.pure r.2) = Vm.copyuvm layout pd sz := by
  simp only [copyuvm, Vm.copyuvm, erase_bind, erase_lift, bind_assoc]
  congr 1
  funext o
  cases o with
  | none => simp only [erase_pure, pure_bind]
  | some d => exact copyFrom_erase ..

/-- What is said of the pages that `copyuvm` uses, with the bytes and without them. -/
theorem wp_copyuvm {layout : Layout} {Q : Option PageDir → Kmem → Prop} :
    wp (handle env) R (copyuvm layout pd sz) (fun r t => Q r.2 t.kmem) s ↔
      wp (Vm.handle env.toEnv) R (Vm.copyuvm layout pd sz) Q s.kmem := by
  rw [← copyuvm_erase, wp_bind]
  exact wp_interp (π := State.kmem) handle_erase _

/-! ## The operations -/

theorem run_lift (m : MemProg α) (s : State) :
    run (handle env) (lift m) s = run (Ram.handle env) (Ram.lift m) s := by
  induction m generalizing s with
  | pure a => rfl
  | call o next ih =>
    simp only [lift, Ram.lift, interp, run_bind, run_op, handle]
    cases Ram.handle env (.mem o) s with
    | error e => rfl
    | ok r => exact ih r.1 r.2

theorem wp_lift {m : MemProg α} {Q : α → State → Prop} :
    wp (handle env) R (lift m) Q s ↔ wp (Ram.handle env) R (Ram.lift m) Q s := by
  rw [wp, wp, run_lift]

theorem wp_memmove {Q : Unit → State → Prop}
    (hQ : ∀ t, t.kmem = s.kmem → (∀ q', q' ≠ p → t.page q' = s.page q') →
      (∀ o < PGSIZE, t.page p o = s.page q o) → Q () t) :
    wp (handle env) R (memmove p q) Q s := by
  rw [wp, memmove, run_op]
  refine hQ _ rfl (fun q' hq' => update_of_ne hq' _ _) fun o ho => ?_
  simp [splice, slice, ho]

/-! ## The kernel's half -/

/-- The entry for page `u` that `mappages` makes for an entry of `kmap`. -/
def Kmap.pte (k : Kmap) (u : ℕ) : Option Pte :=
  if k.virt ≤ u ∧ u < k.virt + (k.physEnd - k.physStart) then
    some ⟨k.physStart + (u - k.virt), k.writable, false⟩
  else none

/-- The entry for page `u` after all of them. -/
def kernelPte (ks : List Kmap) (u : ℕ) : Option Pte := ks.findSome? (Kmap.pte · u)

theorem mappages_ptes {e : Vm.Env} {m : Kmem} (n pa : ℕ) (w x : Bool)
    (hnone : ∀ u, v ≤ u → u < v + n → pd.pte u = none) (hv : v + n ≤ VPAGES) :
    wp (Vm.handle e) R (mappages pd v pa w x n) (fun r _ => r.1 = true → ∀ u < VPAGES,
      r.2.pte u = if v ≤ u ∧ u < v + n then some ⟨pa + (u - v), w, x⟩ else pd.pte u) m := by
  induction n generalizing pd v pa m with
  | zero =>
    intro _ u _
    rw [if_neg (by omega)]
  | succ n ih =>
    rw [mappages, wp_bind]
    refine walkpgdir_draws.mono fun o m₁ ho => ?_
    cases o with
    | none => exact fun h => absurd h Bool.false_ne_true
    | some pd₁ =>
      obtain ⟨-, -, -, htab, hsame⟩ := ho
      have hsome : (pd₁.table (pdx v)).isSome := by
        rw [← mem_tables, htab]
        exact Finset.mem_insert_self ..
      have hstep : ∀ u < VPAGES, (pd₁.setPte v (some ⟨pa, w, x⟩)).pte u =
          if u = v then some ⟨pa, w, x⟩ else pd.pte u := by
        intro u hu
        split
        · rename_i huv
          rw [huv, pte_setPte_self hsome]
        · rename_i huv
          rw [pte_setPte_of_ne hu (by omega) huv, hsame]
      dsimp only
      rw [hsame, hnone v le_rfl (by omega), if_neg (by simp)]
      refine (ih (pa + 1) (fun u h1 h2 => ?_) (by omega)).mono fun r m₂ hr hok u hu => ?_
      · rw [hstep u (by omega), if_neg (by omega)]
        exact hnone u (by omega) (by omega)
      · rw [hr hok u hu]
        by_cases huv : u = v
        · subst huv
          rw [if_neg (by omega), if_pos (by omega), hstep u hu, if_pos rfl, Nat.sub_self,
            Nat.add_zero]
        · rw [hstep u hu, if_neg huv]
          by_cases hin : v + 1 ≤ u ∧ u < v + 1 + n
          · have hpa : pa + 1 + (u - (v + 1)) = pa + (u - v) := by omega
            rw [if_pos hin, if_pos (by omega), hpa]
          · rw [if_neg hin, if_neg (by omega)]

theorem mapKernel_pte {e : Vm.Env} {m : Kmem} {b : ℕ} (ks : List Kmap) (hasc : Ascending b ks)
    (hnone : ∀ u, b ≤ u → u < VPAGES → pd.pte u = none) :
    wp (Vm.handle e) R (mapKernel pd ks) (fun o _ => ∀ pd', o = some pd' → ∀ u < VPAGES,
      pd'.pte u = (pd.pte u).or (kernelPte ks u)) m := by
  induction ks generalizing pd b m with
  | nil =>
    rintro pd' ⟨⟩ u -
    exact (Option.or_none).symm
  | cons k ks ih =>
    obtain ⟨hb, hasc⟩ := hasc
    have htop := hasc.le_vpages
    rw [mapKernel, wp_bind]
    refine (mappages_ptes _ k.physStart k.writable false
      (fun u h1 h2 => hnone u (by omega) (by omega)) htop).mono fun r m₁ hr => ?_
    obtain ⟨ok, pd₁⟩ := r
    cases ok with
    | false =>
      intro pd' h
      cases h
    | true =>
      have hpte := hr rfl
      have habove : ∀ u, k.virt + (k.physEnd - k.physStart) ≤ u → u < VPAGES →
          pd₁.pte u = none := by
        intro u h1 h2
        rw [hpte u h2, if_neg (by omega)]
        exact hnone u (by omega) h2
      refine (ih hasc habove).mono fun o m₂ ho pd' hpd' u hu => ?_
      rw [ho pd' hpd' u hu, hpte u hu, kernelPte, kernelPte, List.findSome?_cons, Kmap.pte]
      by_cases hin : k.virt ≤ u ∧ u < k.virt + (k.physEnd - k.physStart)
      · simp [hin, hnone u (by omega) hu]
      · simp [hin]

/-- **`setupkvm`** maps what `kmap` says, and nothing for the user. -/
theorem setupkvm_pte {e : Vm.Env} {m : Kmem} (layout : Layout) :
    wp (Vm.handle e) R (setupkvm layout) (fun o _ => ∀ d, o = some d → ∀ u < VPAGES,
      d.pte u = kernelPte (kmap layout) u) m := by
  unfold setupkvm
  rw [wp_bind]
  refine kalloc_draws.mono fun o m₁ _ => ?_
  cases o with
  | none => exact fun d h => nomatch h
  | some p => exact mapKernel_pte (kmap layout) (kmap_ascending layout) fun _ _ _ => rfl

/-! ## The loop -/

/-- Parent and child have no page in common, and none of theirs is free. -/
def Apart (env : Env) (pd d : PageDir) (s : State) : Prop :=
  ∀ q, pd.owns q + d.owns q + s.kmem.free q ≤ env.room q

/-- A page of the parent is in use. -/
theorem Apart.free_eq_zero (h : Apart env pd d s) (hq : 1 ≤ pd.owns q) : s.kmem.free q = 0 := by
  have h1 := h q
  have h2 := room_le_one env.toEnv q
  omega

/-- A page of the child is in use. -/
theorem Apart.child_free_eq_zero (h : Apart env pd d s) (hq : 1 ≤ d.owns q) :
    s.kmem.free q = 0 := by
  have h1 := h q
  have h2 := room_le_one env.toEnv q
  omega

/-- The directory `d'` is `d` with copies of the `n` pages of `pd` from `v` on.  They are in pages
that were free. -/
structure Copied (pd d d' : PageDir) (s t : State) (v n : ℕ) : Prop where
  dense : Dense d' (v + n)
  owns : ∀ q, d'.owns q + t.kmem.free q = d.owns q + s.kmem.free q
  below : ∀ u < v, d'.pte u = d.pte u
  above : SameAbove d d'
  frame : ∀ q, s.kmem.free q = 0 → t.kmem.free q = 0 ∧ t.page q = s.page q
  copy : ∀ u, v ≤ u → u < v + n → ∃ e p, pd.pte u = some e ∧
    d'.pte u = some { e with page := p } ∧ 0 < s.kmem.free p ∧
      ∀ o < PGSIZE, t.page p o = s.page e.page o

namespace Copied

theorem refl (hd : Dense d v) : Copied pd d d s s v 0 where
  dense := hd
  owns _ := rfl
  below _ _ := rfl
  above _ _ _ := rfl
  frame _ hq := ⟨hq, rfl⟩
  copy _ h1 h2 := absurd h2 (Nat.not_lt.mpr h1)

theorem apart (h : Copied pd d d₁ s t v n) (ha : Apart env pd d s) : Apart env pd d₁ t := by
  intro q
  have h1 := h.owns q
  have h2 := ha q
  omega

/-- What was free at the end was free at the start. -/
theorem free_pos (h : Copied pd d d₁ s t v n) (hp : 0 < t.kmem.free p) : 0 < s.kmem.free p := by
  refine Nat.pos_of_ne_zero fun h0 => ?_
  have := (h.frame p h0).1
  omega

/-- **One stretch of pages after another.** -/
theorem trans (h : Copied pd d d₁ s t v n) (h' : Copied pd d₁ d₂ t r (v + n) k)
    (ha : Apart env pd d s) (hk : v + n + k ≤ KERNPAGE) :
    Copied pd d d₂ s r v (n + k) where
  dense := Nat.add_assoc v n k ▸ h'.dense
  owns q := (h'.owns q).trans (h.owns q)
  below u hu := (h'.below u (by omega)).trans (h.below u hu)
  above := h.above.trans h'.above
  frame q hq := by
    obtain ⟨hfree, hpage⟩ := h.frame q hq
    obtain ⟨hfree', hpage'⟩ := h'.frame q hfree
    exact ⟨hfree', hpage'.trans hpage⟩
  copy u h1 h2 := by
    by_cases hu : u < v + n
    · obtain ⟨e, p, he, hp, hfree, hbytes⟩ := h.copy u h1 hu
      -- the page is the child's by now
      have hown : 1 ≤ d₁.owns p := owns_pos (e := { e with page := p }) (by omega) hp
      have hsame := (h'.frame p ((h.apart ha).child_free_eq_zero hown)).2
      refine ⟨e, p, he, (h'.below u hu).trans hp, hfree, fun o ho => ?_⟩
      rw [hsame, hbytes o ho]
    · obtain ⟨e, p, he, hp, hfree, hbytes⟩ := h'.copy u (by omega) (by omega)
      have hsame := (h.frame e.page (ha.free_eq_zero (owns_pos (by omega) he))).2
      refine ⟨e, p, he, hp, h.free_pos hfree, fun o ho => ?_⟩
      rw [hbytes o ho, hsame]

end Copied

/-- A round of the loop, when `mem` has been taken: `memmove`, and `mappages` of the next page. -/
theorem mapCopy_spec {mem : Page} {e : Pte} (ha : Apart env pd d s) (hd : Dense d v)
    (hv : v < KERNPAGE) (he : pd.pte v = some e)
    (hmem : ∀ q, t.kmem.free q + holds mem q = s.kmem.free q)
    (hframe : ∀ q, s.kmem.free q = 0 → t.kmem.free q = 0 ∧ t.page q = s.page q) :
    wp (handle env) (fun _ => False)
      (memmove mem e.page >>= fun _ => lift (mappages d v mem e.writable e.user 1))
      (fun x r => (∀ q, x.2.owns q + r.kmem.free q ≤ d.owns q + s.kmem.free q) ∧
        (x.1 = true → Copied pd d x.2 s r v 1)) t := by
  have hfit := kernpage_lt_vpages
  have hfree : 0 < s.kmem.free mem := by
    have h1 := hmem mem
    rw [holds_self] at h1
    omega
  -- nobody else has the page
  have htaken : t.kmem.free mem = 0 := by
    have h1 := hmem mem
    have h2 := ha mem
    have h3 := room_le_one env.toEnv mem
    rw [holds_self] at h1
    omega
  have hne : ∀ q, s.kmem.free q = 0 → q ≠ mem := by
    rintro q hq rfl
    omega
  have hsrc := (hframe e.page (ha.free_eq_zero (owns_pos hv he))).2
  rw [wp_bind]
  refine wp_memmove fun t₁ hkmem hothers hbytes => ?_
  refine (wp_lift.mpr (mapNext_spec (s := t₁) hd hv mem e.writable e.user)).mono fun x r hx => ?_
  obtain ⟨ok, d'⟩ := x
  obtain ⟨⟨hpte, hdense, howns⟩, hframe₁⟩ := hx
  rw [hkmem] at howns hframe₁
  dsimp only at hpte hdense howns ⊢
  refine ⟨fun q => ?_, ?_⟩
  · have h1 := howns q
    have h2 := hmem q
    split at h1 <;> omega
  · rintro rfl
    simp only [if_true] at hdense howns hpte
    constructor
    case dense => exact hdense
    case owns =>
      intro q
      have h1 := howns q
      have h2 := hmem q
      omega
    case below =>
      intro u hu
      rw [hpte u (by omega), if_neg (by omega)]
    case above =>
      intro u h1 h2
      rw [hpte u h2, if_neg (by omega)]
    case frame =>
      intro q hq
      obtain ⟨h1, h2⟩ := hframe₁ q (hframe q hq).1
      exact ⟨h1, h2.trans ((hothers q (hne q hq)).trans (hframe q hq).2)⟩
    case copy =>
      intro u h1 h2
      obtain rfl : u = v := by omega
      refine ⟨e, mem, he, ?_, hfree, fun o ho => ?_⟩
      · rw [hpte u (by omega), if_pos ⟨trivial, rfl⟩]
      · rw [(hframe₁ mem htaken).2, hbytes o ho, hsrc]

/-- `freevm` of what the child has so far. -/
theorem freevm_spec (h : ∀ q, d.owns q + s.kmem.free q ≤ env.room q) :
    wp (handle env) (fun _ => False) (lift (freevm d)) (fun _ _ => True) s := by
  refine wp_lift.mpr (Ram.wp_lift (Q := fun _ _ => True) |>.mpr ?_)
  refine (((freevm_owns d h).both (freevm_faults d)).weaken fun e he => ?_).mono
    fun _ _ _ => trivial
  obtain ⟨h1, h2⟩ := he
  revert h1 h2
  cases e <;> decide

/-- **The loop of `copyuvm`** never panics.  It copies the pages that are left, or gives up. -/
theorem copyFrom_spec (n : ℕ) (h : Dense pd k) (hn : v + n ≤ k) (hk : k ≤ KERNPAGE)
    (ha : Apart env pd d s) (hd : Dense d v) :
    wp (handle env) (fun _ => False) (copyFrom pd d n v)
      (fun x t => x.1 = pd ∧ ∀ d', x.2 = some d' → Copied pd d d' s t v n) s := by
  induction n generalizing d v s with
  | zero =>
    refine ⟨rfl, ?_⟩
    rintro d' ⟨⟩
    exact Copied.refl hd
  | succ n ih =>
    have hsole : ∀ q, d.owns q + s.kmem.free q ≤ env.room q := by
      intro q
      have := ha q
      omega
    have hpure : lift (Pure.pure (some pd)) = (Pure.pure (some pd) : CopyProg _) := rfl
    obtain ⟨e, he⟩ := Option.isSome_iff_exists.mp ((h v (by omega)).mpr (by omega))
    rw [copyFrom, walkpgdir_false, if_pos (h.table (by omega) (by omega)), hpure, wp_bind,
      wp_pure]
    dsimp only
    rw [he]
    dsimp only
    rw [wp_bind]
    refine (wp_lift.mpr (wp_lift_takes takes_kalloc kalloc_draws)).mono fun o t ht => ?_
    obtain ⟨ho, hframe⟩ := ht
    cases o with
    | none =>
      dsimp only
      rw [wp_bind]
      refine (freevm_spec fun q => ?_).mono fun _ _ _ => ⟨rfl, fun d' hd' => nomatch hd'⟩
      rw [ho.2 q]
      exact hsole q
    | some mem =>
      dsimp only
      rw [← bind_assoc, wp_bind]
      refine (mapCopy_spec ha hd (by omega) he ho.2 hframe).mono fun x r hx => ?_
      obtain ⟨ok, d₁⟩ := x
      cases ok with
      | true =>
        have hstep := hx.2 rfl
        refine (ih (by omega) (hstep.apart ha) hstep.dense).mono fun y t' hy => ?_
        refine ⟨hy.1, fun d' hd' => ?_⟩
        rw [Nat.add_comm n 1]
        exact hstep.trans (hy.2 d' hd') ha (by omega)
      | false =>
        simp only [Bool.false_eq_true, if_false, wp_bind]
        refine (freevm_spec fun q => (hx.1 q).trans (hsole q)).mono
          fun _ _ _ => ⟨rfl, fun d' hd' => nomatch hd'⟩

/-! ## Stores of the two processes -/

/-- The processes that `fork` leaves. -/
inductive Side
  | parent
  | child
  deriving DecidableEq

def Side.dir (pd d : PageDir) : Side → PageDir
  | .parent => pd
  | .child => d

/-- A store of one byte to a user address, by one of the processes. -/
structure Write where
  side : Side
  va : ℕ
  byte : UInt8
  user : va < KERNBASE

/-- A store through a directory.  Where nothing is mapped, nothing is stored. -/
def poke (pd : PageDir) (va : ℕ) (b : UInt8) (s : State) : State :=
  match pd.pte (va / PGSIZE) with
  | none => s
  | some e => { s with
      page := update s.page e.page (update (s.page e.page) (va % PGSIZE) b) }

/-- Stores of both, one after the other. -/
def writes (pd d : PageDir) (ws : List Write) (s : State) : State :=
  ws.foldl (fun s w => poke (w.side.dir pd d) w.va w.byte s) s

/-- The bytes that are seen through one directory are those that were stored through it. -/
def Isolated (pd d : PageDir) (t : State) : Prop :=
  ∀ (ws : List Write) (x : Side), ∀ va < KERNBASE,
    byteAt (x.dir pd d) (writes pd d ws t) va =
      byteAt (x.dir pd d) (writes pd d (ws.filter (·.side == x)) t) va

/-- The states agree on the pages of a directory. -/
def Agree (pd : PageDir) (s t : State) : Prop := ∀ q, 1 ≤ pd.owns q → s.page q = t.page q

theorem lt_kernpage_of_user {va : ℕ} (h : va < KERNBASE) : va / PGSIZE < KERNPAGE :=
  Nat.div_lt_of_lt_mul (Nat.mul_comm KERNPAGE PGSIZE ▸ h)

theorem Agree.byteAt {va : ℕ} (h : Agree pd s t) (hva : va < KERNBASE) :
    byteAt pd s va = byteAt pd t va := by
  rw [Ram.byteAt, Ram.byteAt]
  cases he : pd.pte (va / PGSIZE) with
  | none => rfl
  | some e => rw [Option.map_some, Option.map_some, h _ (owns_pos (lt_kernpage_of_user hva) he)]

/-- A store through the directory itself. -/
theorem Agree.poke_same (h : Agree pd s t) (w : Write) :
    Agree pd (poke pd w.va w.byte s) (poke pd w.va w.byte t) := by
  unfold poke
  split
  · exact h
  · rename_i e he
    have hpage := h _ (owns_pos (lt_kernpage_of_user w.user) he)
    intro q hq
    dsimp only
    by_cases hqe : q = e.page
    · rw [hqe, update_self, update_self, hpage]
    · rw [update_of_ne hqe, update_of_ne hqe, h q hq]

/-- A store through a directory that has none of the pages. -/
theorem Agree.poke_other (h : Agree pd s t) (hdisj : ∀ q, 1 ≤ pd.owns q → d.owns q = 0)
    (w : Write) : Agree pd (poke d w.va w.byte s) t := by
  unfold poke
  split
  · exact h
  · rename_i e he
    intro q hq
    have hown := owns_pos (lt_kernpage_of_user w.user) he
    have hne : q ≠ e.page := by
      rintro rfl
      have := hdisj _ hq
      omega
    dsimp only
    rw [update_of_ne hne, h q hq]

/-- No page of one process is the other's. -/
theorem Apart.disjoint (h : Apart env pd d s) {x y : Side} (hxy : y ≠ x)
    (hq : 1 ≤ (x.dir pd d).owns q) : (y.dir pd d).owns q = 0 := by
  have h1 := h q
  have h2 := room_le_one env.toEnv q
  cases x <;> cases y <;> simp only [Side.dir, ne_eq, not_true_eq_false] at hxy hq ⊢ <;> omega

/-- **Isolation.** -/
theorem Apart.isolated (h : Apart env pd d t) : Isolated pd d t := by
  intro ws x va hva
  -- one run with all stores, one with those of `x`
  have hagree : ∀ s₁ s₂ : State, Agree (x.dir pd d) s₁ s₂ →
      Agree (x.dir pd d) (writes pd d ws s₁) (writes pd d (ws.filter (·.side == x)) s₂) := by
    induction ws with
    | nil => exact fun _ _ h => h
    | cons w ws ih =>
      intro s₁ s₂ h12
      by_cases hw : w.side = x
      · rw [List.filter_cons_of_pos (by simpa using hw)]
        refine ih _ _ ?_
        dsimp only
        rw [hw]
        exact h12.poke_same w
      · rw [List.filter_cons_of_neg (by simpa using hw)]
        exact ih _ _ (h12.poke_other (fun q hq => h.disjoint hw hq) w)
  exact (hagree t t fun _ _ => rfl).byteAt hva

/-! ## The child -/

/-- The child's directory is an isolated copy of the parent's. -/
structure Forked (layout : Layout) (pd d : PageDir) (sz : ℕ) (s t : State) : Prop where
  /-- Every page below the size is in a page that was free, with its bytes and permissions. -/
  copied : ∀ va < sz, ∃ e p, pd.pte (va / PGSIZE) = some e ∧
    d.pte (va / PGSIZE) = some { e with page := p } ∧ 0 < s.kmem.free p ∧ pd.owns p = 0 ∧
      ∀ o < PGSIZE, t.page p o = s.page e.page o
  distinct : ∀ u < KERNPAGE, ∀ v < KERNPAGE, ∀ e e', d.pte u = some e → d.pte v = some e' →
    e.page = e'.page → u = v
  top : ∀ v, pgroundup sz ≤ v → v < KERNPAGE → d.pte v = none
  kernel : ∀ (e : Vm.Env) (m m' : Kmem) (d₀ : PageDir),
    run (Vm.handle e) (setupkvm layout) m = .ok (some d₀, m') →
      ∀ v, KERNPAGE ≤ v → v < VPAGES → d.pte v = d₀.pte v
  parent : ∀ q, 1 ≤ pd.owns q → t.page q = s.page q
  isolated : Isolated pd d t

/-- The child after the loop, which started in `s` from a directory of `setupkvm`. -/
theorem Copied.forked {layout : Layout} {s₀ : State} (h : Copied pd d₁ d s t 0 (pgroundup sz))
    (ha : Apart env pd d₁ s) (hsole : Sole env pd s₀)
    (hframe : ∀ q, s₀.kmem.free q = 0 → s.kmem.free q = 0 ∧ s.page q = s₀.page q)
    (hsz : sz ≤ KERNBASE) (hkernel : ∀ u < VPAGES, d₁.pte u = kernelPte (kmap layout) u) :
    Forked layout pd d sz s₀ t where
  copied va hva := by
    have hv : va / PGSIZE < pgroundup sz := by
      rw [lt_pgroundup_iff]
      exact (Nat.div_mul_le_self va PGSIZE).trans_lt hva
    obtain ⟨e, p, he, hp, hfree, hbytes⟩ := h.copy _ (Nat.zero_le _) (by rwa [Nat.zero_add])
    have hsrc := hframe _ (hsole.free_eq_zero (lt_kernpage_of_user (by omega)) he)
    refine ⟨e, p, he, hp, ?_, ?_, fun o ho => ?_⟩
    · refine Nat.pos_of_ne_zero fun h0 => ?_
      have := (hframe p h0).1
      omega
    · by_contra hown
      have := ha.free_eq_zero (q := p) (by omega)
      omega
    · rw [hbytes o ho, hsrc.2]
  distinct u hu v hv e e' he he' hpage := by
    refine Maps.unique (q := e.page) ⟨hu, e, he, rfl⟩ ⟨hv, e', he', hpage.symm⟩ ?_
    have h1 := h.apart ha e.page
    have h2 := room_le_one env.toEnv e.page
    omega
  top v h1 h2 := pte_eq_none_of_le h.dense h2 (by omega)
  kernel e m m' d₀ hrun v h1 h2 := by
    have hd₀ := (@setupkvm_pte (fun _ => True) e m layout).of_ok hrun d₀ rfl v h2
    rw [h.above v h1 h2, hkernel v h2, hd₀]
  parent q hq := by
    have hused : s₀.kmem.free q = 0 := by
      have h1 := hsole q
      have h2 := room_le_one env.toEnv q
      omega
    rw [(h.frame q (ha.free_eq_zero hq)).2, (hframe q hused).2]
  isolated := (h.apart ha).isolated

/-- **`copyuvm` of an address space without gaps** never panics and leaves `pgdir` as it is.  What
it returns, if anything, is an isolated copy. -/
theorem copyuvm_forked (hsole : Sole env pd s) (hdense : Dense pd (pgroundup sz))
    (hsz : sz ≤ KERNBASE) :
    ∃ x t, run (handle env) (copyuvm env.layout pd sz) s = .ok (x, t) ∧ x.1 = pd ∧
      ∀ d, x.2 = some d → Forked env.layout pd d sz s t := by
  have hsetup := ((@setupkvm_draws env.toEnv (fun _ => False) s.kmem env.layout).and
    (@setupkvm_owns env.toEnv s.kmem env.layout)).and
      (@setupkvm_pte (fun _ => True) env.toEnv s.kmem env.layout)
  refine wp.exists_run ?_
  rw [copyuvm, wp_bind]
  refine (wp_lift.mpr (wp_lift_takes (takes_setupkvm env.layout) hsetup)).mono fun o t ht => ?_
  obtain ⟨⟨⟨hdrawn, howns⟩, hpte⟩, hframe⟩ := ht
  cases o with
  | none => exact ⟨rfl, fun d hd => nomatch hd⟩
  | some d₁ =>
    have ha : Apart env pd d₁ t := by
      intro q
      have h1 := howns q
      have h2 := hsole q
      omega
    refine (copyFrom_spec _ hdense (by omega) (pgroundup_le_kernpage hsz) ha
      (dense_kernelTables hdrawn.2)).mono fun x r hx => ⟨hx.1, fun d hd => ?_⟩
    exact (hx.2 d hd).forked ha hsole hframe hsz (hpte d₁ rfl)

/-! ## With enough pages -/

/-- The loop gives up only when it is refused a page: for a page of the user, or for a page
table. -/
theorem copyFrom_refused {e : Vm.Env} {m : Kmem} (n : ℕ) (h : Dense pd k) (hn : v + n ≤ k)
    (hk : k ≤ KERNPAGE) (hd : Dense d v) :
    wp (Vm.handle e) (fun _ => True) (Vm.copyFrom pd d n v)
      (fun o _ => o = none → ∃ c < 2 * n, FailsAt e m c) m := by
  induction n generalizing d v m with
  | zero => exact fun h => nomatch h
  | succ n ih =>
    obtain ⟨x, hx⟩ := Option.isSome_iff_exists.mp ((h v (by omega)).mpr (by omega))
    rw [Vm.copyFrom, walkpgdir_false, wp_bind, wp_pure, if_pos (h.table (by omega) (by omega))]
    dsimp only
    rw [hx]
    dsimp only
    rw [wp_bind]
    refine kalloc_draws.mono fun o m₁ ho => ?_
    cases o with
    | none =>
      dsimp only
      rw [wp_bind]
      exact wp_true.mono fun _ _ _ _ => ⟨0, by omega, ho.1.failsAt⟩
    | some mem =>
      dsimp only
      rw [wp_bind]
      have hnone := pte_eq_none_of_le hd (by omega) le_rfl
      refine ((mappages_one hnone mem x.writable x.user).and
        (mappages_dense (R := fun _ => True) hd (by omega) mem x.writable x.user)).mono
          fun y m₂ hy => ?_
      obtain ⟨ok, d₁⟩ := y
      obtain ⟨hdraw, hdense⟩ := hy
      cases ok with
      | false =>
        simp only [Bool.false_eq_true, if_false, wp_bind]
        exact wp_true.mono fun _ _ _ _ => ⟨1, by omega, (ho.1.refused hdraw.1).failsAt⟩
      | true =>
        simp only [if_true] at hdense ⊢
        refine (ih (by omega) hdense).mono fun o' m₃ ho' hnone' => ?_
        obtain ⟨c, hc, hfails⟩ := ho' hnone'
        have hall := ho.1.trans hdraw.1
        refine ⟨_, ?_, (hall.refused ⟨hfails, rfl⟩).failsAt⟩
        split <;> omega

/-- **`copyuvm` returns a directory unless `kalloc` fails.** -/
theorem copyuvm_refused (hdense : Dense pd (pgroundup sz)) (hsz : sz ≤ KERNBASE) :
    wp (handle env) (fun _ => True) (copyuvm env.layout pd sz) (fun x _ =>
      x.2 = none → ∃ c < 65 + 2 * pgroundup sz, FailsAt env.toEnv s.kmem c) s := by
  refine wp_copyuvm (Q := fun o _ => o = none →
    ∃ c < 65 + 2 * pgroundup sz, FailsAt env.toEnv s.kmem c) |>.mpr ?_
  rw [Vm.copyuvm, wp_bind]
  refine (setupkvm_draws env.layout).mono fun o m ho => ?_
  cases o with
  | none =>
    obtain ⟨c, hc, hrefused⟩ := ho
    exact fun _ => ⟨c, by omega, hrefused.failsAt⟩
  | some d =>
    refine (copyFrom_refused _ hdense (by omega) (pgroundup_le_kernpage hsz)
      (dense_kernelTables ho.2)).mono fun o' m' ho' hnone => ?_
    obtain ⟨c, hc, hfails⟩ := ho' hnone
    exact ⟨65 + c, by omega, (ho.1.refused ⟨hfails, rfl⟩).failsAt⟩

/-- A process of one page, and enough memory for another. -/
def forkRam : State := ⟨⟨List.range' 0x300 67, 0⟩, fun _ o => UInt8.ofNat o⟩

theorem forkRam_sole : Sole smallRam onePage forkRam := by
  intro (q : ℕ)
  have hroom : smallRam.room q = if 0x110 ≤ q ∧ q < 0xE000 then 1 else 0 := rfl
  have hfree : forkRam.kmem.free q = if 0x300 ≤ q ∧ q < 0x300 + 67 then 1 else 0 :=
    free_range' 0x300 67 0 q
  rw [hroom, hfree, onePage_owns]
  simp only [holds]
  split_ifs <;> omega

theorem copyuvm_forked_onePage : Sole smallRam onePage forkRam ∧
    ∃ d t, run (handle smallRam) (copyuvm smallRam.layout onePage 4096) forkRam =
        .ok ((onePage, some d), t) ∧ Forked smallRam.layout onePage d 4096 forkRam t := by
  have hdense := onePage_user.dense
  obtain ⟨⟨pd, o⟩, t, hrun, hpd, hforked⟩ :=
    copyuvm_forked forkRam_sole hdense (by decide)
  obtain rfl : pd = onePage := hpd
  cases o with
  | some d => exact ⟨forkRam_sole, d, t, hrun, hforked d rfl⟩
  | none =>
    obtain ⟨c, hc, hfails⟩ := (copyuvm_refused hdense (by decide)).of_ok hrun rfl
    have hlen : forkRam.kmem.freelist.length = 67 := by decide
    have hpages : 65 + 2 * pgroundup 4096 = 67 := by decide
    exact absurd (hfails.fails (by omega)) Bool.false_ne_true

end Xv6.Vm.Ram.Copy
