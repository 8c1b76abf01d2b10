import Xv6.Vm.RamOps

/-!
# What `sbrk` leaves

`growproc` takes the size 0 that `deallocuvm` returns for a failure, when the process has lost all
its pages already, and a negative size is a large one to `deallocuvm`, which then does nothing and
reports success.  In every other case `sbrk` does what it says.

## Main definitions

* `User env pd sz s` — a process whose pages are the first ones, up to its size.
* `Exact` — what a call should do.

## Main results

* `sbrk_exact` — a call does what it should exactly when it does not take the process to size 0
  or below.
-/

namespace Xv6.Vm.Ram

open Prog

variable {env : Env} {s t : State} {pd pd' : PageDir} {sz : ℕ}

/-- A process of size `sz`, without holes and with its pages to itself. -/
structure User (env : Env) (pd : PageDir) (sz : ℕ) (s : State) : Prop where
  lt : sz < KERNBASE
  dense : Dense pd (pgroundup sz)
  sole : Sole env pd s

/-- A call that fails and changes nothing, or one that returns the old size, with the new size,
the bytes below both, and nothing but zeroes in what is new. -/
def Exact (pd : PageDir) (sz : ℕ) (n : ℤ) (s : State) (r : Option ℕ × PageDir × ℕ) (t : State) :
    Prop :=
  r.1 = none ∧ r.2.2 = sz ∧ (∀ v < KERNPAGE, r.2.1.pte v = pd.pte v) ∧
      (∀ va < KERNBASE, byteAt r.2.1 t va = byteAt pd s va) ∨
    r.1 = some sz ∧ (r.2.2 : ℤ) = sz + n ∧
      (∀ va < min sz r.2.2, byteAt r.2.1 t va = byteAt pd s va) ∧
      (∀ v < KERNPAGE, max sz r.2.2 ≤ v * PGSIZE → r.2.1.pte v = none) ∧
      ∀ v < KERNPAGE, pd.pte v = none → ∀ e, r.2.1.pte v = some e →
        ∀ o < PGSIZE, t.page e.page o = 0

/-- Bytes in pages that are kept. -/
theorem Kept.byteAt {k va : ℕ} (h : Kept pd pd' s t k) (hva : va / PGSIZE < k) :
    byteAt pd' t va = byteAt pd s va := by
  rw [Ram.byteAt, Ram.byteAt, h.pte _ hva]
  cases hpte : pd.pte (va / PGSIZE) with
  | none => rfl
  | some e => rw [Option.map_some, Option.map_some, h.bytes _ hva e hpte]

theorem div_lt_pgroundup {va : ℕ} (h : va < sz) : va / PGSIZE < pgroundup sz := by
  simp only [pgroundup, PGSIZE]
  omega

theorem div_lt_kernpage {va : ℕ} (h : va < KERNBASE) : va / PGSIZE < KERNPAGE := by
  simp only [KERNBASE, PGSIZE] at h ⊢
  omega

theorem pgroundup_le_of_le {v : ℕ} (h : sz ≤ v * PGSIZE) : pgroundup sz ≤ v := by
  simp only [pgroundup, PGSIZE] at h ⊢
  omega

/-- Two address spaces of the same pages. -/
theorem Kept.same {k : ℕ} (h : Kept pd pd' s t k) (hd : Dense pd k) (hd' : Dense pd' k) :
    (∀ v < KERNPAGE, pd'.pte v = pd.pte v) ∧
      ∀ va < KERNBASE, Ram.byteAt pd' t va = Ram.byteAt pd s va := by
  have hpte : ∀ v < KERNPAGE, pd'.pte v = pd.pte v := by
    intro v hv
    by_cases hk : v < k
    · exact h.pte v hk
    · rw [pte_eq_none_of_le hd hv (by omega), pte_eq_none_of_le hd' hv (by omega)]
  refine ⟨hpte, fun va hva => ?_⟩
  by_cases hk : va / PGSIZE < k
  · exact h.byteAt hk
  · have hv := div_lt_kernpage hva
    rw [Ram.byteAt, Ram.byteAt, pte_eq_none_of_le hd hv (by omega),
      pte_eq_none_of_le hd' hv (by omega)]
    rfl

/-- Growing: the call is exact whether there is memory or not. -/
theorem sbrk_grow {n : ℤ} (h : User env pd sz s) (hn : 0 < n) (hn' : n < 0x80000000) :
    wp (handle env) (fun _ => False) (sysSbrk pd sz n) (fun r t => Exact pd sz n s r t) s := by
  have hlt : sz < 0x80000000 := h.lt
  have hnew : ((sz + n) % 0x100000000).toNat = (sz + n).toNat := by omega
  rw [sysSbrk, wp_bind, growproc]
  simp only [hn, if_true]
  rw [wp_bind, hnew]
  refine (allocuvm_spec h.sole h.dense _).mono fun r t hr => ?_
  obtain ⟨r, pd'⟩ := r
  obtain ⟨⟨hkept, hgrown⟩, -⟩ := hr
  rcases hgrown with ⟨h0, hd⟩ | ⟨-, hsz, hd, hz⟩
  · dsimp only at h0 hd hkept ⊢
    rw [if_pos h0]
    exact .inl ⟨rfl, rfl, hkept.same h.dense hd⟩
  · dsimp only at hsz hd hz hkept ⊢
    have hr : (r : ℤ) = sz + n := by omega
    rw [if_neg (by omega)]
    refine .inr ⟨rfl, hr, fun va hva => ?_, fun v hv hmax => ?_, fun v hv hnone e he => ?_⟩
    · refine hkept.byteAt (div_lt_pgroundup ?_)
      simp only at hva
      omega
    · refine pte_eq_none_of_le hd hv (pgroundup_le_of_le ?_)
      simp only at hmax
      omega
    · simp only at he
      by_cases hv1 : v < pgroundup sz
      · rw [hkept.pte v hv1, hnone] at he
        cases he
      · by_cases hv2 : v < pgroundup r
        · obtain ⟨e', he', -, hzero⟩ := hz v (by omega) hv2
          obtain rfl := Option.some.inj (he.symm.trans he')
          exact hzero
        · rw [pte_eq_none_of_le hd hv (by omega)] at he
          cases he

/-- Shrinking to a size above 0. -/
theorem sbrk_shrink {n : ℤ} (h : User env pd sz s) (hn : n < 0) (hpos : 0 < sz + n) :
    wp (handle env) (fun _ => False) (sysSbrk pd sz n) (fun r t => Exact pd sz n s r t) s := by
  have hlt : sz < 0x80000000 := h.lt
  have hnew : ((sz + n) % 0x100000000).toNat = (sz + n).toNat := by omega
  have hless : (sz + n).toNat < sz := by omega
  have hmono := pgroundup_mono hless.le
  rw [sysSbrk, wp_bind, growproc]
  simp only [hn, if_true, if_neg (show ¬0 < n by omega)]
  rw [wp_bind, hnew]
  refine (deallocuvm_spec h.sole h.dense le_rfl h.lt.le hless).mono fun r t hr => ?_
  obtain ⟨r, pd'⟩ := r
  obtain ⟨⟨hr, hd, -, hpte⟩, hpage⟩ := hr
  dsimp only at hr hd hpte ⊢
  rw [Nat.min_eq_right hmono] at hd
  rw [if_neg (by omega)]
  have hkept : Kept pd pd' s t (pgroundup (sz + n).toNat) :=
    ⟨hpte, fun u _ e _ => by rw [hpage]⟩
  refine .inr ⟨rfl, by simp only; omega, fun va hva => ?_, fun v hv hmax => ?_, ?_⟩
  · refine hkept.byteAt (div_lt_pgroundup ?_)
    simp only at hva
    omega
  · refine pte_eq_none_of_le hd hv (pgroundup_le_of_le ?_)
    simp only at hmax
    omega
  · intro v hv hnone e he
    simp only at he
    by_cases hv1 : v < pgroundup (sz + n).toNat
    · rw [hpte v hv1, hnone] at he
      cases he
    · rw [pte_eq_none_of_le hd hv (by omega)] at he
      cases he

/-- To size 0: the pages are gone, and the call fails. -/
theorem sbrk_zero {n : ℤ} (h : User env pd sz s) (hn : n < 0) (hzero : sz + n = 0) :
    wp (handle env) (fun _ => False) (sysSbrk pd sz n) (fun r t => ¬Exact pd sz n s r t) s := by
  have hnew : ((sz + n) % 0x100000000).toNat = 0 := by omega
  rw [sysSbrk, wp_bind, growproc]
  simp only [hn, if_true, if_neg (show ¬0 < n by omega)]
  rw [wp_bind, hnew]
  refine (deallocuvm_spec h.sole h.dense le_rfl h.lt.le (by omega)).mono fun r t hr => ?_
  obtain ⟨r, pd'⟩ := r
  obtain ⟨⟨hr, hd, -, -⟩, -⟩ := hr
  dsimp only at hr hd ⊢
  rw [if_pos hr]
  have hmin : min (pgroundup sz) (pgroundup 0) = 0 := Nat.min_eq_right (Nat.zero_le _)
  rw [hmin] at hd
  have h0 : (pd.pte 0).isSome := (h.dense 0 (by decide)).mpr (by
    rw [lt_pgroundup_iff]
    omega)
  rintro (⟨-, -, hpte, -⟩ | ⟨hsome, -⟩)
  · have h0' := hpte 0 (by decide)
    rw [pte_eq_none_of_le hd (by decide) le_rfl] at h0'
    rw [← h0'] at h0
    cases h0
  · cases hsome

/-- Below size 0: `deallocuvm` is asked for a size above the one there is, and does nothing. -/
theorem sbrk_below {n : ℤ} (h : User env pd sz s) (hn : n < 0) (hn' : -0x80000000 ≤ n)
    (hneg : sz + n < 0) :
    wp (handle env) (fun _ => False) (sysSbrk pd sz n) (fun r t =>
      t = s ∧ r = (if sz = 0 then none else some sz, pd, sz)) s := by
  have hlt : sz < 0x80000000 := h.lt
  have hge : sz ≤ ((sz + n) % 0x100000000).toNat := by omega
  have hsame : lift (deallocuvm pd sz ((sz + n) % 0x100000000).toNat) = Pure.pure (sz, pd) := by
    unfold deallocuvm
    rw [if_pos hge]
    rfl
  rw [sysSbrk, wp_bind, growproc]
  simp only [hn, if_true, if_neg (show ¬0 < n by omega)]
  rw [wp_bind, hsame, wp_pure]
  by_cases h0 : sz = 0
  · simp [h0]
  · simp [h0]

/-- **`sbrk` is exact** unless it shrinks a process that has memory to size 0 or below. -/
theorem sbrk_exact (h : User env pd sz s) (n : Int32) :
    ∃ r t, run (handle env) (sysSbrk pd sz n.toInt) s = .ok (r, t) ∧
      (Exact pd sz n.toInt s r t ↔ 0 ≤ n.toInt ∨ 0 < sz + n.toInt ∨ sz = 0) := by
  have hlo := n.le_toInt
  have hhi := n.toInt_lt
  generalize n.toInt = n at *
  have hend : wp (handle env) (fun _ => False) (sysSbrk pd sz n) (fun r t =>
      Exact pd sz n s r t ↔ 0 ≤ n ∨ 0 < sz + n ∨ sz = 0) s := by
    rcases Int.lt_trichotomy n 0 with hn | rfl | hn
    · rcases Int.lt_trichotomy (sz + n) 0 with hneg | hzero | hpos
      · refine (sbrk_below h hn (by omega) hneg).mono fun r t hr => ?_
        obtain ⟨rfl, rfl⟩ := hr
        by_cases h0 : sz = 0
        · simp only [h0, if_true, or_true, iff_true]
          exact .inl ⟨rfl, rfl, fun _ _ => rfl, fun _ _ => rfl⟩
        · simp only [h0, if_false, or_false]
          constructor
          · rintro (⟨hnone, -⟩ | ⟨-, hsz, -⟩)
            · cases hnone
            · simp only at hsz
              omega
          · intro hor
            omega
      · refine (sbrk_zero h hn hzero).mono fun r t hr => ?_
        exact ⟨fun hex => absurd hex hr, fun hor => by omega⟩
      · refine (sbrk_shrink h hn hpos).mono fun r t hr => ?_
        exact ⟨fun _ => .inr (.inl hpos), fun _ => hr⟩
    · refine ⟨fun _ => .inl le_rfl, fun _ => .inr ⟨rfl, by simp, fun _ _ => rfl, ?_, ?_⟩⟩
      · intro v hv hmax
        exact pte_eq_none_of_le h.dense hv (pgroundup_le_of_le (by simpa using hmax))
      · intro v hv hnone e he
        simp only at he
        rw [hnone] at he
        cases he
    · refine (sbrk_grow h hn (by omega)).mono fun r t hr => ?_
      exact ⟨fun _ => .inl hn.le, fun _ => hr⟩
  cases hrun : run (handle env) (sysSbrk pd sz n) s with
  | error e => exact (hend.of_error hrun).elim
  | ok r => exact ⟨r.1, r.2, rfl, hend.of_ok hrun⟩

/-! ## A process of one page -/

/-- The directory of a process with one page. -/
def onePage : PageDir :=
  ((⟨0x200, fun _ => none⟩ : PageDir).setTable (pdx 0) ⟨0x201, fun _ => none⟩).setPte 0
    (some ⟨0x202, true, true⟩)

/-- Memory without free pages. -/
def fullRam : State := ⟨⟨[], 0⟩, fun _ _ => 0⟩

/-- `smallKernel`, and pages that are found full of zeroes. -/
def smallRam : Env := { smallKernel with dirt := fun _ _ => 0 }

/-- The directory before the page is mapped. -/
theorem emptyTable_spec (q : Page) (v : ℕ) :
    let pd := (⟨0x200, fun _ => none⟩ : PageDir).setTable (pdx 0) ⟨0x201, fun _ => none⟩
    (pd.table (pdx 0)).isSome ∧ pd.pte v = none ∧ pd.owns q = holds 0x200 q + holds 0x201 q := by
  have hnone : (⟨0x200, fun _ => none⟩ : PageDir).table (pdx 0) = none := rfl
  refine ⟨by simp [PageDir.setTable], pte_newTable hnone _ v, ?_⟩
  rw [owns_newTable hnone, owns_empty]

theorem onePage_pte {v : ℕ} (hv : v < KERNPAGE) :
    onePage.pte v = if v = 0 then some ⟨0x202, true, true⟩ else none := by
  have hfit := kernpage_lt_vpages
  obtain ⟨htab, hpte, -⟩ := emptyTable_spec 0 v
  split
  · rename_i h0
    rw [h0]
    exact pte_setPte_self htab _
  · rename_i h0
    rw [onePage, pte_setPte_of_ne (by omega) (by decide) h0, hpte]

theorem onePage_owns (q : Page) :
    onePage.owns q = holds 0x200 q + holds 0x201 q + holds 0x202 q := by
  obtain ⟨htab, hpte, howns⟩ := emptyTable_spec q 0
  have hset := owns_setPte (v := 0) (by decide) htab (some ⟨0x202, true, true⟩) q
  have h1 : Pte.owns q none = 0 := rfl
  have h2 : Pte.owns q (some ⟨0x202, true, true⟩) = holds 0x202 q := rfl
  rw [hpte, howns, h1, h2, Nat.add_zero] at hset
  exact hset

theorem onePage_user : User smallRam onePage 4096 fullRam where
  lt := by decide
  dense := by
    intro v hv
    rw [onePage_pte hv, show pgroundup 4096 = 1 from rfl]
    split
    · simp_all
    · simp
      omega
  sole := by
    intro q
    have hfree : fullRam.kmem.free q = 0 := rfl
    rw [hfree, onePage_owns]
    have hroom : smallRam.room q = if 0x110 ≤ q ∧ q < 0xE000 then 1 else 0 := rfl
    rw [hroom]
    simp only [holds]
    by_cases h1 : 0x200 = q
    · subst h1
      decide
    · by_cases h2 : 0x201 = q
      · subst h2
        decide
      · by_cases h3 : 0x202 = q
        · subst h3
          decide
        · simp [h1, h2, h3]

theorem sbrk_exact_onePage : User smallRam onePage 4096 fullRam ∧
    ∃ r t, run (handle smallRam) (sysSbrk onePage 4096 (-4000 : Int32).toInt) fullRam =
        .ok (r, t) ∧
      (Exact onePage 4096 (-4000 : Int32).toInt fullRam r t ↔
        0 ≤ (-4000 : Int32).toInt ∨ 0 < (4096 : ℕ) + (-4000 : Int32).toInt ∨ 4096 = 0) :=
  ⟨onePage_user, sbrk_exact onePage_user (-4000)⟩

/-- `sbrk(-4096)` of a process of one page fails, and the page is gone. -/
theorem sbrk_wipes : User smallRam onePage 4096 fullRam ∧
    ∃ r t, run (handle smallRam) (sysSbrk onePage 4096 (-4096 : Int32).toInt) fullRam =
        .ok (r, t) ∧ ¬Exact onePage 4096 (-4096 : Int32).toInt fullRam r t := by
  refine ⟨onePage_user, ?_⟩
  have hend := sbrk_zero onePage_user (n := (-4096 : Int32).toInt) (by decide) (by decide)
  cases hrun : run (handle smallRam) (sysSbrk onePage 4096 (-4096 : Int32).toInt) fullRam with
  | error e => exact (hend.of_error hrun).elim
  | ok r => exact ⟨r.1, r.2, rfl, hend.of_ok hrun⟩

end Xv6.Vm.Ram
