import Xv6.Vm.Dealloc
import Xv6.Vm.Dense
import Xv6.Vm.Ram

/-!
# What programs do to memory

Programs that write to pages do to the allocator what they do without their stores.  A page that
is in use keeps its bytes unless a program stores to it, since `kalloc` hands out free pages only.

## Main definitions

* `Sole env pd s` — no page of the directory has another use.
* `Kept`, `Zeroed` — pages that are as they were, and new pages.

## Main results

* `wp_erase` — programs and their stores.
* `wp_lift_takes`, `wp_lift_frees` — programs that only take pages, or only free them.
* `allocuvm_spec` — `allocuvm` leaves the pages there are and adds pages of zeroes, or nothing.
* `deallocuvm_spec` — `deallocuvm` leaves the first pages.
-/

namespace Xv6.Vm.Ram

open Function Prog

variable {α : Type} {env : Env} {R : Fault → Prop} {s t : State} {pd pd' : PageDir} {m : MemProg α}
  {p q : Page} {v u k oldsz newsz : ℕ}

/-! ## Stores -/

theorem handle_erase (o : RamOp) (s : State) :
    run (Vm.handle env.toEnv) o.erase s.kmem =
      (handle env o s).map fun r => (r.1, r.2.kmem) := by
  cases o with
  | store p off bytes => rfl
  | mem o =>
    simp only [RamOp.erase, run_op]
    cases o with
    | kalloc =>
      simp only [handle]
      cases Vm.handle env.toEnv .kalloc s.kmem with
      | error e => rfl
      | ok r =>
        obtain ⟨o, m⟩ := r
        cases o <;> rfl
    | kfree p =>
      simp only [handle]
      cases Vm.handle env.toEnv (.kfree p) s.kmem <;> rfl
    | panic why => rfl

/-- **A program does to the allocator what it does without its stores.** -/
theorem wp_erase {Q : α → Kmem → Prop} (m : RamProg α) :
    wp (handle env) R m (fun a t => Q a t.kmem) s ↔
      wp (Vm.handle env.toEnv) R (erase m) Q s.kmem :=
  wp_interp (π := State.kmem) handle_erase m

@[simp] theorem erase_lift (m : MemProg α) : erase (lift m) = m := by
  induction m with
  | pure a => rfl
  | call o next ih => exact congrArg (Prog.call o) (funext ih)

@[simp] theorem erase_bind {β : Type} (m : RamProg α) (f : α → RamProg β) :
    erase (m >>= f) = erase m >>= fun a => erase (f a) := interp_bind m f

@[simp] theorem erase_pure (a : α) : erase (Pure.pure a : RamProg α) = Pure.pure a := rfl

@[simp] theorem erase_store (p : Page) (off : ℕ) (bytes : List UInt8) :
    erase (store p off bytes) = Pure.pure () := rfl

theorem wp_lift {Q : α → Kmem → Prop} :
    wp (handle env) R (lift m) (fun a t => Q a t.kmem) s ↔
      wp (Vm.handle env.toEnv) R m Q s.kmem := by
  rw [wp_erase, erase_lift]

@[simp] theorem wp_store {Q : Unit → State → Prop} {off : ℕ} {bytes : List UInt8} :
    wp (handle env) R (store p off bytes) Q s ↔
      Q () { s with page := update s.page p (Xv6.Image.splice (s.page p) off bytes) } := by
  rw [wp, store, run_op]
  rfl

/-! ## Pages in use -/

/-- An operation of the allocator other than `kfree`. -/
def Takes : MemOp → Prop
  | .kfree _ => False
  | _ => True

/-- An operation of the allocator other than `kalloc`. -/
def Frees : MemOp → Prop
  | .kalloc => False
  | _ => True

theorem only_lift {P : MemOp → Prop} (hm : Only P m) :
    Only (fun o => ∃ o', o = RamOp.mem o' ∧ P o') (lift m) := by
  induction hm with
  | pure a => exact .pure a
  | call o next ho _ ih => exact .call _ _ ⟨o, rfl, ho⟩ ih

/-- A program that only frees pages leaves all bytes. -/
theorem wp_lift_frees {Q : α → Kmem → Prop} (hm : Only Frees m)
    (hwp : wp (Vm.handle env.toEnv) R m Q s.kmem) :
    wp (handle env) R (lift m) (fun a t => Q a t.kmem ∧ t.page = s.page) s := by
  refine wp.and_only (I := fun t => t.page = s.page) (wp_lift.mpr hwp) (only_lift hm) ?_ rfl
  rintro - ⟨o, rfl, ho⟩ t r u ht hr
  cases o with
  | kalloc => exact ho.elim
  | panic why => cases hr
  | kfree p =>
    simp only [handle] at hr
    cases hfree : Vm.handle env.toEnv (.kfree p) t.kmem with
    | error e =>
      rw [hfree] at hr
      cases hr
    | ok x =>
      rw [hfree] at hr
      cases hr
      exact ht

/-- A program that only takes pages leaves the bytes of those that are in use. -/
theorem wp_lift_takes {Q : α → Kmem → Prop} (hm : Only Takes m)
    (hwp : wp (Vm.handle env.toEnv) R m Q s.kmem) :
    wp (handle env) R (lift m) (fun a t => Q a t.kmem ∧
      ∀ q, s.kmem.free q = 0 → t.kmem.free q = 0 ∧ t.page q = s.page q) s := by
  refine wp.and_only (I := fun t => ∀ q, s.kmem.free q = 0 →
    t.kmem.free q = 0 ∧ t.page q = s.page q) (wp_lift.mpr hwp) (only_lift hm) ?_
    fun q hq => ⟨hq, rfl⟩
  rintro - ⟨o, rfl, ho⟩ t r u ht hr
  cases o with
  | kfree p => exact ho.elim
  | panic why => cases hr
  | kalloc =>
    simp only [handle, Vm.handle] at hr
    split at hr
    · cases hr
      exact ht
    · rename_i p ps hlist
      split at hr
      · cases hr
        exact ht
      · cases hr
        intro q hq
        obtain ⟨hfree, hpage⟩ := ht q hq
        have hcount := free_taken hlist (t.kmem.calls + 1) q
        have hne : q ≠ p := by
          rintro rfl
          rw [holds_self] at hcount
          omega
        refine ⟨?_, ?_⟩
        · change (⟨ps, t.kmem.calls + 1⟩ : Kmem).free q = 0
          omega
        · change update t.page p _ q = s.page q
          rw [update_of_ne hne, hpage]

theorem takes_kalloc : Only Takes kalloc := only_op (o := MemOp.kalloc) trivial

theorem takes_walkpgdir (pd : PageDir) (v : ℕ) (alloc : Bool) :
    Only Takes (walkpgdir pd v alloc) := by
  unfold walkpgdir
  split
  · exact only_pure _
  · split
    · refine takes_kalloc.bind fun o => ?_
      cases o <;> exact only_pure _
    · exact only_pure _

theorem takes_mappages (pd : PageDir) (v pa : ℕ) (w x : Bool) (n : ℕ) :
    Only Takes (mappages pd v pa w x n) := by
  induction n generalizing pd v pa with
  | zero => exact only_pure _
  | succ n ih =>
    refine (takes_walkpgdir pd v true).bind fun o => ?_
    cases o with
    | none => exact only_pure _
    | some pd =>
      dsimp only
      split
      · exact .call _ _ trivial fun r => r.elim
      · exact ih _ _ _

theorem takes_setupkvm (layout : Layout) : Only Takes (setupkvm layout) := by
  have hmap : ∀ (ks : List Kmap) (pd : PageDir), Only Takes (mapKernel pd ks) := by
    intro ks
    induction ks with
    | nil => exact fun _ => only_pure _
    | cons k ks ih =>
      intro pd
      refine (takes_mappages ..).bind fun r => ?_
      dsimp only
      split
      · exact ih _
      · exact only_pure _
  unfold setupkvm
  refine takes_kalloc.bind fun o => ?_
  cases o with
  | none => exact only_pure _
  | some p => exact hmap _ _

theorem frees_kfree : Only Frees (kfree p) := only_op (o := MemOp.kfree p) trivial

theorem frees_deallocuvm (pd : PageDir) (oldsz newsz : ℕ) :
    Only Frees (deallocuvm pd oldsz newsz) := by
  unfold deallocuvm
  split
  · exact only_pure _
  refine Only.bind ?_ fun pd => only_pure _
  generalize pgroundup oldsz - pgroundup newsz = n
  generalize pgroundup newsz = v
  induction n generalizing pd v with
  | zero => exact only_pure _
  | succ n ih =>
    rw [deallocFrom]
    split
    · rw [walkpgdir_false]
      refine (only_pure _).bind fun o => ?_
      cases o with
      | none => exact ih _ _
      | some pd =>
        dsimp only
        split
        · split
          · exact .call _ _ trivial fun r => r.elim
          · exact frees_kfree.bind fun _ => ih _ _
        · exact ih _ _
    · exact only_pure _

/-! ## `deallocuvm` -/

/-- No page of the directory is free or has a second use. -/
def Sole (env : Env) (pd : PageDir) (s : State) : Prop :=
  ∀ q, pd.owns q + s.kmem.free q ≤ env.room q

/-- Pages are neither lost nor found. -/
def Conserves (pd pd' : PageDir) (s t : State) : Prop :=
  ∀ q, pd'.owns q + t.kmem.free q = pd.owns q + s.kmem.free q

theorem owns_pos {e : Pte} (hu : u < KERNPAGE) (he : pd.pte u = some e) : 1 ≤ pd.owns e.page := by
  have := owns_of_maps ⟨hu, e, he, rfl⟩
  omega

/-- A page that is mapped is not free. -/
theorem Sole.free_eq_zero {e : Pte} (h : Sole env pd s) (hu : u < KERNPAGE)
    (he : pd.pte u = some e) : s.kmem.free e.page = 0 := by
  have hown := owns_pos hu he
  have hle := h e.page
  have hroom := room_le_one env.toEnv e.page
  omega

/-- **`deallocuvm`** of an address space of `k` pages leaves the first of them as they are. -/
theorem deallocuvm_spec (hsole : Sole env pd s) (h : Dense pd k) (hk : k ≤ pgroundup oldsz)
    (hold : oldsz ≤ KERNBASE) (hlt : newsz < oldsz) :
    wp (handle env) (fun _ => False) (lift (deallocuvm pd oldsz newsz)) (fun r t =>
      (r.1 = newsz ∧ Dense r.2 (min k (pgroundup newsz)) ∧ Conserves pd r.2 s t ∧
        ∀ u < pgroundup newsz, r.2.pte u = pd.pte u) ∧ t.page = s.page) s := by
  have hfit := kernpage_lt_vpages
  have hmono := pgroundup_mono hlt.le
  have htop := pgroundup_le_kernpage hold
  have hexact : wp (Vm.handle env.toEnv) (fun _ => True) (deallocuvm pd oldsz newsz)
      (fun r _ => ∀ u < pgroundup newsz, r.2.pte u = pd.pte u) s.kmem := by
    unfold deallocuvm
    rw [if_neg (by omega), wp_bind]
    refine ((deallocFrom_exact _ (by omega) hold).weaken fun _ _ => trivial).mono
      fun pd' m' hd u hu => ?_
    refine hd.kept u (by omega) fun hc => ?_
    have := hc.1
    omega
  -- the panics of `kfree` are the only ones, and there is none of them
  have howns : wp (Vm.handle env.toEnv) (fun _ => False) (deallocuvm pd oldsz newsz)
      (fun r m => ∀ q, r.2.owns q + m.free q = pd.owns q + s.kmem.free q) s.kmem := by
    refine (((deallocuvm_owns hold hsole).both (deallocuvm_faults pd oldsz newsz)).weaken
      fun e he => ?_).mono fun r m hr => hr.1
    obtain ⟨h1, h2⟩ := he
    revert h1 h2
    cases e <;> decide
  have hall := howns.and ((deallocuvm_dense h hk hold hlt).and hexact)
  refine (wp_lift_frees (frees_deallocuvm pd oldsz newsz) hall).mono fun r t hr => ?_
  obtain ⟨⟨howns, ⟨hsz, hdense⟩, hpte⟩, hpage⟩ := hr
  exact ⟨⟨hsz, hdense, howns, hpte⟩, hpage⟩

/-! ## `allocuvm` -/

theorem allocFrom_erase (oldsz newsz : ℕ) (pd : PageDir) (n v : ℕ) :
    erase (allocFrom oldsz newsz pd n v) = Vm.allocFrom oldsz newsz pd n v := by
  induction n generalizing pd v with
  | zero => rfl
  | succ n ih =>
    simp only [allocFrom, Vm.allocFrom, erase_bind, erase_lift]
    congr 1
    funext o
    cases o with
    | none => simp only [erase_bind, erase_lift, erase_pure]
    | some mem =>
      simp only [erase_bind, erase_store, erase_lift, pure_bind]
      congr 1
      funext r
      obtain ⟨ok, pd'⟩ := r
      cases ok with
      | true => exact ih pd' (v + 1)
      | false =>
        simp only [Bool.false_eq_true, if_false, erase_bind, erase_lift, erase_pure]

/-- **`allocuvm`, without its stores**, is what it was without the contents of pages. -/
theorem allocuvm_erase (pd : PageDir) (oldsz newsz : ℕ) :
    erase (allocuvm pd oldsz newsz) = Vm.allocuvm pd oldsz newsz := by
  unfold allocuvm Vm.allocuvm
  split
  · rfl
  split
  · rfl
  · exact allocFrom_erase ..

theorem mappages_pte {m : Kmem} {e : Vm.Env} (hpte : pd.pte v = none) (hv : v < VPAGES) (pa : Page)
    (w x : Bool) : wp (Vm.handle e) R (mappages pd v pa w x 1) (fun r _ => ∀ u < VPAGES,
      r.2.pte u = if r.1 = true ∧ u = v then some ⟨pa, w, x⟩ else pd.pte u) m := by
  rw [mappages, wp_bind]
  refine walkpgdir_draws.mono fun o m₁ ho => ?_
  cases o with
  | none =>
    intro u _
    simp
  | some pd₁ =>
    obtain ⟨-, -, -, htab, hsame⟩ := ho
    have hsome : (pd₁.table (pdx v)).isSome := by
      rw [← mem_tables, htab]
      exact Finset.mem_insert_self ..
    dsimp only
    rw [hsame, hpte, if_neg (by simp)]
    intro u hu
    by_cases huv : u = v
    · subst huv
      simp [pte_setPte_self hsome]
    · simp [pte_setPte_of_ne hu hv huv, hsame, huv]

/-- The first `k` pages are what they were. -/
structure Kept (pd pd' : PageDir) (s t : State) (k : ℕ) : Prop where
  pte : ∀ u < k, pd'.pte u = pd.pte u
  bytes : ∀ u < k, ∀ e, pd.pte u = some e → t.page e.page = s.page e.page

/-- The pages from `k` to `k'` are the user's and full of zeroes. -/
def Zeroed (pd : PageDir) (t : State) (k k' : ℕ) : Prop :=
  ∀ u, k ≤ u → u < k' → ∃ e, pd.pte u = some e ∧ e.user = true ∧ ∀ o < PGSIZE, t.page e.page o = 0

theorem Kept.refl (pd : PageDir) (s : State) (k : ℕ) : Kept pd pd s s k :=
  ⟨fun _ _ => rfl, fun _ _ _ _ => rfl⟩

theorem Kept.trans {pd'' : PageDir} {r : State} (h : Kept pd pd' s t k) (h' : Kept pd' pd'' t r k) :
    Kept pd pd'' s r k where
  pte u hu := (h'.pte u hu).trans (h.pte u hu)
  bytes u hu e he := (h'.bytes u hu e ((h.pte u hu).trans he)).trans (h.bytes u hu e he)

theorem Kept.mono {k' : ℕ} (h : Kept pd pd' s t k) (hk : k' ≤ k) : Kept pd pd' s t k' :=
  ⟨fun u hu => h.pte u (by omega), fun u hu => h.bytes u (by omega)⟩

/-- Behind an address space nothing is mapped. -/
theorem pte_eq_none_of_le (h : Dense pd k) (hv : v < KERNPAGE) (hk : k ≤ v) : pd.pte v = none := by
  have hiff := h v hv
  cases hpte : pd.pte v with
  | none => rfl
  | some e =>
    rw [hpte] at hiff
    simp at hiff
    omega

/-- `mappages` of the page behind an address space. -/
theorem mapNext_spec (h : Dense pd v) (hv : v < KERNPAGE) (mem : Page) (w x : Bool) :
    wp (handle env) (fun _ => False) (lift (mappages pd v mem w x 1)) (fun r t =>
      ((∀ u < VPAGES, r.2.pte u =
          if r.1 = true ∧ u = v then some ⟨mem, w, x⟩ else pd.pte u) ∧
        Dense r.2 (if r.1 then v + 1 else v) ∧
        ∀ q, r.2.owns q + t.kmem.free q =
          pd.owns q + s.kmem.free q + if r.1 then holds mem q else 0) ∧
      ∀ q, s.kmem.free q = 0 → t.kmem.free q = 0 ∧ t.page q = s.page q) s := by
  have hfit := kernpage_lt_vpages
  have hmap := (mappages_pte (m := s.kmem) (e := env.toEnv) (R := fun _ => False)
    (pte_eq_none_of_le h hv le_rfl) (by omega) mem w x).and
      ((mappages_dense (R := fun _ => True) h hv mem w x).and (mappages_owns hv mem w x))
  exact wp_lift_takes (takes_mappages pd v mem w x 1) hmap

/-- What the loop of `allocuvm` leaves, when it has come to page `v`. -/
def Allocs (pd pd' : PageDir) (s t : State) (v oldsz newsz sz : ℕ) : Prop :=
  sz = 0 ∧ Dense pd' (pgroundup oldsz) ∧ Kept pd pd' s t (pgroundup oldsz) ∨
  sz = newsz ∧ Dense pd' (pgroundup newsz) ∧ Kept pd pd' s t v ∧ Zeroed pd' t v (pgroundup newsz)

/-- On failure the pages that were added are taken back. -/
theorem undo_spec (hsole : Sole env pd s) (hdense : Dense pd v)
    (hle : pgroundup oldsz ≤ v) (hv : v ≤ pgroundup newsz) (hlt : oldsz < newsz)
    (hnew : newsz < KERNBASE) :
    wp (handle env) (fun _ => False) (lift (deallocuvm pd newsz oldsz)) (fun r t =>
      Dense r.2 (pgroundup oldsz) ∧ Kept pd r.2 s t (pgroundup oldsz) ∧
        Conserves pd r.2 s t) s := by
  refine (deallocuvm_spec hsole hdense hv hnew.le hlt).mono fun r t hr => ?_
  obtain ⟨⟨-, hd, hcons, hpte⟩, hpage⟩ := hr
  rw [Nat.min_eq_right hle] at hd
  exact ⟨hd, ⟨hpte, fun u hu e he => by rw [hpage]⟩, hcons⟩

/-- Bytes of mapped pages do not change while other pages are taken or written. -/
theorem Sole.kept (hsole : Sole env pd s) (hk : k ≤ KERNPAGE) (hpte : ∀ u < k, pd'.pte u = pd.pte u)
    (hpage : ∀ q, s.kmem.free q = 0 → t.page q = s.page q) : Kept pd pd' s t k :=
  ⟨hpte, fun _ hu _ he => hpage _ (hsole.free_eq_zero (Nat.lt_of_lt_of_le hu hk) he)⟩

theorem allocFrom_spec (n : ℕ) (hv : v + n = pgroundup newsz) (hle : pgroundup oldsz ≤ v)
    (hnew : newsz < KERNBASE) (hsole : Sole env pd s) (h : Dense pd v) :
    wp (handle env) (fun _ => False) (allocFrom oldsz newsz pd n v)
      (fun r t => Allocs pd r.2 s t v oldsz newsz r.1) s := by
  have hfit := kernpage_lt_vpages
  have htop := pgroundup_le_kernpage hnew.le
  induction n generalizing pd v s with
  | zero =>
    obtain rfl : v = pgroundup newsz := hv
    exact .inr ⟨rfl, h, Kept.refl .., fun u h1 h2 => absurd h2 (by omega)⟩
  | succ n ih =>
    have hlt : oldsz < newsz := by
      by_contra hge
      have hmono := pgroundup_mono (Nat.le_of_not_lt hge)
      omega
    rw [allocFrom, wp_bind]
    refine (wp_lift_takes takes_kalloc kalloc_draws).mono fun o t ht => ?_
    obtain ⟨ho, hframe⟩ := ht
    cases o with
    | none =>
      have hsole' : Sole env pd t := fun q => by
        rw [ho.2 q]
        exact hsole q
      dsimp only
      rw [wp_bind]
      refine (undo_spec hsole' h hle (by omega) hlt hnew).mono fun r t' hr => ?_
      have hkept := hsole.kept (k := pgroundup oldsz) (by omega) (fun _ _ => rfl)
        fun q hq => (hframe q hq).2
      exact .inl ⟨rfl, hr.1, hkept.trans hr.2.1⟩
    | some mem =>
      have hmem := ho.2
      dsimp only
      rw [wp_bind, wp_store, wp_bind]
      -- the state in which the page is cleared
      let t₁ : State := { t with
        page := update t.page mem
          (Xv6.Image.splice (t.page mem) 0 (List.replicate PGSIZE 0)) }
      have hne : ∀ q, s.kmem.free q = 0 → q ≠ mem := by
        rintro q hq rfl
        have := hmem q
        rw [holds_self] at this
        omega
      have hframe₁ : ∀ q, s.kmem.free q = 0 → t₁.kmem.free q = 0 ∧ t₁.page q = s.page q := by
        intro q hq
        refine ⟨(hframe q hq).1, ?_⟩
        rw [← (hframe q hq).2]
        exact update_of_ne (hne q hq) _ _
      -- nobody else has the page
      have hown : pd.owns mem = 0 ∧ t.kmem.free mem = 0 := by
        have h1 := hmem mem
        have h2 := hsole mem
        have h3 := room_le_one env.toEnv mem
        rw [holds_self] at h1
        omega
      refine (mapNext_spec (s := t₁) h (by omega) mem true true).mono fun r t₂ hr => ?_
      obtain ⟨ok, pd'⟩ := r
      obtain ⟨⟨hpte, hdense, howns⟩, hframe₂⟩ := hr
      have hsum : ∀ q, t₁.kmem.free q + holds mem q = s.kmem.free q := hmem
      have hkept : ∀ k ≤ v, Kept pd pd' s t₂ k := fun k hk => by
        refine hsole.kept (by omega) (fun u hu => ?_) fun q hq => ?_
        · rw [hpte u (by omega), if_neg (by omega)]
        · rw [(hframe₂ q (hframe₁ q hq).1).2, (hframe₁ q hq).2]
      cases ok with
      | true =>
        simp only [if_true] at hdense howns hpte ⊢
        have hsole' : Sole env pd' t₂ := fun q => by
          have h1 := howns q
          have h2 := hsum q
          have h3 := hsole q
          omega
        refine (ih (by omega) (by omega) hsole' hdense).mono fun r t₃ hr => ?_
        rcases hr with ⟨h0, hd, hk⟩ | ⟨hsz, hd, hk, hz⟩
        · exact .inl ⟨h0, hd, (hkept _ hle).trans hk⟩
        · refine .inr ⟨hsz, hd, (hkept v le_rfl).trans (hk.mono (by omega)), ?_⟩
          intro u h1 h2
          by_cases huv : u = v
          · subst huv
            have hpte' := hpte u (by omega)
            rw [if_pos ⟨trivial, rfl⟩] at hpte'
            refine ⟨_, (hk.pte u (by omega)).trans hpte', rfl, fun o ho => ?_⟩
            rw [hk.bytes u (by omega) _ hpte', (hframe₂ mem hown.2).2]
            simp [t₁, Xv6.Image.splice, ho]
          · exact hz u (by omega) h2
      | false =>
        simp only [Bool.false_eq_true, if_false] at hdense howns ⊢
        have hsole' : Sole env pd' t₂ := fun q => by
          have h1 := howns q
          have h2 := hsum q
          have h3 := hsole q
          omega
        rw [wp_bind]
        refine (undo_spec hsole' hdense hle (by omega) hlt hnew).mono fun r t₃ hr => ?_
        obtain ⟨hd, hk, hcons⟩ := hr
        have hroom : 1 + t₃.kmem.free mem ≤ env.room mem := by
          have h1 := hcons mem
          have h2 := howns mem
          have h3 := hsum mem
          have h4 := hsole mem
          rw [holds_self] at h3
          omega
        rw [wp_bind]
        refine (wp_lift_frees (Q := fun _ _ => True) frees_kfree
          (wp_kfree (.inr hroom) trivial)).mono fun _ t₄ ht₄ => ?_
        refine .inl ⟨rfl, hd, ((hkept _ hle).trans hk).trans ⟨fun _ _ => rfl, ?_⟩⟩
        intro u _ e _
        rw [ht₄.2]

/-- What `allocuvm` leaves, when it returns `sz`. -/
structure Grows (pd pd' : PageDir) (s t : State) (oldsz newsz sz : ℕ) : Prop where
  kept : Kept pd pd' s t (pgroundup oldsz)
  grown : sz = 0 ∧ Dense pd' (pgroundup oldsz) ∨
    newsz < KERNBASE ∧ sz = max oldsz newsz ∧ Dense pd' (pgroundup sz) ∧
      Zeroed pd' t (pgroundup oldsz) (pgroundup sz)

theorem allocuvm_grows (hsole : Sole env pd s) (h : Dense pd (pgroundup oldsz)) (newsz : ℕ) :
    wp (handle env) (fun _ => False) (allocuvm pd oldsz newsz)
      (fun r t => Grows pd r.2 s t oldsz newsz r.1) s := by
  unfold allocuvm
  split
  · exact ⟨Kept.refl .., .inl ⟨rfl, h⟩⟩
  rename_i hnew
  split
  · rename_i hlt
    refine ⟨Kept.refl .., .inr ⟨by omega, by rw [Nat.max_eq_left hlt.le], h, ?_⟩⟩
    exact fun u h1 h2 => absurd h2 (Nat.not_lt.mpr h1)
  · rename_i hle
    have hmono := pgroundup_mono (Nat.le_of_not_lt hle)
    refine (allocFrom_spec _ (by omega) le_rfl (by omega) hsole h).mono fun r t hr => ?_
    rcases hr with ⟨h0, hd, hk⟩ | ⟨hsz, hd, hk, hz⟩
    · exact ⟨hk, .inl ⟨h0, hd⟩⟩
    · refine ⟨hk, .inr ⟨by omega, by omega, ?_, ?_⟩⟩
      · rw [hsz]
        exact hd
      · rw [hsz]
        exact hz

/-- **`allocuvm`** leaves the pages that there are.  It adds pages full of zeroes up to the new
size, or gives 0 and adds none. -/
theorem allocuvm_spec (hsole : Sole env pd s) (h : Dense pd (pgroundup oldsz)) (newsz : ℕ) :
    wp (handle env) (fun _ => False) (allocuvm pd oldsz newsz)
      (fun r t => Grows pd r.2 s t oldsz newsz r.1 ∧ Conserves pd r.2 s t) s := by
  have howns : wp (Vm.handle env.toEnv) VmFault (Vm.allocuvm pd oldsz newsz)
      (fun r m => ∀ q, r.2.owns q + m.free q = pd.owns q + s.kmem.free q) s.kmem :=
    allocuvm_owns oldsz newsz hsole
  rw [← allocuvm_erase, ← wp_erase] at howns
  exact (allocuvm_grows hsole h newsz).and howns

end Xv6.Vm.Ram
