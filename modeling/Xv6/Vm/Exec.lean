import Xv6.Vm.Segments

/-!
# The image that `exec` makes

After the segments there is a page that the user cannot reach, and one for the stack.  The
argument strings go to the end of the stack, each below the one before, and below them goes the
vector of what `main` is called with.  When the strings have less than a page in all, the stack
pointer does not go below the page that the user cannot reach: either everything is on the
stack, or `copyout` fails at that page.

## Main definitions

* `Stored pd s va bs` — the user finds the bytes `bs` at `va`.
* `ExecImage` — a process with a new image.

## Main results

* `pushArgs_spec`, `pushStack_spec` — the stack.
* `exec_image` — `exec` of a regular file makes its image or changes nothing.
-/

namespace Xv6.Vm.Ram

open Function Prog
open Xv6.Image (le length_flatMap_le)

variable {env : Env} {used : Page → ℕ} {s₀ s t : State} {pd pd' : PageDir} {c : List UInt8}
  {f : ℕ → UInt8} {p q : Page} {a b i k n v va sz sp argc : ℕ} {buf bs : List UInt8}
  {ustack : ℕ → ℕ} {args argv : List (List UInt8)}

/-! ## `copyout` to the stack -/

/-- The user finds the bytes `bs` at `va`. -/
def Stored (pd : PageDir) (s : State) (va : ℕ) (bs : List UInt8) : Prop :=
  ∀ i < bs.length, userByte pd s (va + i) = some (bs.getD i 0)

/-- Nothing but what the user has is written. -/
theorem copyoutFrom_frame (k : ℕ) (hva : va < WORD) :
    wp (handle env) (fun _ => True) (copyoutFrom pd k va buf) (fun _ t => t.kmem = s.kmem ∧
      ∀ p, (∀ v < VPAGES, userPage pd v ≠ some p) → t.page p = s.page p) s := by
  induction k generalizing va buf s with
  | zero => exact ⟨rfl, fun _ _ => rfl⟩
  | succ k ih =>
    rw [copyoutFrom]
    split
    · exact ⟨rfl, fun _ _ => rfl⟩
    rw [wp_bind, wp_uva2ka]
    split
    · cases hpa : userPage pd (va / PGSIZE) with
      | none => exact ⟨rfl, fun _ _ => rfl⟩
      | some pa =>
        dsimp only
        rw [wp_bind, wp_store]
        have hv : va / PGSIZE < VPAGES := by
          simp only [WORD, PGSIZE, VPAGES] at hva ⊢
          omega
        refine (ih (Nat.mod_lt _ (by decide))).mono fun ok t ht => ⟨ht.1, fun p hp => ?_⟩
        rw [ht.2 p hp]
        refine update_of_ne ?_ _ _
        rintro rfl
        exact hp _ hv hpa
    · trivial

/-- What `copyout` writes is what the user finds, and the rest is as it was. -/
theorem Writes.userByte (h : Writes pd va buf s t) (halias : NoAlias pd)
    (hreach : Reaches pd va buf.length) (hend : va + buf.length ≤ WORD) (ha : a < WORD) :
    userByte pd t a = if va ≤ a ∧ a < va + buf.length then some (buf.getD (a - va) 0)
      else userByte pd s a := by
  have hpage : ∀ i < buf.length, pageOf va i = (va + i) / PGSIZE := by
    intro i hi
    rw [pageOf, Nat.mod_eq_of_lt (by omega)]
  split
  · rename_i hin
    have hi : a - va < buf.length := by omega
    have haddr : va + (a - va) = a := by omega
    obtain ⟨p, hp⟩ := Option.isSome_iff_exists.mp (hreach _ hi)
    have hbyte := h.bytes _ hi p hp
    rw [hpage _ hi, haddr] at hp
    rw [haddr] at hbyte
    rw [Ram.userByte, hp, Option.map_some, hbyte]
  · rename_i hout
    rw [Ram.userByte, Ram.userByte]
    cases hp : userPage pd (a / PGSIZE) with
    | none => rfl
    | some p =>
      rw [Option.map_some, Option.map_some, h.others p _ fun i hi hpi hmod => hout ?_]
      have hsame := halias _ (pageOf_lt va i) (a / PGSIZE)
        (by simp only [WORD, PGSIZE, VPAGES] at ha ⊢; omega) p hpi hp
      rw [hpage i hi] at hsame
      have h1 := Nat.div_add_mod (va + i) PGSIZE
      have h2 := Nat.div_add_mod a PGSIZE
      rw [hsame, hmod] at h1
      omega

/-- The last two pages of a new address space, `b` and `b + 1`: the user has only the second. -/
structure Guarded (pd : PageDir) (b : ℕ) : Prop where
  lt : b + 2 ≤ KERNPAGE
  tables : ∀ v, v = b ∨ v = b + 1 → (pd.table (pdx v)).isSome
  guard : userPage pd b = none

/-- `copyout` to somewhere in the last two pages: it is on the second of them, or fails. -/
theorem copyout_guarded (h : Aside env used pd s₀ s) (hg : Guarded pd b) {va : ℕ}
    {buf : List UInt8} (hlo : b * PGSIZE ≤ va)
    (hhi : va + buf.length ≤ (b + 2) * PGSIZE) (hpos : 0 < buf.length) :
    wp (handle env) (fun _ => False) (copyout pd va buf) (fun ok t => Aside env used pd s₀ t ∧
      (ok = true → (b + 1) * PGSIZE ≤ va ∧ ∀ a < WORD, userByte pd t a =
        if va ≤ a ∧ a < va + buf.length then some (buf.getD (a - va) 0)
        else userByte pd s a)) s := by
  have hword : (b + 2) * PGSIZE < WORD := by
    have := hg.lt
    simp only [KERNPAGE, PGSIZE, WORD] at this ⊢
    omega
  have hpage : ∀ i < buf.length, pageOf va i = b ∨ pageOf va i = b + 1 := by
    intro i hi
    rw [pageOf, Nat.mod_eq_of_lt (by omega)]
    simp only [PGSIZE] at hlo hhi ⊢
    omega
  have hspec := @copyoutFrom_spec env s pd va buf h.noAlias buf.length le_rfl (by omega) (by omega)
  refine ((hspec.weaken fun _ hbad => ?_).and (copyoutFrom_frame _ (by omega))).mono
    fun ok t ht => ?_
  · obtain ⟨i, hi, -, htab⟩ := hbad
    have := hg.tables _ (hpage i hi)
    rw [htab] at this
    cases this
  · obtain ⟨hok, hkmem, hframe⟩ := ht
    refine ⟨⟨fun q => ?_, fun q hq => ?_, h.kernel⟩, fun htrue => ?_⟩
    · rw [hkmem]
      exact h.room q
    · rw [hframe q fun v hv hp => ?_, h.same q hq]
      have howns := owns_of_maps (h.kernel.maps hv hp)
      exact absurd rfl (h.ne_of_owns hq (by omega))
    · subst htrue
      obtain ⟨hreach, hwrites⟩ := hok
      refine ⟨?_, fun a ha => hwrites.userByte h.noAlias hreach (by omega) ha⟩
      have hfirst := hreach 0 hpos
      have h0 : pageOf va 0 = va / PGSIZE := by
        rw [pageOf, Nat.add_zero, Nat.mod_eq_of_lt (by omega)]
      by_contra hlt
      have : pageOf va 0 = b := by
        simp only [PGSIZE] at h0 hlo hlt ⊢
        omega
      rw [this, hg.guard] at hfirst
      cases hfirst

/-! ## The argument strings -/

/-- The pointers that have been noted in `ustack`. -/
def pointers (ustack : ℕ → ℕ) (n : ℕ) : List ℕ := (List.range n).map fun j => ustack (3 + j)

/-- A string above the stack pointer. -/
def OnStack (pd : PageDir) (s : State) (b sp ptr : ℕ) (arg : List UInt8) : Prop :=
  sp ≤ ptr ∧ ptr + arg.length < (b + 2) * PGSIZE ∧ Stored pd s ptr (arg ++ [0])

/-- The strings `args` are on the stack, and the program is below it. -/
structure Pushed (pd : PageDir) (s : State) (b : ℕ) (f : ℕ → UInt8) (args : List (List UInt8))
    (sp : ℕ) (ustack : ℕ → ℕ) : Prop where
  strings : List.Forall₂ (OnStack pd s b sp) (pointers ustack args.length) args
  le : sp ≤ (b + 2) * PGSIZE
  depth : (b + 2) * PGSIZE ≤ sp + args.flatten.length + 4 * args.length
  program : ∀ a < b * PGSIZE, userByte pd s a = some (f a)

/-- A store below the stack pointer leaves a string as it is. -/
theorem OnStack.below {ptr sp' : ℕ} {arg : List UInt8} (h : OnStack pd s b sp ptr arg)
    (hsp : sp' ≤ sp) (hword : (b + 2) * PGSIZE < WORD)
    (hsame : ∀ a < WORD, sp ≤ a → userByte pd t a = userByte pd s a) :
    OnStack pd t b sp' ptr arg := by
  obtain ⟨hle, hlt, hstored⟩ := h
  refine ⟨by omega, hlt, fun i hi => ?_⟩
  rw [hsame _ ?_ (by omega)]
  · exact hstored i hi
  · rw [List.length_append, List.length_singleton] at hi
    omega

theorem pointers_setWord (ustack : ℕ → ℕ) (n sp : ℕ) :
    pointers (setWord ustack (3 + n) sp) (n + 1) = pointers ustack n ++ [sp] := by
  rw [pointers, List.range_succ, List.map_append, List.map_singleton, setWord, update_self]
  congr 1
  refine List.map_congr_left fun j hj => update_of_ne ?_ _ _
  have := List.mem_range.mp hj
  omega

/-- One string more. -/
theorem Pushed.push {arg : List UInt8} {sp' : ℕ} (hp : Pushed pd s b f args sp ustack)
    (hword : (b + 2) * PGSIZE < WORD) (hstack : (b + 1) * PGSIZE ≤ sp')
    (hend : sp' + (arg.length + 1) ≤ sp) (hdepth : sp ≤ sp' + arg.length + 4)
    (hbytes : ∀ a < WORD, userByte pd t a =
      if sp' ≤ a ∧ a < sp' + (arg.length + 1) then some ((arg ++ [0]).getD (a - sp') 0)
      else userByte pd s a) :
    Pushed pd t b f (args ++ [arg]) sp' (setWord ustack (3 + args.length) sp') := by
  have hle := hp.le
  have hd := hp.depth
  rw [Nat.add_mul] at hstack
  constructor
  · rw [List.length_append, List.length_singleton, pointers_setWord]
    have hsame : ∀ a < WORD, sp ≤ a → userByte pd t a = userByte pd s a := by
      intro a ha hsp
      rw [hbytes a ha, if_neg (by omega)]
    refine List.rel_append (hp.strings.imp fun ptr x hx => hx.below (by omega) hword hsame)
      (.cons ⟨le_rfl, by omega, fun i hi => ?_⟩ .nil)
    rw [List.length_append, List.length_singleton] at hi
    rw [hbytes _ (by omega), if_pos (by omega), Nat.add_sub_cancel_left]
  · omega
  · rw [List.flatten_append, List.length_append, List.length_append]
    simp only [List.flatten_cons, List.flatten_nil, List.append_nil, List.length_singleton]
    omega
  · intro a ha
    rw [hbytes a (by rw [Nat.add_mul] at hword; omega), if_neg (by omega)]
    exact hp.program a ha

theorem subWord_eq {x n : ℕ} (h : n ≤ x) (hx : x < WORD) : subWord x n = x - n := by
  simp only [subWord, WORD] at *
  omega

/-- **The argument strings** are on the stack, each below the one before. -/
theorem pushArgs_spec (h : Aside env used pd s₀ s) (hg : Guarded pd b)
    (hp : Pushed pd s b f args sp ustack) (hcount : args.length + argv.length < MAXARG)
    (htotal : args.flatten.length + argv.flatten.length < PGSIZE) :
    wp (handle env) (fun _ => False) (pushArgs pd argv sp args.length ustack) (fun r t =>
      Aside env used pd s₀ t ∧ ∀ sp' argc ustack', r = some (sp', argc, ustack') →
        argc = (args ++ argv).length ∧ Pushed pd t b f (args ++ argv) sp' ustack') s := by
  have hword : (b + 2) * PGSIZE < WORD := by
    have := hg.lt
    simp only [KERNPAGE, PGSIZE, WORD] at this ⊢
    omega
  induction argv generalizing s args sp ustack with
  | nil =>
    refine ⟨h, ?_⟩
    rintro sp' argc ustack' ⟨⟩
    rw [List.append_nil]
    exact ⟨rfl, hp⟩
  | cons arg argv ih =>
    rw [List.length_cons] at hcount
    rw [List.flatten_cons, List.length_append] at htotal
    have hle := hp.le
    have hdepth := hp.depth
    have hmax : MAXARG = 32 := rfl
    have hPG : PGSIZE = 4096 := rfl
    have htop : (b + 2) * PGSIZE = b * PGSIZE + 8192 := Nat.add_mul b 2 PGSIZE
    have hsub : subWord sp (arg.length + 1) = sp - (arg.length + 1) :=
      subWord_eq (by omega) (by omega)
    rw [pushArgs, if_neg (by omega), hsub]
    dsimp only
    generalize hsp' : (sp - (arg.length + 1)) / 4 * 4 = sp'
    rw [wp_bind]
    have hlo : b * PGSIZE ≤ sp' := by omega
    have hhi : sp' + (arg ++ [0]).length ≤ (b + 2) * PGSIZE := by
      rw [List.length_append, List.length_singleton]
      omega
    refine (copyout_guarded h hg hlo hhi (by simp)).mono fun ok t ht => ?_
    obtain ⟨h', hok⟩ := ht
    cases ok with
    | false => exact ⟨h', by rintro _ _ _ ⟨⟩⟩
    | true =>
      obtain ⟨hstack, hbytes⟩ := hok rfl
      rw [List.length_append, List.length_singleton] at hbytes
      have hnext := hp.push hword hstack (by omega) (by omega) hbytes
      have hlen : args.length + 1 = (args ++ [arg]).length := by simp
      simp only [if_true]
      rw [hlen, show args ++ arg :: argv = args ++ [arg] ++ argv by simp]
      refine ih h' hnext ?_ ?_
      · rw [← hlen]
        omega
      · rw [List.flatten_append, List.length_append]
        simp only [List.flatten_cons, List.flatten_nil, List.append_nil]
        omega

/-! ## The vector -/

/-- What `main` is called with: a return address, `argc` and `argv`, and then the pointers. -/
def callVector (sp : ℕ) (ptrs : List ℕ) : List ℕ :=
  0xffffffff :: ptrs.length :: (sp + 12) :: (ptrs ++ [0])

theorem finish_eq (ustack : ℕ → ℕ) (sp n : ℕ) (hsp : (3 + n + 1) * 4 ≤ sp) (hword : sp < WORD) :
    (List.range (3 + n + 1)).map (finish ustack sp n) =
      callVector (sp - (3 + n + 1) * 4) (pointers ustack n) := by
  have hsub : subWord sp ((n + 1) * 4) = sp - (3 + n + 1) * 4 + 12 := by
    rw [subWord_eq (by omega) hword]
    omega
  have hptrs : (List.range n).map (fun j => finish ustack sp n (3 + j)) = pointers ustack n := by
    refine List.map_congr_left fun j hj => ?_
    have := List.mem_range.mp hj
    simp only [finish, setWord]
    rw [update_of_ne (by omega), update_of_ne (by omega),
      update_of_ne (by omega), update_of_ne (by omega)]
  have hlast : finish ustack sp n (3 + n) = 0 := by
    simp only [finish, setWord]
    rw [update_of_ne (by omega), update_of_ne (by omega),
      update_of_ne (by omega), update_self]
  rw [List.range_succ, List.map_append, List.range_add, List.map_append, List.map_map,
    List.map_singleton, hlast]
  have hcomp : (finish ustack sp n ∘ fun x => 3 + x) = fun j => finish ustack sp n (3 + j) := rfl
  rw [hcomp, hptrs]
  simp [callVector, List.range_succ, finish, setWord, pointers, hsub]

/-- The strings and the vector are on the stack. -/
structure StackOf (pd : PageDir) (s : State) (b sp : ℕ) (argv : List (List UInt8)) (ptrs : List ℕ) :
    Prop where
  bottom : (b + 1) * PGSIZE ≤ sp
  vector : Stored pd s sp ((callVector sp ptrs).flatMap (le 4))
  strings : List.Forall₂ (OnStack pd s b (sp + 4 * (callVector sp ptrs).length)) ptrs argv

/-- **The stack**: everything is on it, or it is too small. -/
theorem pushStack_spec (h : Aside env used pd s₀ s) (hg : Guarded pd b)
    (hprog : ∀ a < b * PGSIZE, userByte pd s a = some (f a)) (hcount : argv.length < MAXARG)
    (htotal : argv.flatten.length < PGSIZE) :
    wp (handle env) (fun _ => False) (pushStack pd ((b + 2) * PGSIZE) argv ustack) (fun r t =>
      Aside env used pd s₀ t ∧ ∀ sp, r = some sp → (∃ ptrs, StackOf pd t b sp argv ptrs) ∧
        ∀ a < b * PGSIZE, userByte pd t a = some (f a)) s := by
  have hword : (b + 2) * PGSIZE < WORD := by
    have := hg.lt
    simp only [KERNPAGE, PGSIZE, WORD] at this ⊢
    omega
  have hstart : Pushed pd s b f [] ((b + 2) * PGSIZE) ustack :=
    ⟨.nil, le_rfl, by simp, hprog⟩
  have htop : (b + 2) * PGSIZE = b * PGSIZE + 8192 := Nat.add_mul b 2 PGSIZE
  have hmax : MAXARG = 32 := rfl
  have hPG : PGSIZE = 4096 := rfl
  rw [pushStack, wp_bind]
  have hcount' : ([] : List (List UInt8)).length + argv.length < MAXARG := by simpa using hcount
  have htotal' : ([] : List (List UInt8)).flatten.length + argv.flatten.length < PGSIZE := by
    simpa using htotal
  refine (pushArgs_spec h hg hstart hcount' htotal').mono fun r t ht => ?_
  obtain ⟨h', hargs⟩ := ht
  cases r with
  | none => exact ⟨h', by rintro _ ⟨⟩⟩
  | some r =>
    obtain ⟨sp, argc, ustack'⟩ := r
    obtain ⟨rfl, hp⟩ := hargs _ _ _ rfl
    rw [List.nil_append] at hp ⊢
    have hle := hp.le
    have hdepth := hp.depth
    dsimp only
    rw [subWord_eq (by omega) (by omega), finish_eq ustack' sp argv.length (by omega) (by omega),
      wp_bind]
    generalize hsp' : sp - (3 + argv.length + 1) * 4 = sp'
    generalize hptrs : pointers ustack' argv.length = ptrs
    have hlen : ptrs.length = argv.length := by simp [← hptrs, pointers]
    have hvec : (callVector sp' ptrs).length = argv.length + 4 := by simp [callVector, hlen]
    have hlo : b * PGSIZE ≤ sp' := by omega
    have hbytes : ((callVector sp' ptrs).flatMap (le 4)).length = 4 * (argv.length + 4) := by
      rw [length_flatMap_le, hvec]
    refine (copyout_guarded h' hg hlo (by omega) (by omega)).mono fun ok t' ht' => ?_
    obtain ⟨h'', hok⟩ := ht'
    cases ok with
    | false => exact ⟨h'', by rintro _ ⟨⟩⟩
    | true =>
      obtain ⟨hbottom, hfound⟩ := hok rfl
      refine ⟨h'', ?_⟩
      rintro sp'' ⟨⟩
      have hb := hbottom
      rw [Nat.add_mul] at hb
      rw [hbytes] at hfound
      refine ⟨⟨ptrs, hbottom, fun i hi => ?_, ?_⟩, fun a ha => ?_⟩
      · rw [hbytes] at hi
        rw [hfound _ (by omega), if_pos (by omega), Nat.add_sub_cancel_left]
      · rw [← hptrs]
        refine hp.strings.imp fun ptr x hx => hx.below ?_ hword fun a ha hsp => ?_
        · rw [hptrs, hvec]
          omega
        · rw [hfound a ha, if_neg (by omega)]
      · rw [hfound a (by omega), if_neg (by omega)]
        exact hp.program a ha

/-! ## The new address space -/

theorem frees_freevm (pd : PageDir) : Only Frees (freevm pd) := by
  unfold freevm
  refine (frees_deallocuvm ..).bind fun r => Only.bind ?_ fun _ => frees_kfree
  unfold freeTables
  refine only_forM fun i _ => ?_
  split
  · exact only_pure _
  · exact frees_kfree

/-- A new directory has nothing that is in use. -/
theorem setupkvm_aside (hused : ∀ q, used q + s.kmem.free q ≤ env.room q) :
    wp (handle env) (fun _ => False) (lift (setupkvm env.layout)) (fun o t =>
      (∀ q, 0 < used q → t.page q = s.page q) ∧
        ∀ pd, o = some pd → Aside env used pd s t ∧ Dense pd 0) s := by
  have hdraws := @setupkvm_draws env.toEnv (fun _ => False) s.kmem env.layout
  have howns := @setupkvm_owns env.toEnv s.kmem env.layout
  have hkernel := @setupkvm_kernelOnly env.toEnv s.kmem env.layout
  refine (wp_lift_takes (takes_setupkvm _) (hdraws.and (howns.and hkernel))).mono fun o t ht => ?_
  obtain ⟨⟨hdrawn, howns, hkernel⟩, hframe⟩ := ht
  have hsame : ∀ q, 0 < used q → t.page q = s.page q := by
    intro q hq
    have h1 := hused q
    have h2 := room_le_one env.toEnv q
    exact (hframe q (by omega)).2
  refine ⟨hsame, ?_⟩
  rintro pd rfl
  refine ⟨⟨fun q => ?_, hsame, hkernel pd rfl⟩, dense_kernelTables hdrawn.2⟩
  have h1 := hused q
  have h2 := howns q
  omega

/-- `freevm` of a directory that has its pages to itself leaves all bytes. -/
theorem freevm_spec (h : Sole env pd s) :
    wp (handle env) (fun _ => False) (lift (freevm pd)) (fun _ t => t.page = s.page) s := by
  have hfree : wp (Vm.handle env.toEnv) (fun _ => False) (freevm pd) (fun _ _ => True) s.kmem := by
    refine (((freevm_owns pd h).both (freevm_faults pd)).weaken fun e he => ?_).mono
      fun _ _ _ => trivial
    obtain ⟨h1, h2⟩ := he
    revert h1 h2
    cases e <;> decide
  exact (wp_lift_frees (frees_freevm pd) hfree).mono fun _ _ ht => ht.2

/-- `clearpteu` of a page that is there. -/
theorem clearpteu_aside (h : Aside env used pd s₀ s) (hd : Dense pd k) (hk : k ≤ KERNPAGE)
    (hv : v < k) :
    wp (handle env) (fun _ => False) (lift (clearpteu pd v)) (fun pd' t => t = s ∧
      Aside env used pd' s₀ t ∧ Dense pd' k ∧
        ∀ u < VPAGES, userPage pd' u = if u = v then none else userPage pd u) s := by
  have hfit := kernpage_lt_vpages
  have hvp : v < VPAGES := by omega
  have hvk : v < KERNPAGE := by omega
  have hspec := @clearpteu_spec pd v env.toEnv s.kmem hvp
  have hdense := @clearpteu_dense env.toEnv s.kmem pd v k hd hvk
  have heq : clearpteu pd v =
      Pure.pure (pd.setPte v ((pd.pte v).map fun e => { e with user := false })) := by
    rw [clearpteu, walkpgdir_false, if_pos (hd.table (by omega) hv)]
    rfl
  rw [heq, wp_pure] at hspec hdense
  have hlift : ∀ pd' : PageDir, lift (Pure.pure pd') = Pure.pure pd' := fun _ => rfl
  rw [heq, hlift, wp_pure]
  refine ⟨rfl, ⟨fun q => ?_, h.same, fun u h1 h2 => ?_⟩, hdense, hspec.2⟩
  · rw [hspec.1 q]
    exact h.room q
  · rw [hspec.2 u h2]
    split
    · rfl
    · exact h.kernel u h1 h2

/-! ## `exec` -/

/-- A process with the image that the file and the arguments say. -/
structure ExecImage (c : List UInt8) (path : List UInt8) (argv : List (List UInt8)) (proc : Proc)
    (s : State) : Prop where
  size : proc.sz = pgroundup (top (segments c)) * PGSIZE + 2 * PGSIZE
  program : ∀ a < proc.sz - 2 * PGSIZE,
    userByte proc.pgdir s a = some (loaded c (segments c) a)
  guard : userPage proc.pgdir (proc.sz / PGSIZE - 2) = none
  stack : ∃ ptrs, StackOf proc.pgdir s (proc.sz / PGSIZE - 2) proc.esp argv ptrs
  name : proc.name = procName path
  eip : proc.eip = elfEntry (headerAt c 0)

/-- Nothing of the process has changed, nor its memory. -/
def Unchanged (old proc : Proc) (s t : State) : Prop :=
  proc = old ∧ ∀ va < KERNBASE, byteAt old.pgdir t va = byteAt old.pgdir s va

theorem unchanged_of_same {old : Proc}
    (hsame : ∀ q, 0 < old.pgdir.owns q → t.page q = s.page q) : Unchanged old old s t := by
  refine ⟨rfl, fun va hva => ?_⟩
  rw [byteAt, byteAt]
  cases hpte : old.pgdir.pte (va / PGSIZE) with
  | none => rfl
  | some e =>
    have := owns_pos (div_lt_kernpage hva) hpte
    rw [Option.map_some, Option.map_some, hsame _ this]

theorem execBad_spec {old : Proc} (h : Aside env old.pgdir.owns pd s₀ s) :
    wp (handle env) (fun _ => False) (execBad old pd)
      (fun r t => r.1 = false ∧ Unchanged old r.2 s₀ t) s := by
  rw [execBad, wp_bind]
  refine (freevm_spec h.sole).mono fun _ t ht => ⟨rfl, unchanged_of_same fun q hq => ?_⟩
  rw [ht, h.same q hq]

/-- `exec` does what it should. -/
def ExecOk (c path : List UInt8) (argv : List (List UInt8)) (old : Proc) (s₀ : State)
    (r : Bool × Proc) (t : State) : Prop :=
  r.1 = false ∧ Unchanged old r.2 s₀ t ∨ r.1 = true ∧ ExecImage c path argv r.2 t

/-- What the user finds does not depend on the free list. -/
theorem userByte_congr (h : t.page = s.page) (pd : PageDir) : userByte pd t = userByte pd s := by
  funext a
  rw [userByte, userByte, h]

theorem StackOf.congr {ptrs : List ℕ} (hs : StackOf pd s b sp argv ptrs) (h : t.page = s.page) :
    StackOf pd t b sp argv ptrs := by
  have hstored : Stored pd t = Stored pd s := by
    funext va bs
    rw [Stored, Stored, userByte_congr h]
  refine ⟨hs.bottom, ?_, hs.strings.imp fun ptr arg harg => ?_⟩
  · rw [hstored]
    exact hs.vector
  · rw [OnStack, hstored]
    exact harg

/-- The new directory with the stack. -/
theorem guarded_of_clear (hd : Dense pd' (b + 2)) (hk : b + 2 ≤ KERNPAGE)
    (hclear : ∀ u < VPAGES, userPage pd' u = if u = b then none else userPage pd u) :
    Guarded pd' b where
  lt := hk
  tables v hv := hd.table (by omega) (by omega)
  guard := by
    have hfit := kernpage_lt_vpages
    rw [hclear b (by omega), if_pos rfl]

/-- `exec` from the second `allocuvm` on, when the segments have been loaded. -/
theorem execStack_spec {old : Proc} {path : List UInt8} {entry newsz : ℕ}
    (hnewsz : pgroundup sz * PGSIZE + 2 * PGSIZE = newsz)
    (hcount : argv.length < MAXARG) (htotal : argv.flatten.length < PGSIZE)
    (hentry : entry = elfEntry (headerAt c 0)) (ustack : ℕ → ℕ)
    (h : Aside env old.pgdir.owns pd s₀ s) (hprog : Progress c (segments c) pd s sz) :
    wp (handle env) (fun _ => False)
      (do
        let (sz, pd) ← allocuvm pd (pgroundup sz * PGSIZE) newsz
        if sz = 0 then execBad old pd
        else
          let pd ← lift (clearpteu pd (sz / PGSIZE - 2))
          match ← pushStack pd sz argv ustack with
          | none => execBad old pd
          | some sp =>
            lift (freevm old.pgdir)
            return (true, ⟨pd, sz, procName path, entry, sp⟩))
      (ExecOk c path argv old s₀) s := by
  have hfit := kernpage_lt_vpages
  have hPG : PGSIZE = 4096 := rfl
  have hbase : KERNBASE = KERNPAGE * PGSIZE := rfl
  have hbad : ∀ {pd : PageDir} {s : State}, Aside env old.pgdir.owns pd s₀ s →
      wp (handle env) (fun _ => False) (execBad old pd) (ExecOk c path argv old s₀) s :=
    fun h => (execBad_spec h).mono fun _ _ hr => .inl hr
  have hround : pgroundup (pgroundup sz * PGSIZE) = pgroundup sz := by
    simp only [pgroundup, PGSIZE]
    omega
  have hdense := hprog.image.dense
  rw [← hround] at hdense
  rw [wp_bind]
  refine (allocuvm_aside h hdense newsz).mono fun r s₂ hr => ?_
  obtain ⟨sz₂, pd₂⟩ := r
  obtain ⟨hgrows, h₂⟩ := hr
  dsimp only
  split
  · exact hbad h₂
  rename_i hne
  -- the segments, zeroes up to the next page, and two pages more
  obtain ⟨hnew, -⟩ := hgrows.grown.resolve_left fun h0 => hne h0.1
  have hl₁ : Loaded pd s (pgroundup sz * PGSIZE) (loaded c (segments c)) :=
    ⟨by omega, hdense, by rw [hround]; exact hprog.image.byte⟩
  have hend : sz ≤ pgroundup sz * PGSIZE := by
    simp only [pgroundup, PGSIZE]
    omega
  obtain ⟨hsz₂, hl₂⟩ := hl₁.grow hgrows hne fun a ha =>
    loaded_eq_zero hprog.below (by rw [hround] at ha; omega)
  obtain rfl : sz₂ = (pgroundup sz + 2) * PGSIZE := by
    rw [Nat.add_mul]
    omega
  have hsize := hprog.size
  generalize hb : pgroundup sz = b at *
  have hround₂ : pgroundup ((b + 2) * PGSIZE) = b + 2 := by
    simp only [pgroundup, PGSIZE]
    omega
  have hpages : (b + 2) * PGSIZE / PGSIZE - 2 = b := by
    rw [Nat.mul_div_cancel _ (by decide)]
    omega
  have hk : b + 2 ≤ KERNPAGE := by
    have := pgroundup_le_kernpage hl₂.lt.le
    rwa [hround₂] at this
  have hd₂ := hl₂.dense
  rw [hround₂] at hd₂
  rw [hpages, wp_bind]
  refine (clearpteu_aside h₂ hd₂ hk (by omega)).mono fun pd₃ s₃ hr => ?_
  obtain ⟨rfl, h₃, hd₃, hclear⟩ := hr
  have hguard := guarded_of_clear hd₃ hk hclear
  have hprog₃ : ∀ a < b * PGSIZE, userByte pd₃ s₃ a = some (loaded c (segments c) a) := by
    intro a ha
    have hdiv : a / PGSIZE < b := (Nat.div_lt_iff_lt_mul (by decide)).mpr ha
    rw [userByte, hclear _ (by omega), if_neg (by omega)]
    exact hl₂.byte a (by rw [hround₂, Nat.add_mul]; omega)
  rw [wp_bind]
  refine (pushStack_spec h₃ hguard hprog₃ hcount htotal).mono fun r s₄ hr => ?_
  obtain ⟨h₄, hstack⟩ := hr
  cases r with
  | none => exact hbad h₄
  | some sp =>
    obtain ⟨⟨ptrs, hptrs⟩, hprog₄⟩ := hstack sp rfl
    have hold : Sole env old.pgdir s₄ := by
      intro q
      have := h₄.room q
      omega
    dsimp only
    rw [wp_bind]
    refine (freevm_spec hold).mono fun _ s₅ hs₅ => .inr ⟨rfl, ?_⟩
    have htop : (b + 2) * PGSIZE - 2 * PGSIZE = b * PGSIZE := by
      rw [Nat.add_mul]
      omega
    constructor
    · rw [← hsize, hb]
      exact Nat.add_mul b 2 PGSIZE
    · intro a ha
      rw [userByte_congr hs₅]
      exact hprog₄ a (htop ▸ ha)
    · rw [hpages]
      exact hguard.guard
    · rw [hpages]
      exact ⟨ptrs, hptrs.congr hs₅⟩
    · rfl
    · exact hentry

theorem execInto_spec {old : Proc} {path : List UInt8} {elf : ℕ → UInt8} (hc : c.length < WORD)
    (hcount : argv.length < MAXARG) (htotal : argv.flatten.length < PGSIZE)
    (hphnum : elfPhnum elf = elfPhnum (headerAt c 0))
    (hphoff : elfPhoff elf = elfPhoff (headerAt c 0))
    (hentry : elfEntry elf = elfEntry (headerAt c 0)) (locals : Locals)
    (h : Aside env old.pgdir.owns pd s₀ s) (hd : Dense pd 0) :
    wp (handle env) (fun _ => False) (execInto old path (.file c) argv elf locals pd)
      (ExecOk c path argv old s₀) s := by
  have hstart : Progress c [] pd s 0 :=
    ⟨rfl, fun _ hph => absurd hph List.not_mem_nil, by decide, hd,
      fun a ha => absurd ha (Nat.not_lt_zero a)⟩
  rw [execInto, wp_bind, hphnum, hphoff]
  refine (loadSegments_spec hc _ h hstart).mono fun r s₁ hr => ?_
  obtain ⟨sz, pd₁⟩ := r
  obtain ⟨h₁, hload⟩ := hr
  cases sz with
  | none => exact (execBad_spec h₁).mono fun _ _ hr => .inl hr
  | some sz =>
    dsimp only
    generalize hnewsz : pgroundup sz * PGSIZE + 2 * PGSIZE = newsz
    exact execStack_spec hnewsz hcount htotal hentry locals.ustack h₁ (hload sz rfl)

/-- **`exec` of a regular file** returns.  It makes the image of the file and the arguments, or it
fails and changes nothing, whichever calls of `kalloc` fail. -/
theorem exec_image (hc : c.length < WORD) {old : Proc} (hold : Sole env old.pgdir s)
    (hcount : argv.length < MAXARG) (htotal : argv.flatten.length < PGSIZE) (path : List UInt8)
    (locals : Locals) :
    ∃ r t, run (handle env) (exec env.layout old path (some (.file c)) argv locals) s = .ok (r, t) ∧
      ExecOk c path argv old s r t := by
  have hexec : wp (handle env) (fun _ => False)
      (exec env.layout old path (some (.file c)) argv locals) (ExecOk c path argv old s) s := by
    have hfail : ∀ {t : State}, (∀ q, 0 < old.pgdir.owns q → t.page q = s.page q) →
        ExecOk c path argv old s (false, old) t := fun h => .inl ⟨rfl, unchanged_of_same h⟩
    rw [exec]
    split
    · exact hfail fun _ _ => rfl
    rename_i hshort
    have hread : (Inode.file c).readi 0 0 elfSize = some ((c.drop 0).take elfSize) := by
      simp only [Inode.readi]
      rw [if_neg]
      simp [elfSize, WORD]
    split
    · exact hfail fun _ _ => rfl
    rw [wp_bind]
    refine (setupkvm_aside hold).mono fun o t ht => ?_
    cases o with
    | none => exact hfail ht.1
    | some pd =>
      obtain ⟨h, hd⟩ := ht.2 pd rfl
      rw [hread] at hshort ⊢
      have hlen : ((c.drop 0).take elfSize).length = elfSize := by
        simp only [count] at hshort
        have := List.length_take_le elfSize (c.drop 0)
        omega
      exact execInto_spec hc hcount htotal (field_fill hlen (by decide))
        (field_fill hlen (by decide)) (field_fill hlen (by decide)) locals h hd
  cases hrun : run (handle env) (exec env.layout old path (some (.file c)) argv locals) s with
  | error e => exact (hexec.of_error hrun).elim
  | ok r => exact ⟨r.1, r.2, rfl, hexec.of_ok hrun⟩

/-! ## Enough memory -/

/-- Calls of `kalloc` do not fail while there are pages, and there are `n`. -/
def Plenty (env : Vm.Env) (m : Kmem) (n : ℕ) : Prop :=
  (∀ i, env.fails i = false) ∧ n ≤ m.freelist.length

theorem Plenty.drawn {e : Vm.Env} {m m' : Kmem} {d : ℕ} (h : Plenty e m (d + n))
    (hd : Drawn e m m' d) : Plenty e m' n := by
  refine ⟨h.1, ?_⟩
  have := h.2
  rw [hd.eq, List.length_drop]
  omega

theorem Plenty.mono {e : Vm.Env} {m : Kmem} {k : ℕ} (h : Plenty e m n) (hk : k ≤ n) :
    Plenty e m k := ⟨h.1, hk.trans h.2⟩

theorem Plenty.not_refused {e : Vm.Env} {m m' : Kmem} {d : ℕ} (h : Plenty e m n) (hd : d < n) :
    ¬Refused e m m' d := by
  intro hr
  have hfails := hr.failsAt.fails (lt_of_lt_of_le hd h.2)
  rw [h.1] at hfails
  cases hfails

/-- A page takes at most one page table. -/
theorem allocFrom_ok {e : Vm.Env} {m : Kmem} (oldsz newsz : ℕ) (h : Plenty e m (2 * n)) :
    wp (Vm.handle e) (fun _ => True) (Vm.allocFrom oldsz newsz pd n v)
      (fun r _ => r.1 = newsz) m := by
  induction n generalizing pd v m with
  | zero => rfl
  | succ n ih =>
    rw [Vm.allocFrom, wp_bind]
    refine kalloc_draws.mono fun o m₁ ho => ?_
    cases o with
    | none => exact absurd ho.1 (h.not_refused (by omega))
    | some mem =>
      have h₁ : Plenty e m₁ (1 + 2 * n) := Plenty.drawn (h.mono (by omega)) ho.1
      dsimp only
      rw [wp_bind, mappages, wp_bind]
      refine walkpgdir_draws.mono fun o m₂ ho₂ => ?_
      cases o with
      | none => exact absurd ho₂.1 (h₁.not_refused (by omega))
      | some pd₁ =>
        obtain ⟨d, hd, hcard, htab, -⟩ := ho₂
        have hle : d ≤ 1 := by
          have := Finset.card_insert_le (pdx v) pd.tables
          rw [← htab] at this
          omega
        dsimp only
        split
        · exact wp_panic trivial
        · exact ih (Plenty.drawn (h₁.mono (by omega)) hd)

theorem allocuvm_ok {oldsz newsz : ℕ} (hle : oldsz ≤ newsz) (hlt : newsz < KERNBASE)
    (h : Plenty env.toEnv s.kmem (2 * (pgroundup newsz - pgroundup oldsz))) :
    wp (handle env) (fun _ => True) (allocuvm pd oldsz newsz) (fun r _ => r.1 = newsz) s := by
  refine (wp_erase (Q := fun (r : ℕ × PageDir) _ => r.1 = newsz) _).mpr ?_
  rw [allocuvm_erase, Vm.allocuvm, if_neg (by omega), if_neg (by omega)]
  exact allocFrom_ok oldsz newsz h

/-- `copyout` to pages that are all the user's. -/
theorem copyout_ok (halias : NoAlias pd) (hva : va < WORD) (hlen : buf.length < WORD)
    (hpages : ∀ i < buf.length, (userPage pd (pageOf va i)).isSome) :
    wp (handle env) (fun _ => True) (copyout pd va buf) (fun ok _ => ok = true) s := by
  refine ((copyoutFrom_spec halias buf.length le_rfl hva hlen).weaken fun _ _ => trivial).mono
    fun ok t hok => ?_
  cases ok with
  | true => rfl
  | false =>
    obtain ⟨i, hi, -, -, hno⟩ := hok
    have := hpages i hi
    rw [hno] at this
    cases this

/-- **A program without segments and arguments** is executed, if there is memory. -/
theorem execInto_ok {old : Proc} {path : List UInt8} {ip : Inode} {elf : ℕ → UInt8}
    (hphnum : elfPhnum elf = 0) (locals : Locals) (h : Aside env old.pgdir.owns pd s₀ s)
    (hd : Dense pd 0) (hmem : Plenty env.toEnv s.kmem 4) :
    wp (handle env) (fun _ => False) (execInto old path ip [] elf locals pd)
      (fun r _ => r.1 = true) s := by
  have hfit := kernpage_lt_vpages
  have hk : 2 ≤ KERNPAGE := by decide
  have hzero : pgroundup 0 * PGSIZE = 0 := rfl
  have htwo : 0 + 2 * PGSIZE = 8192 := rfl
  rw [execInto, wp_bind, hphnum, loadSegments, wp_pure]
  dsimp only
  rw [hzero, htwo, wp_bind]
  have hd₀ : Dense pd (pgroundup 0) := hd
  refine ((allocuvm_aside h hd₀ 8192).and
    (allocuvm_ok (Nat.zero_le 8192) (by decide) hmem)).mono fun r s₁ hr => ?_
  obtain ⟨sz, pd₁⟩ := r
  obtain ⟨⟨hgrows, h₁⟩, hsz⟩ := hr
  obtain rfl : sz = 8192 := hsz
  have hgrown := hgrows.grown
  dsimp only at h₁ hgrown
  obtain ⟨-, -, hd₁, hpages⟩ := hgrown.resolve_left fun h0 => absurd h0.1 (by decide)
  have hround : pgroundup 8192 = 2 := by decide
  rw [hround] at hd₁ hpages
  dsimp only
  rw [if_neg (by decide), wp_bind]
  refine (clearpteu_aside h₁ hd₁ hk (by decide)).mono fun pd₂ s₂ hr => ?_
  obtain ⟨rfl, h₂, hd₂, hclear⟩ := hr
  have hguard : Guarded pd₂ 0 := guarded_of_clear hd₂ hk hclear
  have hstack : (userPage pd₂ 1).isSome := by
    obtain ⟨e, he, huser, -⟩ := hpages 1 (by decide) (by decide)
    rw [hclear 1 (by omega), if_neg (by decide), userPage, he]
    simp [huser]
  have hsp : subWord 8192 ((3 + 0 + 1) * 4) = 8176 := rfl
  rw [wp_bind, pushStack, wp_bind, pushArgs, wp_pure]
  dsimp only
  rw [hsp, wp_bind]
  generalize hwords : (List.range (3 + 0 + 1)).map (finish locals.ustack 8192 0) = words
  have hlen : (words.flatMap (le 4)).length = 16 := by
    rw [length_flatMap_le, ← hwords, List.length_map, List.length_range]
  have hlo : 0 * PGSIZE ≤ 8176 := by decide
  refine ((copyout_guarded h₂ hguard hlo (by rw [hlen]; decide) (by omega)).and
    (copyout_ok h₂.noAlias (by decide) (by rw [hlen]; decide) fun i hi => ?_)).mono
    fun ok s₃ hok => ?_
  · have : pageOf 8176 i = 1 := by
      simp only [pageOf, WORD, PGSIZE]
      omega
    rw [this]
    exact hstack
  · obtain ⟨⟨h₃, -⟩, rfl⟩ := hok
    have hold : Sole env old.pgdir s₃ := by
      intro q
      have := h₃.room q
      omega
    simp only [if_true, wp_pure, wp_bind]
    exact (freevm_spec hold).mono fun _ _ _ => rfl

theorem exec_ok {old : Proc} {ip : Inode} {locals : Locals} (hold : Sole env old.pgdir s)
    (hmem : Plenty env.toEnv s.kmem (65 + 4)) (hread : elfSize ≤ count (ip.readi 0 0 elfSize))
    (hmagic : elfMagic (fill locals.elf (ip.readi 0 0 elfSize)) = ELF_MAGIC)
    (hphnum : elfPhnum (fill locals.elf (ip.readi 0 0 elfSize)) = 0) (path : List UInt8) :
    wp (handle env) (fun _ => False) (exec env.layout old path (some ip) [] locals)
      (fun r _ => r.1 = true) s := by
  have hdraws := @setupkvm_draws env.toEnv (fun _ => False) s.kmem env.layout
  rw [exec, if_neg (Nat.not_lt.mpr hread), if_neg (not_not.mpr hmagic), wp_bind]
  refine ((setupkvm_aside hold).and (wp_lift.mpr hdraws)).mono fun o t ht => ?_
  obtain ⟨hset, hdrawn⟩ := ht
  cases o with
  | none =>
    obtain ⟨d, hd, hrefused⟩ := hdrawn
    exact absurd hrefused (hmem.not_refused (by omega))
  | some pd =>
    obtain ⟨h, hdense⟩ := hset.2 pd rfl
    exact execInto_ok hphnum locals h hdense (hmem.drawn hdrawn.1)

/-! ## A file that is a header -/

/-- An ELF header without program headers. -/
def tinyElf : List UInt8 := [0x7F, 0x45, 0x4C, 0x46] ++ List.replicate 48 0

/-- Memory with pages enough for a small program. -/
def roomyRam : State := ⟨⟨List.range' 0x300 69, 0⟩, fun _ _ => 0⟩

/-- The process of one page. -/
def oneProc : Proc := ⟨onePage, 4096, [], 0, 0⟩

/-- A frame full of zeroes. -/
def blankLocals : Locals := ⟨fun _ => 0, fun _ => 0, fun _ => 0⟩

theorem oneProc_sole : Sole smallRam oneProc.pgdir roomyRam := by
  intro (q : ℕ)
  have hroom : smallRam.room q = if 0x110 ≤ q ∧ q < 0xE000 then 1 else 0 := rfl
  have howns : oneProc.pgdir.owns q = holds 0x200 q + holds 0x201 q + holds 0x202 q :=
    onePage_owns q
  rw [hroom, howns, roomyRam, free_range']
  simp only [holds]
  split_ifs <;> omega

theorem roomyRam_plenty : Plenty smallRam.toEnv roomyRam.kmem (65 + 4) :=
  ⟨fun _ => rfl, by decide⟩

theorem exec_image_tinyElf : ∃ proc t, run (handle smallRam)
    (exec smallRam.layout oneProc [0x73, 0x68] (some (.file tinyElf)) [] blankLocals) roomyRam =
      .ok ((true, proc), t) ∧ ExecImage tinyElf [0x73, 0x68] [] proc t := by
  have hc : tinyElf.length < WORD := by decide
  have hargv : ([] : List (List UInt8)).length < MAXARG := by decide
  obtain ⟨⟨b, proc⟩, t, hrun, hok⟩ := exec_image hc oneProc_sole hargv (by decide) [0x73, 0x68]
    blankLocals
  have htrue : b = true := (exec_ok oneProc_sole roomyRam_plenty (by decide) (by decide)
    (by decide) [0x73, 0x68]).of_ok hrun
  subst htrue
  rcases hok with ⟨hfalse, -⟩ | ⟨-, himage⟩
  · cases hfalse
  · exact ⟨proc, t, hrun, himage⟩

end Xv6.Vm.Ram
