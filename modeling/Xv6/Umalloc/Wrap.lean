import Xv6.Umalloc.Heap
import Mathlib.Data.Int.Notation

/-!
# Requests near 2 GB and 4 GB

`malloc` computes the number of units, and `morecore` the number of bytes, in type `uint`, and
`sbrk` takes an `int`.  Here the argument of `sbrk` is the number that the code passes; it gives no
memory for 0, and a negative one would shrink the heap.

## Main definitions

* `sbrkArg` — the argument of `sbrk`.
* `mallocInt` — `malloc` with that argument.
* `Fits` — what `malloc` returns is memory that `sbrk` has given.

## Main results

* `mallocInt_eq` — nothing wraps for requests below 2 GB.
* `malloc_fits_iff` — these are the requests that fit.
-/

namespace Xv6.Umalloc

open LinkedCycle Spans Machine

variable {s s' : State} {n nu k prevp p : ℕ} {gap : Option ℕ}

/-! ## The functions -/

/-- `nu * sizeof(Header)`, computed in type `uint` and passed as an `int`. -/
def sbrkArg (nu : ℕ) : ℤ := Int.bmod (8 * nu) 4294967296

/-- `sbrk(n)` for an `n` that is not negative; there may be no memory, but 0 bytes there are. -/
def sbrk (s : State) (n : ℕ) (gap : Option ℕ) : Option (ℕ × State) :=
  if n = 0 then some (s.top, s)
  else
    match gap with
    | none => none
    | some gap =>
      some (s.top + gap,
        { s with top := s.top + gap + n, regions := ⟨s.top + gap, n⟩ :: s.regions })

/-- `morecore`; it stops with the argument of `sbrk` when that is negative. -/
def morecoreInt (s : State) (nu : ℕ) (gap : Option ℕ) : Except ℤ (Option (Option State)) :=
  let nu := if nu < 4096 then 4096 else nu
  if sbrkArg nu < 0 then .error (sbrkArg nu)
  else
    match sbrk s (sbrkArg nu).toNat gap with
    | none => .ok (some none)
    | some (hp, s) => .ok ((free { s with size := Function.update s.size hp nu } (hp + 8)).map some)

/-- The loop of `malloc`; `more` is `morecore(nunits)`. -/
def searchInt (nunits : ℕ) (more : State → Except ℤ (Option (Option State))) :
    ℕ → State → ℕ → ℕ → Except ℤ (Option (State × ℕ))
  | 0, _, _, _ => .ok none
  | n + 1, s, prevp, p =>
    if nunits ≤ s.size p then .ok (some (take s nunits prevp p))
    else if p = s.freep then
      match more s with
      | .error arg => .error arg
      | .ok none => .ok none
      | .ok (some none) => .ok (some (s, 0))
      | .ok (some (some s)) => searchInt nunits more n s s.freep (s.ptr s.freep)
    else searchInt nunits more n s p (s.ptr p)

/-- `malloc` -/
def mallocInt (s : State) (nbytes : ℕ) (gap : Option ℕ) : Except ℤ (Option (State × ℕ)) :=
  let s := setup s
  searchInt (units nbytes) (fun s => morecoreInt s (units nbytes) gap) (3 * s.top + 5) s s.freep
    (s.ptr s.freep)

/-- `malloc` calls `sbrk` with no negative number, and it returns null or a block whose header and
bytes are in the memory that `sbrk` has given. -/
def Fits (s : State) (nbytes : ℕ) (gap : Option ℕ) : Prop :=
  ∃ s' p, mallocInt s nbytes gap = .ok (some (s', p)) ∧
    (p ≠ 0 → ∀ x, p ≤ x + 8 → x < p + nbytes → Covers s'.regions x)

/-! ## Requests below 2 GB -/

theorem sbrkArg_eq (h : 8 * nu < 2147483648) : sbrkArg nu = (8 * nu : ℕ) := by
  have hle : (8 * nu : ℤ) < 4294967296 / 2 := by omega
  exact Int.bmod_eq_of_le (by omega) hle

theorem morecoreInt_eq (h : 8 * nu < 2147483648) (hnu : 0 < nu) :
    morecoreInt s nu gap = .ok (morecore s nu gap) := by
  have hmax : 8 * (if nu < 4096 then 4096 else nu) < 2147483648 := by split <;> omega
  have hpos : 0 < (if nu < 4096 then 4096 else nu) := by split <;> omega
  unfold morecoreInt morecore
  generalize (if nu < 4096 then 4096 else nu) = m at hmax hpos
  dsimp only
  rw [sbrkArg_eq hmax, if_neg (by omega), Int.toNat_natCast]
  unfold sbrk
  rw [if_neg (by omega)]
  cases gap <;> rfl

theorem searchInt_eq {nunits : ℕ} {more : State → Except ℤ (Option (Option State))}
    (hmore : ∀ s, more s = .ok (morecore s nunits gap)) :
    searchInt nunits more k s prevp p = .ok (search nunits gap k s prevp p) := by
  induction k generalizing s prevp p with
  | zero => rfl
  | succ k ih =>
    rw [searchInt, search, hmore]
    split
    · rfl
    · split
      · cases morecore s nunits gap with
        | none => rfl
        | some r =>
          cases r with
          | none => rfl
          | some s' => exact ih
      · exact ih

/-- Nothing wraps. -/
theorem mallocInt_eq (hn : Modest n) : mallocInt s n gap = .ok (malloc s n gap) := by
  have hunits : 8 * units n < 2147483648 := by
    simp only [Modest] at hn
    rw [units, Nat.mod_eq_of_lt (by omega)]
    omega
  exact searchInt_eq fun _ => morecoreInt_eq hunits (Nat.succ_pos _)

theorem Inv.fits (h : Inv s) (hn : Modest n) (gap : Option ℕ) : Fits s n gap := by
  rcases h.malloc hn gap with ⟨s', R, hm, -⟩ | ⟨s', a, R, hm, -, hheap, -⟩
  · exact ⟨s', 0, by rw [mallocInt_eq hn, hm], fun h0 => absurd rfl h0⟩
  · refine ⟨s', a + 8, by rw [mallocInt_eq hn, hm], fun _ x h1 h2 => ?_⟩
    have hroom := hn.room
    refine (hheap.cover x).mpr (.inr (.inr ?_))
    simp only [covers_single, Span.Has, Span.stop]
    omega

/-! ## Requests from 2 GB on -/

/-- A program that has called nothing; its heap ends at 16. -/
def fresh : State := start 8 16 (fun _ => 0) fun _ => 0

theorem morecoreInt_error (hneg : sbrkArg nu < 0) (hbig : 4096 ≤ nu) :
    morecoreInt s nu gap = .error (sbrkArg nu) := by
  unfold morecoreInt
  rw [if_neg (Nat.not_lt.mpr hbig)]
  exact if_pos hneg

/-- The first call finds no block, and asks for memory. -/
theorem searchInt_fresh (more : State → Except ℤ (Option (Option State))) {arg : ℤ} (hnu : 0 < nu)
    (hmore : more (setup fresh) = .error arg) :
    searchInt nu more (k + 1) (setup fresh) 8 8 = .error arg := by
  have hsize : (setup fresh).size 8 = 0 := rfl
  have hfreep : 8 = (setup fresh).freep := rfl
  rw [searchInt, if_neg (by omega), if_pos hfreep, hmore]

theorem mallocInt_fresh : mallocInt fresh n gap =
    searchInt (units n) (fun s => morecoreInt s (units n) gap) (52 + 1) (setup fresh) 8 8 := by
  have htop : 3 * (setup fresh).top + 5 = 52 + 1 := rfl
  have hfreep : (setup fresh).freep = 8 := rfl
  have hptr : (setup fresh).ptr 8 = 8 := rfl
  unfold mallocInt
  dsimp only
  rw [htop, hfreep, hptr]

/-- The argument of `sbrk` is negative. -/
theorem not_fits_of_negative (hunits : units n = nu) (hneg : sbrkArg nu < 0) (hbig : 4096 ≤ nu) :
    ¬Fits fresh n gap := by
  have hmore : morecoreInt (setup fresh) nu gap = .error (sbrkArg nu) :=
    morecoreInt_error hneg hbig
  have hpos : 0 < nu := by omega
  rintro ⟨s', p, h, -⟩
  rw [mallocInt_fresh, hunits, searchInt_fresh (fun s => morecoreInt s nu gap) hpos hmore] at h
  cases h

/-- What a call returns, when it returns. -/
def returned (r : Except ℤ (Option (State × ℕ))) : Option (State × ℕ) :=
  match r with
  | .ok r => r
  | .error _ => none

/-- A block that reaches behind the memory. -/
theorem not_fits_of_large (spans : List Span) (hspans : ∀ c ∈ spans, c.stop ≤ 40000)
    (hm : (returned (mallocInt fresh n gap)).any
      (fun r => decide (r.1.regions = spans ∧ r.2 ≠ 0)) = true)
    (hlarge : 40000 < n) : ¬Fits fresh n gap := by
  rintro ⟨s, p, h, hcover⟩
  rw [h, returned, Option.any_some, decide_eq_true_eq] at hm
  obtain ⟨c, hc, -, hlt⟩ := hcover hm.2 (p + n - 1) (by omega) (by omega)
  rw [hm.1] at hc
  have := hspans c hc
  omega

/-- Nothing is given for `sbrk(0)`. -/
theorem not_fits_of_zero (hunits : units n = 536870912) (hn : 40000 < n) :
    ¬Fits fresh n (some 0) := by
  refine not_fits_of_large [] (by simp) ?_ hn
  rw [mallocInt_fresh, hunits]
  decide +kernel

/-- The block has 1 unit. -/
theorem not_fits_of_wrap (hunits : units n = 1) (hn : 40000 < n) : ¬Fits fresh n (some 0) := by
  refine not_fits_of_large [⟨16, 32768⟩] (by decide) ?_ hn
  rw [mallocInt_fresh, hunits]
  decide +kernel

theorem modest_iff : Modest n ↔ n ≤ 2147483632 := by
  rw [Modest]
  omega

theorem sbrkArg_neg (h : 2147483648 ≤ 8 * nu) (h' : 8 * nu < 4294967296) : sbrkArg nu < 0 := by
  have hmod : sbrkArg nu % 4294967296 = 8 * nu % 4294967296 := Int.bmod_emod
  have hlt : sbrkArg nu < (4294967296 + 1) / 2 := Int.bmod_lt (Nat.zero_lt_succ _)
  omega

/-- **Requests that fit.**  For a number of bytes of 32 bits: in every heap that a program has made
with requests below 2 GB, `malloc` calls `sbrk` with no negative number and returns null or a block
of so many bytes in the memory that `sbrk` has given, exactly when it is at most 2 GB less 16. -/
theorem malloc_fits_iff (hn : n < 4294967296) :
    (∀ base top ptr size as s gap, 0 < base → base < top → (∀ a ∈ as, a.Modest) →
      exec step (start base top ptr size) as = some s → Fits s n gap) ↔ n ≤ 2147483632 := by
  constructor
  · intro h
    by_contra hbig
    have hfresh : Fits fresh n (some 0) :=
      h 8 16 (fun _ => 0) (fun _ => 0) [] fresh (some 0) (by decide) (by decide) (by simp) rfl
    have hlarge : 40000 < n := by omega
    by_cases hwrap : n + 7 < 4294967296
    · have hunits : units n = (n + 7) / 8 + 1 := by
        rw [units, Nat.mod_eq_of_lt (by omega)]
        omega
      by_cases hzero : (n + 7) / 8 + 1 = 536870912
      · exact not_fits_of_zero (hunits.trans hzero) hlarge hfresh
      · exact not_fits_of_negative hunits (sbrkArg_neg (by omega) (by omega)) (by omega) hfresh
    · have hunits : units n = 1 := by
        rw [units]
        omega
      exact not_fits_of_wrap hunits hlarge hfresh
  · rw [← modest_iff]
    intro hmod base top ptr size as s gap hbase htop has hrun
    have hall : Along step (fun _ a => a.Modest) (start base top ptr size) as :=
      along_of_forall has
    have hinv : Inv s := exec_invariant (fun _ _ _ h ha hstep => h.step ha hstep)
      (.unused rfl rfl rfl ⟨hbase, htop⟩) hall hrun
    exact hinv.fits hmod gap

/-- A hundred bytes fit. -/
theorem malloc_fits_hundred : Fits fresh 100 (some 0) :=
  (malloc_fits_iff (n := 100) (by omega)).mpr (by omega) 8 16 (fun _ => 0) (fun _ => 0) [] fresh
    (some 0) (by decide) (by decide) (by simp) rfl

/-- A request for 4 GB less 1 gets a block of one unit, one for 4 GB less 8 gets a block behind the
heap, and for one of 2 GB less 15, `sbrk` is called with a negative number. -/
theorem malloc_wraps : ¬Fits fresh 4294967295 (some 0) ∧ ¬Fits fresh 4294967288 (some 0) ∧
    ∃ arg < 0, mallocInt fresh 2147483633 (some 0) = .error arg := by
  refine ⟨not_fits_of_wrap rfl (by omega), not_fits_of_zero rfl (by omega), sbrkArg 268435456,
    sbrkArg_neg (by omega) (by omega), ?_⟩
  have hunits : units 2147483633 = 268435456 := rfl
  rw [mallocInt_fresh, hunits]
  exact searchInt_fresh (fun s => morecoreInt s 268435456 (some 0)) (by omega)
    (morecoreInt_error (sbrkArg_neg (by omega) (by omega)) (by omega))

end Xv6.Umalloc
