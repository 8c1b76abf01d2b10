import Xv6.Ptable.Table

/-!
# The child records

`exit` stores the child's times and priority into its parent's arrays at index
`allChildSize` and then increments `allChildSize`.  The arrays have 64 entries, and
nothing bounds the number of children a process outlives: the 65th store into
`childPiority` lands on `allChildSize` itself, which then starts again from the child's
priority.

## Main definitions

* `RecordOk` — `allChildSize` is at most 64 and `piority` is one of the three.
* `GoodExit s a` — an `exit` stores one entry of each array and nothing else.

## Main results

* `child_record_bound` — `allChildSize` never exceeds 64, and the stores stay in the
  arrays exactly in the runs in which no process outlives more than 64 children.
* `child_record_overrun` — a run with 65.
-/

namespace Xv6.Ptable

open Function Machine

/-- A C `int` holds the value itself when it is in range. -/
theorem int32_of_range {n : ℤ} (h : -0x80000000 ≤ n) (h' : n < 0x80000000) : int32 n = n :=
  Int.bmod_eq_of_le (by omega) (by omega)

/-- The index is within the arrays or just past them, and the priority is known. -/
structure RecordOk (p : Proc) : Prop where
  nonneg : 0 ≤ p.allChildSize
  le : p.allChildSize ≤ 64
  piority : p.piority = lowPiority ∨ p.piority = mediumPiority ∨ p.piority = highPiority

/-! ## Stores -/

section Store

variable (p : Proc) (k : Fin 64) (v : ℤ)

theorem store_childCTime :
    p.store (childCTimeAt + k) v = { p with childCTime := update p.childCTime k v } := by
  have hk := k.isLt
  have hi : (⟨(0 + (k : ℤ)).toNat, by omega⟩ : Fin 64) = k := Fin.ext (by simp)
  rw [Proc.store, childCTimeAt, dif_pos (by omega), hi]

theorem store_childRTime :
    p.store (childRTimeAt + k) v = { p with childRTime := update p.childRTime k v } := by
  have hk := k.isLt
  have hi : (⟨(64 + (k : ℤ) - 64).toNat, by omega⟩ : Fin 64) = k :=
    Fin.ext (show (64 + (k : ℤ) - 64).toNat = k by omega)
  rw [Proc.store, childRTimeAt, dif_neg (by omega), dif_pos (by omega), hi]

theorem store_childETime :
    p.store (childETimeAt + k) v = { p with childETime := update p.childETime k v } := by
  have hk := k.isLt
  have hi : (⟨(128 + (k : ℤ) - 128).toNat, by omega⟩ : Fin 64) = k :=
    Fin.ext (show (128 + (k : ℤ) - 128).toNat = k by omega)
  rw [Proc.store, childETimeAt, dif_neg (by omega), dif_neg (by omega), dif_pos (by omega), hi]

theorem store_childPiority :
    p.store (childPiorityAt + k) v =
      { p with childPiority := update p.childPiority k v } := by
  have hk := k.isLt
  have hi : (⟨(192 + (k : ℤ) - 192).toNat, by omega⟩ : Fin 64) = k :=
    Fin.ext (show (192 + (k : ℤ) - 192).toNat = k by omega)
  rw [Proc.store, childPiorityAt, dif_neg (by omega), dif_neg (by omega), dif_neg (by omega),
    dif_pos (by omega), hi]

end Store

/-! ## One `exit` -/

/-- The parent after an `exit` that stored its entries at index `k`. -/
def appendChild (parent child : Proc) (ticks : ℕ) (k : Fin 64) : Proc :=
  { parent with
    childRTime := update parent.childRTime k (int32 child.rtime)
    childCTime := update parent.childCTime k (int32 child.ctime)
    childETime := update parent.childETime k (int32 ticks)
    childPiority := update parent.childPiority k child.piority
    allChildSize := k + 1
    exits := parent.exits + 1 }

/-- With the index in range, `exit` adds one entry to each array. -/
theorem recordChild_of_lt (parent child : Proc) (ticks : ℕ) (k : Fin 64)
    (hk : parent.allChildSize = k) :
    recordChild parent child ticks = appendChild parent child ticks k := by
  have hlt := k.isLt
  have hr : int32 ((k : ℤ) + 1) = k + 1 := int32_of_range (by omega) (by omega)
  simp only [recordChild, hk, store_childRTime, store_childCTime, store_childETime,
    store_childPiority, hr, appendChild]

/-- With index 64 every store hits the array after the one it is meant for, and the
last one sets `allChildSize`. -/
theorem recordChild_of_full (parent child : Proc) (ticks : ℕ) (h : parent.allChildSize = 64) :
    recordChild parent child ticks = { parent with
      childETime := update parent.childETime 0 (int32 child.rtime)
      childRTime := update parent.childRTime 0 (int32 child.ctime)
      childPiority := update parent.childPiority 0 (int32 ticks)
      allChildSize := int32 (child.piority + 1)
      exits := parent.exits + 1 } := by
  have h₁ : ∀ (p : Proc) (v : ℤ), p.store 128 v =
      { p with childETime := update p.childETime 0 v } := fun _ _ => rfl
  have h₂ : ∀ (p : Proc) (v : ℤ), p.store 64 v =
      { p with childRTime := update p.childRTime 0 v } := fun _ _ => rfl
  have h₃ : ∀ (p : Proc) (v : ℤ), p.store 192 v =
      { p with childPiority := update p.childPiority 0 v } := fun _ _ => rfl
  have h₄ : ∀ (p : Proc) (v : ℤ), p.store 256 v = { p with allChildSize := v } := fun _ _ => rfl
  simp [recordChild, h, childETimeAt, childRTimeAt, childPiorityAt, childCTimeAt, h₁, h₂, h₃, h₄]

/-- `exit` keeps the index within the arrays or just past them. -/
theorem RecordOk.recordChild {parent child : Proc} (hp : RecordOk parent) (hc : RecordOk child)
    (ticks : ℕ) : RecordOk (recordChild parent child ticks) := by
  have h0 := hp.nonneg
  by_cases hlt : parent.allChildSize < 64
  · rw [recordChild_of_lt parent child ticks ⟨parent.allChildSize.toNat, by omega⟩ (by simp [h0])]
    refine ⟨?_, ?_, hp.piority⟩ <;> simp only [appendChild] <;> omega
  · rw [recordChild_of_full parent child ticks (by have := hp.le; omega)]
    have hr : int32 (child.piority + 1) = child.piority + 1 := by
      rcases hc.piority with h | h | h <;> rw [h] <;> rfl
    refine ⟨?_, ?_, hp.piority⟩ <;> simp only [hr] <;>
      rcases hc.piority with h | h | h <;> rw [h] <;> decide

/-- As long as the index is no further off, the stores miss `piority`. -/
theorem RecordOk.recordChild_piority {parent : Proc} (hp : RecordOk parent) (child : Proc)
    (ticks : ℕ) : (Ptable.recordChild parent child ticks).piority = parent.piority := by
  have h0 := hp.nonneg
  by_cases hlt : parent.allChildSize < 64
  · rw [recordChild_of_lt parent child ticks ⟨parent.allChildSize.toNat, by omega⟩ (by simp [h0])]
    rfl
  · rw [recordChild_of_full parent child ticks (by have := hp.le; omega)]

/-! ## Runs -/

variable {cfg : Config} {s s' : State} {a : Action}

theorem recordOk_edit (h : All RecordOk s.procs) {p p' : Proc} (he : Edit s a p p')
    (hp : RecordOk p) : RecordOk p' := by
  cases he with
  | record cur par => exact hp.recordChild (h cur) s.ticks
  | alloc => exact ⟨le_rfl, Int.zero_le_ofNat 64, hp.piority⟩
  | high => exact ⟨hp.nonneg, hp.le, .inr (.inr rfl)⟩
  | nice _ v hv =>
    refine ⟨hp.nonneg, hp.le, ?_⟩
    unfold nextPiority at hv
    split at hv
    · exact .inr (.inl (Option.some.inj hv).symm)
    split at hv
    · exact .inl (Option.some.inj hv).symm
    split at hv
    · exact .inr (.inr (Option.some.inj hv).symm)
    · cases hv
  | _ => exact ⟨hp.nonneg, hp.le, hp.piority⟩

/-- Every process's index stays within the arrays or just past them. -/
theorem recordOk_step (h : All RecordOk s.procs) (hs : step cfg s a = some s') :
    All RecordOk s'.procs :=
  step_forall (fun _ _ he hp => recordOk_edit h he hp) h hs

theorem recordOk_boot (cfg : Config) : All RecordOk (boot cfg).procs := by
  have hzero : RecordOk zeroProc := ⟨le_rfl, by decide, .inl rfl⟩
  exact All.boot cfg (fun _ _ he hp => recordOk_edit (fun _ => hzero) he hp) hzero
    fun p hp => ⟨hp.nonneg, hp.le, hp.piority⟩

/-- An `exit` stores one new entry in each of its parent's arrays and increments
`allChildSize`; it leaves every other field of the parent as it was. -/
def GoodExit (s : State) (a : Action) : Prop :=
  ∀ pq ∈ exiting s a, ∃ k : Fin 64, (s.procs pq.2).allChildSize = k ∧
    recordChild (s.procs pq.2) (s.procs pq.1) s.ticks =
      appendChild (s.procs pq.2) (s.procs pq.1) s.ticks k

/-- The parent of an exiting process has outlived fewer than 64 children so far. -/
def FewExits (s : State) (a : Action) : Prop :=
  ∀ pq ∈ exiting s a, (s.procs pq.2).exits < 64

/-- The index counts the exits. -/
def Counted (p : Proc) : Prop := p.allChildSize = p.exits

theorem counted_step (h : All Counted s.procs) (hg : GoodExit s a)
    (hs : step cfg s a = some s') : All Counted s'.procs := by
  refine step_forall (s := s) (a := a) (J := Counted) (fun p p' he hp => ?_) h hs
  cases he with
  | record cur par hex =>
    obtain ⟨k, hk, heq⟩ := hg (cur, par) hex
    rw [heq]
    have : (s.procs par).exits = k := by exact_mod_cast hp.symm.trans hk
    simp [Counted, appendChild, this]
  | alloc => rfl
  | _ => exact hp

theorem counted_boot (cfg : Config) : All Counted (boot cfg).procs := by
  refine All.boot cfg (fun p p' he hp => ?_) rfl fun p hp => hp
  cases he with
  | record cur par hex => exact absurd hex (by simp [exiting])
  | alloc => rfl
  | _ => exact hp

/-- While the index counts the exits, an `exit` is good exactly when the parent has
outlived fewer than 64 children. -/
theorem goodExit_iff (hc : All Counted s.procs) :
    GoodExit s a ↔ FewExits s a := by
  refine forall₂_congr fun pq _ => ?_
  have hcount : (s.procs pq.2).allChildSize = (s.procs pq.2).exits := hc pq.2
  constructor
  · rintro ⟨k, hk, -⟩
    have := k.isLt
    omega
  · intro hlt
    have hk : (s.procs pq.2).allChildSize = ((⟨(s.procs pq.2).exits, hlt⟩ : Fin 64) : ℤ) := hcount
    exact ⟨_, hk, recordChild_of_lt _ _ _ _ hk⟩

/-- **The child-record bound.**  In every run `allChildSize` stays at most 64 in every
process.  Every `exit` stores within its parent's arrays, adding one entry to each and
changing nothing else of the parent, exactly in the runs in which no process outlives
more than 64 children. -/
theorem child_record_bound (cfg : Config) (xs : List Action) :
    Throughout (step cfg) (fun t => ∀ i, 0 ≤ (t.procs i).allChildSize ∧
      (t.procs i).allChildSize ≤ 64) (boot cfg) xs ∧
    (Along (step cfg) GoodExit (boot cfg) xs ↔ Along (step cfg) FewExits (boot cfg) xs) := by
  constructor
  · have hall : Along (step cfg) (fun _ _ => True) (boot cfg) xs := along_true
    exact (throughout_invariant (I := fun t => All RecordOk t.procs)
      (fun t a t' h _ hst => recordOk_step h hst) (recordOk_boot cfg) hall).mono
        fun t h i => ⟨(h i).nonneg, (h i).le⟩
  · exact along_congr (I := fun t => All RecordOk t.procs ∧ All Counted t.procs)
      (fun t a t' h hg hst => ⟨recordOk_step h.1 hst, counted_step h.2 hg hst⟩)
      (fun _ _ h => goodExit_iff h.2) ⟨recordOk_boot cfg, counted_boot cfg⟩

/-! ## A process that outlives 65 children

Init, on CPU 0, forks a child, which runs and exits on CPU 1, and waits for it, over and
over.  `OnlyInit` holds between two rounds and `OneChild` within one. -/

section Overrun

/-- Init runs on CPU 0 and no other slot is in use. -/
structure OnlyInit (n : ℤ) (s : State) : Prop where
  cpu0 : (s.cpus 0).proc = some 0
  cpu1 : (s.cpus 1).pc = .top
  initproc : s.initproc = 0
  running : (s.procs 0).state = .running
  np : (s.procs 0).np = none
  size : (s.procs 0).allChildSize = n
  free : ∀ i, i ≠ 0 → (s.procs i).state = .unused
  parent : ∀ i, (s.procs i).parent = none

/-- Init runs on CPU 0 and has one child, in slot 1. -/
structure OneChild (n : ℤ) (st : ProcState) (s : State) : Prop where
  cpu0 : (s.cpus 0).proc = some 0
  initproc : s.initproc = 0
  running : (s.procs 0).state = .running
  np : (s.procs 0).np = none
  size : (s.procs 0).allChildSize = n
  parent0 : (s.procs 0).parent = none
  child : (s.procs 1).state = st
  childNp : (s.procs 1).np = none
  childWait : (s.procs 1).inWait = false
  childPiority : (s.procs 1).piority = highPiority
  parent1 : (s.procs 1).parent = some 0
  free : ∀ i, i ≠ 0 → i ≠ 1 → (s.procs i).state = .unused
  parent : ∀ i, i ≠ 0 → i ≠ 1 → (s.procs i).parent = none

variable {n : ℤ} {s : State}

theorem slot_zero_ne_one : (0 : Slot) ≠ 1 := by decide

theorem slot_one_ne_zero : (1 : Slot) ≠ 0 := by decide

theorem OnlyInit.fork (h : OnlyInit n s) :
    ∃ s', exec (step q3) s [.fork 0, .forkDone 0] = some s' ∧ OneChild n .runnable s' ∧
      (s'.cpus 1).pc = .top := by
  have h01 := slot_zero_ne_one
  have h10 := slot_one_ne_zero
  have hfree : freeSlot s.procs = some 1 := by
    refine find?_finRange (by simp [h.free 1 h10]) fun j hj => ?_
    have hj0 : j = 0 := Fin.ext (Nat.lt_one_iff.mp hj)
    simp [hj0, h.running]
  have hcaller : s.caller 0 = some 0 := by simp [State.caller, h.cpu0, h.np]
  have hcpu : (Ptable.fork q3 s 0).cpus = s.cpus := by
    simp [Ptable.fork, hfree, allocproc, q3, State.setProc]
  have hforking : (Ptable.fork q3 s 0).forking 0 = some (0, 1) := by
    simp [State.forking, hcpu, h.cpu0]
    simp [Ptable.fork, hfree, allocproc, q3, State.setProc]
  have hstep : exec (step q3) s [.fork 0, .forkDone 0] =
      some (forkDone (Ptable.fork q3 s 0) 0 1) := by
    simp [exec, step, entry, hcaller, hforking, finish]
  refine ⟨_, hstep, ?_, (congrArg (fun f => (f 1).pc) hcpu).trans h.cpu1⟩
  constructor
  case free =>
    intro i h0 h1
    simp [forkDone, Ptable.fork, hfree, allocproc, q3, State.setProc, h0, h1, h.free i h0]
  case parent =>
    intro i h0 h1
    simp [forkDone, Ptable.fork, hfree, allocproc, q3, State.setProc, h0, h1, h.parent i]
  all_goals simp [forkDone, Ptable.fork, hfree, allocproc, q3, State.setProc, h01, h10, h.cpu0,
    h.initproc, h.running, h.size, h.parent]

theorem OneChild.schedule (h : OneChild n .runnable s) (hc : (s.cpus 1).pc = .top) :
    ∃ s', step q3 s (.schedule 1) = some s' ∧ OneChild n .running s' ∧
      s'.cpus 1 = ⟨some 1, .grt⟩ := by
  have h01 := slot_zero_ne_one
  have h10 := slot_one_ne_zero
  generalize hs₁ : checkForHigherPiority { s with grtExists := false, frrExists := false } = s₁
  have hprocs : s₁.procs = s.procs := by rw [← hs₁]; rfl
  have hcand : GrtCandidate q3 s₁ 1 := by
    rw [GrtCandidate, hprocs]
    exact ⟨h.child, fun _ => h.childPiority⟩
  have hbest : bestIndex q3 s₁ = some 1 := by
    obtain ⟨p, hp⟩ := Option.ne_none_iff_exists'.mp (bestIndex_ne_none hcand)
    have hrun := (grtCandidate_of_bestIndex hp).1
    rw [hprocs] at hrun
    have hp1 : p = 1 := by
      by_contra hne
      by_cases h0 : p = 0
      · rw [h0, h.running] at hrun
        exact absurd hrun (by decide)
      · rw [h.free p h0 hne] at hrun
        exact absurd hrun (by decide)
    rw [hp, hp1]
  have hpass : pass q3 1 s = switchTo s₁ 1 .grt 1 := by
    rw [pass, hs₁, grtLevel, if_pos (.inr rfl), hbest]
    simp [dispatch, switchTo, State.setProc, hprocs, h.childWait]
  refine ⟨switchTo s₁ 1 .grt 1, by simp [step, entry, hc, hpass, finish], ?_, by simp [switchTo]⟩
  have hcpus : s₁.cpus = s.cpus := by rw [← hs₁]; rfl
  have hinit : s₁.initproc = s.initproc := by rw [← hs₁]; rfl
  constructor
  case free =>
    intro i h0 h1
    simp [switchTo, State.setProc, hprocs, h1, h.free i h0 h1]
  case parent =>
    intro i h0 h1
    simp [switchTo, State.setProc, hprocs, h1, h.parent i h0 h1]
  all_goals simp [switchTo, State.setProc, hprocs, hcpus, hinit, h01, h.cpu0, h.initproc,
    h.running, h.np, h.size, h.parent0, h.childNp, h.childWait, h.childPiority, h.parent1]

theorem wakeup1_of_none {procs : Slot → Proc} {chan : Chan}
    (h : ∀ i, (procs i).state ≠ .sleeping) : wakeup1 procs chan = procs := by
  funext i
  rw [wakeup1, if_neg fun hi => h i hi.1]

theorem abandon_of_none {procs : Slot → Proc} {cur initproc : Slot}
    (h : ∀ i, (procs i).parent ≠ some cur) : abandon cur initproc procs = procs := by
  unfold abandon
  have key : ∀ l : List Slot, l.foldl (reparent cur initproc) procs = procs := by
    intro l
    induction l with
    | nil => rfl
    | cons i l ih => rw [List.foldl_cons, reparent, if_neg (h i), ih]
  exact key _

theorem OneChild.exit (h : OneChild n .running s) (hc : s.cpus 1 = ⟨some 1, .grt⟩) :
    ∃ s', step q3 s (.exit 1) = some s' ∧
      OneChild (recordChild (s.procs 0) (s.procs 1) s.ticks).allChildSize .zombie s' ∧
      (s'.cpus 1).pc = .top := by
  have h01 := slot_zero_ne_one
  have h10 := slot_one_ne_zero
  have hsame := recordChild_sameControl (s.procs 0) (s.procs 1) s.ticks
  obtain ⟨r, hr⟩ : ∃ r, recordChild (s.procs 0) (s.procs 1) s.ticks = r := ⟨_, rfl⟩
  rw [hr] at hsame ⊢
  have hcaller : s.caller 1 = some 1 := by simp [State.caller, hc, h.childNp]
  -- Nobody sleeps and nobody is a child of slot 1.
  have hstates : ∀ i, (update s.procs 0 r i).state ≠ .sleeping := by
    intro i
    by_cases h0 : i = 0
    · simp [h0, hsame.state, h.running]
    · by_cases h1 : i = 1
      · simp [h1, h10, h.child]
      · simp [h0, h.free i h0 h1]
  have hparents : ∀ i, (update s.procs 0 r i).parent ≠ some 1 := by
    intro i
    by_cases h0 : i = 0
    · simp [h0, hsame.parent, h.parent0]
    · by_cases h1 : i = 1
      · rw [h1, update_of_ne h10, h.parent1]
        exact fun he => h01 (Option.some.inj he)
      · simp [h0, h.parent i h0 h1]
  have hexit : Ptable.exit s 1 0 = { s with
      procs := update (update s.procs 0 r) 1
        { s.procs 1 with state := .zombie, etime := s.ticks }
      events := .exited (s.procs 1).pid :: s.events } := by
    rw [Ptable.exit, hr, wakeup1_of_none hstates, abandon_of_none hparents]
    simp [State.setProc, h10]
  have hidle : ∀ i, ((Ptable.exit s 1 0).procs i).state ≠ .runnable := by
    intro i
    rw [hexit]
    by_cases h1 : i = 1
    · simp [h1]
    · by_cases h0 : i = 0
      · simp [h0, h01, hsame.state, h.running]
      · simp [h0, h1, h.free i h0 h1]
  have hpc : ((Ptable.exit s 1 0).cpus 1).pc = .grt := by simp [hexit, hc]
  refine ⟨endPass (Ptable.exit s 1 0) 1, ?_, ?_, by simp [endPass]⟩
  · simp only [step, entry, hcaller, h.initproc, h10, h.parent1, Option.bind_some, if_false,
      Option.map_some, finish, resume, hpc, frrLevel_of_idle hidle]
  rw [hexit]
  constructor
  case free =>
    intro i h0 h1
    simp [endPass, h0, h1, h.free i h0 h1]
  case parent =>
    intro i h0 h1
    simp [endPass, h0, h1, h.parent i h0 h1]
  all_goals simp [endPass, h01, h.cpu0, h.initproc, hsame.state, hsame.np, hsame.parent, h.running,
    h.np, h.parent0, h.childNp, h.childWait, h.childPiority, h.parent1]

theorem OneChild.wait (h : OneChild n .zombie s) (hc : (s.cpus 1).pc = .top) :
    ∃ s', step q3 s (.wait 0) = some s' ∧ OnlyInit n s' := by
  have h01 := slot_zero_ne_one
  have h10 := slot_one_ne_zero
  have hcaller : s.caller 0 = some 0 := by simp [State.caller, h.cpu0, h.np]
  have hscan : waitScan s.procs 0 = .reaped 1 := by
    have hfind : ((List.finRange NPROC).find? fun i =>
        (s.procs i).parent = some 0 ∧ (s.procs i).state = .zombie) = some 1 := by
      refine find?_finRange (by simp [h.parent1, h.child]) fun j hj => ?_
      have hj0 : j = 0 := Fin.ext (Nat.lt_one_iff.mp hj)
      simp [hj0, h.running]
    rw [waitScan, hfind]
  refine ⟨_, by
    simp only [step, entry, hcaller, Option.map_some, Ptable.wait, hscan, finish]; rfl, ?_⟩
  constructor
  case free =>
    intro i h0
    by_cases h1 : i = 1
    · simp [State.setProc, h1, h10]
    · simp [State.setProc, h0, h1, h.free i h0 h1]
  case parent =>
    intro i
    by_cases h0 : i = 0
    · simp [State.setProc, h0, h01, h.parent0]
    · by_cases h1 : i = 1
      · simp [State.setProc, h1, h10]
      · simp [State.setProc, h0, h1, h.parent i h0 h1]
  all_goals simp [State.setProc, h01, h.cpu0, hc, h.initproc, h.running, h.np, h.size]

/-- Init forks a child, which runs on CPU 1 and exits, and waits for it. -/
def oneChild : List Action := [.fork 0, .forkDone 0, .schedule 1, .exit 1, .wait 0]

theorem OnlyInit.oneChild {k : ℕ} (hk : k < 64) (h : OnlyInit k s) :
    ∃ s', exec (step q3) s oneChild = some s' ∧ OnlyInit (k + 1 : ℕ) s' := by
  obtain ⟨s₁, h₁, hone, htop⟩ := h.fork
  obtain ⟨s₂, h₂, hone, hcpu⟩ := hone.schedule htop
  obtain ⟨s₃, h₃, hone', htop⟩ := hone.exit hcpu
  rw [recordChild_of_lt _ _ _ ⟨k, hk⟩ hone.size] at hone'
  obtain ⟨s₄, h₄, hinit⟩ := hone'.wait htop
  refine ⟨s₄, ?_, by simpa [appendChild] using hinit⟩
  show exec (step q3) s ([.fork 0, .forkDone 0] ++ [.schedule 1, .exit 1, .wait 0]) = some s₄
  rw [exec_append, h₁]
  simp [exec, h₂, h₃, h₄]

theorem onlyInit_after (k : ℕ) (hk : k ≤ 64) :
    ∃ s, exec (step q3) (boot q3) (.schedule 0 :: (List.replicate k oneChild).flatten) = some s ∧
      OnlyInit k s := by
  induction k with
  | zero =>
    refine ⟨pass q3 0 (boot q3), rfl, ?_⟩
    constructor <;> decide +kernel
  | succ k ih =>
    obtain ⟨s, hs, h⟩ := ih (by omega)
    obtain ⟨s', hs', h'⟩ := h.oneChild (by omega)
    refine ⟨s', ?_, h'⟩
    rw [List.replicate_succ', List.flatten_concat, ← List.cons_append, exec_append, hs]
    exact hs'

/-- The 65th child: its stores land on the array after the one they are meant for, and
`allChildSize` becomes the child's priority plus one. -/
theorem child_record_overrun :
    ∃ xs s s', exec (step q3) (boot q3) xs = some s ∧ exiting s (.exit 1) = some (1, 0) ∧
      (s.procs 0).allChildSize = 64 ∧ step q3 s (.exit 1) = some s' ∧
      (s'.procs 0).allChildSize = 3 := by
  obtain ⟨s, hs, h⟩ := onlyInit_after 64 le_rfl
  obtain ⟨s₁, h₁, hone, htop⟩ := h.fork
  obtain ⟨s₂, h₂, hone, hcpu⟩ := hone.schedule htop
  obtain ⟨s₃, h₃, hone', -⟩ := hone.exit hcpu
  have hrun : exec (step q3) s [.fork 0, .forkDone 0, .schedule 1] = some s₂ := by
    rw [show [Action.fork 0, .forkDone 0, .schedule 1] = [.fork 0, .forkDone 0] ++ [.schedule 1]
      from rfl, exec_append, h₁]
    simp [exec, h₂]
  refine ⟨_, s₂, s₃, exec_append_eq_some.mpr ⟨s, hs, hrun⟩, ?_, hone.size, h₃, ?_⟩
  · have hcaller : s₂.caller 1 = some 1 := by simp [State.caller, hcpu, hone.childNp]
    rw [exiting, hcaller, hone.initproc, Option.bind_some, if_neg slot_one_ne_zero, hone.parent1]
    rfl
  · rw [hone'.size, recordChild_of_full _ _ _ hone.size, hone.childPiority]
    rfl

end Overrun

end Xv6.Ptable
