import Xv6.Ptable.Pass
import Xv6.Lib.Machine

/-!
# What a step can do to one process

Every step changes the `struct proc`s of the table by the edits listed in `Edit`.  A
property of single processes that every edit keeps is an invariant of all runs
(`step_forall`), whatever slot a process sits in; passes are covered by `PassRule`.

## Main definitions

* `Entry cfg s a c o` — what the process's own part of a step can be.
* `Edit s a p p'` — one change of a process in step `a` from state `s`.

## Main results

* `entry_cases` — the cases of a step.
* `step_forall` — the rule.
-/

namespace Xv6.Ptable

open Function Machine

theorem setProc_self (s : State) (i : Slot) (p : Proc) : (s.setProc i p).procs i = p :=
  update_self _ _ _

theorem setProc_of_ne (s : State) {i j : Slot} (p : Proc) (h : j ≠ i) :
    (s.setProc i p).procs j = s.procs j :=
  update_of_ne h _ _

/-- A field that the new entry shares with the old one is the same in the whole table. -/
theorem setProc_proj {α : Type*} (f : Proc → α) (s : State) (i : Slot) (p : Proc)
    (h : f p = f (s.procs i)) (j : Slot) : f ((s.setProc i p).procs j) = f (s.procs j) := by
  by_cases hj : j = i
  · rw [hj, setProc_self, h]
  · rw [setProc_of_ne s p hj]

theorem uint32_of_lt {n : ℕ} (h : n < 0x100000000) : uint32 n = n := by
  unfold uint32
  omega

/-! ## The cases of a step -/

theorem caller_eq_some {s : State} {c : Cid} {p : Slot} :
    s.caller c = some p ↔ (s.cpus c).proc = some p ∧ (s.procs p).np = none := by
  simp [State.caller]

theorem forking_eq_some {s : State} {c : Cid} {p q : Slot} :
    s.forking c = some (p, q) ↔ (s.cpus c).proc = some p ∧ (s.procs p).np = some q := by
  simp [State.forking, Option.bind_eq_some_iff]

/-- What the process's own part of a step can be: the action, the CPU, how it ends. -/
inductive Entry (cfg : Config) (s : State) : Action → Cid → Outcome → Prop
  | schedule (c) : (s.cpus c).pc = .top →
      Entry cfg s (.schedule c) c (.released (pass cfg c s))
  | fork (c p) : s.caller c = some p → Entry cfg s (.fork c) c (.released (fork cfg s p))
  | forkFail (c p q) : s.forking c = some (p, q) →
      Entry cfg s (.forkFail c) c (.released (forkFail s p q))
  | forkDone (c p q) : s.forking c = some (p, q) →
      Entry cfg s (.forkDone c) c (.released (forkDone s p q))
  | exit (c p q) : s.caller c = some p → p ≠ s.initproc → (s.procs p).parent = some q →
      Entry cfg s (.exit c) c (.sched (exit s p q))
  | wait (c p) : s.caller c = some p → Entry cfg s (.wait c) c (wait s p)
  | sleep (c a p) : s.caller c = some p →
      Entry cfg s (.sleep c a) c (.sched (sleep s p (.addr a)))
  | yield (c p) : (s.cpus c).proc = some p → Entry cfg s (.yield c) c (yield cfg s p)
  | nice (c p) : s.caller c = some p → Entry cfg s (.nice c) c (.released (nice s p))
  | kill (c pid p) : s.caller c = some p →
      Entry cfg s (.kill c pid) c (.released { s with procs := (kill s.procs pid).1 })
  | wakeup (a) : Entry cfg s (.wakeup a) 0
      (.released { s with procs := wakeup1 s.procs (.addr a) })
  | tick : Entry cfg s .tick 0 (.released (tick s))

/-- **The cases of a step.** -/
theorem entry_cases {cfg : Config} {s : State} {a : Action} {c : Cid} {o : Outcome}
    (h : entry cfg s a = some (c, o)) : Entry cfg s a c o := by
  cases a with
  | schedule c =>
    obtain ⟨hpc, h⟩ := Option.ite_none_right_eq_some.mp h
    obtain ⟨rfl, rfl⟩ := Prod.mk.inj (Option.some.inj h)
    exact .schedule c hpc
  | fork c =>
    obtain ⟨p, hp, h⟩ := Option.map_eq_some_iff.mp h
    cases h
    exact .fork c p hp
  | forkFail c =>
    obtain ⟨⟨p, q⟩, hp, h⟩ := Option.map_eq_some_iff.mp h
    cases h
    exact .forkFail c p q hp
  | forkDone c =>
    obtain ⟨⟨p, q⟩, hp, h⟩ := Option.map_eq_some_iff.mp h
    cases h
    exact .forkDone c p q hp
  | exit c =>
    obtain ⟨p, hp, h⟩ := Option.bind_eq_some_iff.mp h
    obtain ⟨hne, h⟩ := Option.ite_none_left_eq_some.mp h
    obtain ⟨q, hq, h⟩ := Option.map_eq_some_iff.mp h
    cases h
    exact .exit c p q hp hne hq
  | wait c =>
    obtain ⟨p, hp, h⟩ := Option.map_eq_some_iff.mp h
    cases h
    exact .wait c p hp
  | sleep c a =>
    obtain ⟨p, hp, h⟩ := Option.map_eq_some_iff.mp h
    cases h
    exact .sleep c a p hp
  | yield c =>
    obtain ⟨p, hp, h⟩ := Option.map_eq_some_iff.mp h
    cases h
    exact .yield c p hp
  | nice c =>
    obtain ⟨p, hp, h⟩ := Option.map_eq_some_iff.mp h
    cases h
    exact .nice c p hp
  | kill c pid =>
    obtain ⟨p, hp, h⟩ := Option.map_eq_some_iff.mp h
    cases h
    exact .kill c pid p hp
  | wakeup a =>
    obtain ⟨rfl, rfl⟩ := Prod.mk.inj (Option.some.inj h)
    exact .wakeup a
  | tick =>
    obtain ⟨rfl, rfl⟩ := Prod.mk.inj (Option.some.inj h)
    exact .tick

/-- Only the scheduler switches to processes and sets the flags. -/
theorem entry_sameSched {cfg : Config} {s : State} {a : Action} {c : Cid} {o : Outcome}
    (hne : ∀ c, a ≠ .schedule c) (h : entry cfg s a = some (c, o)) : SameSched s o.state := by
  cases entry_cases h with
  | schedule c _ => exact absurd rfl (hne c)
  | fork c p _ =>
    show SameSched s (fork cfg s p)
    unfold fork
    split
    · exact SameSched.refl s
    · unfold allocproc
      dsimp only
      split <;> exact ⟨rfl, rfl, rfl, rfl⟩
  | wait c p _ => exact wait_sameSched s p
  | yield c p _ =>
    unfold yield
    split
    · exact SameSched.refl s
    split
    · exact SameSched.refl s
    split <;> exact ⟨rfl, rfl, rfl, rfl⟩
  | nice c p _ =>
    show SameSched s (nice s p)
    unfold nice
    split <;> exact ⟨rfl, rfl, rfl, rfl⟩
  | tick =>
    show SameSched s (tick s)
    unfold tick
    dsimp only
    split
    · split <;> exact ⟨rfl, rfl, rfl, rfl⟩
    · exact ⟨rfl, rfl, rfl, rfl⟩
  | _ => exact ⟨rfl, rfl, rfl, rfl⟩

/-! ## Edits -/

/-- The process that exits in a step, and its parent. -/
def exiting (s : State) : Action → Option (Slot × Slot)
  | .exit c => (s.caller c).bind fun p =>
    if p = s.initproc then none else (s.procs p).parent.map fun q => (p, q)
  | _ => none

/-- The changes a step `a` from state `s` makes to a process. -/
inductive Edit (s : State) (a : Action) : Proc → Proc → Prop
  /-- The scheduler switches to it. -/
  | run (p) : p.state = .runnable →
      Edit s a p { p with processCounter := 0, state := .running, chan := none }
  | wake (p) : p.state = .sleeping → Edit s a p { p with state := .runnable }
  | sleep (p chan) : Edit s a p { p with chan := some chan, state := .sleeping }
  | yield (p) : Edit s a p { p with processCounter := 0, state := .runnable }
  | count (p n) : Edit s a p { p with processCounter := n }
  | inWait (p b) : Edit s a p { p with inWait := b }
  | np (p o) : Edit s a p { p with np := o }
  | reap (p) : Edit s a p { p with pid := 0, parent := none, killed := false, state := .unused }
  | alloc (p c) : a = .fork c → freeSlot s.procs ≠ none → p.state = .unused →
      Edit s a p { p with
        state := .embryo, pid := s.nextpid, rtime := 0, ctime := s.ticks, allChildSize := 0,
        exits := 0 }
  | high (p) : Edit s a p { p with piority := highPiority }
  | giveBack (c cur np) : a = .forkFail c → s.forking c = some (cur, np) →
      Edit s a (s.procs np) { s.procs np with state := .unused }
  | start (p cur) : Edit s a p { p with
      parent := some cur, state := .runnable, np := none, inWait := false }
  | kill (c pid i) : a = .kill c pid → pidSlot s.procs pid = some i →
      Edit s a (s.procs i) { s.procs i with
        killed := true
        state := if (s.procs i).state = .sleeping then .runnable else (s.procs i).state }
  | record (cur par) : exiting s a = some (cur, par) →
      Edit s a (s.procs par) (recordChild (s.procs par) (s.procs cur) s.ticks)
  | adopt (p i) : Edit s a p { p with parent := some i }
  | zombie (p) : Edit s a p { p with state := .zombie, etime := s.ticks }
  | ran (p n) : Edit s a p { p with rtime := n }
  | nice (p v) : nextPiority p.piority = some v → Edit s a p { p with piority := v }

/-! ## What `exit` leaves of its parent -/

/-- Two versions of a process that differ in times, child records and priority only. -/
structure SameControl (p p' : Proc) : Prop where
  state : p'.state = p.state
  pid : p'.pid = p.pid
  parent : p'.parent = p.parent
  chan : p'.chan = p.chan
  killed : p'.killed = p.killed
  processCounter : p'.processCounter = p.processCounter
  np : p'.np = p.np
  inWait : p'.inWait = p.inWait

theorem SameControl.trans {p p' p'' : Proc} (h : SameControl p p') (h' : SameControl p' p'') :
    SameControl p p'' where
  state := h'.state.trans h.state
  pid := h'.pid.trans h.pid
  parent := h'.parent.trans h.parent
  chan := h'.chan.trans h.chan
  killed := h'.killed.trans h.killed
  processCounter := h'.processCounter.trans h.processCounter
  np := h'.np.trans h.np
  inWait := h'.inWait.trans h.inWait

theorem store_sameControl (p : Proc) (w v : ℤ) : SameControl p (p.store w v) := by
  unfold Proc.store
  split
  · constructor <;> rfl
  split
  · constructor <;> rfl
  split
  · constructor <;> rfl
  split
  · constructor <;> rfl
  split
  · constructor <;> rfl
  split <;> constructor <;> rfl

/-- Wherever the stores land, they do not touch how the parent is run. -/
theorem recordChild_sameControl (parent child : Proc) (ticks : ℕ) :
    SameControl parent (recordChild parent child ticks) := by
  unfold recordChild
  extract_lets p₁ p₂ p₃ p₄
  have h₁ : SameControl parent p₁ := store_sameControl _ _ _
  have h₂ : SameControl p₁ p₂ := store_sameControl _ _ _
  have h₃ : SameControl p₂ p₃ := store_sameControl _ _ _
  have h₄ : SameControl p₃ p₄ := store_sameControl _ _ _
  have h₅ : SameControl p₄ { p₄ with
      allChildSize := int32 (p₄.allChildSize + 1), exits := p₄.exits + 1 } := by
    constructor <;> rfl
  exact (((h₁.trans h₂).trans h₃).trans h₄).trans h₅

/-- Every process of the table has property `J`. -/
def All (J : Proc → Prop) (procs : Slot → Proc) : Prop := ∀ i, J (procs i)

section Rule

variable {cfg : Config} {s t : State} {a : Action} {J : Proc → Prop} {c : Cid}

theorem All.update {procs : Slot → Proc} (h : All J procs) {i : Slot} {p : Proc} (hp : J p) :
    All J (update procs i p) :=
  (forall_update_iff procs (p := fun _ q => J q)).mpr ⟨hp, fun j _ => h j⟩

theorem All.setProc (h : All J t.procs) {i : Slot} {p : Proc} (hp : J p) :
    All J (t.setProc i p).procs :=
  h.update hp

/-- `J` holds of every process when the section ends. -/
def Outcome.All (J : Proc → Prop) : Outcome → Prop
  | .released s => Ptable.All J s.procs
  | .sched s => Ptable.All J s.procs

theorem All.wakeup1 {procs : Slot → Proc} (hJ : ∀ p p', Edit s a p p' → J p → J p')
    (h : All J procs) (chan : Chan) : All J (wakeup1 procs chan) := by
  intro i
  unfold Ptable.wakeup1
  split
  · rename_i hs
    exact hJ _ _ (.wake _ hs.1) (h i)
  · exact h i

theorem All.foldl {β : Type*} {f : (Slot → Proc) → β → Slot → Proc} (l : List β)
    (hf : ∀ procs b, All J procs → All J (f procs b)) {procs : Slot → Proc} (h : All J procs) :
    All J (l.foldl f procs) := by
  induction l generalizing procs with
  | nil => exact h
  | cons b l ih => exact ih (hf procs b h)

variable (hJ : ∀ p p', Edit s a p p' → J p → J p')
include hJ

theorem All.wait (h : All J t.procs) (cur : Slot) : (wait t cur).All J := by
  unfold Ptable.wait
  split
  · refine All.setProc (All.setProc h (hJ _ _ (.reap _) (h _))) (hJ _ _ (.inWait _ false) ?_)
    exact All.setProc h (hJ _ _ (.reap _) (h _)) _
  · exact All.setProc h (hJ _ _ (.inWait _ false) (h _))
  · have hs : All J (Ptable.sleep t cur (.proc cur)).procs :=
      All.setProc h (hJ _ _ (.sleep _ (.proc cur)) (h _))
    exact All.setProc hs (hJ _ _ (.inWait _ true) (hs _))

theorem All.dispatch (h : All J t.procs) (pc : SchedPc) {p : Slot}
    (hp : (t.procs p).state = .runnable) : (dispatch t c pc p).All J := by
  have hs : All J (switchTo t c pc p).procs := All.update h (hJ _ _ (.run _ hp) (h p))
  unfold Ptable.dispatch
  dsimp only
  split
  · exact All.wait hJ hs p
  · exact hs

/-- Passes keep `J`: they only run and reap processes and put them back to sleep. -/
theorem All.passRule (c : Cid) :
    PassRule c (fun t => All J t.procs) (fun t => All J t.procs) where
  flags _ _ _ h := h
  dispatch t pc p h _ hp := by
    have hd := All.dispatch hJ (c := c) h pc hp
    cases hout : Ptable.dispatch t c pc p <;> rw [hout] at hd <;> exact hd
  endPass _ h := h

theorem All.finish {o : Outcome} (h : o.All J) : All J (finish cfg c o).procs := by
  cases o with
  | released t => exact h
  | sched t => exact (All.passRule hJ c).resume (fun _ => h) h

theorem All.yield (h : All J t.procs) (cur : Slot) : (yield cfg t cur).All J := by
  unfold Ptable.yield
  split
  · exact h
  split
  · exact h
  split
  · exact All.setProc h (hJ _ _ (.count _ _) (h cur))
  · exact All.setProc h (hJ _ _ (.yield _) (h cur))

theorem All.tick (h : All J t.procs) : All J (tick t).procs := by
  unfold Ptable.tick
  refine All.wakeup1 hJ ?_ _
  split
  · dsimp only
    split
    · exact All.setProc h (hJ _ _ (.ran _ _) (h _))
    · exact h
  · exact h

theorem All.nice (h : All J t.procs) (cur : Slot) : All J (nice t cur).procs := by
  unfold Ptable.nice
  split
  · rename_i v hv
    exact All.setProc h (hJ _ _ (.nice _ v hv) (h cur))
  · exact h

theorem All.reparent {procs : Slot → Proc} (h : All J procs) (cur initproc i : Slot) :
    All J (reparent cur initproc procs i) := by
  unfold Ptable.reparent
  split
  · have hu := All.update h (i := i) (hJ _ _ (.adopt _ initproc) (h i))
    dsimp only
    split
    · exact All.wakeup1 hJ hu _
    · exact hu
  · exact h

theorem All.abandon {procs : Slot → Proc} (h : All J procs) (cur initproc : Slot) :
    All J (abandon cur initproc procs) := by
  unfold Ptable.abandon
  exact All.foldl _ (fun _ i hp => All.reparent hJ hp cur initproc i) h

theorem All.exit (h : All J s.procs) {cur par : Slot}
    (hrec : J (recordChild (s.procs par) (s.procs cur) s.ticks)) :
    All J (exit s cur par).procs := by
  have h₂ := All.wakeup1 hJ (All.update h (i := par) hrec) (.proc par)
  have h₃ := All.abandon hJ h₂ cur s.initproc
  have hz := hJ _ _ (.zombie _) (h₃ cur)
  exact All.update h₃ hz

omit hJ in
theorem All.sortRound {procs : Slot → Proc} (h : All J procs) (i : Slot) :
    All J (sortRound procs i) := by
  unfold Ptable.sortRound
  split
  · exact All.update (All.update h (h _)) (h i)
  · exact h

omit hJ in
theorem All.sortProcessFIFO {procs : Slot → Proc} (h : All J procs) :
    All J (sortProcessFIFO procs) := by
  unfold Ptable.sortProcessFIFO
  exact All.foldl _ (fun _ i hp => All.sortRound hp i) h

theorem All.allocproc (h : All J s.procs) {p : Slot} (ha : a = .fork c)
    (hp : freeSlot s.procs = some p) : All J (allocproc cfg s p).procs := by
  have hfree : (s.procs p).state = .unused := by
    simpa using List.find?_some hp
  have h₁ := All.update h (i := p) (hJ _ _ (.alloc _ c ha (by simp [hp]) hfree) (h p))
  have h₂ := hJ _ _ (.high _) (h₁ p)
  have h₃ := All.sortProcessFIFO h₁
  unfold Ptable.allocproc
  dsimp only
  split
  · exact h₃
  · exact All.update h₁ h₂
  · exact h₁

theorem All.fork (h : All J s.procs) (ha : a = .fork c) (cur : Slot) :
    All J (fork cfg s cur).procs := by
  unfold Ptable.fork
  split
  · exact h
  · rename_i p hp
    have h₁ : All J (Ptable.allocproc cfg s p).procs := All.allocproc hJ h ha hp
    exact All.setProc h₁ (hJ _ _ (.np _ _) (h₁ cur))

theorem All.kill (h : All J s.procs) {pid : ℤ} (ha : a = .kill c pid) :
    All J (kill s.procs pid).1 := by
  unfold Ptable.kill
  split
  · exact h
  · rename_i i hi
    exact All.update h (hJ _ _ (.kill c pid i ha hi) (h i))

/-- The process's own part of a step. -/
theorem entry_forall {o : Outcome} (h : All J s.procs) (hent : entry cfg s a = some (c, o)) :
    o.All J := by
  cases entry_cases hent with
  | schedule c _ => exact (All.passRule hJ c).pass h
  | fork c p _ => exact All.fork hJ h rfl p
  | forkFail c cur np hfork =>
    have h₁ := All.setProc h (i := np) (hJ _ _ (.giveBack c cur np rfl hfork) (h np))
    exact All.setProc h₁ (hJ _ _ (.np _ _) (h₁ cur))
  | forkDone c cur np _ =>
    have h₁ := All.setProc h (i := np) (hJ _ _ (.start _ cur) (h np))
    exact All.setProc h₁ (hJ _ _ (.np _ _) (h₁ cur))
  | exit c p q hp hne hq =>
    have hex : exiting s (.exit c) = some (p, q) := by simp [exiting, hp, hne, hq]
    exact All.exit hJ h (hJ _ _ (.record p q hex) (h q))
  | wait c p _ => exact All.wait hJ h p
  | sleep c addr p _ => exact All.setProc h (hJ _ _ (.sleep _ _) (h p))
  | yield c p _ => exact All.yield hJ h p
  | nice c p _ => exact All.nice hJ h p
  | kill c pid p _ => exact All.kill hJ h rfl
  | wakeup addr => exact All.wakeup1 hJ h _
  | tick => exact All.tick hJ h

/-- **The rule.**  What every edit of a step keeps of single processes holds of the
whole table after the step. -/
theorem step_forall (h : All J s.procs) (hs : step cfg s a = some t) : All J t.procs := by
  obtain ⟨⟨c, o⟩, hent, rfl⟩ := Option.map_eq_some_iff.mp hs
  exact All.finish hJ (entry_forall hJ h hent)

end Rule

/-- The table `userinit` leaves. -/
theorem All.boot (cfg : Config) {J : Proc → Prop}
    (hJ : ∀ p p', Edit emptyTable (.fork 0) p p' → J p → J p') (hzero : J zeroProc)
    (hrun : ∀ p, J p → J { p with state := .runnable }) : All J (boot cfg).procs := by
  have hfree : freeSlot emptyTable.procs = some 0 := by decide
  have h : All J (Ptable.allocproc cfg emptyTable 0).procs :=
    All.allocproc hJ (fun _ => hzero) rfl hfree
  exact All.setProc h (hrun _ (h 0))

end Xv6.Ptable
