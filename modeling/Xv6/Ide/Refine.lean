import Xv6.Ide.Model
import Mathlib.Data.Fintype.Card

/-!
# The driver with interrupts refines the one in memory

A request is served when the disk ends it.  At that point the state that `State.mem` shows
changes as `Memide.iderw` changes it, and at no other point does the driver change it: so a
run of `ide.c` is a run of `memide.c` in which each call of `iderw` is atomic.

## Main definitions

* `Inv` — the queue, the disk and the waiting processes fit together.
* `Answered` — a call has the result of an atomic call at its service point.

## Main results

* `inv_step` — every step that does not panic keeps the invariant.
* `ide_refines` — what holds in every state that a run reaches.
-/

namespace Xv6.Ide

open Function LinkedQueue Machine

variable {nbuf : ℕ} {P D : Type} {m₀ : Mem nbuf P D} {s s' : State nbuf P D}
  {q l : List (Fin nbuf)} {b c : Fin nbuf} {p : P} {k : ℕ} {awake : Bool}

/-! ## The driver in memory -/

@[simp] theorem calls_append (h h' : List (Memide.Event nbuf P D)) :
    Memide.calls (h ++ h') = Memide.calls h ++ Memide.calls h' := List.filterMap_append

@[simp] theorem calls_set (b : Fin nbuf) (x : Buf P D) :
    Memide.calls [Memide.Event.set b x] = [] := rfl

@[simp] theorem calls_iderw (b : Fin nbuf) :
    Memide.calls [(Memide.Event.iderw b : Memide.Event nbuf P D)] = [b] := rfl

/-- A request that the driver with interrupts has started is one that `Memide.iderw` takes. -/
theorem memide_step_iderw {m : Mem nbuf P D} (hlock : (m.buf b).lock.isSome)
    (hsynced : (m.buf b).synced = false) (hblock : (m.buf b).blockno < FSSIZE) :
    Memide.step m (.iderw b) = some (Memide.transfer m b) := by
  have hlock' : (m.buf b).lock.isNone = false := by simpa using hlock
  simp only [Memide.step, Memide.iderw]
  split
  · rename_i hdev
    have hrange : ¬ Memide.disksize ≤ (m.buf b).blockno := Nat.not_le.mpr hblock
    simp [hlock', hsynced, hdev, hrange, Except.toOption]
  · rfl

theorem transfer_of_dirty {m : Mem nbuf P D} (h : (m.buf b).dirty = true) :
    Memide.transfer m b =
      ⟨update m.buf b { m.buf b with dirty := false, valid := true },
        setBlock m.disk (m.buf b).drive (m.buf b).blockno (m.buf b).data⟩ := if_pos h

theorem transfer_of_clean {m : Mem nbuf P D} (h : (m.buf b).dirty = false) :
    Memide.transfer m b =
      ⟨update m.buf b
        { m.buf b with data := m.disk (m.buf b).drive (m.buf b).blockno, valid := true },
        m.disk⟩ := if_neg (by simp [h])

/-- The call of `iderw` on `b` that came after `k` others has left `b` as `x`. -/
def Answered (m₀ : Mem nbuf P D) (hist : List (Memide.Event nbuf P D)) (b : Fin nbuf) (k : ℕ)
    (x : Buf P D) : Prop :=
  ∃ h₁ h₂ m m', hist = h₁ ++ .iderw b :: h₂ ∧ (Memide.calls h₁).length = k ∧
    exec Memide.step m₀ h₁ = some m ∧ Memide.step m (.iderw b) = some m' ∧ m'.buf b = x

theorem Answered.append {hist : List (Memide.Event nbuf P D)} {x : Buf P D}
    (h : Answered m₀ hist b k x) (es : List (Memide.Event nbuf P D)) :
    Answered m₀ (hist ++ es) b k x := by
  obtain ⟨h₁, h₂, m, m', rfl, hrest⟩ := h
  exact ⟨h₁, h₂ ++ es, m, m', by simp, hrest⟩

/-! ## The invariant -/

structure Inv (m₀ : Mem nbuf P D) (s : State nbuf P D) (q : List (Fin nbuf)) : Prop where
  queue : s.queue.Holds q
  order : s.entered = s.served ++ q
  empty : q = [] → s.active = none ∧ s.irq = false
  /-- The disk works on the first request, or has ended it. -/
  head : ∀ b l, q = b :: l → (s.buf b).blockno < FSSIZE ∧
    (s.active = some (request (s.buf b)) ∧ s.irq = false ∨ s.active = none ∧ s.irq = true)
  waiting : ∀ p b k awake, s.pc p = .waiting b k awake →
    (s.buf b).lock = some p ∧ s.entered[k]? = some b ∧
      (k < s.served.length → (s.buf b).synced = true ∧ awake = true)
  queued : ∀ i b, q[i]? = some b →
    (s.buf b).synced = false ∧ ∃ p awake, s.pc p = .waiting b (s.served.length + i) awake
  calls : Memide.calls s.hist = s.entered.take (s.served.length + s.irq.toNat)
  sim : exec Memide.step m₀ s.hist = some s.mem
  answered : ∀ p b k awake, s.pc p = .waiting b k awake → k < s.served.length + s.irq.toNat →
    Answered m₀ s.hist b k (s.mem.buf b)

theorem Inv.mem_synced (h : Inv m₀ s q) (hb : b ∈ q) : (s.buf b).synced = false := by
  obtain ⟨i, hi⟩ := List.mem_iff_getElem?.mp hb
  exact (h.queued i b hi).1

theorem Inv.mem_waiting (h : Inv m₀ s q) (hb : b ∈ q) :
    ∃ p k awake, s.pc p = .waiting b k awake ∧ (s.buf b).lock = some p := by
  obtain ⟨i, hi⟩ := List.mem_iff_getElem?.mp hb
  obtain ⟨-, p, awake, hp⟩ := h.queued i b hi
  exact ⟨p, _, awake, hp, (h.waiting p b _ awake hp).1⟩

/-- A buffer of a process that is not in `iderw` is not in the queue. -/
theorem Inv.not_mem (h : Inv m₀ s q) (hp : (s.pc p).isIdle = true)
    (hlock : (s.buf b).lock = some p) : b ∉ q := by
  intro hb
  obtain ⟨r, k, awake, hr, hr'⟩ := h.mem_waiting hb
  rw [hlock] at hr'
  cases hr'
  simp [hr, Pc.isIdle] at hp

theorem Inv.append (h : Inv m₀ s q) (hb : b ∉ q) :
    ∃ q', s.queue.append nbuf b = some q' ∧ q'.Holds (q ++ [b]) := by
  refine h.queue.append hb ?_
  simpa using h.queue.nodup.length_le_card

theorem Inv.served_le (h : Inv m₀ s q) : s.served.length + s.irq.toNat ≤ s.entered.length := by
  rw [h.order, List.length_append]
  cases q with
  | nil => simp [(h.empty rfl).2]
  | cons b l =>
    have hirq := s.irq.toNat_le
    simp only [List.length_cons]
    omega

theorem mem_eq_of_irq (hirq : s.irq = false) : s.mem = ⟨s.buf, s.disk⟩ := by
  simp [State.mem, hirq]

theorem mem_of_irq (hirq : s.irq = true) (hhead : s.queue.head = some b) :
    s.mem = ⟨update s.buf b (s.completed b), s.disk⟩ := by
  simp only [State.mem, hirq, hhead]
  congr 1
  funext c
  by_cases hc : c = b
  · subst hc
    simp
  · simp [update_of_ne hc, Ne.symm hc]

theorem mem_buf_of_ne (h : s.queue.head ≠ some b) : s.mem.buf b = s.buf b := by
  simp [State.mem, h]

theorem inv_ideinit (havedisk1 : Bool) (buf : Fin nbuf → Buf P D) (disk : Bool → ℕ → D) (port : D) :
    Inv ⟨buf, disk⟩ (ideinit havedisk1 buf disk port) [] where
  queue := ⟨.nil, rfl⟩
  order := rfl
  empty _ := ⟨rfl, rfl⟩
  head b l hbl := by cases hbl
  waiting p b k awake hp := by cases hp
  queued i b hi := by simp at hi
  calls := rfl
  sim := rfl
  answered p b k awake hp := by cases hp

/-! ## Steps outside the driver -/

/-- A buffer that is not in a call is not waited for. -/
theorem Inv.waiting_ne (h : Inv m₀ s q) (hquiet : s.quiet b = true)
    (hp : s.pc p = .waiting c k awake) : c ≠ b := by
  rintro rfl
  simp [State.quiet, (h.waiting p c k awake hp).1, hp, Pc.isIdle] at hquiet

theorem Inv.mem_ne (h : Inv m₀ s q) (hquiet : s.quiet b = true) (hc : c ∈ q) : c ≠ b := by
  obtain ⟨p, k, awake, hp, -⟩ := h.mem_waiting hc
  exact h.waiting_ne hquiet hp

/-- A buffer that is not in a call is changed. -/
theorem Inv.set (h : Inv m₀ s q) (hquiet : s.quiet b = true) (x : Buf P D) :
    Inv m₀ (s.set b x) q := by
  have hbuf : ∀ c, c ≠ b → (s.set b x).buf c = s.buf c := by
    intro c hc
    simp only [State.set, update_of_ne hc]
  have hmem : (s.set b x).mem = { s.mem with buf := update s.mem.buf b x } := by
    have hhead : s.queue.head ≠ some b := by
      rw [h.queue.head_eq]
      intro hb
      exact h.mem_ne hquiet (List.mem_of_mem_head? hb) rfl
    simp only [State.mem, State.set]
    congr 1
    funext c
    by_cases hc : c = b
    · subst hc
      simp [hhead]
    · simp [State.completed, update_of_ne hc]
  refine ⟨h.queue, h.order, h.empty, fun c l hcl => ?_, fun p c k awake hp => ?_,
    fun i c hi => ?_, ?_, ?_, fun p c k awake hp hk => ?_⟩
  · rw [hbuf c (h.mem_ne hquiet (by simp [hcl]))]
    exact h.head c l hcl
  · rw [hbuf c (h.waiting_ne hquiet hp)]
    exact h.waiting p c k awake hp
  · rw [hbuf c (h.mem_ne hquiet (List.mem_of_getElem? hi))]
    exact h.queued i c hi
  · simpa [State.set] using h.calls
  · rw [hmem]
    exact exec_append_eq_some.mpr ⟨s.mem, h.sim, rfl⟩
  · rw [hmem]
    simp only [update_of_ne (h.waiting_ne hquiet hp)]
    exact (h.answered p c k awake hp hk).append _

section Processes

variable [DecidableEq P]

/-- A process that waits is woken, or sleeps again. -/
theorem Inv.setWaiting (h : Inv m₀ s q) (hp : s.pc p = .waiting b k awake) {awake' : Bool}
    (hk : k < s.served.length → awake' = true) : Inv m₀ (s.setPc p (.waiting b k awake')) q := by
  have hpc : ∀ r c j w, (s.setPc p (.waiting b k awake')).pc r = .waiting c j w →
      ∃ w', s.pc r = .waiting c j w' ∧ (j < s.served.length → w' = true → w = true) := by
    intro r c j w hr
    by_cases hrp : r = p
    · subst hrp
      simp only [State.setPc, update_self, Pc.waiting.injEq] at hr
      obtain ⟨rfl, rfl, rfl⟩ := hr
      exact ⟨awake, hp, fun hj _ => hk hj⟩
    · simp only [State.setPc, update_of_ne hrp] at hr
      exact ⟨w, hr, fun _ hw => hw⟩
  refine ⟨h.queue, h.order, h.empty, h.head, fun r c j w hr => ?_, fun i c hi => ?_, h.calls,
    h.sim, fun r c j w hr => ?_⟩
  · obtain ⟨w', hr', hw⟩ := hpc r c j w hr
    obtain ⟨hlock, hentered, hserved⟩ := h.waiting r c j w' hr'
    exact ⟨hlock, hentered, fun hj => ⟨(hserved hj).1, hw hj (hserved hj).2⟩⟩
  · obtain ⟨hsynced, r, w, hr⟩ := h.queued i c hi
    refine ⟨hsynced, ?_⟩
    by_cases hrp : r = p
    · subst hrp
      rw [hp] at hr
      cases hr
      exact ⟨r, awake', by simp only [State.setPc, update_self]⟩
    · exact ⟨r, w, by simp only [State.setPc, update_of_ne hrp, hr]⟩
  · obtain ⟨w', hr', -⟩ := hpc r c j w hr
    exact h.answered r c j w' hr'

/-- A call returns. -/
theorem Inv.returns (h : Inv m₀ s q) (hp : s.pc p = .waiting b k awake)
    (hsynced : (s.buf b).synced = true) : Inv m₀ (s.setPc p .idle) q := by
  have hpc : ∀ r c j w, (s.setPc p .idle).pc r = .waiting c j w → s.pc r = .waiting c j w := by
    intro r c j w hr
    by_cases hrp : r = p
    · subst hrp
      simp [State.setPc] at hr
    · simpa only [State.setPc, update_of_ne hrp] using hr
  refine ⟨h.queue, h.order, h.empty, h.head, fun r c j w hr => h.waiting r c j w (hpc r c j w hr),
    fun i c hi => ?_, h.calls, h.sim, fun r c j w hr => h.answered r c j w (hpc r c j w hr)⟩
  obtain ⟨hc, r, w, hr⟩ := h.queued i c hi
  have hrp : r ≠ p := by
    rintro rfl
    rw [hp] at hr
    cases hr
    simp [hsynced] at hc
  exact ⟨hc, r, w, by simp only [State.setPc, update_of_ne hrp, hr]⟩

/-! ## The call -/

/-- `iderw` at its first `sleep`. -/
def enter (s : State nbuf P D) (p : P) (b : Fin nbuf) (queue : Queue (Fin nbuf))
    (active : Option (Request D)) : State nbuf P D :=
  { s with
    queue := queue
    entered := s.entered ++ [b]
    active := active
    pc := update s.pc p (.waiting b s.entered.length false) }

/-- A request enters the queue, and the disk starts on it if there is no other. -/
theorem Inv.enter (h : Inv m₀ s q) (hp : (s.pc p).isIdle = true)
    (hlock : (s.buf b).lock = some p) (hsynced : (s.buf b).synced = false)
    {queue : Queue (Fin nbuf)} (hqueue : queue.Holds (q ++ [b])) {active : Option (Request D)}
    (hfirst : q = [] → (s.buf b).blockno < FSSIZE ∧ active = some (request (s.buf b)))
    (hrest : q ≠ [] → active = s.active) :
    Inv m₀ (enter s p b queue active) (q ++ [b]) := by
  have hmem : (Ide.enter s p b queue active).mem = s.mem := by
    cases q with
    | nil =>
      have hirq := (h.empty rfl).2
      rw [mem_eq_of_irq hirq, mem_eq_of_irq (by exact hirq)]
      rfl
    | cons c l =>
      have hhead : queue.head = s.queue.head := by
        rw [hqueue.head_eq, h.queue.head_eq]
        rfl
      simp only [State.mem, Ide.enter, hhead]
      rfl
  have hpc : ∀ r, r ≠ p → (Ide.enter s p b queue active).pc r = s.pc r := fun r hrp =>
    update_of_ne hrp _ _
  have hlen : s.entered.length = s.served.length + q.length := by
    rw [h.order, List.length_append]
  refine ⟨hqueue, ?_, by simp, fun c l hcl => ?_, fun r c j w hr => ?_, fun i c hi => ?_, ?_, ?_,
    fun r c j w hr hj => ?_⟩
  · simp only [Ide.enter, h.order, List.append_assoc]
  · cases q with
    | nil =>
      cases hcl
      exact ⟨(hfirst rfl).1, .inl ⟨(hfirst rfl).2, (h.empty rfl).2⟩⟩
    | cons d q =>
      cases hcl
      obtain rfl := hrest (List.cons_ne_nil _ _)
      exact h.head _ _ rfl
  · by_cases hrp : r = p
    · subst hrp
      simp only [Ide.enter, update_self, Pc.waiting.injEq] at hr
      obtain ⟨rfl, rfl, rfl⟩ := hr
      refine ⟨hlock, by simp [Ide.enter], fun hlt => ?_⟩
      simp only [Ide.enter] at hlt
      omega
    · rw [hpc r hrp] at hr
      obtain ⟨hc, hentered, hdone⟩ := h.waiting r c j w hr
      refine ⟨hc, ?_, hdone⟩
      simp only [Ide.enter]
      rw [List.getElem?_append_left (List.getElem?_eq_some_iff.mp hentered).1]
      exact hentered
  · rcases Nat.lt_or_ge i q.length with hlt | hge
    · rw [List.getElem?_append_left hlt] at hi
      obtain ⟨hc, r, w, hr⟩ := h.queued i c hi
      have hrp : r ≠ p := by
        rintro rfl
        simp [hr, Pc.isIdle] at hp
      exact ⟨hc, r, w, (hpc r hrp).trans hr⟩
    · rw [List.getElem?_append_right hge] at hi
      obtain ⟨hi, rfl⟩ : i - q.length = 0 ∧ b = c := by
        simpa [List.getElem?_singleton] using hi
      refine ⟨hsynced, p, false, ?_⟩
      have hik : s.served.length + i = s.entered.length := by omega
      simp only [Ide.enter, update_self, hik]
  · simp only [Ide.enter]
    rw [List.take_append_of_le_length h.served_le]
    exact h.calls
  · rw [hmem]
    exact h.sim
  · rw [hmem]
    by_cases hrp : r = p
    · subst hrp
      simp only [Ide.enter, update_self, Pc.waiting.injEq] at hr
      obtain ⟨rfl, rfl, rfl⟩ := hr
      exact absurd hj (Nat.not_lt.mpr h.served_le)
    · rw [hpc r hrp] at hr
      exact h.answered r c j w hr hj

/-- `iderw` does not spin, and puts a request in the queue. -/
theorem Inv.iderw (h : Inv m₀ s q) (hp : (s.pc p).isIdle = true)
    (hlock : (s.buf b).lock = some p) : ∃ s', iderw s p b = some s' ∧
      (s'.panicked = s.panicked → s.panicked = none → Inv m₀ s' (q ++ [b])) := by
  have hb := h.not_mem hp hlock
  obtain ⟨queue, hqueue, hholds⟩ := h.append hb
  unfold Ide.iderw
  dsimp only
  have hcalm : ∀ why, (s.panic why).panicked = s.panicked → s.panicked = none → False := by
    intro why hwhy hnone
    rw [hnone] at hwhy
    cases hwhy
  rw [if_neg (by simp [hlock])]
  split
  · exact ⟨_, rfl, fun hwhy hnone => (hcalm _ hwhy hnone).elim⟩
  rename_i hsynced
  have hsynced : (s.buf b).synced = false := by simpa using hsynced
  split
  · exact ⟨_, rfl, fun hwhy hnone => (hcalm _ hwhy hnone).elim⟩
  rw [hqueue]
  dsimp only
  have hhead := hholds.head_eq
  split
  · rename_i hfirst
    have hq : q = [] := by
      cases q with
      | nil => rfl
      | cons c l =>
        rw [hfirst] at hhead
        cases hhead
        exact absurd List.mem_cons_self hb
    simp only [idestart]
    split
    · rw [Option.map_some]
      refine ⟨_, rfl, fun hwhy hnone => ?_⟩
      unfold wait at hwhy
      split at hwhy <;> exact (hcalm .incorrectBlockno hwhy hnone).elim
    · rename_i hblock
      rw [if_neg (by simp [(h.empty hq).1]), Option.map_some]
      refine ⟨_, rfl, fun _ _ => ?_⟩
      rw [wait, if_neg (by simp [hsynced])]
      exact h.enter hp hlock hsynced hholds (fun _ => ⟨Nat.lt_of_not_le hblock, rfl⟩)
        (fun hne => absurd hq hne)
  · rename_i hfirst
    refine ⟨_, rfl, fun _ _ => ?_⟩
    rw [wait, if_neg (by simp [hsynced])]
    refine h.enter hp hlock hsynced hholds (fun hq => ?_) (fun _ => rfl)
    subst hq
    exact absurd hhead hfirst

end Processes

/-! ## The disk -/

/-- The disk reads the block number off its registers. -/
theorem request_sector {x : Buf P D} (h : x.blockno < FSSIZE) : (request x).sector = x.blockno := by
  simp only [Request.sector, request]
  unfold FSSIZE at h
  omega

/-- **The service point**: the disk ends a request. -/
theorem Inv.finish (h : Inv m₀ s q) (hst : finish s = some s') : Inv m₀ s' q := by
  unfold Ide.finish at hst
  cases hactive : s.active with
  | none =>
    rw [hactive] at hst
    cases hst
  | some r =>
  rw [hactive] at hst
  cases q with
  | nil => simp [(h.empty rfl).1] at hactive
  | cons b l =>
  obtain ⟨hblock, hrun⟩ := h.head b l rfl
  rw [hactive] at hrun
  obtain ⟨hr, hirq⟩ : r = request (s.buf b) ∧ s.irq = false := by simpa using hrun
  have hsynced := h.mem_synced (b := b) List.mem_cons_self
  obtain ⟨p, kb, w, hpb, hlock⟩ := h.mem_waiting (b := b) List.mem_cons_self
  have hhead : s.queue.head = some b := h.queue.head_eq
  have hmem : s.mem = ⟨s.buf, s.disk⟩ := mem_eq_of_irq hirq
  have hserve : Memide.step s.mem (.iderw b) = some (Memide.transfer s.mem b) := by
    apply memide_step_iderw
    · simp [hmem, hlock]
    · simpa [hmem] using hsynced
    · simpa [hmem] using hblock
  -- whether it is a read or a write, only the disk and the port change
  obtain ⟨hmem', hrest⟩ : s'.mem = Memide.transfer s.mem b ∧
      s'.queue = s.queue ∧ s'.entered = s.entered ∧ s'.served = s.served ∧ s'.buf = s.buf ∧
      s'.pc = s.pc ∧ s'.active = none ∧ s'.irq = true ∧ s'.hist = s.hist ++ [.iderw b] := by
    have hsector := request_sector hblock
    have hdrive : (request (s.buf b)).drive = (s.buf b).drive := rfl
    have hout : (request (s.buf b)).out = if (s.buf b).dirty then some (s.buf b).data else none :=
      rfl
    subst hr
    dsimp only at hst
    rw [hout, hsector, hdrive] at hst
    simp only [hhead, Option.map_some, Option.toList_some] at hst
    split at hst
    · rename_i d hd
      cases hst
      obtain ⟨hdirty, rfl⟩ : (s.buf b).dirty = true ∧ (s.buf b).data = d := by simpa using hd
      refine ⟨?_, rfl, rfl, rfl, rfl, rfl, rfl, rfl, rfl⟩
      refine (mem_of_irq (b := b) rfl (by exact hhead)).trans ?_
      rw [hmem, transfer_of_dirty hdirty]
      simp [State.completed, hdirty]
    · rename_i hd
      cases hst
      have hdirty : (s.buf b).dirty = false := by simpa using hd
      refine ⟨?_, rfl, rfl, rfl, rfl, rfl, rfl, rfl, rfl⟩
      refine (mem_of_irq (b := b) rfl (by exact hhead)).trans ?_
      rw [hmem, transfer_of_clean hdirty]
      simp [State.completed, hdirty]
  obtain ⟨hqueue, hentered, hserved, hbuf, hpc, hactive', hirq', hhist⟩ := hrest
  have hcalls : Memide.calls s.hist = s.served := by
    rw [h.calls, h.order, hirq]
    simp
  refine ⟨hqueue ▸ h.queue, by rw [hentered, hserved, h.order], by simp, fun c l' hcl => ?_,
    fun r' c j w' hr' => ?_, fun i c hi => ?_, ?_, ?_, fun r' c j w' hr' hj => ?_⟩
  · cases hcl
    rw [hbuf]
    exact ⟨hblock, .inr ⟨hactive', hirq'⟩⟩
  · rw [hpc] at hr'
    rw [hbuf, hentered, hserved]
    exact h.waiting r' c j w' hr'
  · rw [hbuf, hserved, hpc]
    exact h.queued i c hi
  · rw [hhist, hentered, hserved, hirq', calls_append, calls_iderw, hcalls, h.order]
    simp [List.take_append]
  · rw [hhist, hmem']
    exact exec_append_eq_some.mpr ⟨s.mem, h.sim, by simp [exec, hserve]⟩
  · rw [hpc] at hr'
    rw [hserved, hirq'] at hj
    rw [hhist, hmem']
    obtain ⟨-, hcj, hdone⟩ := h.waiting r' c j w' hr'
    rcases Nat.lt_or_ge j s.served.length with hlt | hge
    · have hcb : c ≠ b := by
        rintro rfl
        rw [(hdone hlt).1] at hsynced
        cases hsynced
      have hsame : (Memide.transfer s.mem b).buf c = s.mem.buf c := by
        simp only [Memide.transfer]
        split <;> exact update_of_ne hcb _ _
      rw [hsame]
      exact (h.answered r' c j w' hr' (by rw [hirq]; simpa using hlt)).append _
    · have hj' : j = s.served.length := by
        simp only [Bool.toNat_true] at hj
        omega
      subst hj'
      rw [h.order, List.getElem?_append_right (Nat.le_refl _), Nat.sub_self] at hcj
      obtain rfl : b = c := by simpa using hcj
      exact ⟨s.hist, [], s.mem, _, rfl, by rw [hcalls], h.sim, hserve, rfl⟩

theorem completed_synced (s : State nbuf P D) (b : Fin nbuf) : (s.completed b).synced = true := by
  simp [State.completed, Buf.synced]

/-- `ideintr` without the start of the next request. -/
def dequeue (s : State nbuf P D) (b : Fin nbuf) (active : Option (Request D)) : State nbuf P D :=
  { s with
    irq := false
    queue := s.queue.pop b
    buf := update s.buf b (s.completed b)
    pc := wakeup s.pc b
    served := s.served ++ [b]
    active := active }

theorem wakeup_waiting {pc : P → Pc nbuf} (h : wakeup pc b p = .waiting c k awake) :
    ∃ w, pc p = .waiting c k w ∧ awake = (w || c == b) := by
  unfold wakeup at h
  split at h
  · cases h
  · rename_i w hp
    cases h
    exact ⟨w, hp, rfl⟩

theorem waiting_wakeup {pc : P → Pc nbuf} (h : pc p = .waiting c k awake) (b : Fin nbuf) :
    wakeup pc b p = .waiting c k (awake || c == b) := by
  simp only [wakeup, h]

/-- The first request is taken out of the queue, and the disk starts on the next one. -/
theorem Inv.dequeue (h : Inv m₀ s (b :: l)) (hirq : s.irq = true) (active : Option (Request D))
    (hlast : l = [] → active = none)
    (hnext : ∀ c l', l = c :: l' →
      (s.buf c).blockno < FSSIZE ∧ active = some (request (s.buf c))) :
    Inv m₀ (dequeue s b active) l := by
  have hsynced := h.mem_synced (b := b) List.mem_cons_self
  have hhead : s.queue.head = some b := h.queue.head_eq
  obtain ⟨hbl, hnodup⟩ := List.nodup_cons.mp h.queue.nodup
  have hbuf : ∀ c, c ≠ b → (Ide.dequeue s b active).buf c = s.buf c := fun c hc =>
    update_of_ne hc _ _
  have hne : ∀ c ∈ l, c ≠ b := by
    rintro c hc rfl
    exact hbl hc
  have hmem : (Ide.dequeue s b active).mem = s.mem := by
    rw [mem_of_irq hirq hhead, mem_eq_of_irq rfl]
    rfl
  have horder : s.entered = s.served ++ [b] ++ l := by simpa using h.order
  refine ⟨h.queue.pop, horder, fun hl => ⟨hlast hl, rfl⟩, fun c l' hcl => ?_,
    fun p c k w hp => ?_, fun i c hi => ?_, ?_, hmem ▸ h.sim, fun p c k w hp hk => ?_⟩
  · rw [hbuf c (hne c (by simp [hcl]))]
    exact ⟨(hnext c l' hcl).1, .inl ⟨(hnext c l' hcl).2, rfl⟩⟩
  · obtain ⟨w', hp', rfl⟩ := wakeup_waiting hp
    obtain ⟨hlock, hentered, hdone⟩ := h.waiting p c k w' hp'
    by_cases hcb : c = b
    · subst hcb
      refine ⟨?_, hentered, fun _ => ⟨?_, by simp⟩⟩
      · simp only [Ide.dequeue, update_self]
        exact hlock
      · simp only [Ide.dequeue, update_self]
        exact completed_synced s c
    · rw [hbuf c hcb]
      refine ⟨hlock, hentered, fun hk => ?_⟩
      have hk' : k < s.served.length := by
        simp only [Ide.dequeue, List.length_append, List.length_singleton] at hk
        rcases Nat.lt_or_ge k s.served.length with hlt | hge
        · exact hlt
        · obtain rfl : k = s.served.length := by omega
          rw [h.order, List.getElem?_append_right (Nat.le_refl _), Nat.sub_self] at hentered
          exact absurd (by simpa using hentered.symm) hcb
      exact ⟨(hdone hk').1, by simp [(hdone hk').2]⟩
  · have hc := hne c (List.mem_of_getElem? hi)
    obtain ⟨hcs, p, w, hp⟩ := h.queued (i + 1) c (by simpa using hi)
    rw [hbuf c hc]
    refine ⟨hcs, p, (w || c == b), ?_⟩
    have hk : s.served.length + (i + 1) = (s.served ++ [b]).length + i := by simp; omega
    rw [hk] at hp
    exact waiting_wakeup hp b
  · have hcalls := h.calls
    rw [hirq] at hcalls
    simpa [Ide.dequeue] using hcalls
  · obtain ⟨w', hp', -⟩ := wakeup_waiting hp
    rw [hmem]
    refine h.answered p c k w' hp' ?_
    rw [hirq]
    simpa [Ide.dequeue] using hk

/-- `ideintr` does not spin. -/
theorem Inv.ideintr (h : Inv m₀ s q) (hirq : s.irq = true) : ∃ s', ideintr s = some s' ∧
    (s'.panicked = s.panicked → s.panicked = none → ∃ q', Inv m₀ s' q') := by
  cases q with
  | nil => simp [(h.empty rfl).2] at hirq
  | cons b l =>
  have hhead : s.queue.head = some b := h.queue.head_eq
  have hactive : s.active = none := by
    have hrun := (h.head b l rfl).2
    simpa [hirq] using hrun
  have hpop := h.queue.pop.head_eq
  simp only [Ide.ideintr, hhead]
  rw [if_neg (by simp [hactive])]
  cases l with
  | nil =>
    rw [hpop]
    refine ⟨_, rfl, fun _ _ => ⟨[], ?_⟩⟩
    have hinv := h.dequeue hirq s.active (fun _ => hactive)
      (fun c l' hcl => by cases hcl)
    exact hinv
  | cons c l =>
    have hcb : c ≠ b := by
      rintro rfl
      exact (List.nodup_cons.mp h.queue.nodup).1 List.mem_cons_self
    rw [hpop]
    simp only [List.head?_cons, idestart, update_of_ne hcb]
    split
    · refine ⟨_, rfl, fun hwhy hnone => ?_⟩
      rw [hnone] at hwhy
      cases hwhy
    · rename_i hblock
      rw [if_neg (by simp [hactive])]
      refine ⟨_, rfl, fun _ _ => ⟨c :: l, ?_⟩⟩
      have hinv := h.dequeue hirq (some (request (s.buf c)))
        (fun hl => absurd hl (List.cons_ne_nil _ _)) (fun d l' hdl => by
          cases hdl
          exact ⟨Nat.lt_of_not_le hblock, rfl⟩)
      exact hinv

/-! ## Runs -/

section Processes

variable [DecidableEq P]

/-- The disk ends a request, or its interrupt is handled. -/
def Action.ofDisk : Action nbuf P D → Bool
  | .finish | .ideintr => true
  | _ => false

/-- What a process does: it changes a buffer that is not in a call, it calls `iderw`, or it is
woken in `iderw` and goes on. -/
theorem step_process {a : Action nbuf P D} (ha : a.ofDisk = false) (hst : step s a = some s') :
    (∃ b x, s.quiet b = true ∧ s' = s.set b x) ∨
      (∃ p b, (s.pc p).isIdle = true ∧ (s.buf b).lock = some p ∧ iderw s p b = some s') ∨
      ∃ p b k w, s.pc p = .waiting b k w ∧
        (s' = s.setPc p (.waiting b k true) ∨ w = true ∧ s' = wait s p b k) := by
  simp only [step, Option.ite_none_left_eq_some] at hst
  obtain ⟨-, hst⟩ := hst
  cases a with
  | lock p b =>
    obtain ⟨hg, hst⟩ := Option.ite_none_right_eq_some.mp hst
    cases hst
    exact .inl ⟨b, _, by simp [State.quiet, hg.2], rfl⟩
  | unlock p b =>
    obtain ⟨hg, hst⟩ := Option.ite_none_right_eq_some.mp hst
    cases hst
    exact .inl ⟨b, _, by simp [State.quiet, hg.2, hg.1], rfl⟩
  | store b valid dirty dev blockno data =>
    obtain ⟨hg, hst⟩ := Option.ite_none_right_eq_some.mp hst
    cases hst
    exact .inl ⟨b, _, hg, rfl⟩
  | iderw p b =>
    obtain ⟨hg, hst⟩ := Option.ite_none_right_eq_some.mp hst
    exact .inr (.inl ⟨p, b, hg.1, hg.2, hst⟩)
  | kill p =>
    dsimp only at hst
    split at hst
    · cases hst
    · rename_i b k w hp
      cases hst
      exact .inr (.inr ⟨p, b, k, w, hp, .inl rfl⟩)
  | resume p =>
    dsimp only at hst
    split at hst
    · rename_i b k hp
      cases hst
      exact .inr (.inr ⟨p, b, k, true, hp, .inr ⟨rfl, rfl⟩⟩)
    · cases hst
  | finish | ideintr => cases ha

/-- **Every step that does not panic keeps the invariant.** -/
theorem inv_step {a : Action nbuf P D} (h : Inv m₀ s q) (hst : step s a = some s')
    (hcalm : s'.panicked = none) : ∃ q', Inv m₀ s' q' := by
  have hnone : s.panicked = none := by
    simp only [step, Option.ite_none_left_eq_some] at hst
    exact Option.not_isSome_iff_eq_none.mp hst.1
  cases ha : a.ofDisk with
  | false =>
    rcases step_process ha hst with ⟨b, x, hquiet, rfl⟩ | ⟨p, b, hp, hlock, hst⟩ |
      ⟨p, b, k, w, hp, rfl | ⟨rfl, rfl⟩⟩
    · exact ⟨q, h.set hquiet x⟩
    · obtain ⟨t, ht, hinv⟩ := h.iderw hp hlock
      rw [ht] at hst
      cases hst
      exact ⟨q ++ [b], hinv (hcalm.trans hnone.symm) hnone⟩
    · exact ⟨q, h.setWaiting hp fun _ => rfl⟩
    · unfold wait
      split
      · rename_i hsynced
        exact ⟨q, h.returns hp hsynced⟩
      · rename_i hsynced
        exact ⟨q, h.setWaiting hp fun hk => absurd ((h.waiting p b k true hp).2.2 hk).1 hsynced⟩
  | true =>
    simp only [step, hnone, Option.isSome_none, Bool.false_eq_true, if_false] at hst
    cases a with
    | finish => exact ⟨q, h.finish hst⟩
    | ideintr =>
      dsimp only at hst
      split at hst
      · rename_i hirq
        obtain ⟨t, ht, hinv⟩ := h.ideintr hirq
        rw [ht] at hst
        cases hst
        exact hinv (hcalm.trans hnone.symm) hnone
      · cases hst
    | _ => cases ha

/-- The driver serves requests as it should, and as `memide.c` would. -/
structure Right (m₀ : Mem nbuf P D) (s : State nbuf P D) : Prop where
  /-- Requests leave the queue in the order in which they entered it, and the disk works on
  the first one or on none. -/
  fifo : ∃ q, s.queue.Holds q ∧ s.entered = s.served ++ q ∧
    (∀ r, s.active = some r → ∃ b ∈ q.head?, r = request (s.buf b)) ∧
    (q ≠ [] → s.active.isSome ∨ s.irq) ∧
    ∀ p b k, s.pc p = .waiting b k false → b ∈ q
  /-- The requests that were served, in their order: one that the disk has ended is served. -/
  calls : Memide.calls s.hist = s.entered.take (s.served.length + s.irq.toNat)
  /-- Buffers and disks are what atomic calls of `Memide.iderw` have made of them. -/
  sim : exec Memide.step m₀ s.hist = some s.mem
  /-- A call returns what an atomic call at its service point leaves. -/
  returned : ∀ p b k awake s', s.pc p = .waiting b k awake → step s (.resume p) = some s' →
    s'.pc p = .idle → k < s.served.length ∧ s.entered[k]? = some b ∧
      Answered m₀ s'.hist b k (s'.buf b)
  /-- No loop spins for ever. -/
  enabled : (s.irq → (step s .ideintr).isSome) ∧
    ∀ p b, s.pc p = .idle → (s.buf b).lock = some p → (step s (.iderw p b)).isSome

theorem Inv.right (h : Inv m₀ s q) (hcalm : s.panicked = none) : Right m₀ s := by
  have hhead : ∀ r, s.active = some r → ∃ b ∈ q.head?, r = request (s.buf b) := by
    intro r hr
    cases q with
    | nil => simp [(h.empty rfl).1] at hr
    | cons b l =>
      have hrun := (h.head b l rfl).2
      rw [hr] at hrun
      exact ⟨b, rfl, by simpa using hrun.elim And.left (fun hn => absurd hn.1 (by simp))⟩
  have hbusy : q ≠ [] → s.active.isSome ∨ s.irq := by
    intro hq
    obtain ⟨b, l, rfl⟩ := List.exists_cons_of_ne_nil hq
    rcases (h.head b l rfl).2 with ⟨hactive, -⟩ | ⟨-, hirq⟩
    · simp [hactive]
    · exact .inr hirq
  have hserved : ∀ p b k awake, s.pc p = .waiting b k awake → k < s.served.length ∨ b ∈ q := by
    intro p b k awake hp
    rcases Nat.lt_or_ge k s.served.length with hlt | hge
    · exact .inl hlt
    · have hentered := (h.waiting p b k awake hp).2.1
      rw [h.order, List.getElem?_append_right hge] at hentered
      exact .inr (List.mem_of_getElem? hentered)
  refine ⟨⟨q, h.queue, h.order, hhead, hbusy, fun p b k hp => ?_⟩, h.calls, h.sim,
    fun p b k awake s' hp hst hidle => ?_, fun hirq => ?_, fun p b hp hlock => ?_⟩
  · rcases hserved p b k false hp with hlt | hmem
    · exact absurd ((h.waiting p b k false hp).2.2 hlt).2 (by simp)
    · exact hmem
  · simp only [step, hcalm, Option.isSome_none, Bool.false_eq_true, if_false, hp] at hst
    cases awake with
    | false => cases hst
    | true =>
      cases hst
      unfold wait at hidle ⊢
      split at hidle
      · rename_i hsynced
        rw [if_pos hsynced]
        have hlt : k < s.served.length := by
          rcases hserved p b k true hp with hlt | hmem
          · exact hlt
          · rw [h.mem_synced hmem] at hsynced
            cases hsynced
        refine ⟨hlt, (h.waiting p b k true hp).2.1, ?_⟩
        have hne : s.queue.head ≠ some b := by
          rw [h.queue.head_eq]
          intro hb
          rw [h.mem_synced (List.mem_of_mem_head? hb)] at hsynced
          cases hsynced
        have hans := h.answered p b k true hp (by omega)
        rw [mem_buf_of_ne hne] at hans
        exact hans
      · simp [State.setPc] at hidle
  · obtain ⟨t, ht, -⟩ := h.ideintr hirq
    simp [step, hcalm, hirq, ht]
  · obtain ⟨t, ht, -⟩ := h.iderw (p := p) (b := b) (by rw [hp]; rfl) hlock
    simp [step, hcalm, hp, hlock, ht, Pc.isIdle]

/-- **The driver with interrupts refines the one in memory.** -/
theorem ide_refines {havedisk1 : Bool} {buf : Fin nbuf → Buf P D} {disk : Bool → ℕ → D} {port : D}
    {acts : List (Action nbuf P D)}
    (hrun : exec step (ideinit havedisk1 buf disk port) acts = some s)
    (hcalm : s.panicked = none) : Right ⟨buf, disk⟩ s := by
  have h := exec_invariant (I := fun s => s.panicked = none → ∃ q, Inv ⟨buf, disk⟩ s q)
    (fun s a s' hs _ hst hcalm' => ?_) (fun _ => ⟨[], inv_ideinit havedisk1 buf disk port⟩)
    along_true hrun
  · obtain ⟨q, hq⟩ := h hcalm
    exact hq.right hcalm
  · have hnone : s.panicked = none := by
      unfold step at hst
      split at hst
      · cases hst
      · rename_i hnone
        simpa using hnone
    obtain ⟨q, hq⟩ := hs hnone
    exact inv_step hq hst hcalm'

/-- A process writes block 5, and another one reads it before the disk has ended the write. -/
def writeRead : List (Action 2 Bool ℕ) :=
  let b : Fin 2 := ⟨0, by decide⟩
  let c : Fin 2 := ⟨1, by decide⟩
  [.lock false b, .store b false true 1 5 7, .lock true c, .store c false false 1 5 0,
    .iderw false b, .iderw true c, .finish, .ideintr, .finish, .kill false, .ideintr,
    .resume true, .resume false]

/-- The buffers of `writeRead` before the run. -/
def blank : Fin 2 → Buf Bool ℕ := fun _ => ⟨false, false, 0, 0, none, 0⟩

theorem ide_refines_writeRead :
    ∃ s, exec step (ideinit true blank (fun _ _ => 0) 0) writeRead = some s ∧
      s.panicked = none ∧ (s.buf ⟨1, by decide⟩).data = 7 ∧ Right ⟨blank, fun _ _ => 0⟩ s := by
  have hrun : ∃ s, exec step (ideinit true blank (fun _ _ => 0) 0) writeRead = some s ∧
      s.panicked = none ∧ (s.buf ⟨1, by decide⟩).data = 7 := ⟨_, rfl, rfl, rfl⟩
  obtain ⟨s, hrun, hcalm, hdata⟩ := hrun
  exact ⟨s, hrun, hcalm, hdata, ide_refines hrun hcalm⟩

end Processes

end Xv6.Ide
