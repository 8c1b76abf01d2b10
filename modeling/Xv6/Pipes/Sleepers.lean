import Xv6.Pipes.Model

/-!
# No stranded pipe sleepers

A reader should sleep only while the pipe is empty and can still be written to, a writer only
while it is full and can still be read from.  Each section that ends such a state has to wake
those who sleep.  One does not: a `pipewrite` that fills an empty pipe, finds it full and
`proc->killed` set, and returns without waking the readers.

## Main definitions

* `NoStranded s` — who sleeps, sleeps for a reason.
* `WakesReaders s a` — the step is not such a `pipewrite`.

## Main results

* `pipe_sleepers` — nobody is ever stranded exactly in the runs without one.
* `reader_stranded` — a run with one.
-/

namespace Xv6.Pipes

open Function Machine

variable {k : ℕ} {s s' : State k} {i : Fin k}

/-- A process `SLEEPING` on `&p->nread` finds the pipe empty and the write end open, one
`SLEEPING` on `&p->nwrite` finds it full and the read end open. -/
def NoStranded (s : State k) : Prop :=
  ∀ j, (s.chan j = some .nread → s.pipe.toRingBuffer.Empty ∧ s.pipe.writeopen = true) ∧
    (s.chan j = some .nwrite → s.pipe.toRingBuffer.Full ∧ s.pipe.readopen = true)

/-- Nobody is `SLEEPING` on `&p->nread`. -/
def NoReader (s : State k) : Prop := ∀ j, s.chan j ≠ some .nread

instance (s : State k) : Decidable (NoReader s) := Nat.decidableForallFin _

/-- The process that goes on with a `pipewrite` in the step, and the bytes it has left. -/
def writing (s : State k) : Action k → Option (Fin k × List UInt8 × Killing)
  | .write i bs kl => some (i, bs, kl)
  | .resume i kl =>
    match s.call i with
    | some (.write bs) => some (i, bs, kl)
    | _ => none
  | _ => none

/-- A writer that is killed does not have more than `PIPESIZE` bytes left while a reader
sleeps. -/
def WakesReaders (s : State k) (a : Action k) : Prop :=
  ∀ w ∈ writing s a, s.sees w.1 w.2.2 = true → PIPESIZE < w.2.1.length → NoReader s

instance (s : State k) (a : Action k) : Decidable (WakesReaders s a) :=
  inferInstanceAs (Decidable (∀ w ∈ writing s a, _))

/-! ## The calls in progress -/

/-- Who sleeps is in a call, and the read end is open while a `piperead` is in progress. -/
structure Calls (s : State k) : Prop where
  contents : ∃ l, s.pipe.toRingBuffer.Holds l
  call : ∀ j c, s.chan j = some c → ∃ call, s.call j = some call ∧ call.chan = c
  readopen : ∀ j call, s.call j = some call → call.chan = .nread → s.pipe.readopen = true

@[simp] theorem wakeup_eq_some {chan : Fin k → Option Chan} {c c' : Chan} {j : Fin k} :
    wakeup chan c j = some c' ↔ chan j = some c' ∧ c' ≠ c := by
  unfold wakeup
  split <;> grind

/-- A process that is in no call, or was woken, does not sleep. -/
theorem Calls.awake (h : Calls s) (hi : s.call i = none) : s.chan i = none := by
  cases hc : s.chan i with
  | none => rfl
  | some c =>
    obtain ⟨call, hcall, -⟩ := h.call i c hc
    simp [hi] at hcall

/-- A section of process `i` that leaves it outside a call or in `call`, and wakes others. -/
theorem Calls.run (h : Calls s) (hi : s.chan i = none) {l : List UInt8}
    (hl : s'.pipe.toRingBuffer.Holds l) (ho : s'.pipe.readopen = s.pipe.readopen)
    {o : Option Call} (hcall : s'.call = update s.call i o)
    (hread : ∀ call, o = some call → call.chan = .nread → s.pipe.readopen = true)
    (hown : ∀ c, s'.chan i = some c → ∃ call, o = some call ∧ call.chan = c)
    (hchan : ∀ j c, j ≠ i → s'.chan j = some c → s.chan j = some c) : Calls s' := by
  refine ⟨⟨l, hl⟩, fun j c hj => ?_, fun j call hj hc => ?_⟩
  · by_cases hji : j = i
    · subst hji
      simpa [hcall] using hown c hj
    · simpa [hcall, hji] using h.call j c (hchan j c hji hj)
  · rw [ho]
    by_cases hji : j = i
    · subst hji
      exact hread call (by simpa [hcall] using hj) hc
    · exact h.readopen j call (by simpa [hcall, hji] using hj) hc

theorem Calls.runRead (h : Calls s) (hi : s.chan i = none) (ho : s.pipe.readopen = true) (n : ℕ)
    (kl : Killing) : Calls (s.runRead i n kl) := by
  obtain ⟨l, hl⟩ := h.contents
  obtain ⟨-, hh, hro, -⟩ := copy_spec hl n
  unfold State.runRead piperead
  split_ifs
  · refine h.run hi hl rfl (o := none) rfl (by simp) (by simp [hi]) fun j c _ hj => hj
  · refine h.run hi hl rfl (o := some (.read n)) rfl (fun _ _ _ => ho) ?_ ?_
    · simp [Call.chan]
    · exact fun j c hj hc => by simpa [hj] using hc
  · refine h.run hi hh hro (o := none) rfl (by simp) (by simp [hi]) ?_
    exact fun j c _ hj => (wakeup_eq_some.mp hj).1

theorem Calls.runWrite (h : Calls s) (hi : s.chan i = none) (bs : List UInt8) (kl : Killing) :
    Calls (s.runWrite i bs kl) := by
  obtain ⟨l, hl⟩ := h.contents
  obtain ⟨-, hh, hro, -⟩ := store_spec hl bs
  unfold State.runWrite pipewrite
  dsimp only
  split_ifs
  · refine h.run hi hh hro (o := none) rfl (by simp) (by simp [hi]) ?_
    exact fun j c _ hj => (wakeup_eq_some.mp hj).1
  · exact h.run hi hh hro (o := none) rfl (by simp) (by simp [hi]) fun j c _ hj => hj
  · refine h.run hi hh hro (o := some (.write _)) rfl (by simp [Call.chan]) ?_ ?_
    · simp [Call.chan]
    · intro j c hj hc
      simp only [update_of_ne hj, wakeup_eq_some] at hc
      exact hc.1

theorem Calls.step {a : Action k} (h : Calls s) (hs : step s a = some s') : Calls s' := by
  cases step_cases hs with
  | read i n kl hc ho => exact h.runRead (h.awake hc) ho n kl
  | write i bs kl hc _ => exact h.runWrite (h.awake hc) bs kl
  | resumeRead i n kl hi hc => exact h.runRead hi (h.readopen i _ hc rfl) n kl
  | resumeWrite i bs kl hi _ => exact h.runWrite hi bs kl
  | closeWrite _ =>
    exact ⟨h.contents, fun j c hj => h.call j c (wakeup_eq_some.mp hj).1, h.readopen⟩
  | closeRead hu =>
    refine ⟨h.contents, fun j c hj => h.call j c (wakeup_eq_some.mp hj).1, fun j call hj hc => ?_⟩
    exact absurd hc (hu j call hj)
  | kill i =>
    refine ⟨h.contents, fun j c hj => h.call j c ?_, h.readopen⟩
    by_cases hji : j = i
    · simp [State.kill, hji] at hj
    · simpa [State.kill, hji] using hj

theorem calls_init (k : ℕ) (data : Fin PIPESIZE → UInt8) : Calls (init k data) :=
  ⟨⟨[], RingBuffer.holds_nil rfl⟩, by simp [init], by simp [init]⟩

/-! ## Who sleeps -/

theorem NoStranded.runRead (h : NoStranded s) (n : ℕ) (kl : Killing) :
    NoStranded (s.runRead i n kl) := by
  unfold State.runRead piperead
  split_ifs with hempty hk
  · exact h
  · intro j
    by_cases hji : j = i
    · simpa [hji] using hempty
    · simpa [hji] using h j
  · -- The pipe was not empty, so nobody slept on it, or can no longer be written to.
    intro j
    simp only [wakeup_eq_some]
    refine ⟨fun hj => ?_, fun hj => absurd rfl hj.2⟩
    exact absurd ((h j).1 hj.1) hempty

/-- A section of `pipewrite` strands a reader exactly if it fails after it has filled the
pipe. -/
theorem noStranded_runWrite (hc : Calls s) (h : NoStranded s) (bs : List UInt8) (kl : Killing) :
    NoStranded (s.runWrite i bs kl) ↔
      (s.sees i kl = true → PIPESIZE < bs.length → NoReader s) := by
  obtain ⟨l, hl⟩ := hc.contents
  obtain ⟨hm, hh, hro, hwo⟩ := store_spec hl bs
  have hle := hl.length_le
  -- Who sleeps on a full pipe still does, since nothing was stored.
  have hwriters : ∀ j, s.chan j = some .nwrite →
      (store s.pipe bs).1.toRingBuffer.Full ∧ (store s.pipe bs).1.readopen = true := by
    intro j hj
    obtain ⟨hfull, hopen⟩ := (h j).2 hj
    have hlen := (hl.full_iff PIPESIZE_lt).mp hfull
    refine ⟨(hh.full_iff PIPESIZE_lt).mpr ?_, hro.trans hopen⟩
    simp only [List.length_append, List.length_take]
    omega
  -- If a reader sleeps, the pipe is empty and there is room for `PIPESIZE` bytes.
  have hreaders : ∀ j, s.chan j = some .nread →
      l = [] ∧ (store s.pipe bs).2 = min bs.length PIPESIZE := by
    intro j hj
    have hnil := (hl.empty_iff PIPESIZE_lt).mp ((h j).1 hj).1
    simpa [hnil] using hm
  unfold State.runWrite pipewrite
  dsimp only
  split_ifs with hall hfail
  · refine iff_of_true (fun j => ?_) fun _ hlong j hj => ?_
    · simp only [wakeup_eq_some]
      exact ⟨fun hj => absurd rfl hj.2, fun hj => hwriters j hj.1⟩
    · have := (hreaders j hj).2
      omega
  · constructor
    · intro h' _ _ j hj
      have hempty := (hh.empty_iff PIPESIZE_lt).mp ((h' j).1 hj).1
      have hlen := congrArg List.length hempty
      have := (hreaders j hj).2
      simp only [List.length_append, List.length_take, List.length_nil] at hlen
      have hpos : 0 < PIPESIZE := by decide
      omega
    · intro hnone
      have hno : NoReader s := by
        intro j hj
        obtain ⟨call, hcall, hchan⟩ := hc.call j _ hj
        have hopen := hc.readopen j call hcall hchan
        have := (hreaders j hj).2
        refine hnone ?_ (by omega) j hj
        simpa [hro, hopen] using hfail
      exact fun j => ⟨fun hj => absurd hj (hno j), fun hj => hwriters j hj⟩
  · refine iff_of_true (fun j => ?_) fun hk => absurd (.inr hk) hfail
    by_cases hji : j = i
    · have hfull : (store s.pipe bs).1.toRingBuffer.Full := by
        rw [hh.full_iff PIPESIZE_lt]
        simp only [List.length_append, List.length_take]
        omega
      have hopen : (store s.pipe bs).1.readopen = true := by simpa using fun ho => hfail (.inl ho)
      simp only [hji, update_self]
      exact ⟨fun hj => absurd hj (by simp), fun _ => ⟨hfull, hopen⟩⟩
    · simp only [update_of_ne hji, wakeup_eq_some]
      exact ⟨fun hj => absurd rfl hj.2, fun hj => hwriters j hj.1⟩

/-- **One step** from a state in which nobody is stranded. -/
theorem noStranded_step_iff {a : Action k} (hc : Calls s) (h : NoStranded s)
    (hs : step s a = some s') : NoStranded s' ↔ WakesReaders s a := by
  cases step_cases hs with
  | read i n kl _ _ => exact iff_of_true (h.runRead n kl) (by simp [WakesReaders, writing])
  | write i bs kl _ _ =>
    rw [noStranded_runWrite hc h]
    simp [WakesReaders, writing]
  | resumeRead i n kl _ hcall =>
    exact iff_of_true (h.runRead n kl) (by simp [WakesReaders, writing, hcall])
  | resumeWrite i bs kl _ hcall =>
    rw [noStranded_runWrite hc h]
    simp [WakesReaders, writing, hcall]
  | closeWrite _ =>
    refine iff_of_true (fun j => ?_) (by simp [WakesReaders, writing])
    simp only [State.close, if_true, wakeup_eq_some]
    exact ⟨fun hj => absurd rfl hj.2, fun hj => (h j).2 hj.1⟩
  | closeRead _ =>
    refine iff_of_true (fun j => ?_) (by simp [WakesReaders, writing])
    simp only [State.close, Bool.false_eq_true, if_false, wakeup_eq_some]
    exact ⟨fun hj => (h j).1 hj.1, fun hj => absurd rfl hj.2⟩
  | kill i =>
    refine iff_of_true (fun j => ?_) (by simp [WakesReaders, writing])
    by_cases hji : j = i
    · simp [State.kill, hji]
    · simpa [State.kill, hji] using h j

/-- **No stranded pipe sleepers.**  For any number of readers and writers and any interleaving,
in a run who sleeps on a pipe always sleeps for a reason exactly if no writer finds itself
killed at a full pipe after it stored bytes in it while a reader slept. -/
theorem pipe_sleepers (k : ℕ) (data : Fin PIPESIZE → UInt8) (xs : List (Action k)) (s : State k)
    (hrun : exec step (init k data) xs = some s) :
    Throughout step NoStranded (init k data) xs ↔ Along step WakesReaders (init k data) xs :=
  throughout_iff_along (fun _ _ _ h _ hs => h.step hs)
    (fun _ _ _ hc _ h hs => noStranded_step_iff hc h hs) (calls_init k data)
    (fun _ => ⟨fun h => by simp [init] at h, fun h => by simp [init] at h⟩) along_true hrun

/-- One of two processes. -/
def reader : Fin 2 := ⟨0, Nat.two_pos⟩

/-- The other one. -/
def writer : Fin 2 := ⟨1, Nat.one_lt_two⟩

/-- A reader sleeps, a writer writes two bytes, the reader gets them. -/
def echo : List (Action 2) :=
  [.read reader 2 .no, .write writer [104, 105] .no, .resume reader .no]

theorem pipe_sleepers_echo :
    (∃ s, exec step (init 2 fun _ => 0) echo = some s ∧ s.read = [104, 105]) ∧
      Throughout step NoStranded (init 2 fun _ => 0) echo := by
  have h : (exec step (init 2 fun _ => 0) echo).any (fun s => s.read = [104, 105]) = true := by
    decide +kernel
  obtain ⟨s, hs, hread⟩ := (Option.any_eq_true _ _).mp h
  refine ⟨⟨s, hs, of_decide_eq_true hread⟩, (pipe_sleepers 2 _ echo s hs).mpr ?_⟩
  decide +kernel

/-- A reader sleeps on the empty pipe.  A writer of 513 bytes is killed while it stores them. -/
def killedWriter : List (Action 2) :=
  [.read reader 1 .no, .write writer (List.replicate 513 0) .early]

/-- The writer has filled the pipe and returned -1; the write end is open, and the reader still
sleeps on the full pipe. -/
theorem reader_stranded :
    ∃ s, exec step (init 2 fun _ => 0) killedWriter = some s ∧ s.call writer = none ∧
      s.chan reader = some .nread ∧ s.pipe.toRingBuffer.Full ∧ s.pipe.writeopen = true ∧
      ¬ NoStranded s := by
  have h : (exec step (init 2 fun _ => 0) killedWriter).any (fun s =>
      (s.call writer).isNone ∧ s.chan reader = some .nread ∧ s.pipe.toRingBuffer.Full ∧
        s.pipe.writeopen = true ∧ ¬ s.pipe.toRingBuffer.Empty) = true := by
    decide +kernel
  obtain ⟨s, hs, h⟩ := (Option.any_eq_true _ _).mp h
  obtain ⟨hcall, hchan, hfull, hopen, hempty⟩ := of_decide_eq_true h
  refine ⟨s, hs, by simpa using hcall, hchan, hfull, hopen, fun hno => ?_⟩
  exact hempty ((hno reader).1 hchan).1

end Xv6.Pipes
